import FcModel.Variant.Object

-- `mutable_variant_object` as a dictionary. `find`, `operator[]` and `set` look a key up as a C
-- string, which ends at its first NUL, while `erase` compares the strings as they are.

namespace MutableVariantObject

open VariantObject

-- `operator[]` of an object that can be changed: the value it refers to, and the object afterwards.
def subscript (es : List Entry) (key : Bytes) : Variant × List Entry :=
  match find es key with
  | some v => (v, es)
  | none   => (.null, es ++ [(cStr key, .null)])

-- `operator()` with an object, or with the object itself, which is left as it is.
def call {α : Type} (es : List (Bytes × α)) : Option (List (Bytes × α)) → List (Bytes × α)
  | none    => es
  | some fs => merge es fs

section Keys

variable {α : Type} {es : List (Bytes × α)} {key k : Bytes} {v : α}

theorem keys_set : (set es key v).map Prod.fst =
    if cStr key ∈ es.map Prod.fst then es.map Prod.fst else es.map Prod.fst ++ [key] := by
  induction es
  case nil => simp [set]
  case cons e es hi =>
    rw [set]
    by_cases he : e.1 = cStr key
    case pos => simp [he]
    case neg =>
      have hmem : cStr key ∈ (e :: es).map Prod.fst ↔ cStr key ∈ es.map Prod.fst := by simp [Ne.symm he]
      rw [if_neg he, List.map_cons, hi, if_congr hmem rfl rfl, List.map_cons]
      split <;> rfl

theorem find_eq_none_iff : find es k = none ↔ cStr k ∉ es.map Prod.fst := by
  rw [find, Option.map_eq_none_iff, List.find?_eq_none, List.mem_map, not_exists]
  simp only [decide_eq_true_iff, not_and]

theorem keys_erase : (erase es key).map Prod.fst = (es.map Prod.fst).erase key := by
  induction es
  case nil => rfl
  case cons e es hi =>
    rw [erase] at hi ⊢
    by_cases he : e.1 = key
    case pos => simp [he]
    case neg => simp [he, hi]

theorem find_erase_of_ne (h : cStr k ≠ key) : find (erase es key) k = find es k := by
  induction es
  case nil => rfl
  case cons e es hi =>
    rw [erase] at hi ⊢
    by_cases he : e.1 = key
    case pos => simp [find, he, h.symm]
    case neg =>
      by_cases hek : e.1 = cStr k
      case pos => simp [find, hek, h]
      case neg => simpa [find, he, hek] using hi

-- Where the keys are distinct, an erased key is not found any more.
theorem find_erase_self (hd : (es.map Prod.fst).Nodup) (h : cStr k = key) :
    find (erase es key) k = none := by
  rw [find_eq_none_iff, keys_erase, h]
  exact hd.not_mem_erase

-- An entry of the object is set to what it has.
theorem set_of_mem {e : Bytes × α} (hd : (es.map Prod.fst).Nodup) (h0 : 0 ∉ e.1) (h : e ∈ es) :
    set es e.1 e.2 = es := by
  induction es
  case nil => cases h
  case cons e' es hi =>
    rw [List.map_cons, List.nodup_cons] at hd
    rw [set, cStr_eq_self h0]
    cases List.mem_cons.mp h
    case inl he => rw [if_pos (by rw [he]), he]
    case inr he =>
      have hne : e'.1 ≠ e.1 := fun hk => hd.1 (hk ▸ List.mem_map_of_mem he)
      rw [if_neg hne, hi hd.2 he]

theorem foldl_set_self {fs : List (Bytes × α)} (hd : (es.map Prod.fst).Nodup)
    (h0 : ∀ e ∈ fs, 0 ∉ e.1) (h : fs ⊆ es) :
    fs.foldl (fun es e => set es e.1 e.2) es = es := by
  induction fs
  case nil => rfl
  case cons e fs hi =>
    rw [List.cons_subset] at h
    rw [List.forall_mem_cons] at h0
    rw [List.foldl_cons, set_of_mem hd h0.1 h.1, hi h0.2 h.2]

end Keys

-- What one expects of a dictionary that has the entries `es`: of setting or erasing the key `k`, as
-- the keys `k` and `k₂` see it, and of merging.
structure DictionaryLaws (es : List Entry) (k k₂ : Bytes) (v : Variant) : Prop where
  findSet      : find (set es k v) k = some v
  subscriptSet : subscript (set es k v) k = (v, set es k v)
  otherSet     : k₂ ≠ k → find (set es k v) k₂ = find es k₂
  distinctSet  : ((set es k v).map Prod.fst).Nodup
  orderSet     : es.map Prod.fst <+: (set es k v).map Prod.fst
  findErase    : find (erase es k) k = none
  otherErase   : k₂ ≠ k → find (erase es k) k₂ = find es k₂
  merge        : ∀ other, call es (some other) = other.foldl (fun es e => set es e.1 e.2) es

section Laws

variable {es : List Entry} {k k₂ : Bytes} {v : Variant}

theorem cStr_eq_self_iff : cStr k = k ↔ 0 ∉ k :=
  ⟨fun h => h ▸ zero_not_mem_cStr k, cStr_eq_self⟩

theorem dictionaryLaws (hd : (es.map Prod.fst).Nodup) (h0 : 0 ∉ k) (h₂ : k₂ ≠ k → cStr k₂ ≠ k) :
    DictionaryLaws es k k₂ v := by
  have hk : cStr k = k := cStr_eq_self h0
  have hfind : find (set es k v) k = some v := by rw [find_set_of_eq rfl, if_pos (.inr hk.symm)]
  constructor
  case findSet      => exact hfind
  case subscriptSet => rw [subscript, hfind]
  case otherSet     => exact fun hne => find_set_of_ne (by rw [hk]; exact (h₂ hne).symm)
  case distinctSet  =>
    rw [keys_set, hk]
    split
    case isTrue    => exact hd
    case isFalse h => simpa using List.nodup_append_comm.mp (List.nodup_cons.mpr ⟨h, hd⟩)
  case orderSet =>
    rw [keys_set]
    split
    case isTrue  => exact List.prefix_rfl
    case isFalse => exact List.prefix_append ..
  case findErase  => exact find_erase_self hd hk
  case otherErase => exact fun hne => find_erase_of_ne (h₂ hne)
  case merge      => exact fun _ => rfl

-- A key with a NUL is not found where it was set, or is still found where it was erased.
theorem DictionaryLaws.not_mem_zero (h : DictionaryLaws es k k₂ v) : 0 ∉ k := by
  intro h0
  have hne : cStr k ≠ k := fun he => cStr_eq_self_iff.mp he h0
  have hset := h.findSet
  have herase := h.findErase
  rw [find_set_of_eq rfl] at hset
  rw [find_erase_of_ne hne, find_eq_none_iff] at herase
  rw [if_neg (by rw [not_or]; exact ⟨herase, hne.symm⟩)] at hset
  cases hset

-- Another key with the same C string sees what is set, or that it is erased.
theorem DictionaryLaws.cStr_ne (hd : (es.map Prod.fst).Nodup) (h : DictionaryLaws es k k₂ v)
    (hne : k₂ ≠ k) :
    cStr k₂ ≠ k := by
  intro hk
  by_cases hm : k ∈ es.map Prod.fst
  case pos =>
    have herase := h.otherErase hne
    rw [find_erase_self hd hk, eq_comm, find_eq_none_iff, hk] at herase
    exact herase hm
  case neg =>
    have hset := h.otherSet hne
    rw [find_set_of_eq (by rw [← hk, cStr_cStr]), if_pos (.inr hk.symm), eq_comm,
      find_eq_none_iff.mpr (hk ▸ hm)] at hset
    cases hset

-- The laws hold where the key has no NUL and is not what the other one has before its first NUL.
-- Merging with the object itself is no exception where its keys have no NUL.
theorem dictionaryLaws_iff (hd : (es.map Prod.fst).Nodup) :
    (DictionaryLaws es k k₂ v ↔ 0 ∉ k ∧ (k₂ ≠ k → cStr k₂ ≠ k)) ∧
    ((∀ e ∈ es, 0 ∉ e.1) → call es none = es.foldl (fun es e => set es e.1 e.2) es) := by
  refine ⟨⟨fun h => ⟨h.not_mem_zero, h.cStr_ne hd⟩, fun h => dictionaryLaws hd h.1 h.2⟩, fun h0 => ?_⟩
  exact (foldl_set_self hd h0 (List.Subset.refl es)).symm

theorem dictionaryLaws_iff_single : DictionaryLaws [([97], .null)] [97] [98] (.bool true) ↔
    0 ∉ ([97] : Bytes) ∧ (([98] : Bytes) ≠ [97] → cStr [98] ≠ [97]) :=
  (dictionaryLaws_iff (by decide)).1

-- What is set at "a\0b" is not found there.
theorem not_dictionaryLaws_nul : ¬DictionaryLaws [] [97, 0, 98] [99] (.bool true) := by
  intro h
  exact absurd h.findSet (by decide)

end Laws

end MutableVariantObject
