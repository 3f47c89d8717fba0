import FcModel.Variant.Basic

-- The operations on the entries of objects. What the values are makes no difference to them.

namespace VariantObject

open MutableVariantObject

variable {α β : Type}

-- The first entry whose key is the C string of `key`.
def find (es : List (Bytes × α)) (key : Bytes) : Option α :=
  (es.find? fun e => e.1 = cStr key).map Prod.snd

end VariantObject

namespace MutableVariantObject

variable {α β : Type} {R : α → β → Prop} {es : List (Bytes × α)} {fs : List (Bytes × β)}
    {key : Bytes}

-- Erases the first entry with the key. Here the strings are compared as they are.
def erase (es : List (Bytes × α)) (key : Bytes) : List (Bytes × α) :=
  es.eraseP fun e => e.1 = key

-- An assignment to what `operator[]` returns. A new entry has the C string as its key.
def assignAt (es : List (Bytes × α)) (key : Bytes) (var : α) : List (Bytes × α) :=
  set es (cStr key) var

-- `operator()` with another object.
def merge (es fs : List (Bytes × α)) : List (Bytes × α) :=
  fs.foldl (fun es e => set es e.1 e.2) es

-- Two entries with one key, of which the values are related by `R`.
inductive EntryRel (R : α → β → Prop) : Bytes × α → Bytes × β → Prop
  | intro {k : Bytes} {a : α} {b : β} (h : R a b) : EntryRel R (k, a) (k, b)

variable {a : α} {b : β}

theorem forall₂_set (h : List.Forall₂ (EntryRel R) es fs) (hab : R a b) :
    List.Forall₂ (EntryRel R) (set es key a) (set fs key b) := by
  induction h
  case nil => exact .cons (.intro hab) .nil
  case cons hef h hi =>
    have .intro hef := hef
    simp only [set]
    split
    case isTrue   => exact .cons (.intro hab) h
    case isFalse  => exact .cons (.intro hef) hi

theorem forall₂_erase (h : List.Forall₂ (EntryRel R) es fs) :
    List.Forall₂ (EntryRel R) (erase es key) (erase fs key) := by
  induction h
  case nil => exact .nil
  case cons hef h hi =>
    cases hef
    case intro k a b hab =>
      simp only [erase, List.eraseP_cons]
      by_cases hk : k = key
      case pos =>
        simp only [hk, decide_true, cond_true]
        exact h
      case neg =>
        simp only [hk, decide_false, cond_false]
        exact .cons (.intro hab) hi

theorem forall₂_merge {es' : List (Bytes × α)} {fs' : List (Bytes × β)}
    (h : List.Forall₂ (EntryRel R) es fs)
    (h' : List.Forall₂ (EntryRel R) es' fs') :
    List.Forall₂ (EntryRel R) (merge es es') (merge fs fs') := by
  induction h' generalizing es fs
  case nil => exact h
  case cons hef h' hi =>
    have .intro hef := hef
    exact hi (forall₂_set h hef)

theorem forall₂_find (h : List.Forall₂ (EntryRel R) es fs) :
    Option.Rel R (VariantObject.find es key) (VariantObject.find fs key) := by
  induction h
  case nil => exact .none
  case cons hef h hi =>
    cases hef
    case intro k a b hab =>
      simp only [VariantObject.find, List.find?_cons] at hi ⊢
      by_cases hk : k = cStr key
      case pos =>
        simp only [hk, decide_true]
        exact .some hab
      case neg =>
        simp only [hk, decide_false]
        exact hi

section Find

open VariantObject

variable {k : Bytes} {v : α}

theorem zero_not_mem_cStr (k : Bytes) : 0 ∉ cStr k := by
  intro h
  have := List.mem_takeWhile_imp h
  simp at this

theorem cStr_cStr (k : Bytes) : cStr (cStr k) = cStr k :=
  cStr_eq_self (zero_not_mem_cStr k)

theorem eq_cStr (h : key = cStr k) : cStr key = cStr k := by
  rw [h, cStr_cStr]

theorem mem_keys_set : cStr k ∈ (set es key v).map Prod.fst ↔ cStr k ∈ es.map Prod.fst ∨
    key = cStr k := by
  induction es
  case nil => simp [set, eq_comm]
  case cons e es hi =>
    rw [set]
    split
    case isTrue h =>
      simp only [List.map_cons, List.mem_cons]
      constructor
      case mp => exact .inl
      case mpr =>
        rintro (hm | hk)
        case inl => exact hm
        case inr => exact .inl (by rw [h, eq_cStr hk])
    case isFalse =>
      simp only [List.map_cons, List.mem_cons, hi, or_assoc]

theorem mem_set_of_cStr {e : Bytes × α} (hkey : cStr key = key) (he : e ∈ set es key v) :
    e ∈ es ∨ e = (key, v) := by
  induction es
  case nil => exact .inr (List.mem_singleton.mp he)
  case cons e' es hi =>
    rw [set] at he
    split at he <;> rw [List.mem_cons] at he
    case isTrue h =>
      refine he.symm.imp (List.mem_cons_of_mem _) fun he => ?_
      rw [he, h, hkey]
    case isFalse =>
      cases he
      case inl he => exact .inl (he ▸ List.mem_cons_self)
      case inr he => exact (hi he).imp_left (List.mem_cons_of_mem _)

theorem find_map (f : α → β) (es : List (Bytes × α)) :
    find (es.map fun e => (e.1, f e.2)) k = (find es k).map f := by
  rw [find, find, List.find?_map, Option.map_map, Option.map_map]
  rfl

theorem find_set_of_ne (h : cStr key ≠ cStr k) : find (set es key v) k = find es k := by
  have hkey : key ≠ cStr k := fun he => h (eq_cStr he)
  induction es
  case nil => simp [set, find, hkey]
  case cons e es hi =>
    rw [set]
    split
    case isTrue he =>
      have hne : e.1 ≠ cStr k := he ▸ h
      simp [find, hne]
    case isFalse =>
      by_cases hek : e.1 = cStr k
      case pos => simp [find, hek]
      case neg => simpa [find, hek] using hi

theorem find_set_of_eq (h : cStr key = cStr k) : find (set es key v) k =
    if cStr k ∈ es.map Prod.fst ∨ key = cStr k then some v else none := by
  induction es
  case nil =>
    by_cases hk : key = cStr k
    case pos => simp [set, find, hk]
    case neg => simp [set, find, hk]
  case cons e es hi =>
    rw [set]
    split
    case isTrue he => simp [find, he, h]
    case isFalse he =>
      have hne : e.1 ≠ cStr k := h ▸ he
      have hmem : cStr k ∈ (e :: es).map Prod.fst ↔ cStr k ∈ es.map Prod.fst := by simp [hne.symm]
      have hhead : find (e :: set es key v) k = find (set es key v) k := by
        simp [find, hne]
      rw [hhead, hi, if_congr (or_congr hmem Iff.rfl) rfl rfl]

end Find

end MutableVariantObject
