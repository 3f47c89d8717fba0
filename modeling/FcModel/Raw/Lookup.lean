import FcModel.Io.Json.Parse
import FcModel.Lib.Run
import FcModel.Raw.Codec.RoundTrip
import FcModel.Variant.Object

-- Looking up keys in a variant, and in what is unpacked from its bytes.

namespace Raw

open MutableVariantObject

-- A key of an object, or an index of an array.
inductive Step
  | key (k : Bytes)
  | index (i : Nat)

section Lookup

variable (find : List Entry → Bytes → Option Variant)

-- Where a path leads that starts at the variant, with the function that looks a key up.
def follow : List Step → Variant → Option Variant
  | [], v                     => some v
  | .key k :: p, .object es   => (find es k).bind (follow p)
  | .index i :: p, .array vs  => vs[i]?.bind (follow p)
  | _, _                      => none

end Lookup

-- What can be seen of a variant without looking into it.
def shape : Variant → Variant
  | .array vs => .array (vs.map fun _ => .null)
  | .object _ => .object []
  | v         => v

-- Every path leads to the same value in both variants.
def SameLookups (v w : Variant) : Prop :=
  ∀ p, (follow VariantObject.find p v).map shape = (follow VariantObject.find p w).map shape

-- The last entry that `set` takes for one with the key, if there is an entry with the key.
def findLast {α : Type} (es : List (Bytes × α)) (key : Bytes) : Option α :=
  if cStr key ∈ es.map Prod.fst then (es.reverse.find? fun e => cStr e.1 = cStr key).map Prod.snd else none

section Find

variable {α β : Type} {es : List (Bytes × α)} {key k : Bytes} {v : α}

theorem setAll_append (es : List (Bytes × α)) (e : Bytes × α) :
    setAll (es ++ [e]) = set (setAll es) e.1 e.2 := by
  simp [setAll]

theorem mem_keys_setAll : cStr k ∈ (setAll es).map Prod.fst ↔ cStr k ∈ es.map Prod.fst := by
  induction es using List.reverseRecOn
  case nil => rfl
  case append_singleton es e hi => simp [setAll_append, mem_keys_set, hi, eq_comm]

-- Where entries are set one after the other, the last one counts.
theorem find_setAll : VariantObject.find (setAll es) k = findLast es k := by
  induction es using List.reverseRecOn
  case nil => rfl
  case append_singleton es e hi =>
    rw [setAll_append]
    by_cases he : cStr e.1 = cStr k
    case pos =>
      have hmem : cStr k ∈ (es ++ [e]).map Prod.fst ↔ cStr k ∈ (setAll es).map Prod.fst ∨ e.1 = cStr k := by
        rw [mem_keys_setAll, List.map_append, List.mem_append, List.map_singleton,
          List.mem_singleton, eq_comm (b := e.1)]
      rw [find_set_of_eq he, findLast, if_congr hmem rfl rfl]
      simp [he]
    case neg =>
      have hmem : cStr k ∈ (es ++ [e]).map Prod.fst ↔ cStr k ∈ es.map Prod.fst := by
        have hne : cStr k ≠ e.1 := fun h => he (eq_cStr h.symm)
        rw [List.map_append, List.mem_append, List.map_singleton, List.mem_singleton]
        exact or_iff_left hne
      rw [find_set_of_ne he, hi, findLast, findLast, if_congr hmem rfl rfl]
      simp [he]

theorem findLast_map (f : α → β) :
    findLast (es.map fun e => (e.1, f e.2)) k = (findLast es k).map f := by
  rw [findLast, findLast, List.map_map, ← List.map_reverse, List.find?_map]
  split
  case isTrue h  => rw [if_pos (by simpa using h)]; simp [Option.map_map, Function.comp_def]
  case isFalse h => rw [if_neg (by simpa using h)]; rfl

end Find

section Paths

theorem shape_rebuilt (v : Variant) : shape (rebuilt v) = shape v := by
  cases v
  case array vs => simp [rebuilt, rebuiltElements_eq, shape, Function.comp_def]
  all_goals rfl

-- A path leads in what is decoded where it leads in the variant if the last of the entries with a
-- key is taken.
theorem follow_rebuilt (p : List Step) (v : Variant) :
    follow VariantObject.find p (rebuilt v) = (follow findLast p v).map rebuilt := by
  induction p generalizing v
  case nil => rfl
  case cons s p hi =>
    cases s
    case key k =>
      cases v
      case object es =>
        rw [rebuilt, rebuiltValues_eq, follow, follow, find_setAll, findLast_map]
        cases findLast es k
        case none   => rfl
        case some v => exact hi v
      all_goals rfl
    case index i =>
      cases v
      case array vs =>
        rw [rebuilt, rebuiltElements_eq, follow, follow, List.getElem?_map]
        cases vs[i]?
        case none   => rfl
        case some v => exact hi v
      all_goals rfl

-- Every path leads to the same value whether the first or the last of the entries with a key is
-- taken.
def FirstIsLast (v : Variant) : Prop :=
  ∀ p, (follow VariantObject.find p v).map shape = (follow findLast p v).map shape

theorem sameLookups_rebuilt_iff (v : Variant) : SameLookups v (rebuilt v) ↔ FirstIsLast v := by
  have hp (p : List Step) : (follow VariantObject.find p (rebuilt v)).map shape = (follow findLast p v).map shape := by
    rw [follow_rebuilt, Option.map_map]
    exact Option.map_congr fun w _ => shape_rebuilt w
  constructor
  case mp => exact fun h p => (h p).trans (hp p)
  case mpr => exact fun h p => (h p).trans (hp p).symm

theorem findLast_eq_find {es : List Entry} (hd : (es.map Prod.fst).Nodup) (h0 : ∀ e ∈ es, 0 ∉ e.1)
    (k : Bytes) :
    findLast es k = VariantObject.find es k := by
  rw [← find_setAll, setAll, foldl_set hd h0]

-- Where no key is written twice, and none has a NUL, there is only one entry to take.
theorem firstIsLast_of_distinct {v : Variant} (hd : Distinct v) : FirstIsLast v := by
  intro p
  have hrebuilt := follow_rebuilt p v
  rw [rebuilt_eq_self hd] at hrebuilt
  rw [hrebuilt, Option.map_map]
  exact Option.map_congr fun w _ => shape_rebuilt w

end Paths

section Statement

variable {α : Type}

-- What is unpacked from the bytes of `x`, if it can be packed, answers every lookup as `x` does.
def LookupsAgree (c : Codec α) (toVariant : α → Variant) (x : α) : Prop :=
  ∀ b, packVector [⟨α, c, x⟩] = .ok b →
    ∃ y ds, unpackFrom c c.fresh b = .ok y ds ∧ SameLookups (toVariant x) (toVariant y)

def Packable (c : Codec α) (x : α) : Prop :=
  ∃ b, packVector [⟨α, c, x⟩] = .ok b

theorem lookupsAgree_iff_of_reads {c : Codec α} {toVariant : α → Variant} {x y : α}
    (hr : Reads (fun g => unpack g c c.fresh) (pack c x) y)
    (hy : toVariant y = rebuilt (toVariant x)) :
    LookupsAgree c toVariant x ↔ (Packable c x → FirstIsLast (toVariant x)) := by
  have hunpack {b : Bytes} (hb : packVector [⟨α, c, x⟩] = .ok b) : ∃ ds, unpackFrom c c.fresh b = .ok y ds := by
    rw [packVector_singleton] at hb
    obtain ⟨ds, hds, -⟩ := unpackFrom_of_reads hr hb []
    rw [List.append_nil] at hds
    exact ⟨ds, hds⟩
  constructor
  case mp =>
    rintro h ⟨b, hb⟩
    obtain ⟨y', ds', hy', hsame⟩ := h b hb
    obtain ⟨ds, hds⟩ := hunpack hb
    rw [hds] at hy'
    cases hy'
    rw [hy] at hsame
    exact (sameLookups_rebuilt_iff _).mp hsame
  case mpr =>
    intro h b hb
    obtain ⟨ds, hds⟩ := hunpack hb
    refine ⟨y, ds, hds, ?_⟩
    rw [hy]
    exact (sameLookups_rebuilt_iff _).mpr (h ⟨b, hb⟩)

-- A value of the parser, packed as a variant, and packed as an object if it is one.
theorem lookupsAgree_iff (L : LexicalCast) (s : Bytes) (ptype : Json.ParseType) (maxDepth : UInt32)
    (v : Variant)
    (_h : ∃ u, Json.fromString L s ptype maxDepth = .ok v u) (hs : Sized v) :
    (LookupsAgree .fcVariant id v ↔ (Packable .fcVariant v → FirstIsLast v)) ∧
      ∀ es, v = .object es →
        (LookupsAgree .variantObject .object es ↔ (Packable .variantObject es → FirstIsLast (.object es))) := by
  constructor
  case left =>
    have hr : Reads (fun g => unpack g .fcVariant Codec.fcVariant.fresh) (pack .fcVariant v) (rebuilt v) := by
      have hread := reads_rebuilt v .null hs
      rwa [mergeVariant_null] at hread
    exact lookupsAgree_iff_of_reads hr rfl
  case right =>
    rintro es rfl
    obtain ⟨hl, hse⟩ := Variant.objects_object.mp hs
    have hvalues : ∀ e ∈ es, Reads (fun g => unpackVariant g .null) (packVariant e.2) (rebuilt e.2) := by
      intro e he
      have hread := reads_rebuilt e.2 .null (hse e he)
      rwa [mergeVariant_null] at hread
    have hr : Reads (fun g => unpack g .variantObject Codec.variantObject.fresh) (pack .variantObject es)
        (setAll (es.map fun e => (e.1, rebuilt e.2))) :=
      reads_setAll hl hvalues
    refine lookupsAgree_iff_of_reads hr ?_
    rw [rebuilt, rebuiltValues_eq]

def textOf (members : String) : Bytes :=
  Ascii.openBrace :: (ascii members ++ [Ascii.closeBrace])

theorem lookupsAgree_iff_single :
    (LookupsAgree .fcVariant id (.object [(ascii "a", .uint64 1)]) ↔
      (Packable .fcVariant (.object [(ascii "a", .uint64 1)]) → FirstIsLast (.object [(ascii "a", .uint64 1)]))) ∧
    ∀ es, Variant.object [(ascii "a", .uint64 1)] = .object es →
      (LookupsAgree .variantObject .object es ↔ (Packable .variantObject es → FirstIsLast (.object es))) :=
  lookupsAgree_iff .decimal (textOf "\"a\":1") .legacyParser 200 (.object [(ascii "a", .uint64 1)])
    ⟨⟨[], false⟩, by decide +kernel⟩ (by simp [Sized, Variant.Objects, Variant.Values])

-- A key that is written twice.
theorem not_lookupsAgree_twice :
    (∃ u, Json.fromString .decimal (textOf "\"a\":1,\"a\":2") .legacyParser 200 =
      .ok (.object [(ascii "a", .uint64 1), (ascii "a", .uint64 2)]) u) ∧
    ¬LookupsAgree .variantObject .object [(ascii "a", .uint64 1), (ascii "a", .uint64 2)] := by
  refine ⟨⟨⟨[], false⟩, by decide +kernel⟩, fun h => ?_⟩
  obtain ⟨y, ds, hy, hsame⟩ := h [2, 1, 0x61, 2, 1, 0, 0, 0, 0, 0, 0, 0, 1, 0x61, 2, 2, 0, 0, 0, 0, 0, 0, 0] (by decide +kernel)
  have hunpack : unpackFrom .variantObject Codec.variantObject.fresh
      [2, 1, 0x61, 2, 1, 0, 0, 0, 0, 0, 0, 0, 1, 0x61, 2, 2, 0, 0, 0, 0, 0, 0, 0] =
        .ok [(ascii "a", .uint64 2)] ⟨[2, 1, 0x61, 2, 1, 0, 0, 0, 0, 0, 0, 0, 1, 0x61, 2, 2, 0, 0, 0, 0, 0, 0, 0], 23⟩ := by
    decide +kernel
  rw [hunpack] at hy
  cases hy
  exact absurd (hsame [.key (ascii "a")]) (by decide +kernel)

end Statement

end Raw
