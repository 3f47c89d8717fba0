import Mathlib

-- `fc::variant` and the objects it holds. Strings are byte strings.

abbrev Bytes := List UInt8

-- The entries of an object are kept in a vector, in the order of their insertion.
inductive Variant
  | null
  | int64 (v : Int64)
  | uint64 (v : UInt64)
  | double (bits : UInt64)
  | bool (b : Bool)
  | string (s : Bytes)
  | array (vs : List Variant)
  | object (es : List (Bytes × Variant))
  | blob (data : Bytes)

namespace Variant

-- `variant::get_type`.
def getType : Variant → UInt8
  | null     => 0
  | int64 _  => 1
  | uint64 _ => 2
  | double _ => 3
  | bool _   => 4
  | string _ => 5
  | array _  => 6
  | object _ => 7
  | blob _   => 8

@[elab_as_elim]
theorem induct {P : Variant → Prop} (null : P .null) (int64 : ∀ v, P (.int64 v))
    (uint64 : ∀ v, P (.uint64 v)) (double : ∀ v, P (.double v)) (bool : ∀ v, P (.bool v))
    (string : ∀ v, P (.string v)) (array : ∀ vs, (∀ v ∈ vs, P v) → P (.array vs))
    (object : ∀ es, (∀ e ∈ es, P e.2) → P (.object es)) (blob : ∀ v, P (.blob v)) (v : Variant) :
    P v :=
  @Variant.rec P (fun vs => ∀ v ∈ vs, P v) (fun es => ∀ e ∈ es, P e.2) (fun e => P e.2)
    null int64 uint64 double bool string array object blob
    nofun (fun _ _ hv hvs => List.forall_mem_cons.mpr ⟨hv, hvs⟩)
    nofun (fun _ _ he hes => List.forall_mem_cons.mpr ⟨he, hes⟩)
    (fun _ _ h => h) v

mutual

def beq : Variant → Variant → Bool
  | null, null           => true
  | int64 v, int64 w     => v = w
  | uint64 v, uint64 w   => v = w
  | double v, double w   => v = w
  | bool v, bool w       => v = w
  | string v, string w   => v = w
  | array vs, array ws   => beqElements vs ws
  | object es, object fs => beqEntries es fs
  | blob v, blob w       => v = w
  | _, _                 => false

def beqElements : List Variant → List Variant → Bool
  | [], []           => true
  | v :: vs, w :: ws => beq v w && beqElements vs ws
  | _, _             => false

def beqEntries : List (Bytes × Variant) → List (Bytes × Variant) → Bool
  | [], []                     => true
  | (k, v) :: es, (l, w) :: fs => k = l && beq v w && beqEntries es fs
  | _, _                       => false

end

theorem beqElements_iff {vs ws : List Variant} (h : ∀ v ∈ vs, ∀ w, beq v w = true ↔ v = w) :
    beqElements vs ws = true ↔ vs = ws := by
  induction vs generalizing ws
  case nil => cases ws <;> simp [beqElements]
  case cons v vs hi =>
    cases ws
    case nil        => simp [beqElements]
    case cons w ws  =>
      have ⟨hv, hvs⟩ := List.forall_mem_cons.mp h
      simp [beqElements, hv w, hi hvs]

theorem beqEntries_iff {es fs : List (Bytes × Variant)}
    (h : ∀ e ∈ es, ∀ w, beq e.2 w = true ↔ e.2 = w) :
    beqEntries es fs = true ↔ es = fs := by
  induction es generalizing fs
  case nil => cases fs <;> simp [beqEntries]
  case cons e es hi =>
    cases fs
    case nil        => simp [beqEntries]
    case cons f fs  =>
      have ⟨he, hes⟩ := List.forall_mem_cons.mp h
      simp [beqEntries, he f.2, hi hes, Prod.ext_iff]

theorem beq_iff (v w : Variant) : beq v w = true ↔ v = w := by
  induction v using Variant.induct generalizing w
  case array vs h  => cases w <;> simp [beq, beqElements_iff h]
  case object es h => cases w <;> simp [beq, beqEntries_iff h]
  all_goals cases w <;> simp [beq]

instance : DecidableEq Variant :=
  fun v w => decidable_of_iff _ (beq_iff v w)

mutual

-- All the objects in a variant satisfy `P`.
def Objects (P : List (Bytes × Variant) → Prop) : Variant → Prop
  | array vs  => Elements P vs
  | object es => P es ∧ Values P es
  | _         => True

def Elements (P : List (Bytes × Variant) → Prop) : List Variant → Prop
  | []      => True
  | v :: vs => Objects P v ∧ Elements P vs

def Values (P : List (Bytes × Variant) → Prop) : List (Bytes × Variant) → Prop
  | []           => True
  | (_, v) :: es => Objects P v ∧ Values P es

end

variable {P : List (Bytes × Variant) → Prop}

@[simp]
theorem objects_array {vs : List Variant} : Objects P (array vs) ↔ ∀ v ∈ vs, Objects P v := by
  rw [Objects]
  induction vs
  case nil            => simp [Elements]
  case cons v vs hi   => simp [Elements, hi]

@[simp]
theorem objects_object {es : List (Bytes × Variant)} :
    Objects P (object es) ↔ P es ∧ ∀ e ∈ es, Objects P e.2 := by
  have : Values P es ↔ ∀ e ∈ es, Objects P e.2 := by
    induction es
    case nil          => simp [Values]
    case cons e es hi => simp only [Values, hi, List.forall_mem_cons]
  rw [Objects, this]

mutual

-- The largest number of arrays and objects that a value of the variant lies in.
def nesting : Variant → Nat
  | array vs  => nestingElements vs
  | object es => nestingEntries es
  | _         => 0

def nestingElements : List Variant → Nat
  | []      => 0
  | v :: vs => max (nesting v + 1) (nestingElements vs)

def nestingEntries : List (Bytes × Variant) → Nat
  | []           => 0
  | (_, v) :: es => max (nesting v + 1) (nestingEntries es)

end

theorem nesting_array_le {vs : List Variant} {n : Nat} : nesting (array vs) ≤ n ↔ ∀ v ∈ vs,
    nesting v < n := by
  rw [nesting]
  induction vs
  case nil          => simp [nestingElements]
  case cons v vs hi => simp [nestingElements, hi]

theorem nesting_object_le {es : List (Bytes × Variant)} {n : Nat} :
    nesting (object es) ≤ n ↔ ∀ e ∈ es, nesting e.2 < n := by
  rw [nesting]
  induction es
  case nil          => simp [nestingEntries]
  case cons e es hi => simp only [nestingEntries, sup_le_iff, hi, List.forall_mem_cons, Nat.succ_le_iff]

section Map

variable {f : Variant → Variant}

theorem nesting_array_map {vs : List Variant} (h : ∀ v ∈ vs, nesting (f v) = nesting v) :
    nesting (array (vs.map f)) = nesting (array vs) := by
  refine eq_of_forall_ge_iff fun n => ?_
  simp only [nesting_array_le, List.forall_mem_map]
  exact forall₂_congr fun v hv => by rw [h v hv]

theorem nesting_object_map {es : List (Bytes × Variant)}
    (h : ∀ e ∈ es, nesting (f e.2) = nesting e.2) :
    nesting (object (es.map fun e => (e.1, f e.2))) = nesting (object es) := by
  refine eq_of_forall_ge_iff fun n => ?_
  simp only [nesting_object_le, List.forall_mem_map]
  exact forall₂_congr fun e he => by rw [h e he]

end Map

end Variant

namespace MutableVariantObject

abbrev Entry := Bytes × Variant

-- What a C string function sees of a string: the bytes before the first NUL.
def cStr (key : Bytes) : Bytes :=
  key.takeWhile (· ≠ 0)

variable {α : Type}

-- Replaces the value of the first entry whose key is the C string of `key`, or appends an entry.
def set (es : List (Bytes × α)) (key : Bytes) (var : α) : List (Bytes × α) :=
  match es with
  | []           => [(key, var)]
  | (k, v) :: es => if k = cStr key then (k, var) :: es else (k, v) :: set es key var

-- The object that is built from entries by setting them one after the other.
def setAll {α : Type} (es : List (Bytes × α)) : List (Bytes × α) :=
  es.foldl (fun es e => set es e.1 e.2) []

theorem cStr_eq_self {key : Bytes} (h : 0 ∉ key) : cStr key = key := by
  rw [cStr, List.takeWhile_eq_self_iff]
  intro b hb
  have : b ≠ 0 := fun he => h (he ▸ hb)
  simpa using this

theorem set_of_not_mem {es : List Entry} {key : Bytes} {var : Variant}
    (h : cStr key ∉ es.map Prod.fst) :
    set es key var = es ++ [(key, var)] := by
  induction es
  case nil => rfl
  case cons e es hi =>
    rw [List.map_cons, List.mem_cons, not_or] at h
    rw [set, if_neg (Ne.symm h.left), hi h.right, List.cons_append]

-- Setting the entries of an object one after the other gives back the object if no key is looked up
-- as another one is.
theorem foldl_set {es : List Entry} (hd : (es.map Prod.fst).Nodup) (h0 : ∀ e ∈ es, 0 ∉ e.1) :
    es.foldl (fun es e => set es e.1 e.2) [] = es := by
  suffices ∀ acc, ((acc ++ es).map Prod.fst).Nodup →
      es.foldl (fun es e => set es e.1 e.2) acc = acc ++ es from this [] hd
  clear hd
  induction es
  case nil => simp
  case cons e es hi =>
    intro acc hn
    have hnot : cStr e.1 ∉ acc.map Prod.fst := by
      rw [cStr_eq_self (h0 e (List.mem_cons_self ..))]
      rw [List.map_append, List.map_cons, List.nodup_append] at hn
      exact fun hm => hn.2.2 _ hm _ (List.mem_cons_self ..) rfl
    rw [List.foldl_cons, set_of_not_mem hnot,
      hi (fun e he => h0 e (List.mem_cons_of_mem _ he)) _ (by rwa [List.append_assoc]),
      List.append_assoc]
    rfl

theorem mem_set {es : List (Bytes × α)} {key : Bytes} {var : α} {e : Bytes × α}
    (h : e ∈ set es key var) :
    e ∈ es ∨ e.2 = var := by
  induction es
  case nil =>
    rw [set, List.mem_singleton] at h
    exact .inr (by rw [h])
  case cons e' es hi =>
    rw [set] at h
    split at h <;> rw [List.mem_cons] at h
    case isTrue =>
      cases h
      case inl h => exact .inr (by rw [h])
      case inr h => exact .inl (List.mem_cons_of_mem _ h)
    case isFalse =>
      cases h
      case inl h => exact .inl (by rw [h]; exact List.mem_cons_self ..)
      case inr h => exact (hi h).imp (List.mem_cons_of_mem _) id

theorem length_set_le (es : List Entry) (key : Bytes) (var : Variant) :
    (set es key var).length ≤ es.length + 1 := by
  induction es
  case nil          => exact Nat.le_refl _
  case cons e es hi =>
    rw [set]
    split
    case isTrue   => simp
    case isFalse  => simpa using hi

end MutableVariantObject
