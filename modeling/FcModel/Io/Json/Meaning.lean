import FcModel.Io.Json.Dialects

-- What it means that a variant is what a text denotes.

namespace Json

mutual

-- The largest number of arrays and objects that a value lies in.
def Value.nesting : Value → Nat
  | .array vs  => nestingElements vs
  | .object ms => nestingMembers ms
  | _          => 0

def Value.nestingElements : List Value → Nat
  | []      => 0
  | v :: vs => max (nesting v + 1) (nestingElements vs)

def Value.nestingMembers : List (List Char × Value) → Nat
  | []           => 0
  | (_, v) :: ms => max (nesting v + 1) (nestingMembers ms)

end

theorem Value.nesting_array_le {vs : List Value} {n : Nat} : nesting (.array vs) ≤ n ↔ ∀ v ∈ vs,
    nesting v < n := by
  rw [nesting]
  induction vs
  case nil          => simp [nestingElements]
  case cons v vs hi => simp [nestingElements, hi]

theorem Value.nesting_object_le {ms : List (List Char × Value)} {n : Nat} :
    nesting (.object ms) ≤ n ↔ ∀ m ∈ ms, nesting m.2 < n := by
  rw [nesting]
  induction ms
  case nil          => simp [nestingMembers]
  case cons m ms hi => simp only [nestingMembers, sup_le_iff, hi, List.forall_mem_cons, Nat.succ_le_iff]

theorem Elements.le_length {α : Type} {f : α → Nat} {s : Bytes} {as : List α}
    (h : Elements (fun s a => f a ≤ s.length) s as) : ∀ a ∈ as, f a ≤ s.length := by
  induction h
  case nil => exact List.forall_mem_nil _
  case one h _ =>
    simp only [List.forall_mem_singleton, List.length_append]
    omega
  case cons h _ _ hi =>
    refine List.forall_mem_cons.mpr ⟨?_, fun a ha => (hi a ha).trans ?_⟩
    all_goals simp only [List.length_append]; omega

theorem Member.le_length {κ α : Type} {K : Bytes → κ → Prop} {f : α → Nat} {s : Bytes} {m : κ × α}
    (h : Member K (fun s a => f a ≤ s.length) s m) : f m.2 ≤ s.length := by
  have .intro _ _ _ h := h
  simp only [List.length_append]
  omega

-- Each array or object has a bracket of its own.
theorem Spells.nesting_le {d : Dialect} {s : Bytes} {x : Value} (h : Spells d s x) :
    x.nesting ≤ s.length := by
  induction h using Spells.induct
  case array s vs _ hi =>
    have hlen := (hi.imp fun _ _ h => h.2).le_length
    refine Value.nesting_array_le.mpr fun v hv => Nat.lt_of_le_of_lt (hlen v hv) ?_
    simp
  case object s ms _ hi =>
    have hlen := (hi.imp fun _ _ h => (h.imp fun _ _ h => h.2).le_length).le_length
    refine Value.nesting_object_le.mpr fun m hm => Nat.lt_of_le_of_lt (hlen m hm) ?_
    simp
  all_goals exact Nat.zero_le _

-- Two members of which the names are related by `K` and the values by `R`.
inductive Entries {κ κ' α β : Type} (K : κ → κ' → Prop) (R : α → β → Prop) : κ × α → κ' × β → Prop
  | intro {k : κ} {k' : κ'} {a : α} {b : β} (hk : K k k') (h : R a b) : Entries K R (k, a) (k', b)

-- The variant has the form of the value. `C` relates the strings of the two and `N` the numbers.
inductive Represents (C : Bytes → List Char → Prop) (N : Variant → Number → Prop) : Variant →
    Value → Prop
  | null : Represents C N .null .null
  | bool (b : Bool) : Represents C N (.bool b) (.bool b)
  | number {v : Variant} {n : Number} (h : N v n) : Represents C N v (.number n)
  | string {s : Bytes} {cs : List Char} (h : C s cs) : Represents C N (.string s) (.string cs)
  | array {vs : List Variant} {xs : List Value} (h : List.Forall₂ (Represents C N) vs xs) :
      Represents C N (.array vs) (.array xs)
  | object {es : List (Bytes × Variant)} {ms : List (List Char × Value)}
      (h : List.Forall₂ (Entries C (Represents C N)) es ms) : Represents C N (.object es) (.object ms)

section Represents

variable {C : Bytes → List Char → Prop} {N : Variant → Number → Prop} {v : Variant} {x : Value}

@[elab_as_elim]
theorem Represents.induct {motive : (v : Variant) → (x : Value) → Represents C N v x → Prop}
    (null : motive .null .null .null) (bool : ∀ b, motive (.bool b) (.bool b) (.bool b))
    (number : ∀ v n (h : N v n), motive v (.number n) (.number h))
    (string : ∀ s cs (h : C s cs), motive (.string s) (.string cs) (.string h))
    (array : ∀ vs xs (h : List.Forall₂ (Represents C N) vs xs), List.Forall₂ (fun v x => ∃ h, motive v x h) vs xs →
      motive (.array vs) (.array xs) (.array h))
    (object : ∀ es ms (h : List.Forall₂ (Entries C (Represents C N)) es ms),
      List.Forall₂ (Entries C fun v x => ∃ h, motive v x h) es ms →
      motive (.object es) (.object ms) (.object h))
    {v : Variant} {x : Value} (h : Represents C N v x) : motive v x h :=
  @Represents.rec C N motive (fun vs xs _ => List.Forall₂ (fun v x => ∃ h, motive v x h) vs xs)
    (fun es ms _ => List.Forall₂ (Entries C fun v x => ∃ h, motive v x h) es ms)
    (fun e m _ => Entries C (fun v x => ∃ h, motive v x h) e m)
    null bool (fun h => number _ _ h) (fun h => string _ _ h) (fun h hi => array _ _ h hi)
    (fun h hi => object _ _ h hi) .nil (fun h _ hi ht => .cons ⟨h, hi⟩ ht) .nil (fun _ _ hi ht => .cons hi ht)
    (fun hk h hi => .intro hk ⟨h, hi⟩) v x h

theorem Represents.nesting_eq (hN : ∀ v n, N v n → v.nesting = 0) (h : Represents C N v x) :
    v.nesting = x.nesting := by
  induction h using Represents.induct
  case number v n h => exact hN v n h
  case array vs xs h hi =>
    clear h
    simp only [Variant.nesting, Value.nesting]
    induction hi
    case nil          => rfl
    case cons h _ hi  => rw [Variant.nestingElements, Value.nestingElements, h.2, hi]
  case object es ms h hi =>
    clear h
    simp only [Variant.nesting, Value.nesting]
    induction hi
    case nil => rfl
    case cons h _ hi =>
      obtain ⟨_, h⟩ := h
      rw [Variant.nestingEntries, Value.nestingMembers, h.2, hi]
  all_goals rfl

end Represents

-- The integer that is written as the number, with either tag.
inductive IntegerOf : Variant → Number → Prop
  | int64 {v : Int64} {n : Number} (h : n.value = v.toInt) : IntegerOf (.int64 v) n
  | uint64 {v : UInt64} {n : Number} (h : n.value = v.toNat) : IntegerOf (.uint64 v) n

-- The standard value of a text: strings in UTF-8, integers, and members in the order of the text.
def Denotes : Variant → Value → Prop :=
  Represents (fun s cs => s = Utf8.encode cs) IntegerOf

end Json

namespace Variant

mutual

-- The variant without the difference between the tags of a non-negative integer.
def unsigned : Variant → Variant
  | int64 v   => if 0 ≤ v.toInt then uint64 (.ofNat v.toInt.toNat) else int64 v
  | array vs  => array (unsignedElements vs)
  | object es => object (unsignedEntries es)
  | v         => v

def unsignedElements : List Variant → List Variant
  | []      => []
  | v :: vs => unsigned v :: unsignedElements vs

def unsignedEntries : List (Bytes × Variant) → List (Bytes × Variant)
  | []           => []
  | (k, v) :: es => (k, unsigned v) :: unsignedEntries es

end

theorem unsigned_array (vs : List Variant) : unsigned (array vs) = array (vs.map unsigned) := by
  rw [unsigned]
  congr 1
  induction vs
  case nil          => rfl
  case cons v vs hi => rw [unsignedElements, hi, List.map_cons]

theorem unsigned_object (es : List (Bytes × Variant)) :
    unsigned (object es) = object (es.map fun e => (e.1, unsigned e.2)) := by
  rw [unsigned]
  congr 1
  induction es
  case nil          => rfl
  case cons e es hi => rw [unsignedEntries, hi, List.map_cons]

theorem nesting_unsigned (v : Variant) : v.unsigned.nesting = v.nesting := by
  induction v using Variant.induct
  case int64 i      => rw [unsigned]; split <;> rfl
  case array vs hi  => rw [unsigned_array, nesting_array_map hi]
  case object es hi => rw [unsigned_object, nesting_object_map hi]
  all_goals rfl

theorem unsigned_int64 {v : Int64} {w : UInt64} (h : v.toInt = w.toNat) :
    unsigned (int64 v) = uint64 w := by
  rw [unsigned, if_pos (by omega), h, Int.toNat_natCast, UInt64.ofNat_toNat]

end Variant

namespace Json

variable {v w : Variant} {x : Value} {n : Number}

theorem IntegerOf.unsigned_eq (h : IntegerOf v n) (h' : IntegerOf w n) :
    v.unsigned = w.unsigned := by
  cases h <;> cases h'
  case int64.int64 v h w h' =>
    have he : v.toInt = w.toInt := by exact_mod_cast h.symm.trans h'
    rw [Int64.toInt_inj.mp he]
  case int64.uint64 v h w h' =>
    have he : v.toInt = w.toNat := by exact_mod_cast h.symm.trans h'
    rw [Variant.unsigned_int64 he]
    rfl
  case uint64.int64 v h w h' =>
    have he : w.toInt = v.toNat := by exact_mod_cast h'.symm.trans h
    rw [Variant.unsigned_int64 he]
    rfl
  case uint64.uint64 v h w h' =>
    have he : v.toNat = w.toNat := by exact_mod_cast h.symm.trans h'
    rw [UInt64.toNat_inj.mp he]

-- A text denotes one variant, up to the tags of integers.
theorem Denotes.unsigned_eq (h : Denotes v x) (h' : Denotes w x) : v.unsigned = w.unsigned := by
  rw [Denotes] at h
  induction h using Represents.induct generalizing w
  case null => cases h'; rfl
  case bool => cases h'; rfl
  case number v n h =>
    have .number h' := h'
    exact h.unsigned_eq h'
  case string s cs h =>
    have .string h' := h'
    rw [h, h']
  case array vs xs h hi =>
    clear h
    cases h'
    case array ws h' =>
      rw [Variant.unsigned, Variant.unsigned]
      congr 1
      induction hi generalizing ws
      case nil => cases h'; rfl
      case cons h _ hi =>
        have .cons hw hws := h'
        rw [Variant.unsignedElements, Variant.unsignedElements, h.2 hw, hi hws]
  case object es ms h hi =>
    clear h
    cases h'
    case object fs h' =>
      rw [Variant.unsigned, Variant.unsigned]
      congr 1
      induction hi generalizing fs
      case nil => cases h'; rfl
      case cons h _ hi =>
        have .cons hf hfs := h'
        have .intro hk h := h
        have .intro hk' hv := hf
        rw [Variant.unsignedEntries, Variant.unsignedEntries, h.2 hv, hi hfs, hk, hk']

end Json
