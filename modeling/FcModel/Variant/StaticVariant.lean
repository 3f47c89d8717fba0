import FcModel.Lib.Encoder
import FcModel.Variant.Equality

-- The conversions between `std::variant` and `fc::variant`.

namespace StaticVariant

open Variant

variable {ε : Type}

-- What the conversions use of the type of an alternative: the value it is initialised with,
-- `to_variant`, and `from_variant`, which is given the value it overwrites.
structure Alternative (ε α : Type) where
  initial     : α
  toVariant   : α → Variant
  fromVariant : Variant → α → Except ε α

inductive Error (ε : Type)
  | cast (e : CastError)
  | assert
  | convert (e : ε)
deriving DecidableEq, Repr

variable {n : Nat} {T : Fin (n + 1) → Type}

-- The types of the alternatives are `T`. There is at least one of them.
abbrev StdVariant (T : Fin (n + 1) → Type) := Σ i, T i

variable (L : LexicalCast) (D : Doubles) (A : ∀ i, Alternative ε (T i))

-- `left` alternatives are left from the one on that the template is instantiated with. The index is
-- an `int`.
def fromIndex : (left : Nat) → left ≤ n + 1 → (index : Int32) → Except (Error ε) (StdVariant T)
  | 0, _, _            => .error .assert
  | left + 1, h, index =>
    if index = 0 then .ok ⟨⟨n + 1 - (left + 1), by omega⟩, (A _).initial⟩
    else fromIndex left (Nat.le_of_succ_le h) (index - 1)

def toVariant (s : StdVariant T) : Variant :=
  .array [.uint64 (.ofNat s.1), (A s.1).toVariant s.2]

-- The `uint64_t` becomes an `int`. The alternative is selected before its value is converted.
def fromVariant (v : Variant) : EStateM (Error ε) (StdVariant T) Unit :=
  match v.getArray with
  | .error e => throw (.cast e)
  | .ok (a :: x :: _) =>
    match a.asUint64 L D with
    | .error e  => throw (.cast e)
    | .ok index =>
      match fromIndex A (n + 1) (Nat.le_refl _) index.toUInt32.toInt32 with
      | .error e => throw e
      | .ok s    => do
        set s
        match (A s.1).fromVariant x s.2 with
        | .error e => throw (.convert e)
        | .ok y    => set (⟨s.1, y⟩ : StdVariant T)
  | .ok _ => set (⟨.first n, (A (.first n)).initial⟩ : StdVariant T)

-- The alternative `i` is selected, and `x` is converted into it.
def select (i : Fin (n + 1)) (x : Variant) : EStateM (Error ε) (StdVariant T) Unit := fun _ =>
  match (A i).fromVariant x (A i).initial with
  | .error e => .error (.convert e) ⟨i, (A i).initial⟩
  | .ok y    => .ok () ⟨i, y⟩

-- What is to be expected of the conversion of an array of two elements, the first of which is the
-- index `i`.
structure IndexChecked (a x : Variant) (i : UInt64) : Prop where
  inside  : ∀ h : i.toNat < n + 1, fromVariant L D A (.array [a, x]) = select A ⟨i.toNat, h⟩ x
  outside : n + 1 ≤ i.toNat → ∀ s, (fromVariant L D A (.array [a, x])).run s = .error .assert s

variable {L D A}

theorem toInt32_sub_one {i : UInt32} (h : i ≠ 0) : ∃ j : UInt32, i.toInt32 - 1 = j.toInt32 ∧
    j.toNat + 1 = i.toNat := by
  refine ⟨i - 1, rfl, ?_⟩
  have hpos : 1 ≤ i.toNat := Nat.one_le_iff_ne_zero.mpr fun h0 => h (UInt32.toNat_inj.mp h0)
  have hle : (1 : UInt32) ≤ i := UInt32.le_iff_toNat_le.mpr hpos
  rw [UInt32.toNat_sub_of_le _ _ hle]
  exact Nat.sub_add_cancel hpos

theorem toInt32_eq_zero_iff {i : UInt32} : i.toInt32 = 0 ↔ i = 0 :=
  ⟨fun h => congrArg Int32.toUInt32 h, fun h => h ▸ rfl⟩

-- The recursion goes down to zero from the index, and up through the alternatives.
theorem fromIndex_of_lt {left : Nat} (h : left ≤ n + 1) {i : UInt32} (hi : i.toNat < left) :
    ∃ k : Fin (n + 1), k.val = n + 1 - left + i.toNat ∧
    fromIndex A left h i.toInt32 = .ok ⟨k, (A k).initial⟩ := by
  induction left generalizing i
  case zero => cases hi
  case succ left ih =>
    rw [fromIndex]
    by_cases h0 : i = 0
    case pos =>
      rw [if_pos (toInt32_eq_zero_iff.mpr h0), h0]
      exact ⟨⟨n + 1 - (left + 1), by omega⟩, rfl, rfl⟩
    case neg =>
      obtain ⟨j, hj, hval⟩ := toInt32_sub_one h0
      rw [if_neg (mt toInt32_eq_zero_iff.mp h0), hj]
      obtain ⟨k, hk, hrun⟩ := ih (Nat.le_of_succ_le h) (show j.toNat < left by omega)
      exact ⟨k, by omega, hrun⟩

theorem fromIndex_of_le {left : Nat} (h : left ≤ n + 1) {i : UInt32} (hi : left ≤ i.toNat) :
    fromIndex A left h i.toInt32 = .error .assert := by
  induction left generalizing i
  case zero => rfl
  case succ left ih =>
    have h0 : i ≠ 0 := by
      intro h0
      rw [h0] at hi
      cases hi
    obtain ⟨j, hj, hval⟩ := toInt32_sub_one h0
    rw [fromIndex, if_neg (mt toInt32_eq_zero_iff.mp h0), hj]
    exact ih (Nat.le_of_succ_le h) (by omega)

variable {a x : Variant} {i : UInt64}

theorem fromVariant_of_lt (ha : a.asUint64 L D = .ok i) (hi : i.toNat % 2 ^ 32 < n + 1) :
    fromVariant L D A (.array [a, x]) = select A ⟨i.toNat % 2 ^ 32, hi⟩ x := by
  obtain ⟨k, hk, hrun⟩ := @fromIndex_of_lt _ _ _ A (n + 1) (Nat.le_refl _) i.toUInt32 (by rwa [UInt64.toNat_toUInt32])
  rw [UInt64.toNat_toUInt32, Nat.sub_self, Nat.zero_add] at hk
  have hk' : k = ⟨i.toNat % 2 ^ 32, hi⟩ := Fin.ext hk
  rw [← hk']
  funext s
  simp only [fromVariant, getArray, ha, hrun, select]
  cases (A k).fromVariant x (A k).initial
  case error => rfl
  case ok    => rfl

theorem fromVariant_of_le (ha : a.asUint64 L D = .ok i) (hi : n + 1 ≤ i.toNat % 2 ^ 32)
    (s : StdVariant T) :
    (fromVariant L D A (.array [a, x])).run s = .error .assert s := by
  have hrun := @fromIndex_of_le _ _ _ A (n + 1) (Nat.le_refl _) i.toUInt32 (by rwa [UInt64.toNat_toUInt32])
  simp only [fromVariant, getArray, ha, hrun]
  rfl

theorem select_ne_assert (k : Fin (n + 1)) (s s' : StdVariant T) :
    (select A k x).run s ≠ .error .assert s' := by
  simp only [select, EStateM.run]
  split
  case h_1 => intro h; cases h
  case h_2 => intro h; cases h

theorem indexChecked_of (hn : n + 1 < 2 ^ 31) (ha : a.asUint64 L D = .ok i)
    (h : i.toNat < n + 1 ∨ n + 1 ≤ i.toNat % 2 ^ 32) : IndexChecked L D A a x i := by
  constructor
  case inside =>
    intro hi
    have hmod : i.toNat % 2 ^ 32 = i.toNat := Nat.mod_eq_of_lt (by omega)
    have hrun := @fromVariant_of_lt _ _ _ L D A a x i ha (by rwa [hmod])
    simpa only [hmod] using hrun
  case outside =>
    intro hi s
    exact fromVariant_of_le ha (h.resolve_left (Nat.not_lt_of_le hi)) s

-- The index is cut to 32 bits before it is compared with the number of alternatives. What
-- `to_variant` writes is small enough.
theorem indexChecked_iff (L : LexicalCast) (D : Doubles) (A : ∀ i, Alternative ε (T i))
    (hn : n + 1 < 2 ^ 31) :
    (∀ a x i, a.asUint64 L D = .ok i →
      (IndexChecked L D A a x i ↔ i.toNat < n + 1 ∨ n + 1 ≤ i.toNat % 2 ^ 32)) ∧
    ∀ s s₀, (A s.1).fromVariant ((A s.1).toVariant s.2) (A s.1).initial = .ok s.2 →
      (fromVariant L D A (toVariant A s)).run s₀ = .ok () s := by
  refine ⟨fun a x i ha => ⟨fun h => ?_, indexChecked_of hn ha⟩, fun s s₀ hs => ?_⟩
  case refine_1 =>
    by_contra hc
    rw [not_or, Nat.not_lt, Nat.not_le] at hc
    have hrun := h.outside hc.1 ⟨0, (A 0).initial⟩
    rw [fromVariant_of_lt ha hc.2] at hrun
    exact select_ne_assert _ _ _ hrun
  case refine_2 =>
    have hi : (UInt64.ofNat s.1).toNat = s.1 := UInt64.toNat_ofNat_of_lt' (show s.1.val < 2 ^ 64 by omega)
    have hc := @indexChecked_of _ _ _ L D A (.uint64 (.ofNat s.1)) ((A s.1).toVariant s.2) (.ofNat s.1) hn rfl
      (.inl (by rw [hi]; exact s.1.isLt))
    have hin := hc.inside (by rw [hi]; exact s.1.isLt)
    simp only [hi, Fin.eta] at hin
    rw [toVariant, hin]
    simp only [select, EStateM.run, hs]

-- `std::variant<bool, std::string>`.
def boolOrString : ∀ i : Fin 2, Alternative CastError (![Bool, Bytes] i)
  | ⟨0, _⟩ =>
    ⟨false, fun b => .bool b, fun v _ => match v with | .bool b => .ok b | _ => .error .badCast⟩
  | ⟨1, _⟩ => ⟨[], fun s => .string s, fun v _ => v.asString .decimal⟩

theorem indexChecked_iff_boolOrString :
    IndexChecked .decimal .unused boolOrString (.uint64 1) (.string [97]) 1 ↔ (1 : Nat) < 2 ∨
    2 ≤ 1 % 2 ^ 32 :=
  (indexChecked_iff .decimal .unused boolOrString (by decide)).1 _ _ _ rfl

-- The index `2 ^ 32` selects the first alternative.
theorem not_indexChecked_two_pow_32 :
    ¬IndexChecked .decimal .unused boolOrString (.uint64 4294967296) (.bool true) 4294967296 := by
  intro h
  have hrun := h.outside (by decide) ⟨0, false⟩
  rw [fromVariant_of_lt rfl (by decide)] at hrun
  exact select_ne_assert _ _ _ hrun

end StaticVariant
