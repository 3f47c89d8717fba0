import Mathlib.Algebra.Order.Ring.Int
import Mathlib.Tactic.NormNum
import Mathlib.Tactic.Positivity

-- The built-in integer types of C++ and the arithmetic on them.

-- A type, by the number of bits that its numbers have besides the sign.
inductive IntegerType
  | signed (digits : Nat)
  | unsigned (digits : Nat)
deriving DecidableEq, Repr

namespace IntegerType

def min : IntegerType → Int
  | signed d   => -2 ^ d
  | unsigned _ => 0

def max : IntegerType → Int
  | signed d | unsigned d => 2 ^ d - 1

def int : IntegerType :=
  .signed 31

def int64 : IntegerType :=
  .signed 63

def Represents (T : IntegerType) (x : Int) : Prop :=
  T.min ≤ x ∧ x ≤ T.max

instance (T : IntegerType) (x : Int) : Decidable (T.Represents x) :=
  inferInstanceAs (Decidable (_ ∧ _))

-- The conversion to a type, modulo its number of values.
def convert (T : IntegerType) (x : Int) : Int :=
  match T with
  | signed d   => x.bmod (2 ^ (d + 1))
  | unsigned d => x % 2 ^ d

-- What is computed where the mathematical result is `x`. The behaviour is undefined if a signed
-- type does not represent it.
def arith (T : IntegerType) (x : Int) : Option Int :=
  match T with
  | signed _   => if T.Represents x then some x else none
  | unsigned _ => some (T.convert x)

-- The remainder is defined only where the quotient is.
def div (T : IntegerType) (x y : Int) : Option Int :=
  if y = 0 then none else T.arith (x.tdiv y)

def mod (T : IntegerType) (x y : Int) : Option Int :=
  if y = 0 then none else do
    let _ ← T.arith (x.tdiv y)
    T.arith (x.tmod y)

-- Integral promotion, where `int` has 32 bits.
def promoted : IntegerType → IntegerType
  | signed d   => if d < 31 then int else signed d
  | unsigned d => if d < 32 then int else unsigned d

variable {T : IntegerType} {x y m c : Int}

theorem min_le_zero (T : IntegerType) : T.min ≤ 0 := by
  cases T
  case signed d   => exact Int.neg_nonpos_of_nonneg (Int.pow_nonneg (by decide))
  case unsigned d => exact Int.le_refl 0

theorem zero_le_max (T : IntegerType) : 0 ≤ T.max := by
  have h (d : Nat) : (0 : Int) < 2 ^ d := Int.pow_pos (by decide)
  cases T
  case signed d   => exact Int.le_sub_one_of_lt (h d)
  case unsigned d => exact Int.le_sub_one_of_lt (h d)

theorem represents_zero (T : IntegerType) : T.Represents 0 :=
  ⟨T.min_le_zero, T.zero_le_max⟩

theorem convert_represents (T : IntegerType) (x : Int) : T.Represents (T.convert x) := by
  cases T
  case signed d =>
    have hp : 0 < 2 ^ (d + 1) := by positivity
    have hl := Int.le_bmod (x := x) hp
    have hu := Int.bmod_lt (x := x) hp
    have e : ((2 ^ (d + 1) : Nat) : Int) = 2 ^ d * 2 := by norm_num [pow_succ]
    rw [e] at hl hu
    constructor
    · simp only [min, convert]
      omega
    · simp only [max, convert]
      omega
  case unsigned d =>
    have hp : (0 : Int) < 2 ^ d := by positivity
    exact ⟨Int.emod_nonneg _ hp.ne', Int.le_sub_one_of_lt (Int.emod_lt_of_pos _ hp)⟩

-- A number of the type is kept.
theorem convert_of_represents (h : T.Represents x) : T.convert x = x := by
  obtain ⟨hl, hu⟩ := h
  cases T
  case signed d =>
    have e : ((2 ^ (d + 1) : Nat) : Int) = 2 ^ d * 2 := by norm_num [pow_succ]
    simp only [min, max] at hl hu
    refine Int.bmod_eq_of_le_mul_two ?_ ?_
    · rw [e]
      omega
    · rw [e]
      omega
  case unsigned d => exact Int.emod_eq_of_lt hl (Int.lt_of_le_sub_one hu)

-- A size as an `int`.
theorem int_convert (n : Nat) :
    int.convert n = if n % 2 ^ 32 < 2 ^ 31 then (n % 2 ^ 32 : Int) else n % 2 ^ 32 - 2 ^ 32 := by
  simp only [int, convert, Int.bmod_def]
  split
  case isTrue h  => rw [if_pos (by omega)]; rfl
  case isFalse h => rw [if_neg (by omega)]; rfl

theorem arith_of_represents (h : T.Represents x) : T.arith x = some x := by
  cases T
  case signed d   => exact if_pos h
  case unsigned d => exact congrArg some (convert_of_represents h)

theorem arith_signed_of_not {d : Nat} (h : ¬(signed d).Represents x) : (signed d).arith x = none :=
  if_neg h

theorem promoted_represents (h : T.Represents x) : T.promoted.Represents x := by
  have mono {m n : Nat} (h : m ≤ n) : (2 : Int) ^ m ≤ 2 ^ n := pow_le_pow_right₀ (by decide) h
  obtain ⟨hl, hu⟩ := h
  cases T
  case signed d =>
    by_cases hd : d < 31
    case pos =>
      rw [promoted, if_pos hd]
      have := mono (Nat.le_of_lt hd)
      simp only [Represents, int, min, max] at hl hu ⊢
      omega
    case neg =>
      rw [promoted, if_neg hd]
      exact ⟨hl, hu⟩
  case unsigned d =>
    by_cases hd : d < 32
    case pos =>
      rw [promoted, if_pos hd]
      have := mono (Nat.le_of_lt_succ hd)
      simp only [Represents, int, min, max] at hl hu ⊢
      omega
    case neg =>
      rw [promoted, if_neg hd]
      exact ⟨hl, hu⟩

theorem promoted_arith (h : T.Represents x) : T.promoted.arith x = some x :=
  arith_of_represents (promoted_represents h)

-- Between zero and a number of the type, every number is of the type.
theorem represents_between (hx : T.Represents x) (h : 0 ≤ y ∧ y ≤ x ∨ x ≤ y ∧ y ≤ 0) :
    T.Represents y := by
  have := T.min_le_zero
  have := T.zero_le_max
  obtain ⟨hl, hu⟩ := hx
  cases h
  case inl h => exact ⟨by omega, by omega⟩
  case inr h => exact ⟨by omega, by omega⟩

-- Bounds on a product, by the quotient that rounds towards zero.
theorem tdiv_lt_iff (hm : 0 ≤ m) (hc : 0 < c) : m.tdiv c < x ↔ m < x * c := by
  rw [Int.tdiv_eq_ediv_of_nonneg hm]
  exact Int.ediv_lt_iff_lt_mul hc

theorem lt_tdiv_iff (hm : m ≤ 0) (hc : 0 < c) : x < m.tdiv c ↔ x * c < m := by
  have h := tdiv_lt_iff (x := -x) (Int.neg_nonneg_of_nonpos hm) hc
  rw [Int.neg_tdiv, Int.neg_mul] at h
  constructor
  · intro hx
    have := h.mp (by omega)
    omega
  · intro hx
    have := h.mpr (by omega)
    omega

theorem lt_tdiv_neg_iff (hm : 0 ≤ m) (hc : c < 0) : x < m.tdiv c ↔ m < x * c := by
  have h := tdiv_lt_iff (x := -x) (c := -c) hm (by omega)
  rw [Int.tdiv_neg, Int.neg_mul_neg] at h
  constructor
  · intro hx
    exact h.mp (by omega)
  · intro hx
    have := h.mpr hx
    omega

theorem tmod_represents (hx : T.Represents x) : T.Represents (x.tmod y) := by
  refine represents_between hx ?_
  have e := Int.natAbs_tmod x y
  have hle := Nat.mod_le x.natAbs y.natAbs
  obtain h | h := Int.le_total 0 x
  · have := Int.tmod_nonneg y h
    omega
  · have := Int.tmod_nonneg y (Int.neg_nonneg_of_nonpos h)
    rw [Int.neg_tmod] at this
    omega

-- A quotient is of the type, but for that of the least number by minus one.
theorem tdiv_represents (hx : T.Represents x) (hy : T.Represents y) (h : x = T.min → y ≠ -1) :
    T.Represents (x.tdiv y) := by
  have e := Int.natAbs_tdiv x y
  have hle := Nat.div_le_self x.natAbs y.natAbs
  change _ = x.natAbs / y.natAbs at e
  obtain hn | hn := Int.le_total 0 y
  case inl =>
    refine represents_between hx ?_
    obtain h0 | h0 := Int.le_total 0 x
    case inl =>
      have := Int.tdiv_nonneg h0 hn
      omega
    case inr =>
      have := Int.tdiv_nonneg (Int.neg_nonneg_of_nonpos h0) hn
      rw [Int.neg_tdiv] at this
      omega
  case inr =>
    cases T
    case unsigned d =>
      have := hy.1
      simp only [min] at this
      have : y = 0 := by omega
      subst this
      simpa using represents_zero _
    case signed d =>
      have hp : (0 : Int) < 2 ^ d := by positivity
      simp only [Represents, min, max] at hx h ⊢
      by_cases hy1 : y = -1
      case pos =>
        subst hy1
        rw [Int.tdiv_neg, Int.tdiv_one]
        have := mt h (by simp)
        omega
      case neg =>
        have hhalf : x.natAbs / y.natAbs ≤ x.natAbs / 2 ∨ y = 0 := by
          by_cases hz : y = 0
          case pos => exact Or.inr hz
          case neg => exact Or.inl (Nat.div_le_div_left (by omega) (by decide))
        cases hhalf
        case inl hhalf => omega
        case inr hz    => simp [hz]; omega

end IntegerType
