import Mathlib

-- An approximation of the binary logarithm of a natural number: its integer part, and `p` bits that
-- follow the most significant one of the number.

namespace ApproxLog

variable {p N M m z : Nat}

-- The number, shifted so that its most significant bit has the index `p`.
def mantissa (p N : Nat) : Nat :=
  N * 2 ^ p / 2 ^ Nat.log 2 N

def approxLog (p N : Nat) : Nat :=
  if N = 0 then 0 else Nat.log 2 N * 2 ^ p + (mantissa p N - 2 ^ p)

theorem le_mantissa (p : Nat) (h : N ≠ 0) : 2 ^ p ≤ mantissa p N := by
  rw [mantissa, Nat.le_div_iff_mul_le (Nat.two_pow_pos _), Nat.mul_comm]
  exact Nat.mul_le_mul_right _ (Nat.pow_log_le_self 2 h)

theorem mantissa_lt (p N : Nat) : mantissa p N < 2 ^ (p + 1) := by
  rw [mantissa]
  refine Nat.div_lt_of_lt_mul ?_
  rw [Nat.pow_succ 2 p, Nat.mul_left_comm, ← Nat.pow_succ, Nat.mul_comm]
  exact Nat.mul_lt_mul_of_pos_left (Nat.lt_pow_succ_log_self (by decide) N) (Nat.two_pow_pos p)

theorem approxLog_lt (p N : Nat) : approxLog p N < (Nat.log 2 N + 1) * 2 ^ p := by
  have h := mantissa_lt p N
  rw [Nat.pow_succ] at h
  rw [approxLog, Nat.add_mul, Nat.one_mul]
  split
  case isTrue  => exact Nat.add_pos_right _ (Nat.two_pow_pos p)
  case isFalse => omega

theorem le_approxLog (p : Nat) (h : N ≠ 0) : Nat.log 2 N * 2 ^ p ≤ approxLog p N := by
  rw [approxLog, if_neg h]
  exact Nat.le_add_right ..

-- Between two powers of two the mantissa grows, and the integer part counts for more.
theorem monotone_approxLog (p : Nat) : Monotone (approxLog p) := by
  intro N M h
  by_cases hN : N = 0
  case pos =>
    rw [approxLog, if_pos hN]
    exact Nat.zero_le _
  case neg =>
    have hM : M ≠ 0 := fun h0 => hN (Nat.le_zero.mp (h0 ▸ h))
    cases Nat.lt_or_eq_of_le (Nat.log_mono_right (b := 2) h)
    case inl hlt =>
      calc approxLog p N
        _ ≤ (Nat.log 2 N + 1) * 2 ^ p := Nat.le_of_lt (approxLog_lt p N)
        _ ≤ Nat.log 2 M * 2 ^ p       := Nat.mul_le_mul_right _ hlt
        _ ≤ approxLog p M             := le_approxLog p hM
    case inr heq =>
      rw [approxLog, approxLog, if_neg hN, if_neg hM, mantissa, mantissa, heq]
      have hdiv := Nat.div_le_div_right (c := 2 ^ Nat.log 2 M) (Nat.mul_le_mul_right (2 ^ p) h)
      omega

theorem approxLog_of_bounds (hle : 2 ^ z ≤ N) (hlt : N < 2 ^ (z + 1)) :
    approxLog p N = z * 2 ^ p + (N * 2 ^ p / 2 ^ z - 2 ^ p) := by
  have hN : N ≠ 0 := Nat.ne_of_gt (Nat.lt_of_lt_of_le (Nat.two_pow_pos z) hle)
  rw [approxLog, if_neg hN, mantissa, Nat.log_eq_of_pow_le_of_lt_pow hle hlt]

-- A number with `p` bits after the most significant one, shifted to the left.
theorem approxLog_mul (hm : m < 2 ^ p) (hz : p ≤ z) :
    approxLog p ((2 ^ p + m) * 2 ^ (z - p)) = z * 2 ^ p + m := by
  have hpow : 2 ^ (z - p) * 2 ^ p = 2 ^ z := by
    rw [← Nat.pow_add, Nat.sub_add_cancel hz]
  have hpos := Nat.two_pow_pos (z - p)
  have hle : 2 ^ z ≤ (2 ^ p + m) * 2 ^ (z - p) := by
    rw [← hpow, Nat.mul_comm]
    exact Nat.mul_le_mul_right _ (Nat.le_add_right ..)
  have hlt : (2 ^ p + m) * 2 ^ (z - p) < 2 ^ (z + 1) := by
    rw [Nat.pow_succ, ← hpow, Nat.mul_assoc, Nat.mul_comm]
    exact Nat.mul_lt_mul_of_pos_left (by omega) hpos
  rw [approxLog_of_bounds hle hlt, Nat.mul_assoc, hpow, Nat.mul_div_cancel _ (Nat.two_pow_pos z),
    Nat.add_sub_cancel_left]

-- Shifted to the right, it loses the last bits.
theorem approxLog_div (hm : m < 2 ^ p) (hz : z ≤ p) :
    approxLog p ((2 ^ p + m) / 2 ^ (p - z)) = z * 2 ^ p + m / 2 ^ (p - z) * 2 ^ (p - z) := by
  have hpow : 2 ^ (p - z) * 2 ^ z = 2 ^ p := by
    rw [← Nat.pow_add, Nat.sub_add_cancel hz]
  have hpos := Nat.two_pow_pos (p - z)
  have hdiv : (2 ^ p + m) / 2 ^ (p - z) = 2 ^ z + m / 2 ^ (p - z) := by
    rw [← hpow, Nat.mul_add_div hpos]
  have hquot : m / 2 ^ (p - z) < 2 ^ z := Nat.div_lt_of_lt_mul (hpow ▸ hm)
  have hlt : 2 ^ z + m / 2 ^ (p - z) < 2 ^ (z + 1) := by
    rw [Nat.pow_succ]
    omega
  have hmantissa : (2 ^ z + m / 2 ^ (p - z)) * 2 ^ p / 2 ^ z =
      2 ^ p + m / 2 ^ (p - z) * 2 ^ (p - z) := by
    rw [← hpow, ← Nat.mul_assoc, Nat.mul_div_cancel _ (Nat.two_pow_pos z), Nat.add_mul,
      Nat.mul_comm (2 ^ z)]
  rw [hdiv, approxLog_of_bounds (Nat.le_add_right ..) hlt, hmantissa, Nat.add_sub_cancel_left]

end ApproxLog
