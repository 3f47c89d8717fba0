import Mathlib.Data.List.Basic
import Mathlib.Tactic.Common

-- A sequence that is cut into pieces of one size, of which only the last one may be shorter.

namespace Pieces

variable {α : Type} {n : Nat} {xs : List α}

def piece (n : Nat) (xs : List α) (i : Nat) : List α :=
  (xs.drop (n * i)).take n

-- How many pieces there are.
def count (n : Nat) (xs : List α) : Nat :=
  (xs.length + n - 1) / n

theorem length_piece_le (n : Nat) (xs : List α) (i : Nat) : (piece n xs i).length ≤ n := by
  rw [piece, List.length_take]
  exact Nat.min_le_left ..

theorem lt_count_iff (hn : 0 < n) {i : Nat} : i < count n xs ↔ n * i < xs.length := by
  rw [count, ← Nat.succ_le_iff, Nat.le_div_iff_mul_le hn, Nat.succ_mul, Nat.mul_comm i n]
  omega

theorem length_le (hn : 0 < n) : xs.length ≤ n * count n xs :=
  Nat.not_lt.mp fun h => Nat.lt_irrefl _ ((lt_count_iff hn).mpr h)

-- The pieces from the `k`-th one on make up the rest of the sequence.
theorem flatMap_piece {k m : Nat} (h : xs.length ≤ n * (k + m)) :
    (List.range' k m).flatMap (piece n xs) = xs.drop (n * k) := by
  induction m generalizing k
  case zero => exact (List.drop_of_length_le h).symm
  case succ m hi =>
    rw [List.range'_succ, List.flatMap_cons, hi (by rwa [Nat.add_assoc, Nat.add_comm 1]), piece,
      Nat.mul_succ, ← List.drop_drop, List.take_append_drop]

theorem flatMap_range (hn : 0 < n) : (List.range (count n xs)).flatMap (piece n xs) = xs := by
  have hlength : xs.length ≤ n * (0 + count n xs) := by
    rw [Nat.zero_add]
    exact length_le hn
  rw [List.range_eq_range', flatMap_piece hlength]
  rfl

end Pieces
