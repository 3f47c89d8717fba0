import FcModel.Text.Basic
import Mathlib.Tactic.Ring

-- Strings of digits, that zeros may begin or end.

namespace Decimal

open Ascii

variable {c : UInt8} {ds : Bytes} {m k : Nat}

theorem foldl_value (n : Nat) (ds : Bytes) :
    ds.foldl (fun n d => n * 10 + (d.toNat - 0x30)) n =
      n * 10 ^ ds.length + value ds := by
  unfold value
  induction ds generalizing n
  case nil => simp
  case cons d ds hi =>
    rw [List.foldl_cons, List.foldl_cons, hi, hi (0 * 10 + _), List.length_cons, Nat.pow_succ]
    ring

theorem value_cons (c : UInt8) (ds : Bytes) :
    value (c :: ds) = (c.toNat - 0x30) * 10 ^ ds.length + value ds := by
  rw [value, List.foldl_cons, foldl_value, Nat.zero_mul, Nat.zero_add]

theorem value_append (f g : Bytes) : value (f ++ g) = value f * 10 ^ g.length + value g := by
  rw [value, List.foldl_append, foldl_value]
  rfl

theorem value_zeros (j : Nat) : value (List.replicate j zero) = 0 := by
  induction j
  case zero      => rfl
  case succ j hi =>
    have hdigit : zero.toNat - 0x30 = 0 := rfl
    rw [List.replicate_succ, value_cons, hi, hdigit, Nat.zero_mul]

theorem digit_lt (h : isDigit c) : c.toNat - 0x30 < 10 := by
  have := (isDigit_iff.mp h).2
  omega

theorem value_lt (h : ∀ c ∈ ds, isDigit c) : value ds < 10 ^ ds.length := by
  induction ds
  case nil => decide
  case cons c ds hi =>
    have hc := digit_lt (h c (List.mem_cons_self ..))
    have hds := hi fun d hd => h d (List.mem_cons_of_mem _ hd)
    rw [value_cons, List.length_cons, Nat.pow_succ]
    nlinarith

-- A number in `k` places.
structure Places (k m : Nat) (ds : Bytes) : Prop where
  digits : ∀ d ∈ ds, isDigit d
  length : ds.length = k
  value  : value ds = m

theorem head_ne_zero (h : Numeral (c :: ds)) (hz : c = zero → ds = [] ∧ 0 < value (c :: ds)) :
    1 ≤ c.toNat - 0x30 := by
  by_contra h0
  have hc := isDigit_iff.mp (h.digits c (List.mem_cons_self ..))
  have he : c = zero := UInt8.toNat_inj.mp (by
    change c.toNat = 0x30
    omega)
  have hpos := (hz he).right
  rw [(hz he).left, he] at hpos
  exact absurd hpos (by decide)

-- With a one in front of it, the rest is printed in all the places.
theorem tail_ofNat (h : m < 10 ^ k) : Places k m (ofNat (m + 10 ^ k)).tail := by
  have hv := value_ofNat (m + 10 ^ k)
  have hn := numeral_ofNat (m + 10 ^ k)
  have hz := @head_ofNat (m + 10 ^ k)
  have hpos : 0 < 10 ^ k := Nat.pow_pos (by decide)
  revert hv hn hz
  cases ofNat (m + 10 ^ k)
  case nil => exact fun _ hn => absurd rfl hn.nonempty
  case cons c ds =>
    intro hv hn hz
    have hd : ∀ d ∈ ds, isDigit d := fun d hd => hn.digits d (List.mem_cons_of_mem _ hd)
    have hlt := value_lt hd
    have hc := digit_lt (hn.digits c (List.mem_cons_self ..))
    have hone : 1 ≤ c.toNat - 0x30 := by
      refine head_ne_zero hn fun hc => ⟨(List.cons.inj (hz (congrArg some hc))).right, ?_⟩
      rw [hv]
      exact Nat.add_pos_right _ hpos
    rw [value_cons] at hv
    have hlen : ds.length = k := by
      obtain hl | hl | hl := Nat.lt_trichotomy ds.length k
      case inl =>
        have hp : 10 ^ (ds.length + 1) ≤ 10 ^ k := Nat.pow_le_pow_right (by decide) hl
        have hle : (c.toNat - 0x30) * 10 ^ ds.length ≤ 9 * 10 ^ ds.length :=
          Nat.mul_le_mul_right _ (Nat.le_of_lt_succ hc)
        rw [Nat.pow_succ] at hp
        omega
      case inr.inl => exact hl
      case inr.inr =>
        have hp : 10 ^ (k + 1) ≤ 10 ^ ds.length := Nat.pow_le_pow_right (by decide) hl
        have hle : 1 * 10 ^ ds.length ≤ (c.toNat - 0x30) * 10 ^ ds.length :=
          Nat.mul_le_mul_right _ hone
        rw [Nat.pow_succ] at hp
        omega
    rw [hlen] at hv hlt
    refine ⟨hd, hlen, ?_⟩
    have hle : (c.toNat - 0x30) * 10 ^ k < 2 * 10 ^ k := by omega
    have htwo : c.toNat - 0x30 < 2 := Nat.lt_of_mul_lt_mul_right hle
    have heq : c.toNat - 0x30 = 1 := by omega
    rw [heq] at hv
    rw [List.tail_cons]
    omega

end Decimal
