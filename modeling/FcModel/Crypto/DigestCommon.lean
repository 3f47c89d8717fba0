import FcModel.Crypto.Bigint

-- The shifts of digests, which are taken for big-endian numbers.

namespace Digest

open Raw Bigint

section Shifts

-- The overloads of `shift_l` and `shift_r` that shift by whole bytes.
def shiftBytesL (in8 : Bytes) (i : Nat) : Bytes :=
  if i < in8.length then in8.drop i ++ List.replicate i 0 else List.replicate in8.length 0

def shiftBytesR (in8 : Bytes) (i : Nat) : Bytes :=
  if i < in8.length then List.replicate i 0 ++ in8.take (in8.length - i)
  else List.replicate in8.length 0

-- The loop of `shift_l`. A byte is written before the next one is, so that the output may be in
-- place of the input.
def shiftBitsL (i : Nat) : Bytes → Bytes
  | []           => []
  | [c]          => [.ofNat (c.toNat <<< i)]
  | c :: c' :: p => .ofNat (c.toNat <<< i ||| c'.toNat >>> (8 - i)) :: shiftBitsL i (c' :: p)

-- The loop of `shift_r`, behind the byte `c'`. It goes from the last byte to the first one.
def shiftBitsR (i : Nat) (c' : UInt8) : Bytes → Bytes
  | []     => []
  | c :: p => .ofNat (c.toNat >>> i ||| c'.toNat <<< (8 - i)) :: shiftBitsR i c p

def shiftL (in8 : Bytes) (i : Nat) : Bytes :=
  if 8 ≤ i then shiftBitsL (i &&& 7) (shiftBytesL in8 (i / 8)) else shiftBitsL i in8

-- There is no byte before the first one.
def shiftR (in8 : Bytes) (i : Nat) : Bytes :=
  if 8 ≤ i then shiftBitsR (i &&& 7) 0 (shiftBytesR in8 (i / 8)) else shiftBitsR i 0 in8

end Shifts

section Lengths

@[simp]
theorem length_shiftBytesL (d : Bytes) (i : Nat) : (shiftBytesL d i).length = d.length := by
  rw [shiftBytesL]
  split
  case isTrue  => simp; omega
  case isFalse => simp

@[simp]
theorem length_shiftBytesR (d : Bytes) (i : Nat) : (shiftBytesR d i).length = d.length := by
  rw [shiftBytesR]
  split
  case isTrue  => simp; omega
  case isFalse => simp

@[simp]
theorem length_shiftBitsL (i : Nat) (d : Bytes) : (shiftBitsL i d).length = d.length := by
  fun_induction shiftBitsL i d
  case case1       => rfl
  case case2       => rfl
  case case3 _ _ _ hi => rw [List.length_cons, hi, ← List.length_cons]

@[simp]
theorem length_shiftBitsR (i : Nat) (c : UInt8) (d : Bytes) :
    (shiftBitsR i c d).length = d.length := by
  induction d generalizing c
  case nil          => rfl
  case cons c' d hi => rw [shiftBitsR, List.length_cons, hi, List.length_cons]

@[simp]
theorem length_shiftL (d : Bytes) (i : Nat) : (shiftL d i).length = d.length := by
  rw [shiftL]
  split <;> simp

@[simp]
theorem length_shiftR (d : Bytes) (i : Nat) : (shiftR d i).length = d.length := by
  rw [shiftR]
  split <;> simp

end Lengths

section Numbers

variable {i : Nat}

theorem ofBytes_shiftBytesL (d : Bytes) (i : Nat) :
    ofBytes (shiftBytesL d i) = ofBytes d * 256 ^ i % 256 ^ d.length := by
  rw [shiftBytesL]
  split
  case isTrue h =>
    have hd := ofBytes_append (d.take i) (d.drop i)
    have hlt := ofBytes_lt (d.drop i)
    have hpow : 256 ^ (d.length - i) * 256 ^ i = 256 ^ d.length := by
      rw [← Nat.pow_add, Nat.sub_add_cancel (Nat.le_of_lt h)]
    rw [List.take_append_drop, List.length_drop] at hd
    rw [List.length_drop] at hlt
    rw [ofBytes_append, ofBytes_zeros, Nat.zero_add, List.length_replicate, hd, Nat.add_mul,
      Nat.mul_right_comm, hpow, Nat.add_mul_mod_self_left, Nat.mod_eq_of_lt, Nat.mul_comm]
    rw [← hpow]
    exact Nat.mul_lt_mul_of_pos_right hlt (Nat.pow_pos (by decide))
  case isFalse h =>
    rw [ofBytes_zeros]
    exact (Nat.mod_eq_zero_of_dvd
      ((Nat.pow_dvd_pow 256 (Nat.not_lt.mp h)).trans (Nat.dvd_mul_left ..))).symm

theorem ofBytes_shiftBytesR (d : Bytes) (i : Nat) :
    ofBytes (shiftBytesR d i) = ofBytes d / 256 ^ i := by
  rw [shiftBytesR]
  split
  case isTrue h =>
    rw [ofBytes_append, ofBytes_zeros, Nat.mul_zero, Nat.add_zero, ofBytes_take,
      Nat.sub_sub_self (Nat.le_of_lt h)]
  case isFalse h =>
    have hlt := (ofBytes_lt d).trans_le (Nat.pow_le_pow_right (by decide) (Nat.not_lt.mp h))
    rw [ofBytes_zeros, Nat.div_eq_of_lt hlt]

-- A byte, and the bits of another one beside its own.
theorem toNat_or {a b : Nat} (h : b < 2 ^ i) :
    (UInt8.ofNat (a <<< i ||| b)).toNat = (a * 2 ^ i + b) % 256 := by
  rw [UInt8.toNat_ofNat', ← Nat.shiftLeft_add_eq_or_of_lt h, Nat.shiftLeft_eq]

theorem split_pow (hi : i < 8) : 256 = 2 ^ i * 2 ^ (8 - i) := by
  rw [← Nat.pow_add, Nat.add_sub_cancel' (Nat.le_of_lt hi)]

-- The bits of the first byte that are shifted out of a number.
theorem carry_eq (hi : i < 8) (c : UInt8) (d : Bytes) :
    ofBytes (c :: d) * 2 ^ i / 256 ^ (c :: d).length = c.toNat / 2 ^ (8 - i) := by
  have hpos : 0 < 256 ^ d.length := Nat.pow_pos (by decide)
  have hlow : ofBytes d * 2 ^ i / 256 ^ d.length < 2 ^ i :=
    Nat.div_lt_of_lt_mul (Nat.mul_lt_mul_of_pos_right (ofBytes_lt d) (Nat.pow_pos (by decide)))
  rw [ofBytes_cons, List.length_cons, Nat.pow_succ, ← Nat.div_div_eq_div_mul, Nat.add_mul,
    Nat.mul_right_comm, Nat.add_comm, Nat.add_mul_div_right _ _ hpos]
  generalize ofBytes d * 2 ^ i / 256 ^ d.length = r at hlow
  rw [split_pow hi, ← Nat.div_div_eq_div_mul, Nat.add_mul_div_right _ _ (Nat.pow_pos (by decide)),
    Nat.div_eq_of_lt hlow, Nat.zero_add]

theorem ofBytes_shiftBitsL (hi : i < 8) (d : Bytes) :
    ofBytes (shiftBitsL i d) = ofBytes d * 2 ^ i % 256 ^ d.length := by
  fun_induction shiftBitsL i d
  case case1   => exact (Nat.mod_one _).symm
  case case2 c =>
    rw [ofBytes_cons, ofBytes_cons, UInt8.toNat_ofNat', Nat.shiftLeft_eq]
    simp [ofBytes, ofLE]
  case case3 c c' d ih =>
    have hlt : c'.toNat >>> (8 - i) < 2 ^ i := by
      have hc := c'.toNat_lt
      rw [Nat.shiftRight_eq_div_pow]
      refine Nat.div_lt_of_lt_mul (hc.trans_eq ?_)
      rw [Nat.mul_comm]
      exact split_pow hi
    have hcarry := carry_eq hi c' d
    have hpos : 0 < 256 ^ (c' :: d).length := Nat.pow_pos (by decide)
    rw [ofBytes_cons, ih, toNat_or hlt, length_shiftBitsL, Nat.shiftRight_eq_div_pow,
      ofBytes_cons c, List.length_cons (a := c), Nat.pow_succ, Nat.mod_mul, Nat.add_mul,
      Nat.mul_right_comm, Nat.mul_add_mod_self_right, Nat.add_comm (c.toNat * 2 ^ i * _),
      Nat.add_mul_div_right _ _ hpos, hcarry, Nat.add_comm (_ % _), Nat.mul_comm (_ % _),
        Nat.add_comm (c.toNat * _)]

theorem ofBytes_shiftBitsR (hi : i < 8) (c : UInt8) (d : Bytes) :
    ofBytes (shiftBitsR i c d) =
        (c.toNat * 256 ^ d.length + ofBytes d) / 2 ^ i % 256 ^ d.length := by
  induction d generalizing c
  case nil           => exact (Nat.mod_one _).symm
  case cons c' d ih =>
    have hlt : c'.toNat >>> i < 2 ^ (8 - i) := by
      rw [Nat.shiftRight_eq_div_pow]
      exact Nat.div_lt_of_lt_mul (c'.toNat_lt.trans_eq (split_pow hi))
    have hpos : 0 < 256 ^ d.length := Nat.pow_pos (by decide)
    have hbits : c.toNat * 256 + c'.toNat = 2 ^ i * (c.toNat * 2 ^ (8 - i)) + c'.toNat := by
      rw [Nat.mul_left_comm, ← split_pow hi]
    have hquot : (c.toNat * 256 ^ (d.length + 1) +
      (c'.toNat * 256 ^ d.length + ofBytes d)) / 2 ^ i /
        256 ^ d.length = c.toNat * 2 ^ (8 - i) + c'.toNat / 2 ^ i := by
      rw [Nat.div_div_eq_div_mul, Nat.mul_comm (2 ^ i), ← Nat.div_div_eq_div_mul, Nat.pow_succ,
        Nat.mul_comm (256 ^ d.length), ← Nat.mul_assoc, ← Nat.add_assoc, ← Nat.add_mul,
          Nat.add_comm,
        Nat.add_mul_div_right _ _ hpos, Nat.div_eq_of_lt (ofBytes_lt d), Nat.zero_add, hbits,
        Nat.mul_add_div (Nat.pow_pos (by decide))]
    have hrest : (c.toNat * 256 ^ (d.length + 1) +
      (c'.toNat * 256 ^ d.length + ofBytes d)) / 2 ^ i %
        256 ^ d.length = (c'.toNat * 256 ^ d.length + ofBytes d) / 2 ^ i % 256 ^ d.length := by
      have hhigh : c.toNat * 256 ^ (d.length + 1) =
          2 ^ i * (c.toNat * 2 ^ (8 - i) * 256 ^ d.length) := by
        rw [Nat.pow_succ, Nat.mul_comm (256 ^ d.length), ← Nat.mul_assoc, ← Nat.mul_assoc,
          Nat.mul_left_comm, ← split_pow hi]
      rw [hhigh, Nat.mul_add_div (Nat.pow_pos (by decide)), Nat.mul_add_mod_self_right]
    rw [shiftBitsR, ofBytes_cons, ih, Nat.lor_comm, toNat_or hlt, length_shiftBitsR,
      ofBytes_cons c',
      List.length_cons, Nat.pow_succ 256 d.length, Nat.mod_mul, ← Nat.pow_succ, hquot, hrest,
      Nat.shiftRight_eq_div_pow, Nat.add_comm, Nat.mul_comm (256 ^ d.length)]

theorem and_seven (i : Nat) : i &&& 7 = i % 8 :=
  Nat.and_two_pow_sub_one_eq_mod i 3

theorem pow_split (i : Nat) : 256 ^ (i / 8) * 2 ^ (i % 8) = 2 ^ i := by
  have h : (256 : Nat) = 2 ^ 8 := rfl
  rw [h, ← Nat.pow_mul, ← Nat.pow_add, Nat.div_add_mod]

-- What is shifted out is lost.
theorem ofBytes_shiftL (d : Bytes) (i : Nat) :
    ofBytes (shiftL d i) = ofBytes d * 2 ^ i % 256 ^ d.length := by
  rw [shiftL]
  split
  case isTrue h =>
    rw [and_seven, ofBytes_shiftBitsL (Nat.mod_lt i (by decide)), ofBytes_shiftBytesL,
      length_shiftBytesL, Nat.mod_mul_mod, Nat.mul_assoc, pow_split]
  case isFalse h => exact ofBytes_shiftBitsL (Nat.not_le.mp h) d

theorem ofBytes_shiftR (d : Bytes) (i : Nat) : ofBytes (shiftR d i) = ofBytes d / 2 ^ i := by
  have hlt : ofBytes d / 2 ^ i < 256 ^ d.length := (Nat.div_le_self ..).trans_lt (ofBytes_lt d)
  have hzero : (0 : UInt8).toNat = 0 := rfl
  rw [shiftR]
  split
  case isTrue h =>
    rw [and_seven, ofBytes_shiftBitsR (Nat.mod_lt i (by decide)), ofBytes_shiftBytesR,
      length_shiftBytesR, hzero, Nat.zero_mul, Nat.zero_add, Nat.div_div_eq_div_mul, pow_split,
      Nat.mod_eq_of_lt hlt]
  case isFalse h =>
    rw [ofBytes_shiftBitsR (Nat.not_le.mp h), hzero, Nat.zero_mul, Nat.zero_add,
      Nat.mod_eq_of_lt hlt]

end Numbers

end Digest
