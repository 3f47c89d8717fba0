import FcModel.Crypto.DigestCommon

-- The shifts of digests in the memory of the caller, where every access to a buffer is checked:
-- nothing is returned if a byte outside of it is read or written.

namespace Digest.Buffers

open Raw Bigint

-- `memcpy( out + p, in + start, len )`.
def memcpy (out : Bytes) (p : Nat) (input : Bytes) (start len : Nat) : Option Bytes :=
  if start + len ≤ input.length ∧ p + len ≤ out.length then
    some (out.take p ++ ((input.drop start).take len ++ out.drop (p + len)))
  else none

-- `memset( out + p, 0, len )`.
def memset (out : Bytes) (p len : Nat) : Option Bytes :=
  if p + len ≤ out.length then some (out.take p ++ (List.replicate len 0 ++ out.drop (p + len)))
  else none

-- The memory in which the bits are shifted. `in8` may have been made to point to the output.
structure Memory where
  input   : Bytes
  out8    : Bytes
  inPlace : Bool

namespace Memory

def in8 (m : Memory) : Bytes :=
  if m.inPlace then m.out8 else m.input

def read (m : Memory) (p : Nat) : Option UInt8 :=
  m.in8[p]?

def set (m : Memory) (p : Nat) (c : UInt8) : Memory :=
  { m with out8 := m.out8.set p c }

def write (m : Memory) (p : Nat) (c : UInt8) : Option Memory :=
  if p < m.out8.length then some (m.set p c) else none

end Memory

-- The overloads of `shift_l` and `shift_r` that shift by whole bytes.
def shiftBytesL (input out : Bytes) (n : UInt64) (i : UInt32) : Option Bytes :=
  if i.toNat < n.toNat then do
    let out ← memcpy out 0 input i.toNat (n.toNat - i.toNat)
    memset out (n.toNat - i.toNat) i.toNat
  else
    memset out (n.toNat - n.toUInt32.toNat) n.toUInt32.toNat

def shiftBytesR (input out : Bytes) (n : UInt64) (i : UInt32) : Option Bytes :=
  if i.toNat < n.toNat then do
    let out ← memcpy out i.toNat input 0 (n.toNat - i.toNat)
    memset out 0 i.toNat
  else
    memset out 0 n.toUInt32.toNat

-- The loop of `shift_l`, of which `left` rounds are left, and the byte behind it.
def shiftBitsL (i : UInt32) : Nat → Nat → Memory → Option Bytes
  | 0, p, m        => do
    let c ← m.read p
    let m ← m.write p (.ofNat (c.toNat <<< i.toNat))
    return m.out8
  | left + 1, p, m => do
    let c  ← m.read p
    let c' ← m.read (p + 1)
    let m  ← m.write p (.ofNat (c.toNat <<< i.toNat ||| c'.toNat >>> (8 - i.toNat)))
    shiftBitsL i left (p + 1) m

-- The loop of `shift_r`, which counts `p` down, and the byte behind it.
def shiftBitsR (i : UInt32) : Nat → Memory → Option Bytes
  | 0, m     => do
    let c ← m.read 0
    let m ← m.write 0 (.ofNat (c.toNat >>> i.toNat))
    return m.out8
  | p + 1, m => do
    let c  ← m.read (p + 1)
    let c' ← m.read p
    let m  ← m.write (p + 1) (.ofNat (c.toNat >>> i.toNat ||| c'.toNat <<< (8 - i.toNat)))
    shiftBitsR i p m

def shiftL (input out : Bytes) (n : UInt64) (i : UInt32) : Option Bytes :=
  if 8 ≤ i then do
    let out ← shiftBytesL input out n (i / 8)
    shiftBitsL (i &&& 7) (n - 1).toNat 0 ⟨input, out, true⟩
  else
    shiftBitsL i (n - 1).toNat 0 ⟨input, out, false⟩

def shiftR (input out : Bytes) (n : UInt64) (i : UInt32) : Option Bytes :=
  if 8 ≤ i then do
    let out ← shiftBytesR input out n (i / 8)
    shiftBitsR (i &&& 7) (n - 1).toNat ⟨input, out, true⟩
  else
    shiftBitsR i (n - 1).toNat ⟨input, out, false⟩

section WholeBytes

variable {input out : Bytes} {n : UInt64} {i : UInt32}

-- A shift by all the bytes is not cut to 32 bits.
theorem toNat_toUInt32 (h : n.toNat ≤ i.toNat) : n.toUInt32.toNat = n.toNat := by
  have hi := i.toNat_lt
  rw [UInt64.toNat_toUInt32, Nat.mod_eq_of_lt (by omega)]

theorem shiftBytesL_eq (hi : input.length = n.toNat) (ho : out.length = n.toNat) :
    shiftBytesL input out n i = some (Digest.shiftBytesL input i.toNat) := by
  rw [shiftBytesL, Digest.shiftBytesL, hi]
  split
  case isTrue h =>
    have hcopy : memcpy out 0 input i.toNat (n.toNat - i.toNat) =
        some (input.drop i.toNat ++ out.drop (n.toNat - i.toNat)) := by
      rw [memcpy, if_pos (by omega), List.take_zero, List.nil_append, Nat.zero_add,
        List.take_of_length_le (by rw [List.length_drop]; omega)]
    have hsize : (input.drop i.toNat).length = n.toNat - i.toNat := by
      rw [List.length_drop, hi]
    have hall : (input.drop i.toNat ++ out.drop (n.toNat - i.toNat)).length = n.toNat := by
      rw [List.length_append, hsize, List.length_drop]
      omega
    have hsum : n.toNat - i.toNat + i.toNat = n.toNat := by omega
    rw [hcopy, Option.bind_eq_bind, Option.bind_some, memset, hsum, hall, if_pos (Nat.le_refl _),
      List.take_left' hsize, List.drop_of_length_le (Nat.le_of_eq hall), List.append_nil]
  case isFalse h =>
    rw [toNat_toUInt32 (Nat.not_lt.mp h), memset, Nat.sub_self, if_pos (by omega), Nat.zero_add,
      List.drop_of_length_le (Nat.le_of_eq ho), List.take_zero, List.nil_append, List.append_nil]

theorem shiftBytesR_eq (hi : input.length = n.toNat) (ho : out.length = n.toNat) :
    shiftBytesR input out n i = some (Digest.shiftBytesR input i.toNat) := by
  rw [shiftBytesR, Digest.shiftBytesR, hi]
  split
  case isTrue h =>
    have hsum : i.toNat + (n.toNat - i.toNat) = n.toNat := by omega
    have hcopy : memcpy out i.toNat input 0 (n.toNat - i.toNat) =
        some (out.take i.toNat ++ input.take (n.toNat - i.toNat)) := by
      rw [memcpy, if_pos (by omega), hsum, List.drop_zero,
        List.drop_of_length_le (Nat.le_of_eq ho), List.append_nil]
    have hsize : (out.take i.toNat).length = i.toNat := by
      rw [List.length_take]
      omega
    have hfits : 0 + i.toNat ≤ (out.take i.toNat ++ input.take (n.toNat - i.toNat)).length := by
      rw [List.length_append, hsize]
      omega
    rw [hcopy, Option.bind_eq_bind, Option.bind_some, memset, if_pos hfits, Nat.zero_add,
      List.drop_left' hsize, List.take_zero, List.nil_append]
  case isFalse h =>
    rw [toNat_toUInt32 (Nat.not_lt.mp h), memset, if_pos (by omega), Nat.zero_add,
      List.drop_of_length_le (Nat.le_of_eq ho), List.take_zero, List.nil_append, List.append_nil]

end WholeBytes

section Accesses

variable {m : Memory} {p : Nat} {c : UInt8} {d : Bytes}

theorem read_eq (h : m.in8.drop p = c :: d) : m.read p = some c := by
  rw [Memory.read, ← Nat.add_zero p, ← List.getElem?_drop, h]
  rfl

theorem write_eq (h : p < m.out8.length) (c : UInt8) : m.write p c = some (m.set p c) :=
  if_pos h

@[simp]
theorem length_set (m : Memory) (p : Nat) (c : UInt8) :
    (m.set p c).out8.length = m.out8.length :=
  List.length_set

theorem take_set (h : p < m.out8.length) (c : UInt8) :
    (m.set p c).out8.take (p + 1) = m.out8.take p ++ [c] := by
  rw [Memory.set, List.set_eq_take_append_cons_drop, if_pos h, ← List.singleton_append,
    ← List.append_assoc, List.take_left' (by simp; omega)]

theorem drop_set (h : p < m.out8.length) (c : UInt8) :
    (m.set p c).out8.drop p = c :: m.out8.drop (p + 1) := by
  rw [Memory.set, List.set_eq_take_append_cons_drop, if_pos h, List.drop_left' (by simp; omega)]

-- Bytes are overwritten only when they have been read: `shift_l` reads on behind them, `shift_r`
-- before them.
theorem drop_in8_set (m : Memory) (p : Nat) (c : UInt8) :
    (m.set p c).in8.drop (p + 1) = m.in8.drop (p + 1) := by
  rw [Memory.in8, Memory.in8, Memory.set]
  split
  case isTrue  => exact List.drop_set_of_lt (Nat.lt_succ_self p)
  case isFalse => rfl

theorem take_in8_set (m : Memory) (p : Nat) (c : UInt8) :
    (m.set p c).in8.take p = m.in8.take p := by
  rw [Memory.in8, Memory.in8, Memory.set]
  split
  case isTrue  => exact List.take_set_of_le (Nat.le_refl p)
  case isFalse => rfl

@[simp]
theorem length_in8_set (m : Memory) (p : Nat) (c : UInt8) :
    (m.set p c).in8.length = m.in8.length := by
  rw [Memory.in8, Memory.in8, Memory.set]
  split
  case isTrue  => exact List.length_set
  case isFalse => rfl

end Accesses

section Bits

variable {m : Memory} {i : UInt32} {p : Nat} {d : Bytes}

-- The bytes before `p` are done. The induction is on the bytes that are left.
theorem shiftBitsL_eq {left : Nat} (hd : m.in8.drop p = d) (hl : d.length = left + 1)
    (ho : m.out8.length = p + (left + 1)) :
    shiftBitsL i left p m = some (m.out8.take p ++ Digest.shiftBitsL i.toNat d) := by
  induction left generalizing p m d
  case zero =>
    obtain ⟨c, rfl⟩ := List.length_eq_one_iff.mp hl
    have hp : p < m.out8.length := by omega
    have hall := take_set hp (.ofNat (c.toNat <<< i.toNat))
    rw [List.take_of_length_le (by rw [length_set]; omega)] at hall
    simp only [shiftBitsL, read_eq hd, write_eq hp, Option.bind_eq_bind, Option.bind_some, hall]
    rfl
  case succ left hi =>
    obtain ⟨c, d, rfl⟩ := List.exists_cons_of_length_eq_add_one hl
    obtain ⟨c', d, rfl⟩ := List.exists_cons_of_length_eq_add_one (Nat.succ.inj hl)
    have hp : p < m.out8.length := by omega
    have hd' : m.in8.drop (p + 1) = c' :: d := by
      rw [← List.tail_drop, hd]
      rfl
    simp only [shiftBitsL, read_eq hd, read_eq hd', write_eq hp, Option.bind_eq_bind,
      Option.bind_some]
    rw [hi ((drop_in8_set ..).trans hd') (Nat.succ.inj hl) (by rw [length_set]; omega),
      take_set hp, List.append_assoc]
    rfl

theorem shiftBitsR_concat (i : Nat) (c x : UInt8) (d : Bytes) :
    Digest.shiftBitsR i c (d ++ [x]) =
      Digest.shiftBitsR i c d ++ [.ofNat (x.toNat >>> i ||| (d.getLastD c).toNat <<< (8 - i))] := by
  induction d generalizing c
  case nil          => rfl
  case cons c' d hi =>
    rw [List.cons_append, Digest.shiftBitsR, hi, List.getLastD_cons]
    rfl

-- The bytes behind `p` are done.
theorem shiftBitsR_eq (hd : p < m.in8.length) (ho : p < m.out8.length) :
    shiftBitsR i p m =
      some (Digest.shiftBitsR i.toNat 0 (m.in8.take (p + 1)) ++ m.out8.drop (p + 1)) := by
  induction p generalizing m
  case zero =>
    have hread : m.read 0 = some m.in8[0] := List.getElem?_eq_getElem hd
    have hall := drop_set ho (.ofNat (m.in8[0].toNat >>> i.toNat))
    have htake : m.in8.take (0 + 1) = [] ++ [m.in8[0]] := List.take_succ_eq_append_getElem hd
    have hzero : (0 : UInt8).toNat <<< (8 - i.toNat) = 0 := Nat.zero_shiftLeft _
    rw [List.drop_zero] at hall
    simp only [shiftBitsR, hread, write_eq ho, Option.bind_eq_bind, Option.bind_some, hall]
    rw [htake, shiftBitsR_concat, List.getLastD_nil, hzero, Nat.or_zero]
    rfl
  case succ p hi =>
    have hread : m.read (p + 1) = some m.in8[p + 1] := List.getElem?_eq_getElem hd
    have hread' : m.read p = some m.in8[p] := List.getElem?_eq_getElem (by omega)
    have htake : m.in8.take (p + 1 + 1) = m.in8.take (p + 1) ++ [m.in8[p + 1]] :=
      List.take_succ_eq_append_getElem hd
    have hlast : (m.in8.take (p + 1)).getLastD 0 = m.in8[p] := by
      rw [List.take_succ_eq_append_getElem (by omega), List.getLastD_concat]
    simp only [shiftBitsR, hread, hread', write_eq ho, Option.bind_eq_bind, Option.bind_some]
    rw [hi (by rw [length_in8_set]; omega) (by rw [length_set]; omega), take_in8_set, drop_set ho,
      htake,
      shiftBitsR_concat, hlast, List.append_assoc]
    rfl

end Bits

section Shifts

variable {input out : Bytes} {n : UInt64} {i : UInt32}

-- The loops over the whole output, with the input in either of the buffers.
theorem shiftBitsL_all {m : Memory} (hn : 1 ≤ n) (hi : m.in8.length = n.toNat)
    (ho : m.out8.length = n.toNat) :
    shiftBitsL i (n - 1).toNat 0 m = some (Digest.shiftBitsL i.toNat m.in8) := by
  have hpos : 1 ≤ n.toNat := UInt64.le_iff_toNat_le.mp hn
  have hlast : (n - 1).toNat = n.toNat - 1 := UInt64.toNat_sub_of_le _ _ hn
  rw [shiftBitsL_eq rfl (by rw [List.drop_zero]; omega) (by omega)]
  rfl

theorem shiftBitsR_all {m : Memory} (hn : 1 ≤ n) (hi : m.in8.length = n.toNat)
    (ho : m.out8.length = n.toNat) :
    shiftBitsR i (n - 1).toNat m = some (Digest.shiftBitsR i.toNat 0 m.in8) := by
  have hpos : 1 ≤ n.toNat := UInt64.le_iff_toNat_le.mp hn
  have hlast : (n - 1).toNat = n.toNat - 1 := UInt64.toNat_sub_of_le _ _ hn
  have hsum : n.toNat - 1 + 1 = n.toNat := Nat.sub_add_cancel hpos
  rw [shiftBitsR_eq (by omega) (by omega), hlast, hsum, List.take_of_length_le (Nat.le_of_eq hi),
    List.drop_of_length_le (Nat.le_of_eq ho), List.append_nil]

theorem toNat_parts (i : UInt32) :
    (8 ≤ i ↔ 8 ≤ i.toNat) ∧ (i / 8).toNat = i.toNat / 8 ∧ (i &&& 7).toNat = i.toNat &&& 7 :=
  ⟨UInt32.le_iff_toNat_le, UInt32.toNat_div .., UInt32.toNat_and ..⟩

theorem shiftL_eq (hn : 1 ≤ n) (hi : input.length = n.toNat) (ho : out.length = n.toNat) :
    shiftL input out n i = some (Digest.shiftL input i.toNat) := by
  obtain ⟨height, hbytes, hbits⟩ := toNat_parts i
  rw [shiftL, Digest.shiftL]
  by_cases h : 8 ≤ i
  case pos =>
    have hmoved : (Digest.shiftBytesL input (i.toNat / 8)).length = n.toNat :=
      (length_shiftBytesL ..).trans hi
    rw [if_pos h, if_pos (height.mp h), shiftBytesL_eq hi ho, Option.bind_eq_bind,
      Option.bind_some, hbytes, ← hbits]
    exact shiftBitsL_all (m := ⟨input, Digest.shiftBytesL input (i.toNat / 8), true⟩) hn hmoved
      hmoved
  case neg =>
    rw [if_neg h, if_neg (mt height.mpr h)]
    exact shiftBitsL_all (m := ⟨input, out, false⟩) hn hi ho

theorem shiftR_eq (hn : 1 ≤ n) (hi : input.length = n.toNat) (ho : out.length = n.toNat) :
    shiftR input out n i = some (Digest.shiftR input i.toNat) := by
  obtain ⟨height, hbytes, hbits⟩ := toNat_parts i
  rw [shiftR, Digest.shiftR]
  by_cases h : 8 ≤ i
  case pos =>
    have hmoved : (Digest.shiftBytesR input (i.toNat / 8)).length = n.toNat :=
      (length_shiftBytesR ..).trans hi
    rw [if_pos h, if_pos (height.mp h), shiftBytesR_eq hi ho, Option.bind_eq_bind,
      Option.bind_some, hbytes, ← hbits]
    exact shiftBitsR_all (m := ⟨input, Digest.shiftBytesR input (i.toNat / 8), true⟩) hn hmoved
      hmoved
  case neg =>
    rw [if_neg h, if_neg (mt height.mpr h)]
    exact shiftBitsR_all (m := ⟨input, out, false⟩) hn hi ho

-- No byte outside of the buffers is touched, and the output is the shifted number.
theorem shifts_exact (n : UInt64) (hn : 1 ≤ n) (input out : Bytes) (hi : input.length = n.toNat)
    (ho : out.length = n.toNat) (i : UInt32) :
    (∃ r, shiftL input out n i = some r ∧ r.length = n.toNat ∧
      ofBytes r = ofBytes input * 2 ^ i.toNat % 2 ^ (8 * n.toNat)) ∧
    ∃ r, shiftR input out n i = some r ∧ r.length = n.toNat ∧
      ofBytes r = ofBytes input / 2 ^ i.toNat := by
  have hpow : 2 ^ (8 * n.toNat) = 256 ^ input.length := by
    rw [hi, Nat.pow_mul]
  refine ⟨⟨_, shiftL_eq hn hi ho, (length_shiftL ..).trans hi, ?_⟩,
    _, shiftR_eq hn hi ho, (length_shiftR ..).trans hi, ofBytes_shiftR ..⟩
  rw [ofBytes_shiftL, hpow]

theorem shifts_exact_three :
    (∃ r, shiftL [1, 2, 3] [0, 0, 0] 3 12 = some r ∧ r.length = (3 : UInt64).toNat ∧
      ofBytes r = ofBytes [1, 2, 3] * 2 ^ (12 : UInt32).toNat % 2 ^ (8 * (3 : UInt64).toNat)) ∧
    ∃ r, shiftR [1, 2, 3] [0, 0, 0] 3 12 = some r ∧ r.length = (3 : UInt64).toNat ∧
      ofBytes r = ofBytes [1, 2, 3] / 2 ^ (12 : UInt32).toNat :=
  shifts_exact 3 (by decide) [1, 2, 3] [0, 0, 0] rfl rfl 12

end Shifts

end Digest.Buffers
