import FcModel.Crypto.DigestCommon
import FcModel.Lib.ApproxLog

-- `sha256` as a number: its leading zeros and the approximations of its logarithm.

structure Sha256 where
  data        : Bytes
  length_data : data.length = 32
deriving DecidableEq

namespace Sha256

-- The digest is a big-endian number.
def number (d : Sha256) : Nat :=
  Bigint.ofBytes d.data

-- `operator <<` and `operator >>`.
def shiftLeft (h1 : Sha256) (i : UInt32) : Sha256 where
  data        := Digest.shiftL h1.data i.toNat
  length_data := by rw [Digest.length_shiftL, h1.length_data]

def shiftRight (h1 : Sha256) (i : UInt32) : Sha256 where
  data        := Digest.shiftR h1.data i.toNat
  length_data := by rw [Digest.length_shiftR, h1.length_data]

-- An assignment to a byte of the digest.
def assign (d : Sha256) (i : Nat) (c : UInt8) : Sha256 where
  data        := d.data.set i c
  length_data := by rw [List.length_set, d.length_data]

def char2lzbits : List Nat :=
  [8, 7, 6, 6, 5, 5, 5, 5, 4, 4, 4, 4, 4, 4, 4, 4, 3, 3, 3, 3, 3, 3, 3, 3, 3, 3, 3, 3, 3,
    3, 3, 3] ++
    List.replicate 32 2 ++ List.replicate 64 1 ++ List.replicate 128 0

-- The loop of `clz`, with the bytes that are left.
def clzLoop : Bytes → Nat → Nat
  | [], _              => 0x100
  | c :: bytes, lzbits =>
    let lzbits := lzbits + char2lzbits.getD c.toNat 0
    if c ≠ 0 then lzbits else clzLoop bytes lzbits

def clz (d : Sha256) : UInt16 :=
  .ofNat (clzLoop d.data 0)

def approxLog32 (d : Sha256) : UInt32 :=
  let lzbits := d.clz
  if 0x100 ≤ lzbits then 0
  else
    let nzbits : UInt8 := (0xff - lzbits).toUInt8
    let offset := (lzbits >>> 3).toNat
    let byte (i : Nat) : UInt32 := (if i < 32 then d.data.getD i 0 else 0).toUInt32
    let y := byte offset <<< 0x18 ||| byte (offset + 1) <<< 0x10 ||| byte (offset + 2) <<< 0x08 |||
      byte (offset + 3)
    let y := y >>> (nzbits &&& 7).toUInt32
    let y := y ^^^ (1 : UInt32) <<< 0x18
    y ||| nzbits.toUInt32 <<< 0x18

def setToInverseApproxLog32 (x : UInt32) : Sha256 :=
  let nzbits := (x >>> 0x18).toUInt8
  let zero : Sha256 := ⟨List.replicate 32 0, List.length_replicate ..⟩
  if nzbits = 0 then zero
  else
    let x0 := (x &&& 0xff).toUInt8
    let x1 := (x >>> 0x08 &&& 0xff).toUInt8
    let x2 := (x >>> 0x10 &&& 0xff).toUInt8
    let d := (((zero.assign 0x1f x0).assign 0x1e x1).assign 0x1d x2).assign 0x1c 1
    if nzbits ≤ 0x18 then d.shiftRight (0x18 - nzbits).toUInt32
    else d.shiftLeft (nzbits - 0x18).toUInt32

section Clz

-- The bits of a byte, from the most significant one on.
def bits (c : UInt8) : List Bool :=
  (List.range 8).map fun i => c.toNat.testBit (7 - i)

-- How many bits are zero before the first one that is not.
def zeros (d : Bytes) : Nat :=
  ((d.flatMap bits).takeWhile (!·)).length

-- What the table says of a byte that is not zero.
structure LeadingZeros (c : UInt8) (k : Nat) : Prop where
  take : (bits c).take (k + 1) = List.replicate k false ++ [true]
  le   : 2 ^ (7 - k) ≤ c.toNat
  lt   : c.toNat < 2 ^ (8 - k)
  bits : k < 8

theorem leadingZeros_byte {c : UInt8} (h : c ≠ 0) :
    LeadingZeros c (char2lzbits.getD c.toNat 0) := by
  have htable : ∀ n : Fin 256, n ≠ 0 →
      (bits (.ofNat n)).take (char2lzbits.getD n 0 + 1) =
        List.replicate (char2lzbits.getD n 0) false ++ [true] ∧
      2 ^ (7 - char2lzbits.getD n 0) ≤ n.val ∧ n.val < 2 ^ (8 - char2lzbits.getD n 0) ∧
      char2lzbits.getD n 0 < 8 := by
    decide +kernel
  have hne : (⟨c.toNat, c.toNat_lt⟩ : Fin 256) ≠ 0 := fun he =>
    h (UInt8.toNat_inj.mp (congrArg Fin.val he))
  obtain ⟨htake, hle, hlt, hbits⟩ := htable ⟨c.toNat, c.toNat_lt⟩ hne
  rw [UInt8.ofNat_toNat] at htake
  exact ⟨htake, hle, hlt, hbits⟩

theorem zeros_zero (d : Bytes) : zeros (0 :: d) = 8 + zeros d := by
  have hbits : bits 0 = List.replicate 8 false := by decide
  rw [zeros, List.flatMap_cons, hbits, List.takeWhile_append_of_pos (by decide), List.length_append,
    List.length_replicate, zeros]

theorem zeros_cons {c : UInt8} (h : c ≠ 0) (d : Bytes) :
    zeros (c :: d) = char2lzbits.getD c.toNat 0 := by
  have hc := (leadingZeros_byte h).take
  generalize char2lzbits.getD c.toNat 0 = k at hc
  have hbits : bits c = List.replicate k false ++ true :: (bits c).drop (k + 1) := by
    conv => lhs; rw [← List.take_append_drop (k + 1) (bits c), hc]
    rw [List.append_assoc, List.singleton_append]
  rw [zeros, List.flatMap_cons, hbits, List.append_assoc, List.cons_append,
    List.takeWhile_append_of_pos (by simp), List.takeWhile_cons_of_neg (by decide), List.append_nil,
    List.length_replicate]

-- The loop adds the leading zeros of the bytes, but for bytes that are all zero.
theorem clzLoop_eq (d : Bytes) (lzbits : Nat) :
    clzLoop d lzbits = if ∀ c ∈ d, c = 0 then 0x100 else lzbits + zeros d := by
  induction d generalizing lzbits
  case nil => rw [clzLoop, if_pos fun _ hc => absurd hc List.not_mem_nil]
  case cons c d hi =>
    rw [clzLoop]
    by_cases hc : c = 0
    case pos =>
      have htable : char2lzbits.getD (0 : UInt8).toNat 0 = 8 := by decide
      rw [hc, if_neg (not_not.mpr rfl), hi, htable, zeros_zero, Nat.add_assoc]
      simp only [List.forall_mem_cons, true_and]
    case neg =>
      have hall : ¬∀ b ∈ c :: d, b = 0 := fun hall => hc (hall c (List.mem_cons_self ..))
      rw [if_pos hc, if_neg hall, zeros_cons hc]

theorem zeros_of_all {d : Bytes} (h : ∀ c ∈ d, c = 0) : zeros d = 8 * d.length := by
  induction d
  case nil => rfl
  case cons c d hi =>
    rw [List.forall_mem_cons] at h
    rw [h.left, zeros_zero, hi h.right, List.length_cons, Nat.mul_succ, Nat.add_comm]

theorem ofBytes_of_all {d : Bytes} (h : ∀ c ∈ d, c = 0) : Bigint.ofBytes d = 0 := by
  rw [List.eq_replicate_iff.mpr ⟨rfl, h⟩, Bigint.ofBytes_zeros]

-- The first bit that is not zero determines the size of the number.
structure Sized (d : Bytes) (n : Nat) : Prop where
  zeros : zeros d + n + 1 = 8 * d.length
  le    : 2 ^ n ≤ Bigint.ofBytes d
  lt    : Bigint.ofBytes d < 2 ^ (n + 1)

theorem exists_sized {d : Bytes} (h : ¬∀ c ∈ d, c = 0) : ∃ n, Sized d n := by
  induction d
  case nil => exact absurd (fun _ hc => absurd hc List.not_mem_nil) h
  case cons c d hi =>
    by_cases hc : c = 0
    case pos =>
      subst hc
      have hd : ¬∀ c ∈ d, c = 0 := fun hd => h (List.forall_mem_cons.mpr ⟨rfl, hd⟩)
      obtain ⟨n, hn⟩ := hi hd
      have hnumber : Bigint.ofBytes (0 :: d) = Bigint.ofBytes d := by
        rw [Bigint.ofBytes_cons, UInt8.toNat_zero, Nat.zero_mul, Nat.zero_add]
      refine ⟨n, ?_, hnumber ▸ hn.le, hnumber ▸ hn.lt⟩
      have hzeros := hn.zeros
      rw [zeros_zero, List.length_cons]
      omega
    case neg =>
      have hb := leadingZeros_byte hc
      have hz := zeros_cons hc d
      generalize char2lzbits.getD c.toNat 0 = k at hb hz
      have hlt := Bigint.ofBytes_lt d
      have hbits := hb.bits
      have hpow : 2 ^ (7 - k) * 256 ^ d.length = 2 ^ (7 - k + 8 * d.length) := by
        rw [Nat.pow_add, Nat.pow_mul]
      refine ⟨7 - k + 8 * d.length, ?_, ?_, ?_⟩
      case refine_1 =>
        rw [hz, List.length_cons]
        omega
      case refine_2 =>
        rw [← hpow, Bigint.ofBytes_cons]
        exact (Nat.mul_le_mul_right _ hb.le).trans (Nat.le_add_right ..)
      case refine_3 =>
        have hsucc : 2 ^ (8 - k) * 256 ^ d.length = 2 ^ (7 - k + 8 * d.length + 1) := by
          rw [Nat.pow_succ, ← hpow, Nat.mul_right_comm, ← Nat.pow_succ]
          congr 2
          omega
        rw [← hsucc, Bigint.ofBytes_cons]
        calc c.toNat * 256 ^ d.length + Bigint.ofBytes d
          _ < c.toNat * 256 ^ d.length + 256 ^ d.length := Nat.add_lt_add_left hlt _
          _ = (c.toNat + 1) * 256 ^ d.length            := (Nat.succ_mul ..).symm
          _ ≤ 2 ^ (8 - k) * 256 ^ d.length              := Nat.mul_le_mul_right _ hb.lt

-- `clz` counts the leading zeros.
theorem toNat_clz (d : Sha256) : d.clz.toNat = zeros d.data := by
  have hlength := d.length_data
  have hloop : clzLoop d.data 0 = zeros d.data := by
    rw [clzLoop_eq]
    split
    case isTrue h  => rw [zeros_of_all h, hlength]
    case isFalse h => exact Nat.zero_add _
  have hle : zeros d.data ≤ 256 := by
    by_cases h : ∀ c ∈ d.data, c = 0
    case pos => rw [zeros_of_all h, hlength]
    case neg =>
      obtain ⟨n, hn⟩ := exists_sized h
      have hzeros := hn.zeros
      omega
  rw [clz, hloop, UInt16.toNat_ofNat_of_lt' (show zeros d.data < 2 ^ 16 by omega)]

end Clz

section ApproxLog

theorem toNat_shiftLeft_byte (c : UInt8) {i : UInt32} (h : i.toNat ≤ 24) :
    (c.toUInt32 <<< i).toNat = c.toNat <<< i.toNat := by
  have hc := c.toNat_lt
  have hpow : 2 ^ i.toNat ≤ 2 ^ 24 := Nat.pow_le_pow_right (by decide) h
  have hlt : c.toNat * 2 ^ i.toNat < 2 ^ 32 :=
    calc c.toNat * 2 ^ i.toNat
      _ ≤ c.toNat * 2 ^ 24 := Nat.mul_le_mul_left _ hpow
      _ < 2 ^ 32           := by omega
  rw [UInt32.toNat_shiftLeft, UInt8.toNat_toUInt32, Nat.mod_eq_of_lt (show i.toNat < 32 by omega),
    Nat.shiftLeft_eq, Nat.mod_eq_of_lt hlt]

-- The four bytes of a big-endian word.
theorem toNat_word (a b c d : UInt8) :
    (a.toUInt32 <<< 0x18 ||| b.toUInt32 <<< 0x10 ||| c.toUInt32 <<< 0x08 ||| d.toUInt32).toNat =
      Bigint.ofBytes [a, b, c, d] := by
  have hor : ∀ {x y i : Nat}, y < 2 ^ i → x <<< i ||| y = x * 2 ^ i + y := fun h => by
    rw [← Nat.shiftLeft_add_eq_or_of_lt h, Nat.shiftLeft_eq]
  have hb : b.toNat <<< 16 < 2 ^ 24 := by
    have hb := b.toNat_lt
    rw [Nat.shiftLeft_eq]
    omega
  have hc : c.toNat <<< 8 < 2 ^ 16 := by
    have hc := c.toNat_lt
    rw [Nat.shiftLeft_eq]
    omega
  have hab : a.toNat <<< 24 ||| b.toNat <<< 16 = (a.toNat * 256 + b.toNat) <<< 16 := by
    rw [hor hb, Nat.shiftLeft_eq, Nat.shiftLeft_eq]
    omega
  have habc : (a.toNat * 256 + b.toNat) <<< 16 ||| c.toNat <<< 8 =
      ((a.toNat * 256 + b.toNat) * 256 + c.toNat) <<< 8 := by
    rw [hor hc, Nat.shiftLeft_eq, Nat.shiftLeft_eq]
    omega
  have hnumber : Bigint.ofBytes [a, b, c, d] =
      ((a.toNat * 256 + b.toNat) * 256 + c.toNat) * 2 ^ 8 + d.toNat := by
    have hnil : Bigint.ofBytes [] = 0 := rfl
    simp only [Bigint.ofBytes_cons, List.length_cons, List.length_nil, hnil]
    omega
  rw [UInt32.toNat_or, UInt32.toNat_or, UInt32.toNat_or, toNat_shiftLeft_byte a (by decide),
    toNat_shiftLeft_byte b (by decide), toNat_shiftLeft_byte c (by decide), UInt8.toNat_toUInt32]
  change a.toNat <<< 24 ||| b.toNat <<< 16 ||| c.toNat <<< 8 ||| d.toNat = _
  rw [hab, habc, hor d.toNat_lt, hnumber]

theorem take_four : ∀ {l : Bytes}, 4 ≤ l.length →
    l.take 4 = [l.getD 0 0, l.getD 1 0, l.getD 2 0, l.getD 3 0]
  | _ :: _ :: _ :: _ :: _, _ => rfl

-- What is read behind the first `o` bytes, with zeros behind the digest.
def window (data : Bytes) (o : Nat) : Bytes :=
  [data.getD o 0, data.getD (o + 1) 0, data.getD (o + 2) 0, data.getD (o + 3) 0]

theorem window_eq {d : Bytes} (hd : d.length = 32) {o : Nat} (ho : o ≤ 31) :
    window d o = ((d ++ List.replicate 3 0).drop o).take 4 := by
  have hget : ∀ i, d.getD i 0 = (d ++ List.replicate 3 0).getD i 0 := by
    intro i
    rw [List.getD_eq_getElem?_getD, List.getD_eq_getElem?_getD, List.getElem?_append]
    split
    case isTrue    => rfl
    case isFalse h =>
      rw [List.getElem?_eq_none (Nat.not_lt.mp h), List.getElem?_replicate]
      split <;> rfl
  have hdrop : ∀ i, d.getD (o + i) 0 = ((d ++ List.replicate 3 0).drop o).getD i 0 := by
    intro i
    rw [hget, List.getD_eq_getElem?_getD, List.getD_eq_getElem?_getD, List.getElem?_drop]
  have hlength : 4 ≤ ((d ++ List.replicate 3 0).drop o).length := by
    rw [List.length_drop, List.length_append, List.length_replicate, hd]
    omega
  rw [take_four hlength, window, ← hdrop, ← hdrop, ← hdrop, ← hdrop]
  rfl

-- If the bytes before it are zero, the window holds the first bits of the number.
theorem ofBytes_window {d : Bytes} (hd : d.length = 32) {o : Nat} (ho : o ≤ 31)
    (h : Bigint.ofBytes d < 256 ^ (32 - o)) :
    Bigint.ofBytes (window d o) = Bigint.ofBytes d * 2 ^ 24 / 256 ^ (31 - o) := by
  have hnumber : Bigint.ofBytes (d ++ List.replicate 3 0) = Bigint.ofBytes d * 2 ^ 24 := by
    rw [Bigint.ofBytes_append, Bigint.ofBytes_zeros, List.length_replicate, Nat.zero_add,
      Nat.mul_comm]
    rfl
  have hlength : (d ++ List.replicate 3 0).length = 35 := by
    rw [List.length_append, List.length_replicate, hd]
  have hbefore : Bigint.ofBytes ((d ++ List.replicate 3 0).take o) = 0 := by
    rw [List.take_append_of_le_length (by omega), Bigint.ofBytes_take, hd, Nat.div_eq_of_lt h]
  have hsplit := Bigint.ofBytes_append ((d ++ List.replicate 3 0).take o)
    (((d ++ List.replicate 3 0).drop o).take 4)
  rw [← List.take_add, hbefore, Nat.mul_zero, Nat.add_zero, Bigint.ofBytes_take, hlength,
    hnumber] at hsplit
  have hexp : 35 - (o + 4) = 31 - o := by omega
  rw [hexp] at hsplit
  rw [window_eq hd ho]
  exact hsplit.symm

-- Below the most significant bit, which is at 24, comes the number of that bit.
theorem toNat_pack {y nzbits : UInt32} (hle : 2 ^ 24 ≤ y.toNat) (hlt : y.toNat < 2 ^ 25)
    (hn : nzbits.toNat < 2 ^ 8) :
    (y ^^^ (1 : UInt32) <<< 0x18 ||| nzbits <<< 0x18).toNat =
      nzbits.toNat * 2 ^ 24 + (y.toNat - 2 ^ 24) := by
  have hone : ((1 : UInt32) <<< 0x18).toNat = 2 ^ 24 := rfl
  have hxor : y.toNat ^^^ 2 ^ 24 = y.toNat - 2 ^ 24 := by
    have hquot : y.toNat / 2 ^ 24 = 1 := by omega
    have hdiv : (y.toNat ^^^ 2 ^ 24) / 2 ^ 24 = 0 := by
      rw [Nat.xor_div_two_pow, hquot]
      rfl
    have hmod : (y.toNat ^^^ 2 ^ 24) % 2 ^ 24 = y.toNat % 2 ^ 24 := by
      rw [Nat.xor_mod_two_pow, Nat.mod_self, Nat.xor_zero]
    omega
  have hshift : (nzbits <<< 0x18).toNat = nzbits.toNat <<< 24 := by
    have hbits : (0x18 : UInt32).toNat % 32 = 24 := rfl
    rw [UInt32.toNat_shiftLeft, hbits, Nat.shiftLeft_eq, Nat.mod_eq_of_lt (by omega)]
  rw [UInt32.toNat_or, UInt32.toNat_xor, hone, hxor, hshift, Nat.lor_comm,
    ← Nat.shiftLeft_add_eq_or_of_lt (by omega), Nat.shiftLeft_eq]

theorem toNat_approxLog32 (d : Sha256) : d.approxLog32.toNat = ApproxLog.approxLog 24 d.number := by
  have hclz := d.toNat_clz
  by_cases hall : ∀ c ∈ d.data, c = 0
  case pos =>
    rw [zeros_of_all hall, d.length_data] at hclz
    have h100 : 0x100 ≤ d.clz := by
      rw [UInt16.le_iff_toNat_le, hclz]
      decide
    rw [approxLog32]
    dsimp only
    rw [if_pos h100, number, ofBytes_of_all hall]
    rfl
  case neg =>
    obtain ⟨n, hn⟩ := exists_sized hall
    have hzeros := hn.zeros
    rw [← hclz, d.length_data] at hzeros
    have h100 : ¬0x100 ≤ d.clz := by
      rw [UInt16.le_iff_toNat_le]
      change ¬256 ≤ _
      omega
    have hne : d.number ≠ 0 := Nat.ne_of_gt (Nat.lt_of_lt_of_le (Nat.two_pow_pos n) hn.le)
    have hlog : Nat.log 2 d.number = n := Nat.log_eq_of_pow_le_of_lt_pow hn.le hn.lt
    have hnz : (0xff - d.clz).toUInt8.toNat = n := by
      have hff : (0xff : UInt16).toNat = 255 := rfl
      rw [UInt16.toNat_toUInt8, UInt16.toNat_sub_of_le, hff]
      · omega
      · rw [UInt16.le_iff_toNat_le, hff]
        omega
    have hoffset : (d.clz >>> 3).toNat = 31 - n / 8 := by
      have hthree : (3 : UInt16).toNat % 16 = 3 := rfl
      rw [UInt16.toNat_shiftRight, hthree, Nat.shiftRight_eq_div_pow]
      omega
    have hbyte : ∀ i, (if i < 32 then d.data.getD i 0 else 0) = d.data.getD i 0 := by
      intro i
      split
      case isTrue    => rfl
      case isFalse h => rw [List.getD_eq_default _ _ (d.length_data.trans_le (Nat.not_lt.mp h))]
    rw [approxLog32]
    dsimp only
    rw [if_neg h100, hoffset]
    generalize (0xff - d.clz).toUInt8 = nzbits at hnz ⊢
    simp only [hbyte]
    have hword := toNat_word (d.data.getD (31 - n / 8) 0) (d.data.getD (31 - n / 8 + 1) 0)
      (d.data.getD (31 - n / 8 + 2) 0) (d.data.getD (31 - n / 8 + 3) 0)
    generalize (d.data.getD (31 - n / 8) 0).toUInt32 <<< 0x18 |||
      (d.data.getD (31 - n / 8 + 1) 0).toUInt32 <<< 0x10 |||
      (d.data.getD (31 - n / 8 + 2) 0).toUInt32 <<< 0x08 |||
      (d.data.getD (31 - n / 8 + 3) 0).toUInt32 = y at hword ⊢
    have hy : (y >>> (nzbits &&& 7).toUInt32).toNat = ApproxLog.mantissa 24 d.number := by
      have hseven : (nzbits &&& 7).toUInt32.toNat % 32 = n % 8 := by
        have h7 : (7 : UInt8).toNat = 7 := rfl
        rw [UInt8.toNat_toUInt32, UInt8.toNat_and, hnz, h7, Digest.and_seven]
        omega
      have hbound : Bigint.ofBytes d.data < 256 ^ (32 - (31 - n / 8)) := by
        have h256 : (256 : Nat) = 2 ^ 8 := rfl
        refine hn.lt.trans_le ?_
        rw [h256, ← Nat.pow_mul]
        exact Nat.pow_le_pow_right (by decide) (by omega)
      have hindex : 31 - (31 - n / 8) = n / 8 := by omega
      rw [UInt32.toNat_shiftRight, hword, hseven]
      change Bigint.ofBytes (window d.data (31 - n / 8)) >>> (n % 8) = _
      rw [ofBytes_window d.length_data (by omega) hbound, hindex, Nat.shiftRight_eq_div_pow,
        Nat.div_div_eq_div_mul, Digest.pow_split, ApproxLog.mantissa, hlog]
      rfl
    have hpack := @toNat_pack _ nzbits.toUInt32 (hy ▸ ApproxLog.le_mantissa 24 hne)
      (hy ▸ ApproxLog.mantissa_lt 24 d.number) nzbits.toNat_lt
    rw [hpack, hy, ApproxLog.approxLog, if_neg hne, hlog, UInt8.toNat_toUInt32, hnz]

end ApproxLog

section Inverse

-- The top byte of a logarithm, and the bits below it.
def top (x : UInt32) : Nat :=
  (x >>> 0x18).toUInt8.toNat

def low (x : UInt32) : Nat :=
  x.toNat % 2 ^ 24

theorem top_eq (x : UInt32) : top x = x.toNat / 2 ^ 24 := by
  have hbits : (0x18 : UInt32).toNat % 32 = 24 := rfl
  have hx := x.toNat_lt
  rw [top, UInt32.toNat_toUInt8, UInt32.toNat_shiftRight, hbits, Nat.shiftRight_eq_div_pow]
  omega

theorem top_low (x : UInt32) : top x * 2 ^ 24 + low x = x.toNat := by
  rw [top_eq, low, Nat.mul_comm]
  exact Nat.div_add_mod ..

theorem toNat_byte (x : UInt32) (i : UInt32) (h : i.toNat < 32) :
    (x >>> i &&& 0xff).toUInt8.toNat = x.toNat / 2 ^ i.toNat % 256 := by
  have hff : (0xff : UInt32).toNat = 2 ^ 8 - 1 := rfl
  rw [UInt32.toNat_toUInt8, UInt32.toNat_and, hff, Nat.and_two_pow_sub_one_eq_mod,
    UInt32.toNat_shiftRight, Nat.mod_eq_of_lt h, Nat.shiftRight_eq_div_pow]
  omega

-- The digest before it is shifted: a one in front of the low bits.
def assigned (x : UInt32) : Bytes :=
  List.replicate 28 (0 : UInt8) ++ [(1 : UInt8), (x >>> 0x10 &&& 0xff).toUInt8,
    (x >>> 0x08 &&& 0xff).toUInt8, (x &&& 0xff).toUInt8]

theorem ofBytes_assigned (x : UInt32) : Bigint.ofBytes (assigned x) = 2 ^ 24 + low x := by
  have h16 := toNat_byte x 0x10 (by decide)
  have h8 := toNat_byte x 0x08 (by decide)
  have h0 : (x &&& 0xff).toUInt8.toNat = x.toNat % 256 := by
    have hff : (0xff : UInt32).toNat = 2 ^ 8 - 1 := rfl
    rw [UInt32.toNat_toUInt8, UInt32.toNat_and, hff, Nat.and_two_pow_sub_one_eq_mod, Nat.mod_mod]
  have hsixteen : (0x10 : UInt32).toNat = 16 := rfl
  have height : (0x08 : UInt32).toNat = 8 := rfl
  have hone : (1 : UInt8).toNat = 1 := rfl
  have hnil : Bigint.ofBytes [] = 0 := rfl
  simp only [assigned, Bigint.ofBytes_append, Bigint.ofBytes_zeros, Bigint.ofBytes_cons,
    List.length_cons,
    List.length_nil, hnil, h16, h8, h0, hone, low, hsixteen, height]
  omega

theorem number_setToInverseApproxLog32 {x : UInt32} (h : 1 ≤ top x) :
    (setToInverseApproxLog32 x).number =
      if top x ≤ 24 then (2 ^ 24 + low x) / 2 ^ (24 - top x)
      else (2 ^ 24 + low x) * 2 ^ (top x - 24) := by
  have hnz : ¬(x >>> 0x18).toUInt8 = 0 := by
    intro h0
    rw [top, h0] at h
    exact absurd h (by decide)
  have hlt : top x < 256 := UInt8.toNat_lt _
  have hnumber := ofBytes_assigned x
  have hbits : (0x18 : UInt8).toNat = 24 := rfl
  rw [setToInverseApproxLog32]
  dsimp only
  rw [if_neg hnz, number]
  split
  case isTrue hle =>
    have hshift : ((0x18 : UInt8) - (x >>> 0x18).toUInt8).toUInt32.toNat = 24 - top x := by
      rw [UInt8.toNat_toUInt32, UInt8.toNat_sub_of_le _ _ hle, hbits, top]
    rw [if_pos (show top x ≤ 24 from hle), ← hshift, ← hnumber]
    exact Digest.ofBytes_shiftR ..
  case isFalse hle =>
    have hge : (0x18 : UInt8) ≤ (x >>> 0x18).toUInt8 := UInt8.le_of_lt (UInt8.not_le.mp hle)
    have hshift : ((x >>> 0x18).toUInt8 - 0x18).toUInt32.toNat = top x - 24 := by
      rw [UInt8.toNat_toUInt32, UInt8.toNat_sub_of_le _ _ hge, hbits, top]
    have hlow : low x < 2 ^ 24 := Nat.mod_lt _ (by decide)
    have hfits : (2 ^ 24 + low x) * 2 ^ (top x - 24) < 256 ^ 32 :=
      calc (2 ^ 24 + low x) * 2 ^ (top x - 24)
        _ < 2 ^ 25 * 2 ^ (top x - 24) := Nat.mul_lt_mul_of_pos_right (by omega) (Nat.two_pow_pos _)
        _ = 2 ^ (25 + (top x - 24))   := (Nat.pow_add ..).symm
        _ ≤ 2 ^ 256                   := Nat.pow_le_pow_right (by decide) (by omega)
        _ = 256 ^ 32                  := by decide
    rw [if_neg (show ¬top x ≤ 24 from hle), ← Nat.mod_eq_of_lt hfits, ← hshift, ← hnumber]
    exact Digest.ofBytes_shiftL ..

-- The low bits of a logarithm below 24 are lost when the digest is shifted to the right.
theorem toNat_approxLog32_inverse {x : UInt32} (h : 1 ≤ top x) :
    (setToInverseApproxLog32 x).approxLog32.toNat =
      if top x ≤ 24 then top x * 2 ^ 24 + low x / 2 ^ (24 - top x) * 2 ^ (24 - top x)
      else x.toNat := by
  have hlow : low x < 2 ^ 24 := Nat.mod_lt _ (by decide)
  rw [toNat_approxLog32, number_setToInverseApproxLog32 h]
  split
  case isTrue hle  => exact ApproxLog.approxLog_div hlow hle
  case isFalse hle =>
    rw [ApproxLog.approxLog_mul hlow (Nat.le_of_not_le hle), top_low]

-- The low bits of a word, cleared.
theorem toNat_clear (x : UInt32) {i : UInt32} (h : i.toNat < 32) :
    ((x >>> i) <<< i).toNat = x.toNat / 2 ^ i.toNat * 2 ^ i.toNat := by
  have hle : x.toNat / 2 ^ i.toNat * 2 ^ i.toNat < 2 ^ 32 :=
    (Nat.div_mul_le_self ..).trans_lt x.toNat_lt
  rw [UInt32.toNat_shiftLeft, UInt32.toNat_shiftRight, Nat.mod_eq_of_lt h, Nat.shiftLeft_eq,
    Nat.shiftRight_eq_div_pow, Nat.mod_eq_of_lt hle]

theorem approxLog32_setToInverse {x : UInt32} (h : 24 ≤ top x) :
    (setToInverseApproxLog32 x).approxLog32 = x := by
  rw [← UInt32.toNat_inj, toNat_approxLog32_inverse (Nat.le_trans (by decide) h)]
  split
  case isTrue hle =>
    have htop := top_low x
    have heq : 24 - top x = 0 := Nat.sub_eq_zero_of_le h
    rw [heq, Nat.pow_zero, Nat.div_one, Nat.mul_one, htop]
  case isFalse => rfl

theorem approxLog32_setToInverse_cleared {x : UInt32} (h : 1 ≤ top x) (hlt : top x < 24) :
    (setToInverseApproxLog32 x).approxLog32 =
      (x >>> .ofNat (24 - top x)) <<< .ofNat (24 - top x) := by
  have hshift : (UInt32.ofNat (24 - top x)).toNat = 24 - top x :=
    UInt32.toNat_ofNat_of_lt' (show 24 - top x < 2 ^ 32 by omega)
  have htop := top_low x
  have hpow : top x * 2 ^ 24 = top x * 2 ^ top x * 2 ^ (24 - top x) := by
    rw [Nat.mul_assoc, ← Nat.pow_add, Nat.add_sub_cancel' (Nat.le_of_lt hlt)]
  rw [← UInt32.toNat_inj, toNat_approxLog32_inverse h, toNat_clear x (by omega), hshift,
    if_pos (Nat.le_of_lt hlt), ← htop, hpow, Nat.mul_comm _ (2 ^ (24 - top x)),
    Nat.mul_add_div (Nat.two_pow_pos _), Nat.add_mul, Nat.mul_comm (2 ^ (24 - top x))]

end Inverse

-- The logarithms grow with the digests, and `setToInverseApproxLog32` is an inverse of them up to
-- the bits that a digest below `2 ^ 24` has no place for.
theorem approxLog32_correct :
    (∀ a b : Sha256, a.number ≤ b.number → a.approxLog32 ≤ b.approxLog32) ∧
    (∀ x, 24 ≤ top x → (setToInverseApproxLog32 x).approxLog32 = x) ∧
    (∀ x, 1 ≤ top x → top x < 24 → (setToInverseApproxLog32 x).approxLog32 =
      (x >>> .ofNat (24 - top x)) <<< .ofNat (24 - top x)) ∧
    ∀ d : Sha256, d.clz.toNat = zeros d.data := by
  refine ⟨?monotone, fun _ => approxLog32_setToInverse,
    fun _ => approxLog32_setToInverse_cleared, toNat_clz⟩
  intro a b h
  rw [UInt32.le_iff_toNat_le, toNat_approxLog32, toNat_approxLog32]
  exact ApproxLog.monotone_approxLog 24 h

theorem approxLog32_correct_samples :
    (setToInverseApproxLog32 0x17ffffff).approxLog32 ≤
        (setToInverseApproxLog32 0x19abcdef).approxLog32 ∧
      (setToInverseApproxLog32 0x19abcdef).approxLog32 = 0x19abcdef ∧
      (setToInverseApproxLog32 0x17ffffff).approxLog32 = 0x17fffffe := by
  refine ⟨?_, ?_, ?_⟩
  case refine_1 => exact approxLog32_correct.left _ _ (by decide +kernel)
  case refine_2 => exact approxLog32_correct.right.left _ (by decide +kernel)
  case refine_3 =>
    exact approxLog32_correct.right.right.left 0x17ffffff (by decide +kernel) (by decide +kernel)

end Sha256
