import FcModel.Raw.Scalar
import FcModel.Uint128.Text

-- `fc::bigint`, whose numbers of OpenSSL are natural numbers here.

namespace Bigint

open Raw

-- `BN_bin2bn`: the bytes are big-endian.
def ofBytes (bige : Bytes) : Nat :=
  ofLE bige.reverse

-- `BN_bn2bin`, without leading zeros.
def toBytes (n : Nat) : Bytes :=
  ((Nat.digits 256 n).map UInt8.ofNat).reverse

def bswap64 (x : UInt64) : UInt64 :=
  .ofNat (ofLE (toLE 8 x.toNat).reverse)

-- The constructor from an integer.
def ofUInt64 (value : UInt64) : Nat :=
  ofBytes (toLE 8 (bswap64 value).toNat)

-- `uint128::operator bigint`.
def ofUint128 (a : Uint128) : Nat :=
  let tmp : Uint128 := ⟨bswap64 a.hi, bswap64 a.lo⟩
  ofBytes (toLE 8 tmp.hi.toNat ++ toLE 8 tmp.lo.toNat)

-- `uint128::uint128( const bigint& )`, through the decimal text of `BN_bn2dec`.
def toUint128 (bi : Nat) : Except Uint128.Halt Uint128 :=
  Uint128.ofString (Decimal.ofNat bi)

theorem ofLE_eq_ofDigits (bs : Bytes) : ofLE bs = Nat.ofDigits 256 (bs.map UInt8.toNat) := by
  induction bs
  case nil          => rfl
  case cons b bs hi => rw [ofLE, List.map_cons, Nat.ofDigits_cons, hi]

theorem ofLE_append (bs cs : Bytes) : ofLE (bs ++ cs) = ofLE bs + 256 ^ bs.length * ofLE cs := by
  simp only [ofLE_eq_ofDigits, List.map_append, Nat.ofDigits_append, List.length_map]

-- The memory of a swapped integer.
theorem toLE_bswap64 (x : UInt64) : toLE 8 (bswap64 x).toNat = (toLE 8 x.toNat).reverse := by
  have hlen : (toLE 8 x.toNat).reverse.length = 8 := by simp
  have hlt := ofLE_lt (toLE 8 x.toNat).reverse
  rw [hlen] at hlt
  rw [bswap64, UInt64.toNat_ofNat_of_lt' (Nat.lt_of_lt_of_eq hlt (by decide))]
  have h := toLE_ofLE (toLE 8 x.toNat).reverse
  rwa [hlen] at h

theorem ofLE_toLE_toNat (x : UInt64) : ofLE (toLE 8 x.toNat) = x.toNat := by
  rw [ofLE_toLE]
  exact Nat.mod_eq_of_lt (Nat.lt_of_lt_of_eq x.toNat_lt (by decide))

theorem ofUInt64_eq (value : UInt64) : ofUInt64 value = value.toNat := by
  rw [ofUInt64, ofBytes, toLE_bswap64, List.reverse_reverse, ofLE_toLE_toNat]

theorem ofUint128_eq (a : Uint128) : ofUint128 a = a.val := by
  simp only [ofUint128, ofBytes, toLE_bswap64, List.reverse_append, List.reverse_reverse,
    ofLE_append,
    ofLE_toLE_toNat, length_toLE, Uint128.val]
  omega

theorem toUint128_spec (n : Nat) : ∃ w, toUint128 n = .ok w ∧ w.val = n % 2 ^ 128 :=
  Uint128.ofString_ofNat n

theorem ofBytes_toBytes (n : Nat) : ofBytes (toBytes n) = n := by
  have hmap : ((Nat.digits 256 n).map UInt8.ofNat).map UInt8.toNat = Nat.digits 256 n := by
    rw [List.map_map]
    refine (List.map_congr_left fun d hd => ?_).trans (List.map_id _)
    exact UInt8.toNat_ofNat_of_lt' (Nat.digits_lt_base (by decide) hd)
  rw [ofBytes, toBytes, List.reverse_reverse, ofLE_eq_ofDigits, hmap, Nat.ofDigits_digits]

section Data

variable {rest : Bytes} {m n z : Nat}

theorem ofBytes_append (b c : Bytes) :
    ofBytes (b ++ c) = ofBytes c + 256 ^ c.length * ofBytes b := by
  rw [ofBytes, List.reverse_append, ofLE_append, List.length_reverse]
  rfl

theorem ofBytes_cons (b : UInt8) (c : Bytes) :
    ofBytes (b :: c) = b.toNat * 256 ^ c.length + ofBytes c := by
  have h := ofBytes_append [b] c
  have hb : ofBytes [b] = b.toNat := Nat.add_zero _
  rw [hb, List.singleton_append] at h
  rw [h, Nat.mul_comm, Nat.add_comm]

theorem ofBytes_lt (b : Bytes) : ofBytes b < 256 ^ b.length := by
  have h := ofLE_lt b.reverse
  rwa [List.length_reverse] at h

-- The first bytes of a number.
theorem ofBytes_take (b : Bytes) (k : Nat) :
    ofBytes (b.take k) = ofBytes b / 256 ^ (b.length - k) := by
  have h := ofBytes_append (b.take k) (b.drop k)
  have hlt := ofBytes_lt (b.drop k)
  rw [List.take_append_drop, List.length_drop] at h
  rw [List.length_drop] at hlt
  rw [h, Nat.add_mul_div_left _ _ (Nat.pow_pos (by decide)), Nat.div_eq_of_lt hlt, Nat.zero_add]

theorem ofBytes_zeros (z : Nat) : ofBytes (.replicate z 0) = 0 := by
  rw [ofBytes, List.reverse_replicate]
  induction z
  case zero      => rfl
  case succ z hi =>
    rw [List.replicate_succ, ofLE, hi]
    rfl

-- The leading zeros of the data, and the bytes after them.
theorem zeros_append (d : Bytes) : ∃ z rest, d = List.replicate z 0 ++ rest ∧
    d.takeWhile (· = 0) = List.replicate z 0 ∧ ∀ h : rest ≠ [], rest.head h ≠ 0 := by
  refine ⟨(d.takeWhile (· = 0)).length, d.dropWhile (· = 0), ?_, ?_, fun h => ?_⟩
  case refine_3 => simpa using List.head_dropWhile_not (fun c : UInt8 => decide (c = 0)) h
  all_goals
    have hzeros : d.takeWhile (· = 0) = List.replicate (d.takeWhile (· = 0)).length 0 :=
      List.eq_replicate_iff.mpr ⟨rfl, fun c hc => by simpa using List.mem_takeWhile_imp hc⟩
  case refine_1 =>
    rw [← hzeros]
    exact List.takeWhile_append_dropWhile.symm
  case refine_2 => exact hzeros

-- The digits of the number are the bytes, as the first of them is not zero.
theorem digits_eq (h : ∀ h : rest ≠ [], rest.head h ≠ 0) :
    Nat.digits 256 (Nat.ofDigits 256 (rest.reverse.map UInt8.toNat)) =
        rest.reverse.map UInt8.toNat := by
  refine Nat.digits_ofDigits 256 (by decide) _ ?_ ?_
  · intro b hb
    obtain ⟨c, _, rfl⟩ := List.mem_map.mp hb
    exact c.toNat_lt
  · intro hne hlast
    have hrest : rest ≠ [] := by simpa using hne
    rw [List.getLast_map, List.getLast_reverse] at hlast
    exact h hrest (UInt8.toNat_inj.mp hlast)

theorem getLast_digits_ne_zero {bn : Nat} (h : (Nat.digits 256 bn).map UInt8.ofNat ≠ []) :
    ((Nat.digits 256 bn).map UInt8.ofNat).getLast h ≠ 0 := by
  have hbn : bn ≠ 0 := fun h0 => h (by rw [h0]; rfl)
  have hne := Nat.digits_ne_nil_iff_ne_zero (b := 256) |>.mpr hbn
  have hlt : (Nat.digits 256 bn).getLast hne < 256 :=
    Nat.digits_lt_base (by decide) (List.getLast_mem hne)
  rw [List.getLast_map]
  intro h0
  refine Nat.getLast_digit_ne_zero 256 hbn ?_
  rw [← UInt8.toNat_ofNat_of_lt' hlt, h0]
  rfl

-- A number of zeros before a number.
def data (z n : Nat) : Bytes :=
  .replicate z 0 ++ toBytes n

theorem ofBytes_data (z n : Nat) : ofBytes (data z n) = n := by
  rw [data, ofBytes_append, ofBytes_zeros, Nat.mul_zero, Nat.add_zero, ofBytes_toBytes]

theorem length_data (z n : Nat) : (data z n).length = z + (toBytes n).length := by
  rw [data, List.length_append, List.length_replicate]

theorem takeWhile_data (z n : Nat) : (data z n).takeWhile (· = 0) = .replicate z 0 := by
  have hhead : (toBytes n).takeWhile (· = 0) = [] := by
    rw [List.takeWhile_eq_nil_iff]
    intro hpos
    have hne : (Nat.digits 256 n).map UInt8.ofNat ≠ [] := by
      intro hnil
      rw [toBytes, hnil] at hpos
      exact Nat.lt_irrefl _ hpos
    have hlast := getLast_digits_ne_zero hne
    simpa [toBytes, List.getLast_eq_getElem] using hlast
  rw [data, List.takeWhile_append_of_pos, hhead, List.append_nil]
  intro c hc
  simpa using List.eq_of_mem_replicate hc

-- Every byte string is such data.
theorem exists_data (x : Bytes) : ∃ z, x = data z (ofBytes x) := by
  obtain ⟨z, rest, hd, -, hrest⟩ := zeros_append x
  refine ⟨z, ?_⟩
  have hid : UInt8.ofNat ∘ UInt8.toNat = id := funext fun b => UInt8.ofNat_toNat
  rw [hd, ofBytes_append, ofBytes_zeros, Nat.mul_zero, Nat.add_zero, data, toBytes, ofBytes,
    ofLE_eq_ofDigits, digits_eq hrest, List.map_map, hid, List.map_id, List.reverse_reverse]

theorem data_inj (h : data z n = data z m) : n = m := by
  rw [← ofBytes_data z n, h, ofBytes_data]

end Data

end Bigint
