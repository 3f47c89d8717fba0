import FcModel.Utf8.Basic

-- The decoder accepts what the encoding of characters gives, and finds the characters in it.

namespace Utf8

-- The octets of a sequence of characters.
def encode (cs : List Char) : Bytes :=
  cs.flatMap String.utf8EncodeChar

theorem bits_toNat (oc : UInt8) {shift mask : UInt32} (k m : Nat) (hk : shift.toNat = k)
    (hle : k ≤ 18)
    (hm : mask.toNat = 2 ^ m - 1) : (bits oc shift mask).toNat = oc.toNat * 2 ^ k % 2 ^ m := by
  have hlt : oc.toNat * 2 ^ k < 2 ^ 32 :=
    calc oc.toNat * 2 ^ k < 2 ^ 8 * 2 ^ k := Nat.mul_lt_mul_of_pos_right oc.toNat_lt (Nat.two_pow_pos k)
      _ ≤ 2 ^ 8 * 2 ^ 18 := Nat.mul_le_mul_left _ (Nat.pow_le_pow_right (by decide) hle)
      _ < 2 ^ 32 := by decide
  rw [bits, UInt32.toNat_and, UInt32.toNat_shiftLeft, hk, hm, Nat.and_two_pow_sub_one_eq_mod,
    UInt8.toNat_toUInt32, Nat.mod_eq_of_lt (show k < 32 by omega), Nat.shiftLeft_eq, Nat.mod_eq_of_lt hlt]

theorem shiftRight_eq_iff (oc shift t : UInt8) (h : shift.toNat < 8) :
    oc >>> shift = t ↔ oc.toNat / 2 ^ shift.toNat = t.toNat := by
  rw [← UInt8.toNat_inj, UInt8.toNat_shiftRight, Nat.mod_eq_of_lt h, Nat.shiftRight_eq_div_pow]

theorem increaseSafely_cons {b : UInt8} (h : b.toNat / 64 = 2) (it : Bytes) :
    increaseSafely (b :: it) = .ok (b, it) := by
  have ht : isTrail b = true := by
    simp only [isTrail, decide_eq_true_eq]
    exact (shiftRight_eq_iff b 6 2 (by decide)).mpr h
  rw [increaseSafely, ht]
  rfl

theorem sequenceLength_eq (lead : UInt8) : sequenceLength lead =
    if lead.toNat < 128 then 1 else if lead.toNat / 32 = 6 then 2
    else if lead.toNat / 16 = 14 then 3 else if lead.toNat / 8 = 30 then 4 else 0 := by
  rw [sequenceLength]
  simp only [UInt8.lt_iff_toNat_lt, shiftRight_eq_iff lead 5 _ (by decide),
    shiftRight_eq_iff lead 4 _ (by decide), shiftRight_eq_iff lead 3 _ (by decide)]
  rfl

variable {cp : UInt32} {v : Nat}

theorem isCodePointValid_of_isValidChar (h : cp.toNat = v) (hv : v.isValidChar) :
    isCodePointValid cp = true := by
  simp only [isCodePointValid, isSurrogate, UInt32.le_iff_toNat_le, h]
  simp only [Nat.isValidChar] at hv
  simp
  omega

-- The number of octets a code point takes.
def octets (v : Nat) : Nat :=
  if v < 0x80 then 1 else if v < 0x800 then 2 else if v < 0x10000 then 3 else 4

theorem isOverlongSequence_octets (h : cp.toNat = v) :
    isOverlongSequence cp (octets v) = false := by
  simp only [isOverlongSequence, octets, UInt32.lt_iff_toNat_lt, h, UInt32.reduceToNat]
  split
  case isTrue => rfl
  case isFalse =>
    split
    case isTrue => rfl
    case isFalse =>
      split
      case isTrue  => rfl
      case isFalse => rfl

theorem validateNext_of_sequence {lead : UInt8} {it rest : Bytes} (hv : v.isValidChar)
    (h : cp.toNat = v)
    (hl : sequenceLength lead = octets v) (hs : getSequence (octets v) lead it = .ok (cp, rest)) :
    validateNext (lead :: it) = .ok (cp, rest) := by
  simp only [validateNext, hl, hs, bind, Except.bind, isCodePointValid_of_isValidChar h hv,
    isOverlongSequence_octets h]
  rfl

theorem toNat_ofNat_octet {n : Nat} (h : n < 256) : (UInt8.ofNat n).toNat = n :=
  UInt8.toNat_ofNat_of_lt' h

theorem trail_toNat (n : Nat) : (UInt8.ofNat (n % 64 + 128)).toNat = n % 64 + 128 :=
  toNat_ofNat_octet (by omega)

theorem increaseSafely_trail (n : Nat) (it : Bytes) :
    increaseSafely (UInt8.ofNat (n % 64 + 128) :: it) = .ok (.ofNat (n % 64 + 128), it) :=
  increaseSafely_cons (by rw [trail_toNat]; omega) it

-- The bits of a trail octet and those of a leading octet, at their places.
theorem bits_trail (n : Nat) {shift mask : UInt32} (k : Nat) (hk : shift.toNat = k) (hle : k ≤ 18)
    (hm : mask.toNat = 2 ^ (k + 6) - 1) :
    (bits (.ofNat (n % 64 + 128)) shift mask).toNat = n % 64 * 2 ^ k := by
  rw [bits_toNat _ k (k + 6) hk hle hm, trail_toNat, Nat.pow_add, Nat.mul_comm (2 ^ k),
    Nat.mul_mod_mul_right]
  congr 1
  omega

theorem encode_two (rest : Bytes) (hlo : 0x80 ≤ v) (hhi : v < 0x800) (hc : cp.toNat = v) :
    validateNext (.ofNat (v / 64 % 32 + 192) :: .ofNat (v % 64 + 128) :: rest) = .ok (cp, rest) := by
  have hlead := @toNat_ofNat_octet (v / 64 % 32 + 192) (by omega)
  have ho : octets v = 2 := by simp only [octets]; split_ifs <;> omega
  have hcp : bits (.ofNat (v / 64 % 32 + 192)) 6 0x7ff + bits (.ofNat (v % 64 + 128)) 0 0x3f = cp := by
    rw [← UInt32.toNat_inj, UInt32.toNat_add, bits_toNat _ 6 11 rfl (by decide) rfl, hlead,
      bits_trail v 0 rfl (by decide) rfl, hc]
    omega
  refine validateNext_of_sequence (Or.inl (by omega)) hc ?_ ?_
  case refine_1 => rw [sequenceLength_eq, hlead, ho]; split_ifs <;> omega
  case refine_2 =>
    rw [ho, ← hcp]
    simp only [getSequence, getSequence2, bind, Except.bind, increaseSafely_trail]
    rfl

theorem encode_three (rest : Bytes) (hv : v.isValidChar) (hlo : 0x800 ≤ v) (hhi : v < 0x10000)
    (hc : cp.toNat = v) :
    validateNext (.ofNat (v / 4096 % 16 + 224) :: .ofNat (v / 64 % 64 + 128) ::
      .ofNat (v % 64 + 128) :: rest) = .ok (cp, rest) := by
  have hlead := @toNat_ofNat_octet (v / 4096 % 16 + 224) (by omega)
  have ho : octets v = 3 := by simp only [octets]; split_ifs <;> omega
  have hcp : bits (.ofNat (v / 4096 % 16 + 224)) 12 0xffff + bits (.ofNat (v / 64 % 64 + 128)) 6 0xfff +
      bits (.ofNat (v % 64 + 128)) 0 0x3f = cp := by
    rw [← UInt32.toNat_inj, UInt32.toNat_add, UInt32.toNat_add,
      bits_toNat _ 12 16 rfl (by decide) rfl, hlead,
      bits_trail (v / 64) 6 rfl (by decide) rfl, bits_trail v 0 rfl (by decide) rfl, hc]
    omega
  refine validateNext_of_sequence hv hc ?_ ?_
  case refine_1 => rw [sequenceLength_eq, hlead, ho]; split_ifs <;> omega
  case refine_2 =>
    rw [ho, ← hcp]
    simp only [getSequence, getSequence3, bind, Except.bind, increaseSafely_trail]
    rfl

theorem encode_four (rest : Bytes) (hv : v.isValidChar) (hlo : 0x10000 ≤ v) (hc : cp.toNat = v) :
    validateNext (.ofNat (v / 262144 % 8 + 240) :: .ofNat (v / 4096 % 64 + 128) ::
      .ofNat (v / 64 % 64 + 128) :: .ofNat (v % 64 + 128) :: rest) = .ok (cp, rest) := by
  have hmax : v < 0x110000 := by simp only [Nat.isValidChar] at hv; omega
  have hlead := @toNat_ofNat_octet (v / 262144 % 8 + 240) (by omega)
  have ho : octets v = 4 := by simp only [octets]; split_ifs <;> omega
  have hcp : bits (.ofNat (v / 262144 % 8 + 240)) 18 0x1fffff + bits (.ofNat (v / 4096 % 64 + 128)) 12 0x3ffff +
      bits (.ofNat (v / 64 % 64 + 128)) 6 0xfff + bits (.ofNat (v % 64 + 128)) 0 0x3f = cp := by
    rw [← UInt32.toNat_inj, UInt32.toNat_add, UInt32.toNat_add, UInt32.toNat_add,
      bits_toNat _ 18 21 rfl (by decide) rfl, hlead, bits_trail (v / 4096) 12 rfl (by decide) rfl,
      bits_trail (v / 64) 6 rfl (by decide) rfl, bits_trail v 0 rfl (by decide) rfl, hc]
    omega
  refine validateNext_of_sequence hv hc ?_ ?_
  case refine_1 => rw [sequenceLength_eq, hlead, ho]; split_ifs <;> omega
  case refine_2 =>
    rw [ho, ← hcp]
    simp only [getSequence, getSequence4, bind, Except.bind, increaseSafely_trail]
    rfl

theorem encode_one (rest : Bytes) (hlt : v < 0x80) (hc : cp.toNat = v) :
    validateNext (.ofNat v :: rest) = .ok (cp, rest) := by
  have hlead := @toNat_ofNat_octet v (by omega)
  have ho : octets v = 1 := by rw [octets, if_pos hlt]
  have hcp : (UInt8.ofNat v).toUInt32 = cp := by
    rw [← UInt32.toNat_inj, UInt8.toNat_toUInt32, hlead, hc]
  refine validateNext_of_sequence (Or.inl (by omega)) hc ?_ ?_
  case refine_1 => rw [sequenceLength_eq, hlead, ho, if_pos hlt]
  case refine_2 => rw [ho, ← hcp]; rfl

theorem validateNext_encode (c : Char) (rest : Bytes) :
    validateNext (String.utf8EncodeChar c ++ rest) = .ok (c.val, rest) := by
  have hv : c.val.toNat.isValidChar := c.valid
  rw [String.utf8EncodeChar]
  split
  case isTrue => exact encode_one rest (by omega) rfl
  case isFalse =>
    split
    case isTrue => exact encode_two rest (by omega) (by omega) rfl
    case isFalse =>
      split
      case isTrue  => exact encode_three rest hv (by omega) (by omega) rfl
      case isFalse => exact encode_four rest hv (by omega) rfl

-- None of the characters is a C1 control character.
def NoC1 (cs : List Char) : Prop :=
  ∀ c ∈ cs, ¬(0x80 ≤ c.val ∧ c.val ≤ 0x9f)

instance {cs : List Char} : Decidable (NoC1 cs) :=
  List.decidableBAll _ cs

theorem findInvalid_go_encode {cs : List Char} (h : NoC1 cs) {fuel : Nat}
    (hf : (encode cs).length ≤ fuel) : findInvalid.go 0x80 0x9f fuel (encode cs) = ([], none) := by
  induction cs generalizing fuel
  case nil =>
    cases fuel
    case zero => rfl
    case succ => rfl
  case cons c cs hi =>
    have he : encode (c :: cs) = String.utf8EncodeChar c ++ encode cs := rfl
    have hpos : 0 < (String.utf8EncodeChar c).length := List.length_pos_iff.mpr (by simp)
    have hne : String.utf8EncodeChar c ++ encode cs ≠ [] := by simp
    rw [he, List.length_append] at hf
    cases fuel
    case zero => omega
    case succ fuel =>
      rw [he, findInvalid.go, if_neg hne, validateNext_encode]
      simp only [if_neg (h c (List.mem_cons_self ..))]
      exact hi (fun c hc => h c (List.mem_cons_of_mem _ hc)) (by omega)

theorem isValidUtf8_encode {cs : List Char} (h : NoC1 cs) : isValidUtf8 (encode cs) = true := by
  rw [isValidUtf8, findInvalid, findInvalid_go_encode h (Nat.le_refl _)]
  rfl

theorem utf8EncodeChar_of_lt {c : Char} (h : c.val.toNat < 128) :
    String.utf8EncodeChar c = [.ofNat c.val.toNat] := by
  rw [String.utf8EncodeChar, if_pos (by omega)]

theorem le_of_mem_utf8EncodeChar {c : Char} (h : 128 ≤ c.val.toNat) {b : UInt8}
    (hb : b ∈ String.utf8EncodeChar c) : 128 ≤ b.toNat := by
  rw [String.utf8EncodeChar, if_neg (by omega)] at hb
  split at hb
  case isTrue =>
    simp only [List.mem_cons, List.not_mem_nil, or_false] at hb
    rcases hb with rfl | rfl <;> rw [toNat_ofNat_octet (by omega)] <;> omega
  case isFalse =>
    have hmax : c.val.toNat < 0x110000 := by
      have := c.valid
      simp only [UInt32.isValidChar, Nat.isValidChar] at this
      omega
    split at hb
    case isTrue =>
      simp only [List.mem_cons, List.not_mem_nil, or_false] at hb
      rcases hb with rfl | rfl | rfl <;> rw [toNat_ofNat_octet (by omega)] <;> omega
    case isFalse =>
      simp only [List.mem_cons, List.not_mem_nil, or_false] at hb
      rcases hb with rfl | rfl | rfl | rfl <;> rw [toNat_ofNat_octet (by omega)] <;> omega

theorem lt_of_mem_utf8EncodeChar {c : Char} {b : UInt8} (hb : b ∈ String.utf8EncodeChar c) :
    b.toNat < 0xf8 := by
  have hmax : c.val.toNat < 0x110000 := by
    have := c.valid
    simp only [UInt32.isValidChar, Nat.isValidChar] at this
    omega
  rw [String.utf8EncodeChar] at hb
  simp only [apply_ite (b ∈ ·), List.mem_cons, List.not_mem_nil, or_false] at hb
  split_ifs at hb
  case pos => rw [hb, toNat_ofNat_octet (by omega)]; omega
  case pos => rcases hb with rfl | rfl <;> rw [toNat_ofNat_octet (by omega)] <;> omega
  case pos => rcases hb with rfl | rfl | rfl <;> rw [toNat_ofNat_octet (by omega)] <;> omega
  case neg => rcases hb with rfl | rfl | rfl | rfl <;> rw [toNat_ofNat_octet (by omega)] <;> omega

end Utf8
