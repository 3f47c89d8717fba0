import FcModel.Raw.Scalar

-- The varints are as short as they can be, and none is the beginning of another one.

namespace Raw

-- How many groups of seven bits a number takes, at least one.
def varintLength (v : Nat) : Nat :=
  max 1 ((v.size + 6) / 7)

theorem varintLength_le_iff {v k : Nat} : varintLength v ≤ k ↔ 1 ≤ k ∧ v < 2 ^ (7 * k) := by
  rw [varintLength, Nat.max_le, ← Nat.size_le]
  omega

theorem varintLength_of_lt {v : Nat} (h : v < 128) : varintLength v = 1 := by
  have hle := varintLength_le_iff.mpr ⟨Nat.le_refl 1, h⟩
  have hpos : 1 ≤ varintLength v := Nat.le_max_left ..
  omega

theorem varintLength_div {v : Nat} (h : 128 ≤ v) : varintLength v = varintLength (v / 128) + 1 := by
  have hpow : ∀ k, 2 ^ (7 * (k + 1)) = 128 * 2 ^ (7 * k) := fun k => by
    rw [Nat.mul_succ, Nat.pow_add, Nat.mul_comm]
  have hiff : ∀ k, varintLength v ≤ k + 1 ↔ v / 128 < 2 ^ (7 * k) := fun k => by
    rw [varintLength_le_iff, hpow, Nat.div_lt_iff_lt_mul (by decide), Nat.mul_comm]
    exact and_iff_right (Nat.le_add_left 1 k)
  have hle := (hiff _).mpr (varintLength_le_iff.mp (Nat.le_refl (varintLength (v / 128)))).right
  obtain ⟨k, hk⟩ : ∃ k, varintLength v = k + 1 := Nat.exists_eq_succ_of_ne_zero (by
    have hpos : 1 ≤ varintLength v := Nat.le_max_left ..
    omega)
  have hlt := (hiff k).mp (Nat.le_of_eq hk)
  have hk1 : 1 ≤ k := by
    by_contra h0
    have hzero : k = 0 := by omega
    rw [hzero, Nat.mul_zero, Nat.pow_zero] at hlt
    omega
  have hge := varintLength_le_iff.mpr ⟨hk1, hlt⟩
  omega

section Length

variable {n v val by' : Nat} {s r b : Bytes} {w : UInt32}

theorem length_packVarint (h : val < 2 ^ (7 * (n + 1))) :
    ∃ b, (packVarint (n + 1) val).bytes = .ok b ∧ b.length = varintLength val := by
  have hshift : val >>> 7 = val / 128 := Nat.shiftRight_eq_div_pow val 7
  induction n generalizing val
  all_goals
    rw [packVarint, hshift]
  case zero =>
    have h0 : val / 128 = 0 := Nat.div_eq_of_lt h
    rw [if_pos h0]
    exact ⟨_, rfl, (varintLength_of_lt h).symm⟩
  case succ n hi =>
    by_cases h0 : val / 128 = 0
    case pos =>
      rw [if_pos h0]
      exact ⟨_, rfl, (varintLength_of_lt (by omega)).symm⟩
    case neg =>
      have hlt : val / 128 < 2 ^ (7 * (n + 1)) := by
        rw [Nat.div_lt_iff_lt_mul (by decide)]
        rwa [Nat.mul_succ 7 (n + 1), Nat.pow_add] at h
      obtain ⟨b, hb, hlength⟩ := hi hlt (Nat.shiftRight_eq_div_pow _ 7)
      rw [if_neg h0, varintLength_div (by omega), ← hlength]
      exact ⟨_, Encoder.bytes_write_eq_ok.mpr ⟨b, hb, rfl⟩, rfl⟩

theorem length_packUnsignedInt (v : UInt32) :
    ∃ b, (packUnsignedInt v).bytes = .ok b ∧ b.length = varintLength v.toNat :=
  length_packVarint (v.toNat_lt.trans (by decide))

-- Each byte that is read adds seven bits at most.
theorem or_seven_bits_lt (b : UInt8) (hv : v < 2 ^ by') :
    v ||| ((b &&& 0x7f).toNat <<< by') % 2 ^ 32 < 2 ^ (by' + 7) := by
  have hb : (b &&& 0x7f).toNat < 2 ^ 7 := by
    have hseven : (0x7f : UInt8).toNat = 2 ^ 7 - 1 := rfl
    rw [UInt8.toNat_and, hseven, Nat.and_two_pow_sub_one_eq_mod]
    exact Nat.mod_lt _ (by decide)
  have hshift : (b &&& 0x7f).toNat <<< by' < 2 ^ (by' + 7) := by
    rw [Nat.shiftLeft_eq, Nat.pow_add, Nat.mul_comm]
    exact Nat.mul_lt_mul_of_pos_left hb (Nat.two_pow_pos by')
  refine Nat.or_lt_two_pow ?_ ((Nat.mod_le ..).trans_lt hshift)
  exact hv.trans_le (Nat.pow_le_pow_right (by decide) (Nat.le_add_right ..))

theorem toNat_unpackUnsignedInt_go (hv : v < 2 ^ by')
    (h : (unpackUnsignedInt.go n v by').parse .outOfRange s = .ok (w, r)) :
    ∃ k, 1 ≤ k ∧ s.length = k + r.length ∧ w.toNat < 2 ^ (by' + 7 * k) := by
  induction n generalizing v by' s
  case zero => cases h
  case succ n hi =>
    cases s
    case nil => cases h
    case cons b q =>
      have hlt := or_seven_bits_lt b hv
      rw [unpackUnsignedInt.go, Decoder.parse] at h
      dsimp only at h
      generalize v ||| ((b &&& 0x7f).toNat <<< by') % 2 ^ 32 = v' at h hlt
      split at h
      case isTrue =>
        obtain ⟨k, hk, hq, hw⟩ := hi hlt h
        refine ⟨k + 1, Nat.le_add_left .., ?_, ?_⟩
        case refine_1 =>
          rw [List.length_cons, hq]
          omega
        case refine_2 =>
          have hexp : by' + 7 * (k + 1) = by' + 7 + 7 * k := by omega
          rwa [hexp]
      case isFalse =>
        cases h
        refine ⟨1, Nat.le_refl 1, ?_, ?_⟩
        case refine_1 => rw [List.length_cons, Nat.add_comm]
        case refine_2 => exact (UInt32.toNat_ofNat'.trans_le (Nat.mod_le ..)).trans_lt hlt

theorem varintLength_le_of_unpack
    (h : unpackUnsignedInt.parse .outOfRange s = .ok (w, r)) :
    varintLength w.toNat + r.length ≤ s.length := by
  obtain ⟨k, hk, hs, hw⟩ := toNat_unpackUnsignedInt_go (by decide) h
  rw [Nat.zero_add] at hw
  have hle := varintLength_le_iff.mpr ⟨hk, hw⟩
  omega

end Length

section Zigzag

-- As it is computed: `~(v & 1) + 1ull` has 64 bits, and the result is cut to those of an `int32_t`.
def reverseZigzag (v : BitVec 32) : BitVec 32 :=
  ((v >>> 1).setWidth 64 ^^^ ((~~~(v &&& 1)).setWidth 64 + 1)).setWidth 32

theorem reverseZigzag_eq (v : BitVec 32) : reverseZigzag v = unzigzag v := by
  rw [reverseZigzag, unzigzag, BitVec.setWidth_xor, BitVec.setWidth_add _ _ (by decide),
    BitVec.setWidth_setWidth_of_le _ (by decide), BitVec.setWidth_setWidth_of_le _ (by decide),
    BitVec.setWidth_eq, BitVec.setWidth_eq]
  rfl

theorem bijective_zigzag : Function.Bijective zigzag :=
  Finite.injective_iff_bijective.mp
    (Function.LeftInverse.injective unzigzag_zigzag)

theorem reverseZigzag_zigzag (v : BitVec 32) : reverseZigzag (zigzag v) = v :=
  (reverseZigzag_eq _).trans (unzigzag_zigzag v)

end Zigzag

-- The shortest encodings are written, from which the same numbers are read back, and no encoding is
-- the beginning of another one.
theorem varints_minimal_exact :
    (∀ v, ∃ b, (packUnsignedInt v).bytes = .ok b ∧ b.length = varintLength v.toNat) ∧
    (∀ s v r, unpackUnsignedInt.parse .outOfRange s = .ok (v, r) →
      varintLength v.toNat + r.length ≤ s.length) ∧
    (Function.Bijective zigzag ∧ ∀ v, reverseZigzag (zigzag v) = v) ∧
    (∀ i, ∃ b, (packSignedInt i).bytes = .ok b ∧ ∀ rest fuel, (b ++ rest).length < fuel →
      (unpackSignedInt fuel).parse .outOfRange (b ++ rest) = .ok (i, rest)) ∧
    (∀ u v b b', (packUnsignedInt u).bytes = .ok b → (packUnsignedInt v).bytes = .ok b' →
      b <+: b' → u = v ∧ b = b') ∧
    ∀ i j b b', (packSignedInt i).bytes = .ok b → (packSignedInt j).bytes = .ok b' →
      b <+: b' → i = j ∧ b = b' := by
  refine ⟨length_packUnsignedInt, fun s v r => varintLength_le_of_unpack,
    ⟨bijective_zigzag, reverseZigzag_zigzag⟩, ?signed, ?unsignedPrefix, ?signedPrefix⟩
  case signed =>
    intro i
    obtain ⟨b, hb, -⟩ := @length_packVarint 4 (zigzag i).toNat ((zigzag i).isLt.trans (by decide))
    exact ⟨b, hb, fun rest fuel hfuel => reads_signedInt i b hb rest fuel hfuel⟩
  case unsignedPrefix =>
    intro u v b b' hb hb' hp
    exact (reads_unsignedInt u).prefix_free (reads_unsignedInt v) hb hb' hp
  case signedPrefix =>
    intro i j b b' hb hb' hp
    exact (reads_signedInt i).prefix_free (reads_signedInt j) hb hb' hp

theorem varints_minimal_exact_samples :
    varintLength (300 : UInt32).toNat + [7].length ≤ [0xac, 0x82, 0x00, 7].length ∧
    ((300 : UInt32) = 300 ∧ ([0xac, 0x02] : Bytes) = [0xac, 0x02]) ∧
    ((1 : BitVec 32) = 1 ∧ ([0x02] : Bytes) = [0x02]) := by
  refine ⟨?_, ?_, ?_⟩
  case refine_1 => exact varints_minimal_exact.right.left [0xac, 0x82, 0x00, 7] 300 [7] rfl
  case refine_2 =>
    exact varints_minimal_exact.right.right.right.right.left 300 300 _ _ rfl rfl List.prefix_rfl
  case refine_3 =>
    exact varints_minimal_exact.right.right.right.right.right 1 1 _ _ rfl rfl List.prefix_rfl

end Raw
