import FcModel.Uint128.Basic

-- The operations of `uint128` are those of numbers modulo `2 ^ 128`.

namespace Uint128

def val (a : Uint128) : Nat :=
  a.hi.toNat * 2 ^ 64 + a.lo.toNat

section Bits

variable {a b : Uint128}

def bits (a : Uint128) : BitVec 128 :=
  a.hi.toBitVec ++ a.lo.toBitVec

def ofBits (v : BitVec 128) : Uint128 where
  hi := .ofBitVec (v.extractLsb' 64 64)
  lo := .ofBitVec (v.extractLsb' 0 64)

theorem toNat_bits (a : Uint128) : a.bits.toNat = a.val := by
  rw [bits, BitVec.toNat_append, ← Nat.shiftLeft_add_eq_or_of_lt a.lo.toBitVec.isLt,
    Nat.shiftLeft_eq]
  rfl

theorem val_lt (a : Uint128) : a.val < 2 ^ 128 :=
  toNat_bits a ▸ a.bits.isLt

theorem getLsbD_bits (a : Uint128) (i : Nat) :
    a.bits.getLsbD i = if i < 64 then a.lo.toBitVec.getLsbD i else a.hi.toBitVec.getLsbD (i - 64) :=
  BitVec.getLsbD_append

@[simp]
theorem bits_ofBits (v : BitVec 128) : (ofBits v).bits = v := by
  refine BitVec.eq_of_getLsbD_eq fun i hi => ?_
  simp only [getLsbD_bits, ofBits, BitVec.getLsbD_extractLsb', Nat.zero_add]
  split
  case isTrue h  => simp [h]
  case isFalse h =>
    rw [Nat.add_sub_cancel' (Nat.le_of_not_lt h), decide_eq_true (show i - 64 < 64 by omega),
      Bool.true_and]

theorem bits_inj : a.bits = b.bits ↔ a = b := by
  refine ⟨fun h => ?_, fun h => h ▸ rfl⟩
  have hval : a.val = b.val := by rw [← toNat_bits, h, toNat_bits]
  have := a.lo.toNat_lt
  have := b.lo.toNat_lt
  rw [val, val] at hval
  refine Uint128.ext (UInt64.toNat_inj.mp ?_) (UInt64.toNat_inj.mp ?_)
  case refine_1 => omega
  case refine_2 => omega

theorem ofBits_bits (a : Uint128) : ofBits a.bits = a :=
  bits_inj.mp (bits_ofBits _)

theorem eq_ofBits {v : BitVec 128} (h : a.bits = v) : a = ofBits v :=
  bits_inj.mp (h.trans (bits_ofBits v).symm)

theorem eq_ofBits_of_val {v : BitVec 128} (h : a.val = v.toNat) : a = ofBits v :=
  eq_ofBits (BitVec.eq_of_toNat_eq ((toNat_bits a).trans h))

end Bits

section Comparison

variable (a b : Uint128)

theorem val_inj {a b : Uint128} : a.val = b.val ↔ a = b := by
  rw [← bits_inj, ← toNat_bits, ← toNat_bits, BitVec.toNat_inj]

theorem eq_iff : a.eq b = true ↔ a.val = b.val := by
  simp only [eq, Bool.and_eq_true, beq_iff_eq, val_inj, Uint128.ext_iff]

theorem lt_iff : a.lt b = true ↔ a.val < b.val := by
  have := a.lo.toNat_lt
  have := b.lo.toNat_lt
  simp only [lt, val, beq_iff_eq]
  split
  case isTrue h =>
    rw [decide_eq_true_iff, UInt64.lt_iff_toNat_lt, h]
    omega
  case isFalse h =>
    have hne : a.hi.toNat ≠ b.hi.toNat := fun he => h (UInt64.toNat_inj.mp he)
    rw [decide_eq_true_iff, UInt64.lt_iff_toNat_lt]
    omega

theorem gt_iff : a.gt b = true ↔ b.val < a.val :=
  lt_iff b a

theorem ge_iff : a.ge b = true ↔ b.val ≤ a.val := by
  rw [ge, Bool.or_eq_true, eq_iff, gt_iff]
  omega

theorem le_iff : a.le b = true ↔ a.val ≤ b.val := by
  rw [le, Bool.or_eq_true, eq_iff, lt_iff]
  omega

end Comparison

section Unary

variable (a : Uint128)

theorem val_inc : a.inc.val = (a.val + 1) % 2 ^ 128 := by
  have := a.lo.toNat_lt
  have := a.hi.toNat_lt
  have hzero : a.lo + 1 = 0 ↔ (a.lo.toNat + 1) % 2 ^ 64 = 0 := by
    rw [← UInt64.toNat_inj, UInt64.toNat_add]
    rfl
  simp only [inc, val, hzero, UInt64.toNat_add]
  split
  case isTrue  => simp only [UInt64.toNat_one]; omega
  case isFalse => simp only [UInt64.toNat_zero, UInt64.toNat_one]; omega

theorem val_dec : a.dec.val = (a.val + (2 ^ 128 - 1)) % 2 ^ 128 := by
  have := a.lo.toNat_lt
  have := a.hi.toNat_lt
  have hzero : a.lo = 0 ↔ a.lo.toNat = 0 := by
    rw [← UInt64.toNat_inj]
    rfl
  simp only [dec, val, hzero, UInt64.toNat_sub]
  split
  case isTrue  => simp only [UInt64.toNat_one]; omega
  case isFalse => simp only [UInt64.toNat_zero, UInt64.toNat_one]; omega

theorem val_complement : a.complement.val = 2 ^ 128 - 1 - a.val := by
  have := a.lo.toNat_lt
  have := a.hi.toNat_lt
  simp only [complement, val, UInt64.toNat_not, UInt64.size]
  omega

theorem val_neg : a.neg.val = (2 ^ 128 - a.val) % 2 ^ 128 := by
  have h := val_complement a
  have := val_lt a
  rw [neg, val_inc, ← complement, h]
  congr 1
  omega

end Unary

section Shifts

-- A shift of a half by less than its size.
theorem toBitVec_shiftLeft (x : UInt64) {n : UInt32} (h : n.toNat < 64) :
    (x <<< n.toUInt64).toBitVec = x.toBitVec <<< n.toNat := by
  have hn : (n.toUInt64.toBitVec % 64).toNat = n.toNat := by
    rw [BitVec.toNat_umod]
    exact Nat.mod_eq_of_lt h
  rw [UInt64.toBitVec_shiftLeft, BitVec.shiftLeft_eq', hn]

theorem toBitVec_shiftRight (x : UInt64) {n : UInt32} (h : n.toNat < 64) :
    (x >>> n.toUInt64).toBitVec = x.toBitVec >>> n.toNat := by
  have hn : (n.toUInt64.toBitVec % 64).toNat = n.toNat := by
    rw [BitVec.toNat_umod]
    exact Nat.mod_eq_of_lt h
  rw [UInt64.toBitVec_shiftRight, BitVec.ushiftRight_eq', hn]

theorem toBitVec_neg_one : (-1 : UInt64).toBitVec = BitVec.allOnes 64 := by
  decide

variable {n : UInt32}

theorem toNat_rest (hn : n.toNat < 64) : (64 - n).toNat = 64 - n.toNat := by
  have h64 : (64 : UInt32).toNat = 64 := rfl
  rw [UInt32.toNat_sub, h64]
  omega

-- The bits that leave the low half are the lowest ones of the high half.
theorem bits_shl (a : Uint128) (h0 : 0 < n.toNat) (hn : n.toNat < 64) :
    bits ⟨a.hi <<< n.toUInt64 ||| (a.lo &&& ~~~((-1) >>> n.toUInt64)) >>> (64 - n).toUInt64, a.lo <<< n.toUInt64⟩ =
      a.bits <<< n.toNat := by
  have hrest := toNat_rest hn
  refine BitVec.eq_of_getLsbD_eq fun i hi => ?_
  simp only [getLsbD_bits, BitVec.getLsbD_shiftLeft, UInt64.toBitVec_or, UInt64.toBitVec_and,
    UInt64.toBitVec_not,
    toBitVec_shiftLeft _ hn, toBitVec_shiftRight _ hn, toBitVec_shiftRight _ (show (64 - n).toNat < 64 by omega),
    BitVec.getLsbD_or, BitVec.getLsbD_and, BitVec.getLsbD_ushiftRight, BitVec.getLsbD_not, toBitVec_neg_one,
    BitVec.getLsbD_allOnes, hrest]
  by_cases hlo : i < 64
  case pos => simp [hlo, hi, show i - n.toNat < 64 by omega]
  case neg =>
    have hfrom : 64 - n.toNat + (i - 64) = i - n.toNat := by omega
    have hge : ¬i < n.toNat := by omega
    by_cases hlow : i - 64 < n.toNat
    case pos =>
      simp [hlo, hi, hlow, hfrom, hge, show i - n.toNat < 64 by omega,
        show ¬n.toNat + (i - n.toNat) < 64 by omega]
    case neg =>
      simp [hlo, hi, hlow, hfrom, hge, show ¬i - n.toNat < 64 by omega, show i - 64 < 64 by omega,
        show i - 64 - n.toNat = i - n.toNat - 64 by omega]

-- The bits that leave the high half are the highest ones of the low half.
theorem bits_shr (a : Uint128) (h0 : 0 < n.toNat) (hn : n.toNat < 64) :
    bits ⟨a.hi >>> n.toUInt64, a.lo >>> n.toUInt64 ||| (a.hi &&& ~~~((-1) <<< n.toUInt64)) <<< (64 - n).toUInt64⟩ =
      a.bits >>> n.toNat := by
  have hrest := toNat_rest hn
  refine BitVec.eq_of_getLsbD_eq fun i hi => ?_
  simp only [getLsbD_bits, BitVec.getLsbD_ushiftRight, UInt64.toBitVec_or, UInt64.toBitVec_and,
    UInt64.toBitVec_not,
    toBitVec_shiftRight _ hn, toBitVec_shiftLeft _ hn, toBitVec_shiftLeft _ (show (64 - n).toNat < 64 by omega),
    BitVec.getLsbD_or, BitVec.getLsbD_and, BitVec.getLsbD_shiftLeft, BitVec.getLsbD_not, toBitVec_neg_one,
    BitVec.getLsbD_allOnes, hrest]
  by_cases hlo : i < 64
  case pos =>
    by_cases hlow : n.toNat + i < 64
    case pos => simp [hlo, hlow, show i < 64 - n.toNat by omega]
    case neg =>
      have hfrom : i - (64 - n.toNat) = n.toNat + i - 64 := by omega
      have hmask : n.toNat + i - 64 < n.toNat := by omega
      have hout : a.lo.toBitVec.getLsbD (n.toNat + i) = false := BitVec.getLsbD_of_ge _ _ (by omega)
      simp [hout, hlo, hlow, hfrom, hmask, show ¬i < 64 - n.toNat by omega,
        show n.toNat + i - 64 < 64 by omega]
  case neg =>
    simp [hlo, show ¬n.toNat + i < 64 by omega, show n.toNat + (i - 64) = n.toNat + i - 64 by omega]

theorem bits_shl_half (a : Uint128) : bits ⟨a.lo, 0⟩ = a.bits <<< 64 := by
  refine BitVec.eq_of_getLsbD_eq fun i hi => ?_
  simp only [getLsbD_bits, BitVec.getLsbD_shiftLeft, show (0 : UInt64).toBitVec = 0#64 from rfl,
    BitVec.getLsbD_zero]
  by_cases hlo : i < 64
  case pos => simp [hlo]
  case neg => simp [hlo, hi, show i - 64 < 64 by omega]

theorem bits_shr_half (a : Uint128) : bits ⟨0, a.hi⟩ = a.bits >>> 64 := by
  refine BitVec.eq_of_getLsbD_eq fun i hi => ?_
  simp only [getLsbD_bits, BitVec.getLsbD_ushiftRight, show (0 : UInt64).toBitVec = 0#64 from rfl,
    BitVec.getLsbD_zero]
  by_cases hlo : i < 64
  case pos => simp [hlo]
  case neg =>
    have hout : a.hi.toBitVec.getLsbD i = false := BitVec.getLsbD_of_ge _ _ (by omega)
    simp [hlo, hout]

theorem toInteger_of_lt {a : Uint128} (h : a.val < 2 ^ 32) : ∃ n, a.toInteger = .ok n ∧
    n.toNat = a.val := by
  have hval := h
  rw [val] at hval
  have hhi : a.hi = 0 := UInt64.toNat_inj.mp (show a.hi.toNat = 0 by omega)
  have hlo : a.lo.toUInt32.toNat = a.lo.toNat := by
    rw [UInt64.toNat_toUInt32]
    omega
  have hsame : a.lo = a.lo.toUInt32.toUInt64 := by
    rw [← UInt64.toNat_inj, UInt32.toNat_toUInt64, hlo]
  refine ⟨a.lo.toUInt32, by rw [toInteger, if_pos hhi, if_pos hsame], ?_⟩
  rw [hlo, val, hhi]
  simp

end Shifts

section Assignments

variable {ν : Type} [DecidableEq ν] {this : ν} {u : Operand ν} {s : ν → Uint128}

omit [DecidableEq ν] in
@[simp]
theorem read_object (x : ν) : (Operand.object x).read s = s x :=
  rfl

omit [DecidableEq ν] in
@[simp]
theorem read_value (v : Uint128) : (Operand.value v).read s = v :=
  rfl

omit [DecidableEq ν] in
@[simp]
theorem load_run : (load u).run s = .ok (u.read s) s :=
  rfl

@[simp]
theorem setHi_run (hi : UInt64) :
    (setHi this hi).run s = .ok () (Function.update s this ⟨hi, (s this).lo⟩) :=
  rfl

@[simp]
theorem setLo_run (lo : UInt64) :
    (setLo this lo).run s = .ok () (Function.update s this ⟨(s this).hi, lo⟩) :=
  rfl

-- An operand keeps the half that is not assigned, even if it is the object that is assigned to.
theorem read_update_lo (hi : UInt64) :
    (u.read (Function.update s this ⟨hi, (s this).lo⟩)).lo = (u.read s).lo := by
  cases u
  case value => rfl
  case object x =>
    by_cases h : x = this
    case pos => subst h; simp [Operand.read]
    case neg => simp [Operand.read, h]

theorem read_update_hi (lo : UInt64) :
    (u.read (Function.update s this ⟨(s this).hi, lo⟩)).hi = (u.read s).hi := by
  cases u
  case value => rfl
  case object x =>
    by_cases h : x = this
    case pos => subst h; simp [Operand.read]
    case neg => simp [Operand.read, h]

theorem bits_or (a b : Uint128) : bits ⟨a.hi ||| b.hi, a.lo ||| b.lo⟩ = a.bits ||| b.bits := by
  refine BitVec.eq_of_getLsbD_eq fun i hi => ?_
  simp only [getLsbD_bits, BitVec.getLsbD_or, UInt64.toBitVec_or]
  split <;> rfl

theorem bits_and (a b : Uint128) : bits ⟨a.hi &&& b.hi, a.lo &&& b.lo⟩ = a.bits &&& b.bits := by
  refine BitVec.eq_of_getLsbD_eq fun i hi => ?_
  simp only [getLsbD_bits, BitVec.getLsbD_and, UInt64.toBitVec_and]
  split <;> rfl

theorem bits_xor (a b : Uint128) : bits ⟨a.hi ^^^ b.hi, a.lo ^^^ b.lo⟩ = a.bits ^^^ b.bits := by
  refine BitVec.eq_of_getLsbD_eq fun i hi => ?_
  simp only [getLsbD_bits, BitVec.getLsbD_xor, UInt64.toBitVec_xor]
  split <;> rfl

theorem bits_add (a b : Uint128) :
    bits ⟨a.hi + (b.hi + if a.lo + b.lo < a.lo then 1 else 0), a.lo + b.lo⟩ = a.bits + b.bits := by
  have := a.lo.toNat_lt
  have := b.lo.toNat_lt
  have hcarry : a.lo + b.lo < a.lo ↔ 2 ^ 64 ≤ a.lo.toNat + b.lo.toNat := by
    rw [UInt64.lt_iff_toNat_lt, UInt64.toNat_add]
    omega
  refine BitVec.eq_of_toNat_eq ?_
  simp only [BitVec.toNat_add, toNat_bits, val, hcarry, UInt64.toNat_add]
  split
  case isTrue  => simp only [UInt64.toNat_one]; omega
  case isFalse => simp only [UInt64.toNat_zero]; omega

theorem orAssign_run :
    (orAssign this u).run s = .ok () (Function.update s this (ofBits ((s this).bits ||| (u.read s).bits))) := by
  rw [← bits_or, ofBits_bits]
  simp [orAssign, read_update_lo]

theorem andAssign_run :
    (andAssign this u).run s = .ok () (Function.update s this (ofBits ((s this).bits &&& (u.read s).bits))) := by
  rw [← bits_and, ofBits_bits]
  simp [andAssign, read_update_lo]

theorem xorAssign_run :
    (xorAssign this u).run s = .ok () (Function.update s this (ofBits ((s this).bits ^^^ (u.read s).bits))) := by
  rw [← bits_xor, ofBits_bits]
  simp [xorAssign, read_update_lo]

theorem addAssign_run :
    (addAssign this u).run s = .ok () (Function.update s this (ofBits ((s this).bits + (u.read s).bits))) := by
  rw [← bits_add, ofBits_bits]
  simp [addAssign, read_update_hi]

theorem bits_neg (a : Uint128) : a.neg.bits = -a.bits := by
  refine BitVec.eq_of_toNat_eq ?_
  rw [toNat_bits, val_neg, BitVec.toNat_neg, toNat_bits]

theorem subAssign_run :
    (subAssign this u).run s = .ok () (Function.update s this (ofBits ((s this).bits - (u.read s).bits))) := by
  rw [subAssign, EStateM.run_bind, load_run]
  simp only [addAssign_run, read_value, bits_neg, BitVec.sub_eq_add_neg]

theorem val_ofInt64_128 : (ofInt64 128).val = 128 := by
  decide

theorem shiftAmount_all (h : 128 ≤ (u.read s).val) :
    (shiftAmount this u).run s = .ok none (Function.update s this ⟨0, 0⟩) := by
  have hge : ge (u.read s) (ofInt64 128) = true := (ge_iff _ _).mpr (by rwa [val_ofInt64_128])
  simp [shiftAmount, hge]

theorem shiftAmount_some (h : (u.read s).val < 128) :
    ∃ n : UInt32, (shiftAmount this u).run s = .ok (some n) s ∧ n.toNat = (u.read s).val := by
  have hge : ge (u.read s) (ofInt64 128) = false := by
    rw [Bool.eq_false_iff, ne_eq, ge_iff, val_ofInt64_128]
    omega
  obtain ⟨n, hn, hval⟩ := toInteger_of_lt (show (u.read s).val < 2 ^ 32 by omega)
  exact ⟨n, by simp [shiftAmount, hge, hn], hval⟩

theorem shlHalves_run {n : UInt32} (hn : n.toNat < 64) :
    (shlHalves this n).run s = .ok () (Function.update s this (ofBits ((s this).bits <<< n.toNat))) := by
  by_cases h0 : n = 0
  case pos => simp [h0, shlHalves, ofBits_bits]
  case neg =>
    have hpos : 0 < n.toNat := Nat.pos_of_ne_zero fun h => h0 (UInt32.toNat_inj.mp h)
    rw [← bits_shl _ hpos hn, ofBits_bits]
    simp [shlHalves, h0]

theorem shrHalves_run {n : UInt32} (hn : n.toNat < 64) :
    (shrHalves this n).run s = .ok () (Function.update s this (ofBits ((s this).bits >>> n.toNat))) := by
  by_cases h0 : n = 0
  case pos => simp [h0, shrHalves, ofBits_bits]
  case neg =>
    have hpos : 0 < n.toNat := Nat.pos_of_ne_zero fun h => h0 (UInt32.toNat_inj.mp h)
    rw [← bits_shr _ hpos hn, ofBits_bits]
    simp [shrHalves, h0]

theorem toNat_sub_half {n : UInt32} (h : 64 ≤ n.toNat) : (n - 64).toNat = n.toNat - 64 := by
  have := n.toNat_lt
  have h64 : (64 : UInt32).toNat = 64 := rfl
  rw [UInt32.toNat_sub, h64]
  omega

theorem shlAssign_run :
    (shlAssign this u).run s = .ok () (Function.update s this (ofBits ((s this).bits <<< (u.read s).val))) := by
  by_cases h : 128 ≤ (u.read s).val
  case pos =>
    rw [BitVec.shiftLeft_eq_zero h, shlAssign, EStateM.run_bind, shiftAmount_all h]
    rfl
  case neg =>
    obtain ⟨n, hrun, hval⟩ := @shiftAmount_some _ _ this u s (by omega)
    have hle : 64 ≤ n ↔ 64 ≤ n.toNat := UInt32.le_iff_toNat_le
    rw [shlAssign, EStateM.run_bind, hrun, ← hval]
    by_cases hhalf : 64 ≤ n.toNat
    case neg =>
      simp only [hle, if_neg hhalf]
      exact shlHalves_run (by omega)
    case pos =>
      have hsub := toNat_sub_half hhalf
      -- The half is moved first.
      have hshift : (s this).bits <<< n.toNat = bits ⟨(s this).lo, 0⟩ <<< (n - 64).toNat := by
        rw [bits_shl_half, ← BitVec.shiftLeft_add, hsub, Nat.add_sub_cancel' hhalf]
      simp only [hle, if_pos hhalf, EStateM.run_bind, load_run, setHi_run, setLo_run, read_object,
        Function.update_self,
        Function.update_idem, shlHalves_run (show (n - 64).toNat < 64 by omega), hshift]

theorem shrAssign_run :
    (shrAssign this u).run s = .ok () (Function.update s this (ofBits ((s this).bits >>> (u.read s).val))) := by
  by_cases h : 128 ≤ (u.read s).val
  case pos =>
    have hzero : (s this).bits >>> (u.read s).val = 0#128 := BitVec.ushiftRight_eq_zero h
    rw [hzero, shrAssign, EStateM.run_bind, shiftAmount_all h]
    rfl
  case neg =>
    obtain ⟨n, hrun, hval⟩ := @shiftAmount_some _ _ this u s (by omega)
    have hle : 64 ≤ n ↔ 64 ≤ n.toNat := UInt32.le_iff_toNat_le
    rw [shrAssign, EStateM.run_bind, hrun, ← hval]
    by_cases hhalf : 64 ≤ n.toNat
    case neg =>
      simp only [hle, if_neg hhalf]
      exact shrHalves_run (by omega)
    case pos =>
      have hsub := toNat_sub_half hhalf
      have hshift : (s this).bits >>> n.toNat = bits ⟨0, (s this).hi⟩ >>> (n - 64).toNat := by
        rw [bits_shr_half, ← BitVec.shiftRight_add, hsub, Nat.add_sub_cancel' hhalf]
      simp only [hle, if_pos hhalf, EStateM.run_bind, load_run, setHi_run, setLo_run, read_object,
        Function.update_self,
        Function.update_idem, shrHalves_run (show (n - 64).toNat < 64 by omega), hshift]

section Limbs

-- A limb, or the product of two, among the bits.
def ofHalf (x : UInt64) : BitVec 128 :=
  .ofNat 128 x.toNat

theorem bits_ofUInt64 (x : UInt64) : (ofUInt64 x).bits = ofHalf x := by
  refine BitVec.eq_of_toNat_eq ?_
  have := x.toNat_lt
  simp only [toNat_bits, val, ofUInt64, ofHalf, BitVec.toNat_ofNat, UInt64.toNat_zero]
  omega

theorem ofHalf_mul {x y : UInt64} (hx : x.toNat < 2 ^ 32) (hy : y.toNat < 2 ^ 32) :
    ofHalf (x * y) = ofHalf x * ofHalf y := by
  have hlt : x.toNat * y.toNat < 2 ^ 64 :=
    calc x.toNat * y.toNat
      _ < 2 ^ 32 * 2 ^ 32 := Nat.mul_lt_mul'' hx hy
      _ = 2 ^ 64          := rfl
  rw [ofHalf, ofHalf, ofHalf, ← BitVec.ofNat_mul, UInt64.toNat_mul, Nat.mod_eq_of_lt hlt]

-- The weight of the second limb.
def base : BitVec 128 :=
  .ofNat 128 (2 ^ 32)

theorem base_pow_four : base ^ 4 = 0 := by
  decide

theorem toNat_toUInt32_lt (x : UInt64) : x.toUInt32.toUInt64.toNat < 2 ^ 32 := by
  rw [UInt32.toNat_toUInt64]
  exact x.toUInt32.toNat_lt

theorem bits_limbs (a : Uint128) :
    a.bits = ofHalf a.limbs.l0 + ofHalf a.limbs.l1 * base + ofHalf a.limbs.l2 * base ^ 2 + ofHalf a.limbs.l3 * base ^ 3 := by
  have h20 : (0x20 : UInt64).toNat = 32 := rfl
  have := a.lo.toNat_lt
  have := a.hi.toNat_lt
  refine BitVec.eq_of_toNat_eq ?_
  simp only [limbs, ofHalf, base, ← BitVec.ofNat_mul, ← BitVec.ofNat_add, ← BitVec.ofNat_pow,
    BitVec.toNat_ofNat,
    toNat_bits, val, UInt32.toNat_toUInt64, UInt64.toNat_toUInt32, UInt64.toNat_shiftRight, h20,
    Nat.shiftRight_eq_div_pow, show 32 % 64 = 32 from rfl]
  omega

end Limbs

theorem val_ofInt64_32 : (ofInt64 0x20).val = 32 := by
  decide

theorem shiftLeft_32 (v : BitVec 128) : v <<< 32 = v * base := by
  rw [BitVec.shiftLeft_eq_mul_twoPow]
  rfl

theorem setHalves_bits (x : UInt64) : bits ⟨0, x⟩ = ofHalf x :=
  bits_ofUInt64 x

-- The two assignments the product is made of, where the object holds given bits.
theorem addAssign_half (v : BitVec 128) (x : UInt64) :
    (addAssign this (.value (ofUInt64 x))).run (Function.update s this (ofBits v)) =
      .ok () (Function.update s this (ofBits (v + ofHalf x))) := by
  rw [addAssign_run, Function.update_self, Function.update_idem, bits_ofBits, read_value,
    bits_ofUInt64]

theorem shlAssign_limb (v : BitVec 128) :
    (shlAssign this (.value (ofInt64 0x20))).run (Function.update s this (ofBits v)) =
      .ok () (Function.update s this (ofBits (v * base))) := by
  rw [shlAssign_run, Function.update_self, Function.update_idem, bits_ofBits, read_value,
    val_ofInt64_32, shiftLeft_32]

omit [DecidableEq ν] in
theorem load_bind {f : Uint128 → Action ν Unit} : (load u >>= f).run s = (f (u.read s)).run s :=
  rfl

omit [DecidableEq ν] in
theorem seq_run {x y : Action ν Unit} {s s' : ν → Uint128} (h : x.run s = .ok () s') :
    (x >>= fun _ => y).run s = y.run s' := by
  rw [EStateM.run_bind, h]

-- Horner's scheme over the weights.
theorem mulLimbs_run (a b : Limbs) :
    (mulLimbs this a b).run s = .ok () (Function.update s this (ofBits
      ((((ofHalf (a.l3 * b.l0) + ofHalf (a.l2 * b.l1) + ofHalf (a.l1 * b.l2) + ofHalf (a.l0 * b.l3)) * base +
        ofHalf (a.l2 * b.l0) + ofHalf (a.l1 * b.l1) + ofHalf (a.l0 * b.l2)) * base +
        ofHalf (a.l1 * b.l0) + ofHalf (a.l0 * b.l1)) * base + ofHalf (a.l0 * b.l0)))) := by
  have hlo : (setLo this (a.l3 * b.l0)).run (Function.update s this ⟨0, (s this).lo⟩) =
      .ok () (Function.update s this (ofBits (ofHalf (a.l3 * b.l0)))) := by
    rw [setLo_run, Function.update_self, Function.update_idem, eq_ofBits (setHalves_bits _)]
  refine (seq_run (setHi_run 0)).trans ?_
  refine (seq_run hlo).trans ?_
  refine (seq_run (addAssign_half _ _)).trans ?_
  refine (seq_run (addAssign_half _ _)).trans ?_
  refine (seq_run (addAssign_half _ _)).trans ?_
  refine (seq_run (shlAssign_limb _)).trans ?_
  refine (seq_run (addAssign_half _ _)).trans ?_
  refine (seq_run (addAssign_half _ _)).trans ?_
  refine (seq_run (addAssign_half _ _)).trans ?_
  refine (seq_run (shlAssign_limb _)).trans ?_
  refine (seq_run (addAssign_half _ _)).trans ?_
  refine (seq_run (addAssign_half _ _)).trans ?_
  refine (seq_run (shlAssign_limb _)).trans ?_
  exact addAssign_half _ _

-- The products that are left out have a weight that is a multiple of `base ^ 4`.
theorem bits_mul (a b : Uint128) :
    (((ofHalf (a.limbs.l3 * b.limbs.l0) + ofHalf (a.limbs.l2 * b.limbs.l1) + ofHalf (a.limbs.l1 * b.limbs.l2) +
        ofHalf (a.limbs.l0 * b.limbs.l3)) * base + ofHalf (a.limbs.l2 * b.limbs.l0) + ofHalf (a.limbs.l1 * b.limbs.l1) +
        ofHalf (a.limbs.l0 * b.limbs.l2)) * base + ofHalf (a.limbs.l1 * b.limbs.l0) +
        ofHalf (a.limbs.l0 * b.limbs.l1)) * base + ofHalf (a.limbs.l0 * b.limbs.l0) = a.bits * b.bits := by
  rw [bits_limbs a, bits_limbs b]
  have ha₀ : a.limbs.l0.toNat < 2 ^ 32 := toNat_toUInt32_lt _
  have ha₁ : a.limbs.l1.toNat < 2 ^ 32 := toNat_toUInt32_lt _
  have ha₂ : a.limbs.l2.toNat < 2 ^ 32 := toNat_toUInt32_lt _
  have ha₃ : a.limbs.l3.toNat < 2 ^ 32 := toNat_toUInt32_lt _
  have hb₀ : b.limbs.l0.toNat < 2 ^ 32 := toNat_toUInt32_lt _
  have hb₁ : b.limbs.l1.toNat < 2 ^ 32 := toNat_toUInt32_lt _
  have hb₂ : b.limbs.l2.toNat < 2 ^ 32 := toNat_toUInt32_lt _
  have hb₃ : b.limbs.l3.toNat < 2 ^ 32 := toNat_toUInt32_lt _
  rw [ofHalf_mul ha₃ hb₀, ofHalf_mul ha₂ hb₁, ofHalf_mul ha₁ hb₂, ofHalf_mul ha₀ hb₃,
    ofHalf_mul ha₂ hb₀,
    ofHalf_mul ha₁ hb₁, ofHalf_mul ha₀ hb₂, ofHalf_mul ha₁ hb₀, ofHalf_mul ha₀ hb₁, ofHalf_mul ha₀ hb₀]
  generalize ofHalf a.limbs.l0 = a₀
  generalize ofHalf a.limbs.l1 = a₁
  generalize ofHalf a.limbs.l2 = a₂
  generalize ofHalf a.limbs.l3 = a₃
  generalize ofHalf b.limbs.l0 = b₀
  generalize ofHalf b.limbs.l1 = b₁
  generalize ofHalf b.limbs.l2 = b₂
  generalize ofHalf b.limbs.l3 = b₃
  have hbase := base_pow_four
  generalize base = X at hbase ⊢
  linear_combination (-(a₁ * b₃ + a₂ * b₂ + a₃ * b₁) - (a₂ * b₃ + a₃ * b₂) * X - a₃ * b₃ * X ^ 2) * hbase

theorem mulAssign_run :
    (mulAssign this u).run s = .ok () (Function.update s this (ofBits ((s this).bits * (u.read s).bits))) := by
  rw [← bits_mul, ← mulLimbs_run]
  exact load_bind.trans load_bind

end Assignments

-- The assignment gives the object the value of `f`, whatever the operand is, and changes no other
-- object. The operator of two operands gives that value.
def Computes (op : Assignment) (f : Nat → Nat → Nat) : Prop :=
  (∀ (ν : Type) [DecidableEq ν] (s : ν → Uint128) (this : ν) (u : Operand ν), ∃ w : Uint128,
    (op ν this u).run s = .ok () (Function.update s this w) ∧ w.val = f (s this).val (u.read s).val) ∧
  ∀ l r : Uint128, ∃ w : Uint128, binary op l r = .ok w ∧ w.val = f l.val r.val

theorem computes_of_run {op : Assignment} {f : Nat → Nat → Nat}
    {g : BitVec 128 → BitVec 128 → BitVec 128}
    (hop : ∀ (ν : Type) [DecidableEq ν] {s : ν → Uint128} {this : ν} {u : Operand ν},
      (op ν this u).run s = .ok () (Function.update s this (ofBits (g (s this).bits (u.read s).bits))))
    (hg : ∀ v w, (g v w).toNat = f v.toNat w.toNat) : Computes op f := by
  have hval (a b : Uint128) : (ofBits (g a.bits b.bits)).val = f a.val b.val := by
    rw [← toNat_bits, bits_ofBits, hg, toNat_bits, toNat_bits]
  refine ⟨fun ν _ s this u => ⟨_, hop ν, hval _ _⟩, fun l r => ⟨_, ?_, hval l r⟩⟩
  rw [binary, hop Unit]
  simp

-- A shift by any amount, which may exceed the number of bits.
theorem toNat_shiftLeft (v : BitVec 128) (n : Nat) :
    (v <<< n).toNat = if n < 128 then v.toNat * 2 ^ n % 2 ^ 128 else 0 := by
  split
  case isTrue    => rw [BitVec.toNat_shiftLeft, Nat.shiftLeft_eq]
  case isFalse h => rw [BitVec.shiftLeft_eq_zero (Nat.le_of_not_lt h)]; rfl

theorem toNat_ushiftRight (v : BitVec 128) (n : Nat) :
    (v >>> n).toNat = if n < 128 then v.toNat / 2 ^ n else 0 := by
  split
  case isTrue    => rw [BitVec.toNat_ushiftRight, Nat.shiftRight_eq_div_pow]
  case isFalse h => rw [BitVec.ushiftRight_eq_zero (Nat.le_of_not_lt h)]; rfl

theorem toNat_sub' (v w : BitVec 128) :
    (v - w).toNat = (v.toNat + (2 ^ 128 - w.toNat)) % 2 ^ 128 := by
  rw [BitVec.toNat_sub, Nat.add_comm]

-- Each operation, on the numbers the objects stand for.

theorem computes_add : Computes (fun _ => addAssign) fun a b => (a + b) % 2 ^ 128 :=
  computes_of_run (fun _ => addAssign_run) BitVec.toNat_add

theorem computes_sub : Computes (fun _ => subAssign) fun a b => (a + (2 ^ 128 - b)) % 2 ^ 128 :=
  computes_of_run (fun _ => subAssign_run) toNat_sub'

theorem computes_mul : Computes (fun _ => mulAssign) fun a b => a * b % 2 ^ 128 :=
  computes_of_run (fun _ => mulAssign_run) BitVec.toNat_mul

theorem computes_or : Computes (fun _ => orAssign) fun a b => a ||| b :=
  computes_of_run (fun _ => orAssign_run) BitVec.toNat_or

theorem computes_and : Computes (fun _ => andAssign) fun a b => a &&& b :=
  computes_of_run (fun _ => andAssign_run) BitVec.toNat_and

theorem computes_xor : Computes (fun _ => xorAssign) fun a b => a ^^^ b :=
  computes_of_run (fun _ => xorAssign_run) BitVec.toNat_xor

theorem computes_shl :
    Computes (fun _ => shlAssign) fun a b => if b < 128 then a * 2 ^ b % 2 ^ 128 else 0 := by
  refine computes_of_run (g := fun v w => v <<< w.toNat) (fun _ => ?_) fun v w => toNat_shiftLeft v w.toNat
  intro _ s this u
  rw [toNat_bits]
  exact shlAssign_run

theorem computes_shr :
    Computes (fun _ => shrAssign) fun a b => if b < 128 then a / 2 ^ b else 0 := by
  refine computes_of_run (g := fun v w => v >>> w.toNat) (fun _ => ?_) fun v w => toNat_ushiftRight v w.toNat
  intro _ s this u
  rw [toNat_bits]
  exact shrAssign_run

theorem arithmetic_modulo :
    Computes (fun _ => addAssign) (fun a b => (a + b) % 2 ^ 128) ∧
    Computes (fun _ => subAssign) (fun a b => (a + (2 ^ 128 - b)) % 2 ^ 128) ∧
    Computes (fun _ => mulAssign) (fun a b => a * b % 2 ^ 128) ∧
    Computes (fun _ => orAssign) (fun a b => a ||| b) ∧
    Computes (fun _ => andAssign) (fun a b => a &&& b) ∧
    Computes (fun _ => xorAssign) (fun a b => a ^^^ b) ∧
    Computes (fun _ => shlAssign) (fun a b => if b < 128 then a * 2 ^ b % 2 ^ 128 else 0) ∧
    Computes (fun _ => shrAssign) (fun a b => if b < 128 then a / 2 ^ b else 0) ∧
    (∀ a : Uint128,
      a.neg.val = (2 ^ 128 - a.val) % 2 ^ 128 ∧ a.inc.val = (a.val + 1) % 2 ^ 128 ∧
      a.dec.val = (a.val + (2 ^ 128 - 1)) % 2 ^ 128 ∧ a.complement.val = 2 ^ 128 - 1 - a.val) ∧
    ∀ a b : Uint128,
      (a.eq b = true ↔ a.val = b.val) ∧ (a.lt b = true ↔ a.val < b.val) ∧
      (a.le b = true ↔ a.val ≤ b.val) ∧
      (a.gt b = true ↔ b.val < a.val) ∧ (a.ge b = true ↔ b.val ≤ a.val) := by
  refine ⟨computes_add, computes_sub, computes_mul, computes_or, computes_and, computes_xor, computes_shl, computes_shr,
    fun a => ?_, fun a b => ?_⟩
  case refine_1 => exact ⟨val_neg a, val_inc a, val_dec a, val_complement a⟩
  case refine_2 => exact ⟨eq_iff a b, lt_iff a b, le_iff a b, gt_iff a b, ge_iff a b⟩

end Uint128
