import Mathlib
import FcModel.Container.BloomFilter.Bits

-- The filters that the constructor gives, and whether their tables hold all bits that hashes lead
-- to.

namespace BloomFilter

variable {rand : UInt32 → Nat → UInt32} {fuel : Nat} {p : BloomParameters} {o : OptimalParameters}
    {f : BloomFilter}

section Construction

theorem length_foldl_mixSalt (seed : UInt64) (salt : List UInt32) (is : List Nat) :
    (is.foldl (mixSalt seed) salt).length = salt.length := by
  induction is generalizing salt
  case nil      => rfl
  case cons hi  => rw [List.foldl_cons, hi, mixSalt, List.length_set]

theorem le_length_drawSalts {r : Nat → UInt32} {count n : Nat} {salt salt' : List UInt32}
    (h : drawSalts r count fuel n salt = some salt') : count ≤ salt'.length := by
  induction fuel generalizing n salt
  case zero =>
    rw [drawSalts] at h
    split at h
    case isTrue     => cases h
    case isFalse hc => cases h; omega
  case succ fuel hi =>
    rw [drawSalts] at h
    split at h
    case isTrue =>
      dsimp only at h
      split at h
      case isTrue   => exact hi h
      case isFalse  => exact hi h
    case isFalse hc => cases h; omega

theorem generateUniqueSalt_eq_nil_iff {count : UInt32} {seed : UInt64} {salt : List UInt32}
    (h : generateUniqueSalt rand fuel count seed = some salt) : salt = [] ↔ count = 0 := by
  have hc : count = 0 ↔ count.toNat = 0 := ⟨fun h => h ▸ rfl, fun h => UInt32.toNat.inj h⟩
  rw [hc, ← List.length_eq_zero_iff]
  unfold generateUniqueSalt at h
  split at h
  case isTrue hle =>
    have hle : count.toNat ≤ 128 := UInt32.le_iff_toNat_le.mp hle
    have hp : predefSalt.length = 128 := rfl
    cases h
    rw [length_foldl_mixSalt, List.length_take, hp, Nat.min_eq_left hle]
  case isFalse hle =>
    have hle : 128 < count.toNat := by
      have := mt UInt32.le_iff_toNat_le.mpr hle
      rw [show (128 : UInt32).toNat = 128 from rfl] at this
      omega
    have := le_length_drawSalts h
    omega

-- What the constructor gives.
structure Fresh (rand : UInt32 → Nat → UInt32) (fuel : Nat) (p : BloomParameters)
    (o : OptimalParameters) (f : BloomFilter) : Prop extends Sized f where
  saltCount  : f.saltCount = o.numberOfHashes
  tableSize  : f.tableSize = o.tableSize
  randomSeed : f.randomSeed = p.randomSeed * 0xA5A5A5A5 + 1
  salt       : generateUniqueSalt rand fuel f.saltCount f.randomSeed = some f.salt
  bits       : f.bits = ∅

theorem fresh_of_construct (h : construct rand fuel p o = .ok f) : Fresh rand fuel p o f := by
  unfold construct at h
  dsimp only at h
  split at h
  case h_1 => cases h
  case h_2 salt hs =>
    cases h
    exact {
      raw        := rfl
      length     := List.length_replicate
      saltCount  := rfl
      tableSize  := rfl
      randomSeed := rfl
      salt       := hs
      bits       := by ext m; simp [BloomFilter.bits, bitOf_replicate] }

theorem Fresh.salt_eq_nil_iff (h : Fresh rand fuel p o f) : f.salt = [] ↔ o.numberOfHashes = 0 :=
  h.saltCount ▸ generateUniqueSalt_eq_nil_iff h.salt

theorem Fresh.inBounds (h : Fresh rand fuel p o f) (hf : o.numberOfHashes = 0 ∨ Fits o.tableSize) :
    InBounds f where
  toSized := h.toSized
  fits hs := h.tableSize ▸ hf.resolve_left (mt h.salt_eq_nil_iff.mpr hs)

end Construction

section Bounds

theorem word32_bytes (w : UInt32) :
    word32 w.toUInt8 (w >>> 8).toUInt8 (w >>> 16).toUInt8 (w >>> 24).toUInt8 = w := by
  apply UInt32.eq_of_toBitVec_eq
  ext i hi
  simp only [word32, UInt32.toBitVec_or, UInt32.toBitVec_shiftLeft, UInt8.toBitVec_toUInt32,
    UInt32.toBitVec_toUInt8, UInt32.toBitVec_shiftRight]
  interval_cases i <;> simp

theorem hashAp_four (s : UInt32) (b0 b1 b2 b3 : UInt8) :
    hashAp s [b0, b1, b2, b3] = mixEven s (word32 b0 b1 b2 b3) := by
  simp [hashAp, hashTail4, hashTail2, hashTail1]

-- Keys of four bytes have all hashes.
theorem exists_hashAp_eq (s h : UInt32) : ∃ key, hashAp s key = h := by
  let w := (~~~(s ^^^ h) - (s <<< 11)) ^^^ (s >>> 5)
  refine ⟨[w.toUInt8, (w >>> 8).toUInt8, (w >>> 16).toUInt8, (w >>> 24).toUInt8], ?_⟩
  have hx : w ^^^ (s >>> 5) = ~~~(s ^^^ h) - (s <<< 11) := by
    rw [UInt32.xor_assoc, UInt32.xor_self, UInt32.xor_zero]
  rw [hashAp_four, word32_bytes, mixEven, hx, UInt32.add_comm, UInt32.sub_add_cancel,
    UInt32.not_not, ← UInt32.xor_assoc,
    UInt32.xor_self, UInt32.zero_xor]

theorem not_fits_iff {t : UInt64} (h0 : t ≠ 0) :
    ¬Fits t ↔ t.toNat % 8 ≠ 0 ∧ t.toNat < 2 ^ 32 := by
  have h8 : t % 8 = 0 ↔ t.toNat % 8 = 0 := by
    rw [← UInt64.toNat_inj, UInt64.toNat_mod]
    rfl
  rw [Fits, h8, UInt64.le_iff_toNat_le, show (2 ^ 32 : UInt64).toNat = 2 ^ 32 from rfl]
  simp only [h0, ne_eq, not_false_eq_true, true_and, not_or, not_le]

-- The hash that leads to the last bit, which has no byte in the table.
theorem insertSalt_outside {key : List UInt8} {s : UInt32} (h0 : f.tableSize ≠ 0)
    (hn : ¬Fits f.tableSize)
    (hs : Sized f) (hk : hashAp s key = (f.tableSize - 1).toUInt32) :
    insertSalt key f s = .error .outOfBounds := by
  obtain ⟨h8, h32⟩ := (not_fits_iff h0).mp hn
  have hpos : 1 ≤ f.tableSize.toNat := by
    have : f.tableSize.toNat ≠ 0 := fun h => h0 (UInt64.toNat.inj h)
    omega
  have hsub : (f.tableSize - 1).toNat = f.tableSize.toNat - 1 :=
    UInt64.toNat_sub_of_le _ _ (UInt64.le_iff_toNat_le.mpr hpos)
  have hp : f.position key s = f.tableSize.toNat - 1 := by
    rw [position, hk, UInt64.toNat_toUInt32, hsub, Nat.mod_eq_of_lt (by omega),
      Nat.mod_eq_of_lt (by omega)]
  have hlen : f.bitTable.length = f.tableSize.toNat / 8 := by
    rw [hs.length, hs.raw, UInt64.toNat_div]
    rfl
  have hnone : f.bitTable[f.position key s / 8]? = none :=
    List.getElem?_eq_none (by rw [hp, hlen]; omega)
  rw [insertSalt, computeIndices_eq h0, Except.ok_bind]
  simp only [setBit, hnone]
  rfl

theorem forall_insert_iff (hf : Fresh rand fuel p o f) :
    (∀ key, ∃ g, f.insert key = .ok g) ↔ o.numberOfHashes = 0 ∨ Fits o.tableSize := by
  constructor
  case mp =>
    intro hall
    by_contra hc
    obtain ⟨hn, hfit⟩ := not_or.mp hc
    rw [← hf.tableSize] at hfit
    obtain ⟨s, ss, hs⟩ := List.exists_cons_of_ne_nil (mt hf.salt_eq_nil_iff.mp hn)
    obtain ⟨key, hk⟩ := exists_hashAp_eq s (f.tableSize - 1).toUInt32
    obtain ⟨g, hg⟩ := hall key
    rw [insert, hs, List.foldlM_cons] at hg
    obtain ⟨_, hg, -⟩ := Except.bind_eq_ok hg
    obtain ⟨_, hg, -⟩ := Except.bind_eq_ok hg
    by_cases h0 : f.tableSize = 0
    case pos => rw [insertSalt, computeIndices, if_pos h0] at hg; cases hg
    case neg => rw [insertSalt_outside h0 hfit hf.toSized hk] at hg; cases hg
  case mpr =>
    intro hc key
    obtain ⟨g, hg, -⟩ := insert_eq key (hf.inBounds hc)
    exact ⟨g, hg⟩

-- No operation on any key leaves the table exactly where the size of the table fits.
theorem insert_inBounds_iff (h : construct rand fuel p o = .ok f) :
    ((∀ key, ∃ g, f.insert key = .ok g) ↔ o.numberOfHashes = 0 ∨ Fits o.tableSize) ∧
    ((∀ key, ∃ g, f.insert key = .ok g) → ∀ key, ∃ r, f.contains key = .ok r) := by
  have hf := fresh_of_construct h
  refine ⟨forall_insert_iff hf, fun hall key => ?_⟩
  obtain ⟨r, hr, -⟩ := contains_eq key (hf.inBounds ((forall_insert_iff hf).mp hall))
  exact ⟨r, hr⟩

-- A table of nine bits has one byte, and some key needs the ninth bit.
theorem insert_inBounds_nine : ∃ f, construct (fun _ _ => 0) 0 {} ⟨2, 9⟩ = .ok f ∧
    ((∀ key, ∃ g, f.insert key = .ok g) ↔ (2 : UInt32) = 0 ∨ Fits 9) ∧
    ((∀ key, ∃ g, f.insert key = .ok g) → ∀ key, ∃ r, f.contains key = .ok r) := by
  obtain ⟨f, h⟩ : ∃ f, construct (fun _ _ => 0) 0 {} ⟨2, 9⟩ = .ok f := ⟨_, rfl⟩
  exact ⟨f, h, insert_inBounds_iff h⟩

-- The limits that parameters have unless they are changed.
def DefaultLimits (p : BloomParameters) : Prop :=
  p.minimumSize = 1 ∧ p.maximumSize = 0xffffffffffffffff ∧ p.minimumNumberOfHashes = 1 ∧
    p.maximumNumberOfHashes = 0xffffffff

theorem numberOfHashes_optimal_ne_zero (hp : DefaultLimits p) (minK : UInt32) (minM : UInt64) :
    (p.optimal minK minM).numberOfHashes ≠ 0 := by
  obtain ⟨-, -, h1, h2⟩ := hp
  simp only [BloomParameters.optimal, h1, h2]
  split
  case isTrue => decide
  case isFalse h =>
    split
    case isTrue => decide
    case isFalse =>
      rintro rfl
      exact h (by decide)

theorem toNat_roundUp (m : UInt64) : (m + (if m % 8 ≠ 0 then 8 - m % 8 else 0)).toNat =
    (m.toNat + 7) / 8 * 8 % 2 ^ 64 := by
  have hm := m.toNat_lt
  have h8 : (m % 8).toNat = m.toNat % 8 := UInt64.toNat_mod ..
  have hsub : (8 - m % 8).toNat = 8 - m.toNat % 8 := by
    rw [UInt64.toNat_sub_of_le _ _ (UInt64.le_iff_toNat_le.mpr (by rw [h8]; change _ ≤ 8; omega)),
      h8]
    rfl
  rw [UInt64.toNat_add]
  split
  case isTrue h =>
    have : m.toNat % 8 ≠ 0 := fun h0 => h (UInt64.toNat.inj (h8.trans h0))
    rw [hsub]
    omega
  case isFalse h =>
    have : m.toNat % 8 = 0 := by rw [← h8, not_not.mp h]; rfl
    rw [show (0 : UInt64).toNat = 0 from rfl]
    omega

theorem fits_optimal_iff (hp : DefaultLimits p) (minK : UInt32) (minM : UInt64) :
    Fits (p.optimal minK minM).tableSize ↔ minM ≠ 0 ∧ minM.toNat ≤ 2 ^ 64 - 8 := by
  obtain ⟨h1, h2, -, -⟩ := hp
  have hm := minM.toNat_lt
  have ht := toNat_roundUp minM
  have hz : minM ≠ 0 ↔ minM.toNat ≠ 0 := by rw [ne_eq, ← UInt64.toNat_inj]; rfl
  simp only [BloomParameters.optimal, h1, h2]
  generalize minM + (if minM % 8 ≠ 0 then 8 - minM % 8 else 0) = t at ht ⊢
  rw [hz]
  split
  case isTrue h =>
    -- The size was rounded to 0, and one bit has no byte.
    have h0 : t.toNat < 1 := UInt64.lt_iff_toNat_lt.mp h
    refine iff_of_false (by decide) ?_
    omega
  case isFalse h =>
    have h0 : ¬t.toNat < 1 := fun hlt => h (UInt64.lt_iff_toNat_lt.mpr hlt)
    have hmax : ¬0xffffffffffffffff < t := by
      rw [UInt64.lt_iff_toNat_lt]
      have := t.toNat_lt
      change ¬(2 ^ 64 - 1 < t.toNat)
      omega
    rw [if_neg hmax]
    refine iff_of_true ⟨fun h => h0 (by rw [h]; decide), .inl (UInt64.toNat.inj ?_)⟩ (by omega)
    rw [UInt64.toNat_mod]
    change t.toNat % 8 = 0
    omega

-- With these limits, the computed sizes are safe but for the smallest and the largest ones.
theorem insert_optimal_inBounds_iff (hp : DefaultLimits p) (minK : UInt32) (minM : UInt64)
    (h : construct rand fuel p (p.optimal minK minM) = .ok f) :
    (∀ key, ∃ g, f.insert key = .ok g) ↔ minM ≠ 0 ∧ minM.toNat ≤ 2 ^ 64 - 8 := by
  rw [forall_insert_iff (fresh_of_construct h), fits_optimal_iff hp]
  exact or_iff_right (numberOfHashes_optimal_ne_zero hp minK minM)

theorem insert_optimal_inBounds_zero : ∃ f,
    construct (fun _ _ => 0) 0 {} (BloomParameters.optimal {} 1 0) = .ok f ∧
      ((∀ key, ∃ g, f.insert key = .ok g) ↔ (0 : UInt64) ≠ 0 ∧ (0 : UInt64).toNat ≤ 2 ^ 64 - 8) := by
  obtain ⟨f, h⟩ : ∃ f, construct (fun _ _ => 0) 0 {} (BloomParameters.optimal {} 1 0) = .ok f :=
    ⟨_, rfl⟩
  exact ⟨f, h, insert_optimal_inBounds_iff ⟨rfl, rfl, rfl, rfl⟩ 1 0 h⟩

end Bounds

end BloomFilter
