import FcModel.Utf8.Encode

-- What the decoder accepts is the encoding of a character.

namespace Utf8

theorem increaseSafely_eq_ok {it rest : Bytes} {b : UInt8} (h : increaseSafely it = .ok (b, rest)) :
    it = b :: rest ∧ b.toNat / 64 = 2 := by
  cases it
  case nil => cases h
  case cons b' it =>
    rw [increaseSafely] at h
    split at h
    case isFalse => cases h
    case isTrue ht =>
      cases h
      exact ⟨rfl, (shiftRight_eq_iff b 6 2 (by decide)).mp (of_decide_eq_true ht)⟩

section Sequences

variable {lead : UInt8} {it rest : Bytes} {cp : UInt32}

theorem getSequence2_eq_ok (h : getSequence2 lead it = .ok (cp, rest)) :
    ∃ b, it = b :: rest ∧ b.toNat / 64 = 2 ∧ cp.toNat = lead.toNat % 32 * 64 + b.toNat % 64 := by
  rw [getSequence2] at h
  cases hb : increaseSafely it
  case error e => rw [hb] at h; cases h
  case ok p =>
    obtain ⟨b, it'⟩ := p
    obtain ⟨rfl, htrail⟩ := increaseSafely_eq_ok hb
    rw [hb] at h
    cases h
    refine ⟨b, rfl, htrail, ?_⟩
    rw [UInt32.toNat_add, bits_toNat _ 6 11 rfl (by decide) rfl,
      bits_toNat _ 0 6 rfl (by decide) rfl]
    have := b.toNat_lt
    omega

theorem getSequence3_eq_ok (h : getSequence3 lead it = .ok (cp, rest)) :
    ∃ b c, it = b :: c :: rest ∧ b.toNat / 64 = 2 ∧ c.toNat / 64 = 2 ∧
      cp.toNat = lead.toNat % 16 * 4096 + b.toNat % 64 * 64 + c.toNat % 64 := by
  rw [getSequence3] at h
  cases hb : increaseSafely it
  case error e => rw [hb] at h; cases h
  case ok p =>
    obtain ⟨b, it'⟩ := p
    obtain ⟨rfl, htrail⟩ := increaseSafely_eq_ok hb
    rw [hb] at h
    cases hc : increaseSafely it'
    case error e => simp only [bind, Except.bind, hc] at h; cases h
    case ok p =>
      obtain ⟨c, it''⟩ := p
      obtain ⟨rfl, htrail'⟩ := increaseSafely_eq_ok hc
      simp only [bind, Except.bind, hc] at h
      cases h
      refine ⟨b, c, rfl, htrail, htrail', ?_⟩
      rw [UInt32.toNat_add, UInt32.toNat_add, bits_toNat _ 12 16 rfl (by decide) rfl,
        bits_toNat _ 6 12 rfl (by decide) rfl, bits_toNat _ 0 6 rfl (by decide) rfl]
      have := b.toNat_lt
      have := c.toNat_lt
      omega

theorem getSequence4_eq_ok (h : getSequence4 lead it = .ok (cp, rest)) :
    ∃ b c d, it = b :: c :: d :: rest ∧ b.toNat / 64 = 2 ∧ c.toNat / 64 = 2 ∧ d.toNat / 64 = 2 ∧
      cp.toNat = lead.toNat % 8 * 262144 + b.toNat % 64 * 4096 + c.toNat % 64 * 64 + d.toNat % 64 := by
  rw [getSequence4] at h
  cases hb : increaseSafely it
  case error e => rw [hb] at h; cases h
  case ok p =>
    obtain ⟨b, it'⟩ := p
    obtain ⟨rfl, htrail⟩ := increaseSafely_eq_ok hb
    rw [hb] at h
    cases hc : increaseSafely it'
    case error e => simp only [bind, Except.bind, hc] at h; cases h
    case ok p =>
      obtain ⟨c, it''⟩ := p
      obtain ⟨rfl, htrail'⟩ := increaseSafely_eq_ok hc
      simp only [bind, Except.bind, hc] at h
      cases hd : increaseSafely it''
      case error e => simp only [hd] at h; cases h
      case ok p =>
        obtain ⟨d, it'''⟩ := p
        obtain ⟨rfl, htrail''⟩ := increaseSafely_eq_ok hd
        simp only [hd] at h
        cases h
        refine ⟨b, c, d, rfl, htrail, htrail', htrail'', ?_⟩
        rw [UInt32.toNat_add, UInt32.toNat_add, UInt32.toNat_add,
          bits_toNat _ 18 21 rfl (by decide) rfl,
          bits_toNat _ 12 18 rfl (by decide) rfl, bits_toNat _ 6 12 rfl (by decide) rfl,
          bits_toNat _ 0 6 rfl (by decide) rfl]
        have := b.toNat_lt
        have := c.toNat_lt
        have := d.toNat_lt
        omega

theorem isValidChar_of_isCodePointValid (h : isCodePointValid cp = true) :
    cp.toNat.isValidChar := by
  simp only [isCodePointValid, isSurrogate, UInt32.le_iff_toNat_le, Bool.not_eq_true',
    decide_eq_true_eq,
    decide_eq_false_iff_not] at h
  have h₁ : (0xd800 : UInt32).toNat = 0xd800 := rfl
  have h₂ : (0xdfff : UInt32).toNat = 0xdfff := rfl
  have h₃ : (0x0010ffff : UInt32).toNat = 0x10ffff := rfl
  simp only [Nat.isValidChar]
  omega

-- What is left of the checks.
theorem validateNext_eq_ok (h : validateNext (lead :: it) = .ok (cp, rest)) :
    getSequence (sequenceLength lead) lead it = .ok (cp, rest) ∧ cp.toNat.isValidChar ∧
      isOverlongSequence cp (sequenceLength lead) = false := by
  rw [validateNext] at h
  cases hg : getSequence (sequenceLength lead) lead it
  case error e => simp only [hg, bind, Except.bind] at h; cases h
  case ok p =>
    obtain ⟨cp', rest'⟩ := p
    simp only [hg, bind, Except.bind] at h
    split at h
    case isFalse => cases h
    case isTrue hv =>
      split at h
      case isTrue     => cases h
      case isFalse ho =>
        cases h
        exact ⟨rfl, isValidChar_of_isCodePointValid hv, by simpa using ho⟩

theorem isOverlongSequence_eq_false {n : Nat} (h : isOverlongSequence cp n = false) :
    (cp.toNat < 0x80 → n = 1) ∧ (0x80 ≤ cp.toNat → cp.toNat < 0x800 → n = 2) ∧
      (0x800 ≤ cp.toNat → cp.toNat < 0x10000 → n = 3) := by
  have h₁ : (0x80 : UInt32).toNat = 0x80 := rfl
  have h₂ : (0x800 : UInt32).toNat = 0x800 := rfl
  have h₃ : (0x10000 : UInt32).toNat = 0x10000 := rfl
  simp only [isOverlongSequence, UInt32.lt_iff_toNat_lt, h₁, h₂, h₃] at h
  split_ifs at h
  case pos => simp at h; omega
  case pos => simp at h; omega
  case pos => simp at h; omega
  case neg => omega

theorem ofNat_eq {n : Nat} {b : UInt8} (h : n = b.toNat) : UInt8.ofNat n = b := by
  rw [h, UInt8.ofNat_toNat]

theorem validateNext_sound {s : Bytes} (h : validateNext s = .ok (cp, rest)) :
    ∃ c : Char, c.val = cp ∧ s = String.utf8EncodeChar c ++ rest := by
  cases s
  case nil => cases h
  case cons lead it =>
    obtain ⟨hseq, hv, hover⟩ := validateNext_eq_ok h
    obtain ⟨c, rfl⟩ : ∃ c : Char, c.val = cp := ⟨⟨cp, hv⟩, rfl⟩
    refine ⟨c, rfl, ?_⟩
    have hlead := lead.toNat_lt
    obtain ⟨ho₁, ho₂, ho₃⟩ := isOverlongSequence_eq_false hover
    rw [sequenceLength_eq] at hseq ho₁ ho₂ ho₃
    -- The first octet tells how many follow.
    split at hseq
    case isTrue h1 =>
      rw [getSequence, Except.ok.injEq, Prod.mk.injEq] at hseq
      obtain ⟨hcp, rfl⟩ := hseq
      have hval : c.val.toNat = lead.toNat := by rw [← hcp, UInt8.toNat_toUInt32]
      rw [utf8EncodeChar_of_lt (by omega), ofNat_eq hval, List.singleton_append]
    case isFalse h1 =>
      rw [if_neg h1] at ho₁ ho₂ ho₃
      split at hseq
      case isTrue h2 =>
        rw [if_pos h2] at ho₁ ho₂ ho₃
        obtain ⟨b, rfl, hb, hcp⟩ := getSequence2_eq_ok hseq
        have := b.toNat_lt
        rw [String.utf8EncodeChar, if_neg (by omega), if_pos (by omega),
          ofNat_eq (show c.val.toNat / 64 % 32 + 192 = lead.toNat by omega),
          ofNat_eq (show c.val.toNat % 64 + 128 = b.toNat by omega)]
        rfl
      case isFalse h2 =>
        rw [if_neg h2] at ho₁ ho₂ ho₃
        split at hseq
        case isTrue h3 =>
          rw [if_pos h3] at ho₁ ho₂ ho₃
          obtain ⟨b, d, rfl, hb, hd, hcp⟩ := getSequence3_eq_ok hseq
          have := b.toNat_lt
          have := d.toNat_lt
          rw [String.utf8EncodeChar, if_neg (by omega), if_neg (by omega), if_pos (by omega),
            ofNat_eq (show c.val.toNat / 4096 % 16 + 224 = lead.toNat by omega),
            ofNat_eq (show c.val.toNat / 64 % 64 + 128 = b.toNat by omega),
            ofNat_eq (show c.val.toNat % 64 + 128 = d.toNat by omega)]
          rfl
        case isFalse h3 =>
          rw [if_neg h3] at ho₁ ho₂ ho₃
          split at hseq
          case isFalse h4 => cases hseq
          case isTrue h4 =>
            rw [if_pos h4] at ho₁ ho₂ ho₃
            obtain ⟨b, d, e, rfl, hb, hd, he, hcp⟩ := getSequence4_eq_ok hseq
            have := b.toNat_lt
            have := d.toNat_lt
            have := e.toNat_lt
            rw [String.utf8EncodeChar, if_neg (by omega), if_neg (by omega), if_neg (by omega),
              ofNat_eq (show c.val.toNat / 262144 % 8 + 240 = lead.toNat by omega),
              ofNat_eq (show c.val.toNat / 4096 % 64 + 128 = b.toNat by omega),
              ofNat_eq (show c.val.toNat / 64 % 64 + 128 = d.toNat by omega),
              ofNat_eq (show c.val.toNat % 64 + 128 = e.toNat by omega)]
            rfl

end Sequences

-- The decoder fails where no character starts.
theorem validateNext_eq_error {s : Bytes} {e : UtfError} (h : validateNext s = .error e) (c : Char)
    (rest : Bytes) :
    s ≠ String.utf8EncodeChar c ++ rest := by
  rintro rfl
  rw [validateNext_encode] at h
  cases h

end Utf8
