import FcModel.Io.Json.RoundTrip
import FcModel.Utf8.Prune

-- What the parsers make of an escaped string: an escaped code point is not turned back.

namespace Json

open Ascii Utf8

section Escaped

-- What is written for a character.
def escapedChar (c : Char) : Bytes :=
  if Printable c then (String.utf8EncodeChar c).flatMap (escapeChar true) else escape c.val.toNat

-- The characters that the escapes are made of.
def escapeControl (c : Char) : List Char :=
  if c.val.toNat < 128 then ((String.utf8EncodeChar c).flatMap (escapeChar true)).map fun b => .ofNat b.toNat else [c]

theorem escapeControl_of_lt {c : Char} (h : c.val.toNat < 128) :
    encode (escapeControl c) = (String.utf8EncodeChar c).flatMap (escapeChar true) ∧
      (escapeControl c).flatMap pruneChar = escapedChar c := by
  have hall : ∀ n : Fin 128,
      encode (escapeControl (.ofNat n)) = (String.utf8EncodeChar (.ofNat n)).flatMap (escapeChar true) ∧
        (escapeControl (.ofNat n)).flatMap pruneChar = escapedChar (.ofNat n) := by
    decide +kernel
  have hc : Char.ofNat c.val.toNat = c := Char.ofNat_toNat c
  have hn := hall ⟨c.val.toNat, h⟩
  rw [hc] at hn
  exact hn

theorem printable_iff_of_le {c : Char} (h : 128 ≤ c.val.toNat) : Printable c ↔
    ¬(0x80 ≤ c.val ∧ c.val ≤ 0x9f) := by
  refine ⟨fun hp => hp.noC1, fun hno => ⟨.inl ?_, ?_, hno⟩⟩
  · exact UInt32.le_iff_toNat_le.mpr (le_trans (by decide) h)
  · intro he
    rw [he] at h
    exact absurd h (by decide)

theorem escapeControl_of_le {c : Char} (h : 128 ≤ c.val.toNat) :
    encode (escapeControl c) = (String.utf8EncodeChar c).flatMap (escapeChar true) ∧
      (escapeControl c).flatMap pruneChar = escapedChar c := by
  have hbytes := flatMap_escapeChar_of_le fun b => le_of_mem_utf8EncodeChar h (b := b)
  rw [escapeControl, if_neg (by omega), escapedChar, hbytes]
  refine ⟨by simp [encode], ?_⟩
  rw [List.flatMap_singleton, pruneChar]
  by_cases hc : 0x80 ≤ c.val ∧ c.val ≤ 0x9f
  case pos => rw [if_pos hc, if_neg fun hp => (printable_iff_of_le h).mp hp hc]
  case neg => rw [if_neg hc, if_pos ((printable_iff_of_le h).mpr hc)]

theorem escapeControl_spec (c : Char) :
    encode (escapeControl c) = (String.utf8EncodeChar c).flatMap (escapeChar true) ∧
      (escapeControl c).flatMap pruneChar = escapedChar c := by
  by_cases h : c.val.toNat < 128
  case pos => exact escapeControl_of_lt h
  case neg => exact escapeControl_of_le (by omega)

-- Pruning does not change what is valid.
theorem escaped_eq_prune (s : Bytes) :
    escaped s = pruneInvalidUtf8 (s.flatMap (escapeChar true)) := by
  rw [escaped]
  split
  case isFalse => rfl
  case isTrue hv => rw [pruneInvalidUtf8_eq, if_pos (of_decide_eq_true hv)]

theorem escaped_encode (cs : List Char) : escaped (encode cs) = cs.flatMap escapedChar := by
  have hcontrol : (encode cs).flatMap (escapeChar true) = encode (cs.flatMap escapeControl) := by
    rw [encode, List.flatMap_assoc, encode, List.flatMap_assoc]
    exact List.flatMap_congr fun c _ => (escapeControl_spec c).1.symm
  rw [escaped_eq_prune, hcontrol, pruneInvalidUtf8_encode, List.flatMap_assoc]
  exact List.flatMap_congr fun c _ => (escapeControl_spec c).2

end Escaped

section Unescaped

-- What is read of it: a `u` and the digits are left of a code point that was written out.
def unescapedChar (c : Char) : Bytes :=
  if Printable c then String.utf8EncodeChar c else (escape c.val.toNat).tail

theorem plainLiteral_hexDigit {v : Nat} (h : v < 16) : PlainLiteral (hexDigit v) := by
  have hall : ∀ v : Fin 16, 0x20 ≤ (hexDigit v).toNat ∧ hexDigit v ≠ 0xff ∧ hexDigit v ≠ quote ∧ hexDigit v ≠ backslash := by
    decide
  obtain ⟨hcontrol, heof, hquote, hbackslash⟩ := hall ⟨v, h⟩
  exact ⟨hcontrol, heof, hquote, hbackslash⟩

theorem body_codePoint {v : Nat} {s t : Bytes} (hv : v < 256) (h : Body PlainLiteral s t) :
    Body PlainLiteral (escape v ++ s) ((escape v).tail ++ t) := by
  have hzero : PlainLiteral 0x30 := plainLiteral_hexDigit (show 0 < 16 by decide)
  have hdigits := @Body.literals PlainLiteral s t [0x30, 0x30, hexDigit (v / 16), hexDigit (v % 16)] (by
    intro b hb
    simp only [List.mem_cons, List.not_mem_nil, or_false] at hb
    obtain rfl | rfl | rfl | rfl := hb
    · exact hzero
    · exact hzero
    · exact plainLiteral_hexDigit (by omega)
    · exact plainLiteral_hexDigit (by omega)) h
  exact .escape hdigits

theorem lt_of_not_printable {c : Char} (h : ¬Printable c) : c.val.toNat < 160 := by
  by_contra hle
  refine h ((printable_iff_of_le (by omega)).mpr fun hc1 => ?_)
  have := (toNat_c1 hc1).2
  omega

theorem Body.escapedChar (c : Char) {s t : Bytes} (h : Body PlainLiteral s t) :
    Body PlainLiteral (escapedChar c ++ s) (unescapedChar c ++ t) := by
  rw [Json.escapedChar, unescapedChar]
  split
  case isFalse hc => exact body_codePoint (by have := lt_of_not_printable hc; omega) h
  case isTrue hc =>
    have hbytes : ∀ b ∈ String.utf8EncodeChar c, PlainByte b ∧ b ≠ 0xff := by
      intro b hb
      refine ⟨plainByte_of_printable hc hb, fun he => ?_⟩
      have hlt := lt_of_mem_utf8EncodeChar hb
      rw [he] at hlt
      exact absurd hlt (by decide)
    generalize String.utf8EncodeChar c = bs at hbytes
    induction bs
    case nil => exact h
    case cons b bs hi =>
      obtain ⟨⟨hb, hff⟩, hbs⟩ := List.forall_mem_cons.mp hbytes
      rw [List.flatMap_cons, List.append_assoc, List.cons_append]
      exact (hi hbs).escapeChar hb hff

theorem named_escaped (cs : List Char) :
    Named (quoted (escaped (encode cs))) (cs.flatMap unescapedChar) := by
  refine ⟨escaped (encode cs), rfl, ?_⟩
  rw [escaped_encode]
  induction cs
  case nil          => exact .nil
  case cons c cs hi => rw [List.flatMap_cons, List.flatMap_cons]; exact hi.escapedChar c

-- A code point that was written out takes more bytes than the character.
theorem length_unescapedChar_of_not {c : Char} (h : ¬Printable c) :
    (String.utf8EncodeChar c).length < (unescapedChar c).length := by
  rw [unescapedChar, if_neg h]
  exact Nat.lt_of_le_of_lt (String.length_utf8EncodeChar c ▸ c.utf8Size_le_four) (by simp [escape])

theorem length_unescapedChar (c : Char) :
    (String.utf8EncodeChar c).length ≤ (unescapedChar c).length := by
  by_cases h : Printable c
  case pos => rw [unescapedChar, if_pos h]
  case neg => exact Nat.le_of_lt (length_unescapedChar_of_not h)

theorem length_flatMap_unescapedChar (cs : List Char) :
    (encode cs).length ≤ (cs.flatMap unescapedChar).length := by
  induction cs
  case nil => rfl
  case cons c cs hi =>
    have := length_unescapedChar c
    rw [encode_cons, List.flatMap_cons, List.length_append, List.length_append]
    omega

theorem flatMap_unescapedChar_eq_iff {cs : List Char} :
    cs.flatMap unescapedChar = encode cs ↔ ∀ c ∈ cs, Printable c := by
  constructor
  case mpr => exact fun h => List.flatMap_congr fun c hc => if_pos (h c hc)
  case mp =>
    intro h
    by_contra hnot
    push Not at hnot
    obtain ⟨c, hc, hp⟩ := hnot
    obtain ⟨as, bs, rfl⟩ := List.append_of_mem hc
    have hlen := congrArg List.length h
    have has := length_flatMap_unescapedChar as
    have hbs := length_flatMap_unescapedChar bs
    have hlt := length_unescapedChar_of_not hp
    rw [List.flatMap_append, List.flatMap_cons, encode_append, encode_cons] at hlen
    simp only [List.length_append] at hlen
    omega

end Unescaped

section Parsers

variable {ε : Type} {L : LexicalCast} {yield : Yield ε} {s r : Bytes} {maxDepth : UInt32}

-- All parsers read a quoted string alike.
theorem fromString_named {t : Bytes} (h : Named s t) (hd : maxDepth ≠ 0) (ptype : ParseType) :
    ∃ st, fromString L s ptype maxDepth = .ok (.string t) st := by
  have hnil : Ws [] := List.forall_mem_nil _
  have hpos : 0 < maxDepth.toNat := Nat.pos_of_ne_zero fun h0 => hd (UInt32.toNat_inj.mp h0)
  have hdepth : Admits maxDepth (Variant.string t).nesting := .inr hpos
  have hlegacy (stringDoubles : Bool) (hp : ∀ fuel stack, parser L fuel stack ptype maxDepth =
      variantFromStream L stringDoubles fuel stack maxDepth) :
      ∃ st, fromString L s ptype maxDepth = .ok (.string t) st := by
    have hread := (switches_variantSwitch.readsAs_string h).fromString_eq hp hnil hnil hdepth (Nat.zero_le _)
    rwa [List.nil_append, List.append_nil] at hread
  have hrelaxed (strict : Bool) (hp : ∀ fuel stack, parser L fuel stack ptype maxDepth =
      Relaxed.variantFromStream (Relaxed.reader L strict fuel) fuel stack maxDepth) :
      ∃ st, fromString L s ptype maxDepth = .ok (.string t) st := by
    have hread := (Relaxed.switches_variantSwitch.readsAs_string h).fromString_eq hp hnil hnil trivial (Nat.zero_le _)
    rwa [List.nil_append, List.append_nil] at hread
  cases ptype
  case legacyParser                   => exact hlegacy false fun _ _ => rfl
  case legacyParserWithStringDoubles  => exact hlegacy true fun _ _ => rfl
  case strictParser                   => exact hrelaxed true fun _ _ => rfl
  case relaxedParser                  => exact hrelaxed false fun _ _ => rfl

-- A valid text is read back by any of the parsers exactly if no code point of it is written out.
theorem fromString_escapeString_iff (hs : ∃ cs, s = encode cs)
    (hr : escapeString yield s true = .ok r)
    (hd : maxDepth ≠ 0) (ptype : ParseType) :
    (∃ st, fromString L (quoted r) ptype maxDepth = .ok (.string s) st) ↔ PlainText s := by
  have hescaped : r = escaped s := by
    have hemits := @emits_escapeString ε yield s
    rw [hr] at hemits
    cases hemits
    rfl
  rw [hescaped]
  constructor
  case mp =>
    rintro ⟨_, hread⟩
    obtain ⟨cs, rfl⟩ := hs
    obtain ⟨st, hread'⟩ := @fromString_named L _ maxDepth _ (named_escaped cs) hd ptype
    rw [hread'] at hread
    injection hread with he
    injection he with he
    exact ⟨cs, rfl, flatMap_unescapedChar_eq_iff.mp he⟩
  case mpr =>
    rintro ⟨cs, rfl, hp⟩
    obtain ⟨st, hread⟩ := @fromString_named L _ maxDepth _ (named_escaped cs) hd ptype
    exact ⟨st, by rw [hread, flatMap_unescapedChar_eq_iff.mpr hp]⟩

-- A tab and a character of two bytes.
theorem fromString_escapeString_tab : ∃ st,
    fromString .decimal (quoted (ascii "\\t" ++ [0xc3, 0xa9])) .relaxedParser 200 =
      .ok (.string [tab, 0xc3, 0xa9]) st := by
  have htab : Printable '\t' := by decide
  have hletter : Printable 'é' := ⟨.inl (by decide), by decide, by decide⟩
  have hplain : ∀ c ∈ ['\t', 'é'], Printable c :=
    List.forall_mem_cons.mpr ⟨htab, List.forall_mem_singleton.mpr hletter⟩
  have hr : escapeString (fun _ => .ok () : Yield Unit) (encode ['\t', 'é']) true = .ok (ascii "\\t" ++ [0xc3, 0xa9]) := by
    decide
  have hs : encode ['\t', 'é'] = [tab, 0xc3, 0xa9] := by decide
  rw [← hs]
  exact (fromString_escapeString_iff ⟨_, rfl⟩ hr (by decide) .relaxedParser).mpr ⟨_, rfl, hplain⟩

-- A control character is read as a `u` and four digits.
theorem fromString_escapeString_control :
    escapeString (fun _ => .ok () : Yield Unit) (encode ['\x01']) true = .ok (ascii "\\u0001") ∧
      ∀ ptype, ¬∃ st,
      fromString .decimal (quoted (ascii "\\u0001")) ptype 200 = .ok (.string (encode ['\x01'])) st := by
  have hr : escaped (encode ['\x01']) = ascii "\\u0001" := by decide
  refine ⟨by decide, fun ptype => ?_⟩
  obtain ⟨st, hread⟩ := @fromString_named .decimal _ 200 _ (named_escaped ['\x01']) (by decide) ptype
  rw [hr] at hread
  rintro ⟨st', hread'⟩
  rw [hread] at hread'
  injection hread' with he
  injection he with he
  exact absurd he (by decide)

end Parsers

end Json
