import FcModel.Io.Json.Generator
import FcModel.Utf8.Encode

-- Strings of printable characters: what the generator writes for them.

namespace Json

open Ascii Utf8

-- Tab, newline and carriage return are the only control characters.
structure Printable (c : Char) : Prop where
  control : 0x20 ≤ c.val ∨ c = '\t' ∨ c = '\n' ∨ c = '\r'
  delete  : c.val ≠ 0x7f
  noC1    : ¬(0x80 ≤ c.val ∧ c.val ≤ 0x9f)

instance {c : Char} : Decidable (Printable c) :=
  decidable_of_iff ((0x20 ≤ c.val ∨ c = '\t' ∨ c = '\n' ∨ c = '\r') ∧ c.val ≠ 0x7f ∧
    ¬(0x80 ≤ c.val ∧ c.val ≤ 0x9f))
      ⟨fun ⟨h, h', h''⟩ => ⟨h, h', h''⟩, fun ⟨h, h', h''⟩ => ⟨h, h', h''⟩⟩

-- A string is the encoding of printable characters.
def PlainText (s : Bytes) : Prop :=
  ∃ cs, s = encode cs ∧ ∀ c ∈ cs, Printable c

-- The bytes for which no code point is written out.
def PlainByte (b : UInt8) : Prop :=
  ¬((b < 0x20 ∧ b ≠ tab ∧ b ≠ newline ∧ b ≠ carriageReturn) ∨ b = 0x7f)

theorem plainByte_of_le {b : UInt8} (h : 128 ≤ b.toNat) : PlainByte b := by
  simp only [PlainByte, UInt8.lt_iff_toNat_lt, ← UInt8.toNat_inj, UInt8.reduceToNat]
  omega

theorem plainByte_of_printable {c : Char} (h : Printable c) {b : UInt8}
    (hb : b ∈ String.utf8EncodeChar c) : PlainByte b := by
  by_cases hlt : c.val.toNat < 128
  case neg => exact plainByte_of_le (le_of_mem_utf8EncodeChar (by omega) hb)
  case pos =>
    rw [utf8EncodeChar_of_lt hlt, List.mem_singleton] at hb
    have hn : b.toNat = c.val.toNat := by rw [hb, toNat_ofNat_octet (by omega)]
    have hc : 32 ≤ c.val.toNat ∨ c.val.toNat = 9 ∨ c.val.toNat = 10 ∨ c.val.toNat = 13 := by
      rcases h.control with h | h | h | h
      case inl              => exact .inl (UInt32.le_iff_toNat_le.mp h)
      case inr.inl          => exact .inr (.inl (by rw [h]; rfl))
      case inr.inr.inl      => exact .inr (.inr (.inl (by rw [h]; rfl)))
      case inr.inr.inr      => exact .inr (.inr (.inr (by rw [h]; rfl)))
    have hd : c.val.toNat ≠ 127 := fun he => h.delete (UInt32.toNat_inj.mp he)
    simp only [PlainByte, UInt8.lt_iff_toNat_lt, ← UInt8.toNat_inj, hn, tab, newline,
      carriageReturn,
      UInt8.reduceToNat, ne_eq]
    omega

theorem PlainText.bytes {s : Bytes} (h : PlainText s) : ∀ b ∈ s, PlainByte b := by
  have ⟨cs, hs, hc⟩ := h
  intro b hb
  rw [hs, encode, List.mem_flatMap] at hb
  have ⟨c, hm, hb⟩ := hb
  exact plainByte_of_printable (hc c hm) hb

-- What is written for a character, as characters.
def escapeUnicode (c : Char) : List Char :=
  if c = '\t' then ['\\', 't']
  else if c = '\n' then ['\\', 'n']
  else if c = '\r' then ['\\', 'r']
  else if c = '\\' then ['\\', '\\']
  else if c = '"' then ['\\', '"']
  else [c]

theorem escapeChar_of_le {b : UInt8} (h : 128 ≤ b.toNat) : escapeChar true b = [b] := by
  have hp : PlainByte b := plainByte_of_le h
  have hne (a : UInt8) (ha : a.toNat < 128) : b ≠ a := fun he => by rw [he] at h; omega
  rw [escapeChar, if_neg hp, if_pos rfl, if_neg (hne tab (by decide)),
    if_neg (hne newline (by decide)),
    if_neg (hne carriageReturn (by decide)), if_neg (hne backslash (by decide)),
      if_neg (hne quote (by decide))]

theorem flatMap_escapeChar_of_le {bs : Bytes} (h : ∀ b ∈ bs, 128 ≤ b.toNat) :
    bs.flatMap (escapeChar true) = bs := by
  induction bs
  case nil => rfl
  case cons b bs hi =>
    rw [List.flatMap_cons, escapeChar_of_le (h b (List.mem_cons_self ..)),
      hi fun b hb => h b (List.mem_cons_of_mem _ hb), List.singleton_append]

theorem flatMap_escapeChar_char {c : Char} (h : Printable c) :
    (String.utf8EncodeChar c).flatMap (escapeChar true) = encode (escapeUnicode c) := by
  by_cases hlt : c.val.toNat < 128
  case pos =>
    -- There are few enough of the characters that are one byte to go through all of them.
    have hall : ∀ n : Fin 128, Printable (.ofNat n) →
        (String.utf8EncodeChar (.ofNat n)).flatMap (escapeChar true) =
          encode (escapeUnicode (.ofNat n)) := by
      decide +kernel
    have hc : Char.ofNat c.val.toNat = c := Char.ofNat_toNat c
    have hn := hall ⟨c.val.toNat, hlt⟩
    rw [hc] at hn
    exact hn h
  case neg =>
    have hne (a : Char) (ha : a.val.toNat < 128) : c ≠ a := fun he => hlt (he ▸ ha)
    rw [flatMap_escapeChar_of_le fun b => le_of_mem_utf8EncodeChar (by omega), escapeUnicode,
      if_neg (hne '\t' (by decide)), if_neg (hne '\n' (by decide)), if_neg (hne '\r' (by decide)),
      if_neg (hne '\\' (by decide)), if_neg (hne '"' (by decide))]
    simp [encode]

theorem noC1_escapeUnicode {c : Char} (h : Printable c) : NoC1 (escapeUnicode c) := by
  rw [escapeUnicode]
  split_ifs
  case neg => exact List.forall_mem_singleton.mpr h.noC1
  all_goals decide

-- Nothing of a plain text is pruned.
theorem escaped_of_plainText {s : Bytes} (h : PlainText s) :
    escaped s = s.flatMap (escapeChar true) := by
  have ⟨cs, hs, hc⟩ := h
  have he : s.flatMap (escapeChar true) = encode (cs.flatMap escapeUnicode) := by
    rw [hs, encode, List.flatMap_assoc, encode, List.flatMap_assoc]
    exact List.flatMap_congr fun c hm => flatMap_escapeChar_char (hc c hm)
  have hn : NoC1 (cs.flatMap escapeUnicode) := by
    intro c hm
    have ⟨c', hm', hm⟩ := List.mem_flatMap.mp hm
    exact noC1_escapeUnicode (hc c' hm') c hm
  rw [escaped, he, if_pos (isValidUtf8_encode hn)]

end Json
