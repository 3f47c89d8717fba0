import FcModel.Io.Json.Grammar

-- The dialect of RFC 8259 itself, the plain one that all the parsers agree on, and strings as the
-- loops of the parsers see them.

namespace Json

open Ascii Utf8

-- The characters that can be written with a backslash and one letter.
def plainEscapes : List (UInt8 × Char) :=
  [(quote, '"'), (backslash, '\\'), ('/'.toUInt8, '/'), ('n'.toUInt8, '\n'), ('r'.toUInt8, '\r'), ('t'.toUInt8, '\t')]

def escapes : List (UInt8 × Char) :=
  plainEscapes ++ [('b'.toUInt8, '\x08'), ('f'.toUInt8, '\x0c')]

-- The characters that are written as they are.
structure Unescaped (c : Char) : Prop where
  control   : 0x20 ≤ c.val
  quote     : c ≠ '"'
  backslash : c ≠ '\\'

def hexValue (c : UInt8) : Option Nat :=
  if isDigit c then some (c.toNat - 0x30)
  else if 0x61 ≤ c ∧ c ≤ 0x66 then some (c.toNat - 0x61 + 10)
  else if 0x41 ≤ c ∧ c ≤ 0x46 then some (c.toNat - 0x41 + 10)
  else none

-- Four hexadecimal digits.
def codeUnit (a b c d : UInt8) : Option Nat := do
  let a ← hexValue a
  let b ← hexValue b
  let c ← hexValue c
  let d ← hexValue d
  return a * 4096 + b * 256 + c * 16 + d

-- A character outside of the Basic Multilingual Plane is written as a surrogate pair.
inductive RfcChar : Bytes → Char → Prop
  | unescaped {c : Char} (h : Unescaped c) : RfcChar (String.utf8EncodeChar c) c
  | escape {b : UInt8} {c : Char} (h : (b, c) ∈ escapes) : RfcChar [backslash, b] c
  | unicode {a b c d : UInt8} {ch : Char} (h : codeUnit a b c d = some ch.toNat) :
      RfcChar [backslash, 'u'.toUInt8, a, b, c, d] ch
  | surrogates {a b c d a' b' c' d' : UInt8} {hi lo : Nat} {ch : Char}
    (h : codeUnit a b c d = some (0xd800 + hi))
      (h' : codeUnit a' b' c' d' = some (0xdc00 + lo)) (hhi : hi < 0x400) (hlo : lo < 0x400)
      (hc : ch.toNat = 0x10000 + hi * 0x400 + lo) :
      RfcChar [backslash, 'u'.toUInt8, a, b, c, d, backslash, 'u'.toUInt8, a', b', c', d'] ch

def rfc8259 : Dialect where
  char     := RfcChar
  number _ := True

inductive PlainChar : Bytes → Char → Prop
  | unescaped {c : Char} (h : Unescaped c) : PlainChar (String.utf8EncodeChar c) c
  | escape {b : UInt8} {c : Char} (h : (b, c) ∈ plainEscapes) : PlainChar [backslash, b] c

-- The number is an integer, and there is a type for it.
structure Number.Plain (n : Number) : Prop where
  isInteger : n.IsInteger
  lower     : -2 ^ 63 ≤ n.intValue
  upper     : n.intValue < 2 ^ 64

def plain : Dialect where
  char   := PlainChar
  number := Number.Plain

-- A number that is zero or in the range of a `double`.
def DoubleRange (q : ℚ) : Prop :=
  q = 0 ∨ 2 ^ (-1022 : Int) ≤ |q| ∧ |q| ≤ (2 ^ 53 - 1) * 2 ^ (971 : Int)

theorem doubleRange_of_le {q : ℚ} (h : 1 ≤ |q|) (h' : |q| ≤ 2) : DoubleRange q := by
  have hlower : (2 : ℚ) ^ (-1022 : Int) ≤ 1 := zpow_le_one_of_nonpos₀ (by norm_num) (by norm_num)
  have hupper : (1 : ℚ) ≤ 2 ^ (971 : Int) := one_le_zpow₀ (by norm_num) (by norm_num)
  refine .inr ⟨hlower.trans h, h'.trans ?_⟩
  calc (2 : ℚ) ≤ (2 ^ 53 - 1) * 1                 := by norm_num
    _          ≤ (2 ^ 53 - 1) * 2 ^ (971 : Int)   := mul_le_mul_of_nonneg_left hupper (by norm_num)

-- An integer is in the range of the integers, any other number in that of a `double`.
structure Number.InRange (n : Number) : Prop where
  integer : n.IsInteger → n.Plain
  other   : ¬n.IsInteger → DoubleRange n.value

-- RFC 8259 with numbers in range.
def rfc8259InRange : Dialect where
  char   := RfcChar
  number := Number.InRange

section Inclusion

theorem Chars.imp {char char' : Bytes → Char → Prop} (hc : ∀ b c, char b c → char' b c) {s : Bytes}
    {cs : List Char} (h : Chars char s cs) : Chars char' s cs := by
  induction h
  case nil          => exact .nil
  case cons h _ hi  => exact .cons (hc _ _ h) hi

theorem Quoted.imp {char char' : Bytes → Char → Prop} (hc : ∀ b c, char b c → char' b c) {s : Bytes}
    {cs : List Char} (h : Quoted char s cs) : Quoted char' s cs := by
  have .intro h := h
  exact .intro (h.imp hc)

theorem Member.imp_name {κ α : Type} {K K' : Bytes → κ → Prop} {R : Bytes → α → Prop}
    (hK : ∀ s a, K s a → K' s a) {s : Bytes} {m : κ × α} (h : Member K R s m) :
    Member K' R s m := by
  have .intro hk hw hw' h := h
  exact .intro (hK _ _ hk) hw hw' h

-- A dialect is part of another one if its characters and its numbers are.
theorem Spells.imp {d d' : Dialect} (hc : ∀ b c, d.char b c → d'.char b c)
    (hn : ∀ n, d.number n → d'.number n)
    {s : Bytes} {v : Value} (h : Spells d s v) : Spells d' s v := by
  induction h using Spells.induct
  case null               => exact .null
  case bool               => exact .bool _
  case number h           => exact .number (hn _ h)
  case string h           => exact .string (h.imp hc)
  case array hi           => exact .array (hi.imp fun _ _ h => h.2)
  case object hi          =>
    exact .object (hi.imp fun _ _ h => (h.imp_name fun _ _ h => h.imp hc).imp fun _ _ h => h.2)

theorem rfcChar_of_plainChar {b : Bytes} {c : Char} (h : PlainChar b c) : RfcChar b c := by
  cases h
  case unescaped h  => exact .unescaped h
  case escape h     => exact .escape (List.mem_append_left _ h)

theorem isText_rfc8259 {s : Bytes} {v : Value} (h : IsText plain s v) : IsText rfc8259 s v := by
  have ⟨w, t, w', hs, hw, ht, hw'⟩ := h
  exact ⟨w, t, w', hs, hw, ht.imp (fun _ _ => rfcChar_of_plainChar) (fun _ _ => trivial), hw'⟩

end Inclusion

-- A string between its quotes, as the bytes that are written and the bytes that are meant. A byte
-- that `lit` holds of stands for itself.
inductive Body (lit : UInt8 → Prop) : Bytes → Bytes → Prop
  | nil : Body lit [] []
  | literal {b : UInt8} {s t : Bytes} (hb : lit b) (h : Body lit s t) : Body lit (b :: s) (b :: t)
  | escape {b : UInt8} {s t : Bytes} (h : Body lit s t) :
    Body lit (backslash :: b :: s) (unescape b :: t)

-- The bytes of the characters that are written as they are.
structure PlainLiteral (b : UInt8) : Prop where
  control   : 0x20 ≤ b.toNat
  eof       : b ≠ 0xff
  quote     : b ≠ Ascii.quote
  backslash : b ≠ Ascii.backslash

namespace Body

variable {lit : UInt8 → Prop} {s t : Bytes}

theorem literals {bs : Bytes} (hb : ∀ b ∈ bs, lit b) (h : Body lit s t) :
    Body lit (bs ++ s) (bs ++ t) := by
  induction bs
  case nil => exact h
  case cons b bs hi =>
    have ⟨hb, hbs⟩ := List.forall_mem_cons.mp hb
    exact .literal hb (hi hbs)

theorem imp {lit' : UInt8 → Prop} (hl : ∀ b, lit b → lit' b) (h : Body lit s t) :
    Body lit' s t := by
  induction h
  case nil              => exact .nil
  case literal hb _ hi  => exact .literal (hl _ hb) hi
  case escape hi        => exact .escape hi

end Body

theorem plainLiteral_of_mem {c : Char} (h : Unescaped c) {b : UInt8}
    (hb : b ∈ String.utf8EncodeChar c) :
    PlainLiteral b := by
  have hlt := lt_of_mem_utf8EncodeChar hb
  have hff : b ≠ 0xff := fun he => by rw [he] at hlt; exact absurd hlt (by decide)
  by_cases hc : c.val.toNat < 128
  case neg =>
    have hle := le_of_mem_utf8EncodeChar (by omega) hb
    have hne (a : UInt8) (ha : a.toNat < 128) : b ≠ a := fun he => by rw [he] at hle; omega
    exact ⟨by omega, hff, hne _ (by decide), hne _ (by decide)⟩
  case pos =>
    rw [utf8EncodeChar_of_lt hc, List.mem_singleton] at hb
    have hn : b.toNat = c.val.toNat := by rw [hb, toNat_ofNat_octet (by omega)]
    have hne (a : Char) (ha : c ≠ a) : b.toNat ≠ a.val.toNat := by
      rw [hn]
      exact fun he => ha (Char.ext (UInt32.toNat_inj.mp he))
    refine ⟨?_, hff, fun he =>
      hne '"' h.quote (by rw [he]; rfl), fun he => hne '\\' h.backslash (by rw [he]; rfl)⟩
    rw [hn]
    exact UInt32.le_iff_toNat_le.mp h.control

theorem plainLiteral_of_hexValue {b : UInt8} (h : (hexValue b).isSome) : PlainLiteral b := by
  have hall : ∀ b, (hexValue b).isSome →
      0x20 ≤ b.toNat ∧ b ≠ 0xff ∧ b ≠ Ascii.quote ∧ b ≠ Ascii.backslash := by
    decide +kernel
  obtain ⟨hcontrol, heof, hquote, hbackslash⟩ := hall b h
  exact ⟨hcontrol, heof, hquote, hbackslash⟩

theorem codeUnit_isSome {a b c d : UInt8} {n : Nat} (h : codeUnit a b c d = some n) :
    (hexValue a).isSome ∧ (hexValue b).isSome ∧ (hexValue c).isSome ∧ (hexValue d).isSome := by
  simp only [codeUnit, Option.bind_eq_bind, Option.bind_eq_some_iff] at h
  have ⟨a', ha, b', hb, c', hc, d', hd, _⟩ := h
  rw [ha, hb, hc, hd]
  exact ⟨rfl, rfl, rfl, rfl⟩

theorem utf8EncodeChar_of_mem {b : UInt8} {c : Char} (h : (b, c) ∈ plainEscapes) :
    String.utf8EncodeChar c = [unescape b] := by
  have hall : ∀ e ∈ plainEscapes, String.utf8EncodeChar e.2 = [unescape e.1] := by decide +kernel
  exact hall _ h

-- An escape with digits is read as that of its letter, followed by the digits.
theorem RfcChar.body {b : Bytes} {c : Char} {s t : Bytes} (h : RfcChar b c)
    (hs : Body PlainLiteral s t) :
    ∃ t', Body PlainLiteral (b ++ s) t' := by
  have hunit {a b c d : UInt8} {n : Nat} {s t : Bytes} (h : codeUnit a b c d = some n)
    (hs : Body PlainLiteral s t) :
      ∃ t', Body PlainLiteral (backslash :: 'u'.toUInt8 :: a :: b :: c :: d :: s) t' := by
    have ⟨ha, hb, hc, hd⟩ := codeUnit_isSome h
    exact ⟨_, .escape (.literal (plainLiteral_of_hexValue ha)
      (.literal (plainLiteral_of_hexValue hb)
      (.literal (plainLiteral_of_hexValue hc) (.literal (plainLiteral_of_hexValue hd) hs))))⟩
  cases h
  case unescaped h  => exact ⟨_, hs.literals fun b hb => plainLiteral_of_mem h hb⟩
  case escape       => exact ⟨_, .escape hs⟩
  case unicode h    => exact hunit h hs
  case surrogates h h' _ _ _ =>
    have ⟨_, hs⟩ := hunit h' hs
    exact hunit h hs

theorem Chars.body_rfc {s : Bytes} {cs : List Char} (h : Chars RfcChar s cs) : ∃ t,
    Body PlainLiteral s t := by
  induction h
  case nil => exact ⟨[], .nil⟩
  case cons h _ hi =>
    have ⟨t, ht⟩ := hi
    exact h.body ht

-- A plain string, as the loops of the parsers see it.
theorem Chars.body {s : Bytes} {cs : List Char} (h : Chars PlainChar s cs) :
    Body PlainLiteral s (encode cs) := by
  induction h
  case nil => exact .nil
  case cons h _ hi =>
    rw [encode, List.flatMap_cons, ← encode]
    cases h
    case unescaped h  => exact hi.literals fun b hb => plainLiteral_of_mem h hb
    case escape h     => rw [utf8EncodeChar_of_mem h]; exact .escape hi

end Json
