import FcModel.Io.Json.Unescape
import FcModel.Io.Json.Meaning
import FcModel.Utf8.CodePoints
import FcModel.Variant.Equality

-- What the generator writes is a text of RFC 8259, whatever the bytes of the strings are.

namespace Json

open Ascii Utf8

section Escapes

variable {s : Bytes} {cs : List Char}

-- What is written for a byte of ASCII starts with one.
theorem head_escapeChar {b : UInt8} (h : b.toNat < 128) :
    ∃ x t, escapeChar true b = x :: t ∧ x.toNat < 128 := by
  have hall : ∀ n : Fin 128, ((escapeChar true (.ofNat n)).headD 0xff).toNat < 128 := by
    decide +kernel
  have hb := hall ⟨b.toNat, h⟩
  rw [UInt8.ofNat_toNat] at hb
  cases he : escapeChar true b
  case nil =>
    rw [he] at hb
    exact absurd hb (by decide)
  case cons x t =>
    rw [he] at hb
    exact ⟨x, t, rfl, hb⟩

-- The bytes behind ASCII are only written where they stand in the string.
theorem exists_of_flatMap_escapeChar {u rest : Bytes} (hu : ∀ x ∈ u, 128 ≤ x.toNat)
    (h : s.flatMap (escapeChar true) = u ++ rest) : ∃ t, s = u ++ t := by
  induction u generalizing s
  case nil => exact ⟨s, rfl⟩
  case cons x u hi =>
    obtain ⟨hx, hu⟩ := List.forall_mem_cons.mp hu
    cases s
    case nil => cases h
    case cons b s =>
      rw [List.flatMap_cons] at h
      by_cases hb : b.toNat < 128
      case pos =>
        obtain ⟨y, t, he, hy⟩ := head_escapeChar hb
        rw [he] at h
        obtain ⟨rfl, -⟩ := List.cons.inj h
        omega
      case neg =>
        rw [escapeChar_of_le (Nat.not_lt.mp hb)] at h
        obtain ⟨hbx, h⟩ := List.cons.inj h
        obtain ⟨t, ht⟩ := hi hu h
        exact ⟨t, by rw [hbx, ht, List.cons_append]⟩

-- No character starts at a byte because of what is written for the bytes behind it.
theorem drop_escapeChar {b : UInt8} (hb : ∀ c rest, b :: s ≠ String.utf8EncodeChar c ++ rest)
    (c : Char) (rest : Bytes) :
    b :: s.flatMap (escapeChar true) ≠ String.utf8EncodeChar c ++ rest := by
  intro h
  obtain ⟨x, u, hu⟩ := List.exists_cons_of_ne_nil (show String.utf8EncodeChar c ≠ [] by simp)
  have h' := h
  rw [hu] at h'
  obtain ⟨rfl, hrest⟩ := List.cons.inj h'
  have htrail : ∀ x ∈ u, 128 ≤ x.toNat := by
    by_cases hc : c.val.toNat < 128
    case pos =>
      rw [utf8EncodeChar_of_lt hc] at hu
      obtain ⟨-, rfl⟩ := List.cons.inj hu
      exact List.forall_mem_nil _
    case neg =>
      exact fun x hx => le_of_mem_utf8EncodeChar (Nat.not_lt.mp hc) (hu ▸ List.mem_cons_of_mem _ hx)
  obtain ⟨t, rfl⟩ := exists_of_flatMap_escapeChar htrail hrest
  exact hb c t (by rw [hu]; rfl)

theorem le_of_drop {b : UInt8} (hb : ∀ c rest, b :: s ≠ String.utf8EncodeChar c ++ rest) :
    128 ≤ b.toNat := by
  by_contra hlt
  exact hb (.ofNat b.toNat) s
    (by rw [utf8EncodeChar_ofNat (Nat.not_le.mp hlt), List.singleton_append])

-- Pruning what was escaped leaves the escapes of the code points.
theorem prunes_escaped (h : CodePoints s cs) :
    Prunes (s.flatMap (escapeChar true)) (cs.flatMap escapedChar) := by
  induction h
  case nil => exact .nil
  case char c s cs _ hi =>
    obtain ⟨hbytes, hpruned⟩ := escapeControl_spec c
    rw [List.flatMap_append, List.flatMap_cons, ← hbytes, ← hpruned]
    exact hi.encode _
  case drop b s cs hb _ hi =>
    rw [List.flatMap_cons, escapeChar_of_le (le_of_drop hb)]
    exact .drop (drop_escapeChar hb) hi

theorem escaped_of_codePoints (h : CodePoints s cs) : escaped s = cs.flatMap escapedChar := by
  rw [escaped_eq_prune, pruneInvalidUtf8_of_prunes (prunes_escaped h)]

end Escapes

section Spelling

variable {s : Bytes} {cs : List Char}

theorem codeUnit_hexDigit {v : Nat} (h : v < 256) :
    codeUnit zero zero (hexDigit (v / 16)) (hexDigit (v % 16)) = some v := by
  have hall : ∀ v : Fin 256,
      codeUnit zero zero (hexDigit (v / 16)) (hexDigit (v % 16)) = some v.val := by
    decide +kernel
  exact hall ⟨v, h⟩

theorem unescaped_of_printable {c : Char} (h : Printable c) (htab : c ≠ '\t') (hnewline : c ≠ '\n')
    (hreturn : c ≠ '\r') (hbackslash : c ≠ '\\') (hquote : c ≠ '"') : Unescaped c := by
  refine ⟨?_, hquote, hbackslash⟩
  rcases h.control with h | h | h | h
  case inl          => exact h
  case inr.inl      => exact absurd h htab
  case inr.inr.inl  => exact absurd h hnewline
  case inr.inr.inr  => exact absurd h hreturn

-- A character is written in one of the ways of the standard.
theorem rfcChar_escapedChar (c : Char) : RfcChar (escapedChar c) c := by
  rw [escapedChar]
  split
  case isFalse h =>
    have hlt := lt_of_not_printable h
    exact .unicode (codeUnit_hexDigit (by omega))
  case isTrue h =>
    rw [flatMap_escapeChar_char h, escapeUnicode]
    split_ifs
    case pos he => rw [he]; exact .escape (by decide)
    case pos he => rw [he]; exact .escape (by decide)
    case pos he => rw [he]; exact .escape (by decide)
    case pos he => rw [he]; exact .escape (by decide)
    case pos he => rw [he]; exact .escape (by decide)
    case neg htab hnewline hreturn hbackslash hquote =>
      rw [encode, List.flatMap_singleton]
      exact .unescaped (unescaped_of_printable h htab hnewline hreturn hbackslash hquote)

theorem chars_flatMap_escapedChar (cs : List Char) :
    Chars RfcChar (cs.flatMap escapedChar) cs := by
  induction cs
  case nil          => exact .nil
  case cons c cs hi => exact .cons (rfcChar_escapedChar c) hi

theorem quoted_escaped (h : CodePoints s cs) : Quoted RfcChar (quoted (escaped s)) cs := by
  rw [escaped_of_codePoints h]
  exact .intro (chars_flatMap_escapedChar cs)

theorem unescaped_digit {d : UInt8} (h : isDigit d) : Unescaped (.ofNat d.toNat) := by
  obtain ⟨hlo, hhi⟩ := isDigit_iff.mp h
  have hall : ∀ n : Fin 128, 0x30 ≤ n.val ∧ n.val ≤ 0x39 →
      0x20 ≤ (Char.ofNat n).val ∧ Char.ofNat n ≠ '"' ∧ Char.ofNat n ≠ '\\' := by
    decide
  obtain ⟨hcontrol, hquote, hbackslash⟩ := hall ⟨d.toNat, by omega⟩ ⟨hlo, hhi⟩
  exact ⟨hcontrol, hquote, hbackslash⟩

-- Digits in quotes.
theorem chars_digits {ds : Bytes} (h : ∀ d ∈ ds, isDigit d) :
    ∃ cs, ds = encode cs ∧ Chars RfcChar ds cs := by
  induction ds
  case nil => exact ⟨[], rfl, .nil⟩
  case cons d ds hi =>
    obtain ⟨hd, hds⟩ := List.forall_mem_cons.mp h
    obtain ⟨cs, hcs, hchars⟩ := hi hds
    have hlt : d.toNat < 128 := by
      have := (isDigit_iff.mp hd).right
      omega
    have hone := utf8EncodeChar_ofNat hlt
    refine ⟨.ofNat d.toNat :: cs, by rw [encode_cons, hone, ← hcs, List.singleton_append], ?_⟩
    rw [← List.singleton_append, ← hone]
    exact .cons (.unescaped (unescaped_digit hd)) hchars

end Spelling

section Encoding

variable {α κ : Type} {s : Bytes}

theorem valid_of_ascii {p : UInt8 → Bool} (hp : ∀ c, p c → c.toNat < 128) (h : ∀ c ∈ s, p c) :
    Valid s :=
  .of_lt fun c hc => hp c (h c hc)

theorem valid_ascii (h : s.all fun c => c.toNat < 128) : Valid s :=
  .of_lt fun c hc => of_decide_eq_true (List.all_eq_true.mp h c hc)

theorem valid_ws (h : Ws s) : Valid s :=
  valid_of_ascii (p := isSpace) (by decide +kernel) h

theorem valid_elements {as : List α} (h : Elements (fun s _ => Valid s) s as) : Valid s := by
  have hcomma : Valid [comma] := valid_ascii rfl
  induction h
  case nil hw           => exact valid_ws hw
  case one hw h hw'     => exact ((valid_ws hw).append h).append (valid_ws hw')
  case cons hw h hw' _ hi =>
    exact ((((valid_ws hw).append h).append (valid_ws hw')).append hcomma).append hi

theorem valid_member {m : κ × α} (h : Member (fun s _ => Valid s) (fun s _ => Valid s) s m) :
    Valid s := by
  obtain ⟨hk, hw, hw', h⟩ := h
  exact (((hk.append (valid_ws hw)).append (valid_ascii rfl)).append (valid_ws hw')).append h

theorem valid_quoted {char : Bytes → Char → Prop} (hc : ∀ b c, char b c → Valid b) {cs : List Char}
    (h : Quoted char s cs) : Valid s := by
  obtain ⟨h⟩ := h
  have hquote : Valid [quote] := valid_ascii rfl
  refine (hquote.append ?_).append hquote
  induction h
  case nil        => exact .nil
  case cons h _ hi => exact (hc _ _ h).append hi

-- A text is encoded in UTF-8 if its strings are.
theorem Spells.valid {d : Dialect} (hc : ∀ b c, d.char b c → Valid b) {v : Value}
    (h : Spells d s v) : Valid s := by
  induction h using Spells.induct
  case null       => exact valid_ascii rfl
  case bool b     => exact valid_ascii (by cases b <;> rfl)
  case number n _ =>
    exact valid_of_ascii (p := Relaxed.isTokenChar) (by decide +kernel)
      (Relaxed.isTokenChar_text n)
  case string h   => exact valid_quoted hc h
  case array hi   =>
    exact (Valid.append (valid_ascii rfl) (valid_elements (hi.imp fun _ _ h => h.2))).append
      (valid_ascii rfl)
  case object hi  =>
    have hmember := hi.imp fun _ _ h =>
      valid_member ((h.imp_name fun _ _ h => valid_quoted hc h).imp fun _ _ h => h.2)
    exact (Valid.append (valid_ascii rfl) (valid_elements hmember)).append (valid_ascii rfl)

theorem lt_of_hexValue {c : UInt8} {v : Nat} (h : hexValue c = some v) : c.toNat < 128 := by
  have hall : ∀ c, (hexValue c).isSome → c.toNat < 128 := by decide +kernel
  exact hall c (Option.isSome_of_eq_some h)

theorem lt_of_codeUnit {a b c d : UInt8} {v : Nat} (h : codeUnit a b c d = some v) :
    ∀ x ∈ [a, b, c, d], x.toNat < 128 := by
  simp only [codeUnit, Option.bind_eq_bind, Option.bind_eq_some_iff] at h
  obtain ⟨_, ha, _, hb, _, hc, _, hd, -⟩ := h
  simp only [List.forall_mem_cons]
  exact ⟨lt_of_hexValue ha, lt_of_hexValue hb, lt_of_hexValue hc, lt_of_hexValue hd,
    List.forall_mem_nil _⟩

theorem valid_rfcChar {b : Bytes} {c : Char} (h : RfcChar b c) : Valid b := by
  cases h
  case unescaped    => exact .char c
  case escape x h   =>
    have hall : ∀ e ∈ escapes, e.1.toNat < 128 := by
      decide
    exact .of_lt (List.forall_mem_cons.mpr
      ⟨by decide +kernel, List.forall_mem_singleton.mpr (hall _ h)⟩)
  case unicode h    =>
    exact Valid.append (s := [backslash, 'u'.toUInt8]) (valid_ascii rfl) (.of_lt (lt_of_codeUnit h))
  case surrogates h h' _ _ _ =>
    exact ((Valid.append (s := [backslash, 'u'.toUInt8]) (valid_ascii rfl)
      (.of_lt (lt_of_codeUnit h))).append (t := [backslash, 'u'.toUInt8]) (valid_ascii rfl)).append
      (.of_lt (lt_of_codeUnit h'))

theorem IsText.valid {v : Value} (h : IsText rfc8259 s v) : Valid s := by
  obtain ⟨w, t, w', rfl, hw, ht, hw'⟩ := h
  exact ((valid_ws hw).append (ht.valid fun _ _ => valid_rfcChar)).append (valid_ws hw')

end Encoding

section Meaning

-- Integers that are written as strings.
def Stringified (format : OutputFormatting) (i : Int) : Prop :=
  format = .stringifyLargeIntsAndDoubles ∧ 0xffffffff < i

-- The value is what is meant by a variant. A string means its code points, a blob those of its
-- text, and a large integer its digits if that is asked for.
inductive Means (format : OutputFormatting) : Variant → Value → Prop
  | null : Means format .null .null
  | bool (b : Bool) : Means format (.bool b) (.bool b)
  | int64 {i : Int64} {n : Number} (hi : ¬Stringified format i.toInt) (h : n.value = i.toInt) :
      Means format (.int64 i) (.number n)
  | uint64 {i : UInt64} {n : Number} (hi : ¬Stringified format i.toNat) (h : n.value = i.toNat) :
      Means format (.uint64 i) (.number n)
  | int64Digits {i : Int64} {cs : List Char} (hi : Stringified format i.toInt)
      (h : encode cs = Decimal.ofInt i.toInt) : Means format (.int64 i) (.string cs)
  | uint64Digits {i : UInt64} {cs : List Char} (hi : Stringified format i.toNat)
      (h : encode cs = Decimal.ofNat i.toNat) : Means format (.uint64 i) (.string cs)
  | string {s : Bytes} {cs : List Char} (h : CodePoints s cs) :
    Means format (.string s) (.string cs)
  | blob {data : Bytes} {cs : List Char} (h : CodePoints (blobToString data) cs) :
      Means format (.blob data) (.string cs)
  | array {vs : List Variant} {xs : List Value} (h : List.Forall₂ (Means format) vs xs) :
      Means format (.array vs) (.array xs)
  | object {es : List (Bytes × Variant)} {ms : List (List Char × Value)}
      (h : List.Forall₂ (Entries CodePoints (Means format)) es ms) :
          Means format (.object es) (.object ms)

variable {L : LexicalCast} {format : OutputFormatting}

theorem spells_ofInt (i : Int) : ∃ n : Number, n.value = i ∧
    Spells rfc8259 (Decimal.ofInt i) (.number n) := by
  refine ⟨.ofInt i, ?_, ?_⟩
  case refine_1 => rw [Number.value_eq_intValue (Number.isInteger_ofInt i), Number.intValue_ofInt]
  case refine_2 =>
    rw [← Number.text_ofInt]
    exact .number trivial

theorem spells_digits (n : Nat) :
    ∃ cs, encode cs = Decimal.ofNat n ∧ Spells rfc8259 (quoted (Decimal.ofNat n)) (.string cs) := by
  obtain ⟨cs, hcs, hchars⟩ := chars_digits (Decimal.numeral_ofNat n).digits
  exact ⟨cs, hcs.symm, .string (.intro hchars)⟩

theorem intToStream_eq {i : Int} {s : Bytes} (hi : ¬Stringified format i) :
    intToStream format i s = Decimal.ofInt i :=
  if_neg hi

theorem intToStream_quoted {i : Int} {s : Bytes} (hi : Stringified format i) :
    intToStream format i s = quoted s :=
  if_pos hi

-- Large integers are not negative.
theorem ofInt_of_stringified {i : Int} (hi : Stringified format i) :
    Decimal.ofInt i = Decimal.ofNat i.natAbs := by
  have hlarge := hi.right
  rw [Decimal.ofInt, if_neg (by omega)]

theorem spells_int64 (hL : L.Exact) (i : Int64) :
    ∃ x, Spells rfc8259 (text L format (.int64 i)) x ∧ Means format (.int64 i) x := by
  rw [text]
  by_cases hi : Stringified format i.toInt
  case pos =>
    obtain ⟨cs, hcs, hspells⟩ := spells_digits i.toInt.natAbs
    rw [← ofInt_of_stringified hi] at hcs hspells
    rw [intToStream_quoted hi, hL.ofInt64]
    exact ⟨_, hspells, .int64Digits hi hcs⟩
  case neg =>
    obtain ⟨n, hn, hspells⟩ := spells_ofInt i.toInt
    rw [intToStream_eq hi]
    exact ⟨_, hspells, .int64 hi hn⟩

theorem spells_uint64 (hL : L.Exact) (i : UInt64) :
    ∃ x, Spells rfc8259 (text L format (.uint64 i)) x ∧ Means format (.uint64 i) x := by
  rw [text]
  by_cases hi : Stringified format i.toNat
  case pos =>
    obtain ⟨cs, hcs, hspells⟩ := spells_digits i.toNat
    rw [intToStream_quoted hi, hL.ofUint64]
    exact ⟨_, hspells, .uint64Digits hi hcs⟩
  case neg =>
    obtain ⟨n, hn, hspells⟩ := spells_ofInt i.toNat
    rw [intToStream_eq hi]
    exact ⟨_, hspells, .uint64 hi hn⟩

instance : Nonempty Value :=
  ⟨.null⟩

theorem spells_text (hL : L.Exact) {v : Variant} (hv : Variant.NoDouble v) :
    ∃ x, Spells rfc8259 (text L format v) x ∧ Means format v x := by
  induction hv
  case null       => exact ⟨_, .null, .null⟩
  case bool b     =>
    have htext : text L format (.bool b) = ascii (if b then "true" else "false") := by
      cases b <;> rfl
    exact ⟨_, htext ▸ .bool b, .bool b⟩
  case int64 i    => exact spells_int64 hL i
  case uint64 i   => exact spells_uint64 hL i
  case string s   =>
    obtain ⟨cs, hcs⟩ := CodePoints.exists_of s
    exact ⟨_, .string (quoted_escaped hcs), .string hcs⟩
  case blob data  =>
    obtain ⟨cs, hcs⟩ := CodePoints.exists_of (blobToString data)
    exact ⟨_, .string (quoted_escaped hcs), .blob hcs⟩
  case array vs _ hi =>
    choose! f hspells hmeans using hi
    refine ⟨_, .array (elements_elementsText hspells), .array ?_⟩
    exact List.forall₂_map_right_iff.mpr (List.forall₂_same.mpr hmeans)
  case object es _ hi =>
    have hvalues : ∀ v ∈ es.map fun e => e.2, ∃ x,
      Spells rfc8259 (text L format v) x ∧ Means format v x :=
      List.forall_mem_map.mpr hi
    choose! f hspells hmeans using hvalues
    choose g hg using CodePoints.exists_of
    have hmem {e : Bytes × Variant} (he : e ∈ es) : e.2 ∈ es.map fun e => e.2 :=
      List.mem_map_of_mem he
    refine ⟨_, .object (elements_entriesText fun e he =>
      ⟨quoted_escaped (hg e.1), hspells _ (hmem he)⟩),
      .object ?_⟩
    exact List.forall₂_map_right_iff.mpr
      (List.forall₂_same.mpr fun e he => .intro (hg e.1) (hmeans _ (hmem he)))

-- The generator writes a text of the standard, in UTF-8, that means the variant.
theorem toString_conforms {ε : Type} (L : LexicalCast) (hL : L.Exact) (yield : Yield ε)
    (format : OutputFormatting) (v : Variant) (hv : Variant.NoDouble v) :
    ((∀ n, yield n = .ok ()) → ∃ s, toString L yield format v = .ok s) ∧
    ∀ s, toString L yield format v = .ok s →
      Valid s ∧ ∃ x, IsText rfc8259 s x ∧ Means format v x := by
  have hemits := @emits_toString ε L yield format v
  refine ⟨fun hy => ⟨_, hemits.eq_of_total hy⟩, fun s hs => ?_⟩
  rw [hemits.eq_of_ok hs]
  obtain ⟨x, hspells, hmeans⟩ := @spells_text L format hL v hv
  have hnil : Ws [] := List.forall_mem_nil _
  have htext : IsText rfc8259 (text L format v) x :=
    ⟨[], _, [], by rw [List.nil_append, List.append_nil], hnil, hspells, hnil⟩
  exact ⟨htext.valid, x, htext, hmeans⟩

theorem toString_conforms_object :
    ((∀ n, (fun _ => .ok () : Yield Empty) n = .ok ()) → ∃ s,
        toString .decimal (fun _ => .ok () : Yield Empty)
      .stringifyLargeIntsAndDoubles
          (.object [([0xc2], .array [.uint64 0x100000000, .string [0xe2, 9]])]) = .ok s) ∧
    ∀ s, toString .decimal (fun _ => .ok () : Yield Empty) .stringifyLargeIntsAndDoubles
        (.object [([0xc2], .array [.uint64 0x100000000, .string [0xe2, 9]])]) = .ok s →
      Valid s ∧ ∃ x, IsText rfc8259 s x ∧ Means .stringifyLargeIntsAndDoubles
        (.object [([0xc2], .array [.uint64 0x100000000, .string [0xe2, 9]])]) x := by
  have harray : Variant.NoDouble (.array [.uint64 0x100000000, .string [0xe2, 9]]) :=
    .array (List.forall_mem_cons.mpr ⟨.uint64 _, List.forall_mem_singleton.mpr (.string _)⟩)
  exact toString_conforms .decimal LexicalCast.decimal_exact (fun _ => .ok ()) _ _
    (.object (List.forall_mem_singleton.mpr harray))

end Meaning

end Json
