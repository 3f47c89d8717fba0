import FcModel.Io.Json.Layout

-- `json::to_pretty_string`.

namespace Json

open Ascii Utf8

-- The state of `pretty_print`, and what it has written.
structure Printer where
  level  : Int32
  first  : Bool
  quote  : Bool
  escape : Bool
  ss     : Bytes
deriving DecidableEq, Repr

namespace Printer

variable (indent : UInt8)

def write (p : Printer) (s : Bytes) : Printer :=
  { p with ss := p.ss ++ s }

-- The product is an `int`.
def spaces (level : Int32) : Bytes :=
  List.replicate (level * indent.toUInt32.toInt32).toInt.toNat space

-- A new line in front of the first token of an element or a member.
def startLine (p : Printer) : Printer :=
  if p.first then { p.write ([newline] ++ spaces indent p.level) with first := false } else p

-- One round of the loop. `previous` is the character before `c`.
def step (p : Printer) (previous : Option UInt8) (c : UInt8) : Printer :=
  if c = backslash then
    { p.write [c] with escape := !p.escape && p.quote }
  else if c = colon then
    if p.quote then p.write [colon] else p.write [colon, space]
  else if c = Ascii.quote then
    let p := p.startLine indent
    { p.write [Ascii.quote] with quote := if p.escape then p.quote else !p.quote, escape := false }
  else if c = openBrace ∨ c = openBracket then
    if p.quote then { p.write [c] with escape := false }
    else { p.write [c] with level := p.level + 1, first := true }
  else if c = closeBrace ∨ c = closeBracket then
    if p.quote then { p.write [c] with escape := false }
    else
      let p := if previous ≠ some openBracket ∧ previous ≠ some openBrace then p.write [newline] else p
      let p := { p with level := p.level - 1 }
      let p := if p.first then p else p.write (spaces indent p.level)
      { p.write [c] with first := false }
  else if c = comma then
    if p.quote then { p.write [comma] with escape := false } else { p.write [comma] with first := true }
  else
    let p := if c ∈ ascii "nbfrtu" ∧ p.quote ∧ p.escape then { p with escape := false } else p
    (p.startLine indent).write [c]

end Printer

-- The loop. Its index is a `uint32_t`, which starts again at zero before it gets to the end of a
-- text of 2^32 bytes or more.
def prettyPrint.loop (v : Bytes) (indent : UInt8) : (fuel : Nat) → (i : UInt32) → Printer →
    Option Bytes
  | 0, _, _        => none
  | fuel + 1, i, p =>
    match v[i.toNat]? with
    | none   => some p.ss
    | some c => loop v indent fuel (i + 1) (p.step indent v[(i - 1).toNat]? c)

def prettyPrint (v : Bytes) (indent : UInt8) : Option Bytes :=
  prettyPrint.loop v indent (v.length + 1) 0 ⟨0, false, false, false, []⟩

-- `none` is for a loop that does not end.
def toPrettyString {ε : Type} (L : LexicalCast) (yield : Yield ε) (format : OutputFormatting)
    (v : Variant) :
    Except ε (Option Bytes) := do
  let s ← toString L yield format v
  return prettyPrint s 2

section Run

variable (indent : UInt8)

-- The loop over the characters themselves.
def Printer.run : (previous : Option UInt8) → Printer → Bytes → Printer
  | _, p, []            => p
  | previous, p, c :: s => run (some c) (p.step indent previous c) s

theorem prettyPrint_loop_eq {v : Bytes} (hv : v.length < 2 ^ 32) {a s : Bytes} (h : v = a ++ s)
    {fuel : Nat}
    (hf : s.length < fuel) {i : UInt32} (hi : i.toNat = a.length) (p : Printer) :
    prettyPrint.loop v indent fuel i p = some (p.run indent a.getLast? s).ss := by
  induction s generalizing a fuel i p
  case nil =>
    obtain ⟨fuel, rfl⟩ : ∃ n, fuel = n + 1 := ⟨fuel - 1, by omega⟩
    rw [List.append_nil] at h
    have hend : v[i.toNat]? = none := by rw [hi, h]; exact List.getElem?_eq_none (Nat.le_refl _)
    rw [prettyPrint.loop, hend]
    rfl
  case cons c s ih =>
    obtain ⟨fuel, rfl⟩ : ∃ n, fuel = n + 1 := ⟨fuel - 1, by omega⟩
    have hlen : a.length + (s.length + 1) < 2 ^ 32 := by simpa [h] using hv
    have hc : v[i.toNat]? = some c := by
      rw [hi, h, List.getElem?_append_right (Nat.le_refl _), Nat.sub_self]
      rfl
    have hprev : v[(i - 1).toNat]? = a.getLast? := by
      by_cases ha : a = []
      case pos =>
        have hzero : i = 0 := UInt32.toNat_inj.mp (by rw [hi, ha]; rfl)
        rw [ha, hzero]
        exact List.getElem?_eq_none (Nat.le_of_lt_succ hv)
      case neg =>
        have hpos := List.length_pos_iff.mpr ha
        have hle : (1 : UInt32) ≤ i := UInt32.le_iff_toNat_le.mpr (by rw [hi]; exact hpos)
        rw [UInt32.toNat_sub_of_le i 1 hle, hi, h, List.getLast?_eq_getElem?]
        exact List.getElem?_append_left (Nat.sub_lt hpos (by decide))
    have hnext : (i + 1).toNat = (a ++ [c]).length := by
      rw [UInt32.toNat_add, hi, List.length_append, List.length_singleton]
      exact Nat.mod_eq_of_lt (show a.length + 1 < 2 ^ 32 by omega)
    rw [prettyPrint.loop, hc]
    simp only
    rw [hprev, ih (h.trans (List.append_cons a c s)) (Nat.lt_of_succ_lt_succ hf) hnext,
      List.getLast?_concat]
    rfl

theorem prettyPrint_eq {v : Bytes} (hv : v.length < 2 ^ 32) :
    prettyPrint v indent = some (Printer.run indent none ⟨0, false, false, false, []⟩ v).ss :=
  prettyPrint_loop_eq indent hv (a := []) rfl (Nat.lt_succ_self _) rfl _

end Run

section Printing

variable {indent : UInt8} {p : Printer} {previous : Option UInt8} {c : UInt8} {s l : Bytes}

@[simp]
theorem Printer.write_ss (p : Printer) (s : Bytes) : (p.write s).ss = p.ss ++ s :=
  rfl

-- Spaces and newlines.
def Blank (w : Bytes) : Prop :=
  ∀ c ∈ w, c = space ∨ c = newline

theorem Layout.blank {b : UInt8} {t w : Bytes} (hw : Blank w) (hb : b ≠ comma ∧ b ≠ colon)
    (h : Layout (b :: s) t) :
    Layout (b :: s) (w ++ t) := by
  induction w
  case nil          => exact h
  case cons c w hi  =>
    obtain ⟨hc, hw⟩ := List.forall_mem_cons.mp hw
    exact .space hc hb (hi hw)

theorem blank_spaces (level : Int32) : Blank (Printer.spaces indent level) :=
  fun _ hc => .inl (List.eq_of_mem_replicate hc)

theorem startLine_eq (p : Printer) :
    ∃ w, Blank w ∧ p.startLine indent = { p.write w with first := false } := by
  rw [Printer.startLine]
  split
  case isTrue  => exact ⟨_, List.forall_mem_cons.mpr ⟨.inr rfl, blank_spaces _⟩, rfl⟩
  case isFalse h =>
    refine ⟨[], List.forall_mem_nil _, ?_⟩
    rw [Bool.not_eq_true] at h
    simp only [Printer.write, List.append_nil, ← h]

-- The printer is not inside of a string literal.
structure Printer.Outside (p : Printer) : Prop where
  quote  : p.quote = false
  escape : p.escape = false

-- From there on, the text is only laid out.
def Prints (indent : UInt8) (s : Bytes) : Prop :=
  ∀ previous p, Printer.Outside p → ∃ t, (p.run indent previous s).ss = p.ss ++ t ∧ Layout s t

theorem prints_nil : Prints indent [] :=
  fun _ _ _ => ⟨[], (List.append_nil _).symm, .nil⟩

theorem prints_cons (hs : Prints indent s)
    (hstep : ∀ previous p, Printer.Outside p → ∃ w, (p.step indent previous c).Outside ∧
      (p.step indent previous c).ss = p.ss ++ w ∧ ∀ t, Layout s t → Layout (c :: s) (w ++ t)) :
    Prints indent (c :: s) := by
  intro previous p hp
  obtain ⟨w, hq, hss, hw⟩ := hstep previous p hp
  obtain ⟨t, ht, hl⟩ := hs (some c) _ hq
  exact ⟨w ++ t, by rw [Printer.run, ht, hss, List.append_assoc], hw t hl⟩

theorem prints_open (hc : c = openBrace ∨ c = openBracket) (hs : Prints indent s) :
    Prints indent (c :: s) := by
  refine prints_cons hs fun previous p hp => ⟨[c], ?_⟩
  have hstep : p.step indent previous c = { p.write [c] with level := p.level + 1, first := true } := by
    obtain ⟨level, first, q, escape, ss⟩ := p
    cases hp.quote
    rcases hc with rfl | rfl
    all_goals rfl
  rw [hstep]
  exact ⟨⟨hp.quote, hp.escape⟩, rfl, fun t h => .punctuation (by rcases hc with rfl | rfl <;> decide) h⟩

theorem prints_comma (hs : Prints indent s) : Prints indent (comma :: s) := by
  refine prints_cons hs fun previous p hp => ⟨[comma], ?_⟩
  have hstep : p.step indent previous comma = { p.write [comma] with first := true } := by
    obtain ⟨level, first, q, escape, ss⟩ := p
    cases hp.quote
    rfl
  rw [hstep]
  exact ⟨⟨hp.quote, hp.escape⟩, rfl, fun t h => .punctuation (by decide) h⟩

theorem prints_colon {b : UInt8} (hb : b ≠ comma ∧ b ≠ colon) (hs : Prints indent (b :: s)) :
    Prints indent (colon :: b :: s) := by
  refine prints_cons hs fun previous p hp => ⟨[colon, space], ?_⟩
  have hstep : p.step indent previous colon = p.write [colon, space] := by
    obtain ⟨level, first, q, escape, ss⟩ := p
    cases hp.quote
    rfl
  rw [hstep]
  exact ⟨⟨hp.quote, hp.escape⟩, rfl, fun t h => .punctuation (by decide) (.space (.inl rfl) hb h)⟩

theorem step_close (hc : c = closeBrace ∨ c = closeBracket) (hp : p.Outside) :
    ∃ w, Blank w ∧
    p.step indent previous c = { p.write (w ++ [c]) with level := p.level - 1, first := false } := by
  have hstep : p.step indent previous c =
      let p := if previous ≠ some openBracket ∧ previous ≠ some openBrace then p.write [newline] else p
      let p := { p with level := p.level - 1 }
      let p := if p.first then p else p.write (Printer.spaces indent p.level)
      { p.write [c] with first := false } := by
    obtain ⟨level, first, q, escape, ss⟩ := p
    cases hp.quote
    rcases hc with rfl | rfl
    all_goals rfl
  have hline : ∃ w, Blank w ∧
      (if previous ≠ some openBracket ∧ previous ≠ some openBrace then p.write [newline] else p) = p.write w := by
    split
    case isTrue  => exact ⟨[newline], List.forall_mem_singleton.mpr (.inr rfl), rfl⟩
    case isFalse => exact ⟨[], List.forall_mem_nil _, by simp [Printer.write]⟩
  obtain ⟨w, hw, hline⟩ := hline
  rw [hstep, hline]
  by_cases hf : p.first
  case pos => exact ⟨w, hw, by simp [Printer.write, hf]⟩
  case neg =>
    refine ⟨w ++ Printer.spaces indent (p.level - 1), List.forall_mem_append.mpr ⟨hw, blank_spaces _⟩, ?_⟩
    simp [Printer.write, hf]

theorem prints_close (hc : c = closeBrace ∨ c = closeBracket) (hs : Prints indent s) :
    Prints indent (c :: s) := by
  refine prints_cons hs fun previous p hp => ?_
  obtain ⟨w, hw, hstep⟩ := @step_close indent p previous c hc hp
  refine ⟨w ++ [c], ?_⟩
  rw [hstep]
  refine ⟨⟨hp.quote, hp.escape⟩, rfl, fun t h => ?_⟩
  rw [List.append_assoc]
  exact (Layout.punctuation (by rcases hc with rfl | rfl <;> decide) h).blank hw
    (by rcases hc with rfl | rfl <;> decide)

section Words

theorem step_word (hc : isWordChar c) (hp : p.Outside) :
    p.step indent previous c = (p.startLine indent).write [c] := by
  have hne : c ∉ [backslash, colon, quote, openBrace, openBracket, closeBrace, closeBracket, comma] := by
    intro hm
    have hall : ∀ a ∈ [backslash, colon, quote, openBrace, openBracket, closeBrace, closeBracket, comma],
        isWordChar a = false := by
      decide +kernel
    exact absurd hc (by rw [hall c hm]; decide)
  simp only [List.mem_cons, List.not_mem_nil, or_false, not_or] at hne
  simp [Printer.step, hne, hp.quote]

theorem startLine_of_first (h : p.first = false) : p.startLine indent = p := by
  rw [Printer.startLine, h]
  rfl

theorem run_word {w : Bytes} (hw : ∀ c ∈ w, isWordChar c) (hp : p.Outside) (hf : p.first = false) :
    ∃ previous', p.run indent previous (w ++ s) = (p.write w).run indent previous' s := by
  induction w generalizing p previous
  case nil => exact ⟨previous, by simp [Printer.write]⟩
  case cons c w hi =>
    obtain ⟨hc, hw⟩ := List.forall_mem_cons.mp hw
    obtain ⟨previous', hrun⟩ := @hi (p.write [c]) (some c) hw ⟨hp.quote, hp.escape⟩ hf
    refine ⟨previous', ?_⟩
    rw [List.cons_append, Printer.run, step_word hc hp, startLine_of_first hf, hrun]
    simp [Printer.write]

theorem prints_word {w : Bytes} (hne : w ≠ []) (hw : ∀ c ∈ w, isWordChar c) (he : Ends s)
    (hs : Prints indent s) :
    Prints indent (w ++ s) := by
  intro previous p hp
  obtain ⟨c, w, rfl⟩ := List.exists_cons_of_ne_nil hne
  obtain ⟨hc, hw'⟩ := List.forall_mem_cons.mp hw
  obtain ⟨b, hb, hline⟩ := @startLine_eq indent p
  have hq : ((p.startLine indent).write [c]).Outside := by
    rw [hline]
    exact ⟨hp.quote, hp.escape⟩
  obtain ⟨previous', hrun⟩ := @run_word indent _ (some c) s w hw' hq (by rw [hline]; rfl)
  obtain ⟨t, ht, hl⟩ := hs previous' (((p.startLine indent).write [c]).write w) ⟨hq.quote, hq.escape⟩
  refine ⟨b ++ (c :: w ++ t), ?_, ?_⟩
  · rw [List.cons_append, Printer.run, step_word hc hp, hrun, ht, hline]
    simp [Printer.write]
  · have hc : c ≠ comma ∧ c ≠ colon := by
      constructor
      all_goals
        rintro rfl
        exact absurd hc (by decide)
    exact (Layout.word hw he hl).blank hb hc

end Words

section Strings

-- Inside of a literal, the printer knows whether it is behind a backslash.
theorem step_literal {b : UInt8} (hq : p.quote = true) (hf : p.first = false)
    (hl : isLiteral p.escape (b :: l)) :
    ∃ escape, isLiteral escape l ∧
    p.step indent previous b = { p.write [b] with escape := escape } := by
  obtain ⟨level, first, q, escape, ss⟩ := p
  cases hq
  cases hf
  cases escape
  case true =>
    have hl := of_decide_eq_true hl
    have hb : b ∈ [backslash, quote, 0x6e, 0x74, 0x72, 0x75] := hl.1
    simp only [List.mem_cons, List.not_mem_nil, or_false] at hb
    refine ⟨false, hl.2, ?_⟩
    rcases hb with rfl | rfl | rfl | rfl | rfl | rfl
    all_goals rfl
  case false =>
    rw [isLiteral] at hl
    split at hl
    case isTrue hb => exact ⟨true, hl, by rw [hb]; rfl⟩
    case isFalse hb =>
      have hl := of_decide_eq_true hl
      refine ⟨false, hl.2.2, ?_⟩
      simp only [Printer.step, if_neg hb, if_neg hl.2.1]
      split_ifs
      case pos hcolon          => rw [hcolon]; rfl
      case pos                 => rfl
      case pos                 => rfl
      case pos hcomma          => rw [hcomma]
      case pos h               => cases h.2.2
      case neg                 => rfl

theorem run_literal (hq : p.quote = true) (hf : p.first = false) (hl : isLiteral p.escape l) :
    ∃ previous',
    p.run indent previous (l ++ s) = { p.write l with escape := false }.run indent previous' s := by
  induction l generalizing p previous
  case nil =>
    have he : p.escape = false := by simpa [isLiteral] using hl
    refine ⟨previous, ?_⟩
    simp only [Printer.write, List.append_nil, ← he, List.nil_append]
  case cons b l hi =>
    obtain ⟨escape, hl', hstep⟩ := @step_literal indent p previous l b hq hf hl
    obtain ⟨previous', hrun⟩ := @hi { p.write [b] with escape := escape } (some b) hq hf hl'
    refine ⟨previous', ?_⟩
    rw [List.cons_append, Printer.run, hstep, hrun]
    simp [Printer.write]

theorem prints_quoted (hl : Literal l) (he : Ends s ∨ s.head? = some colon) (hs : Prints indent s) :
    Prints indent (quoted l ++ s) := by
  intro previous p hp
  obtain ⟨b, hb, hline⟩ := @startLine_eq indent p
  have hstart : p.step indent previous quote =
      ⟨p.level, false, true, false, p.ss ++ (b ++ [quote])⟩ := by
    have hstep : p.step indent previous quote =
        { (p.startLine indent).write [quote] with
          quote := if (p.startLine indent).escape then (p.startLine indent).quote else !(p.startLine indent).quote
          escape := false } :=
      rfl
    rw [hstep, hline]
    simp [Printer.write, hp.quote, hp.escape]
  obtain ⟨previous', hrun⟩ := @run_literal indent ⟨p.level, false, true, false, p.ss ++ (b ++ [quote])⟩ (some quote)
    (quote :: s) l rfl rfl hl.written
  obtain ⟨t, ht, hlay⟩ := hs (some quote) ⟨p.level, false, false, false, p.ss ++ (b ++ [quote]) ++ l ++ [quote]⟩ ⟨rfl, rfl⟩
  refine ⟨b ++ (quoted l ++ t), ?_, ?_⟩
  · rw [quoted_append, Printer.run, hstart, hrun]
    refine ht.trans ?_
    simp [quoted]
  · have hlay := Layout.string hl he hlay
    rw [quoted_append] at hlay ⊢
    exact hlay.blank hb (by decide)

end Strings

end Printing

section Text

-- A number is written with digits, signs, points and letters.
structure Wordy (w : Bytes) : Prop where
  nonempty : w ≠ []
  chars    : ∀ c ∈ w, isWordChar c

structure WordyCast (L : LexicalCast) : Prop where
  ofInt64  : ∀ v, Wordy (L.ofInt64 v)
  ofUint64 : ∀ v, Wordy (L.ofUint64 v)
  ofDouble : ∀ v, Wordy (L.ofDouble v)

theorem isWordChar_digit {c : UInt8} (h : isDigit c) : isWordChar c :=
  decide_eq_true (.inl (decide_eq_true (.inl h)))

theorem wordy_ofInt (i : Int) : Wordy (Decimal.ofInt i) := by
  have hn := Decimal.numeral_ofNat i.natAbs
  have hchars : ∀ c ∈ Decimal.ofNat i.natAbs, isWordChar c := fun c hc => isWordChar_digit (hn.digits c hc)
  rw [Decimal.ofInt]
  split
  case isTrue  => exact ⟨List.cons_ne_nil _ _, List.forall_mem_cons.mpr ⟨by decide, hchars⟩⟩
  case isFalse => exact ⟨hn.nonempty, hchars⟩

-- There is nothing to escape in such a word.
theorem Wordy.literal {w : Bytes} (h : Wordy w) : Literal w := by
  have hplain : ∀ c, isWordChar c → isLiteral false [c] ∧ c ≠ 0xff := by
    decide +kernel
  refine ⟨?_, fun hm => (hplain _ (h.chars _ hm)).2 rfl⟩
  have hchars := h.chars
  clear h
  induction w
  case nil => rfl
  case cons c w hi =>
    obtain ⟨hc, hw⟩ := List.forall_mem_cons.mp hchars
    exact isLiteral_append (hplain c hc).1 (hi hw)

variable {L : LexicalCast} {format : OutputFormatting} {indent : UInt8} {s : Bytes}

-- A scalar is a word or a string literal.
inductive Scalar : Bytes → Prop
  | word {w : Bytes} (h : Wordy w) : Scalar w
  | string {l : Bytes} (h : Literal l) : Scalar (quoted l)

theorem Scalar.prints {w : Bytes} (h : Scalar w) (he : Ends s) (hs : Prints indent s) :
    Prints indent (w ++ s) := by
  cases h
  case word h    => exact prints_word h.nonempty h.chars he hs
  case string h  => exact prints_quoted h (.inl he) hs

theorem scalar_intToStream {i : Int} {asString : Bytes} (h : Wordy asString) :
    Scalar (intToStream format i asString) := by
  rw [intToStream]
  split
  case isTrue   => exact .string h.literal
  case isFalse  => exact .word (wordy_ofInt i)

theorem Scalar.head {w : Bytes} (h : Scalar w) : ∃ b q, w = b :: q ∧ b ≠ comma ∧ b ≠ colon := by
  cases h
  case string l _ => exact ⟨quote, l ++ [quote], rfl, by decide⟩
  case word h     =>
    obtain ⟨c, w, rfl⟩ := List.exists_cons_of_ne_nil h.nonempty
    have hc := h.chars c (List.mem_cons_self ..)
    refine ⟨c, w, rfl, ?_, ?_⟩
    all_goals
      rintro rfl
      exact absurd hc (by decide)

def isContainer : Variant → Bool
  | .array _ | .object _ => true
  | _                    => false

theorem wordy_words : ∀ w ∈ ["null", "true", "false"], Wordy (ascii w) := by
  intro w hw
  simp only [List.mem_cons, List.not_mem_nil, or_false] at hw
  rcases hw with rfl | rfl | rfl
  all_goals exact ⟨by decide, by decide +kernel⟩

theorem scalar_text (hL : WordyCast L) {v : Variant} (hv : isContainer v = false) :
    Scalar (text L format v) := by
  cases v
  case null     => exact .word (wordy_words "null" (by simp))
  case int64 i  => exact scalar_intToStream (hL.ofInt64 i)
  case uint64 i => exact scalar_intToStream (hL.ofUint64 i)
  case string s => exact .string (literal_escaped s)
  case blob     => exact .string (literal_escaped _)
  case array a  => cases hv
  case object o => cases hv
  case bool b   =>
    cases b
    case false => exact .word (wordy_words "false" (by simp))
    case true  => exact .word (wordy_words "true" (by simp))
  case double d =>
    rw [text]
    split
    case isTrue  => exact .string (hL.ofDouble d).literal
    case isFalse => exact .word (hL.ofDouble d)

-- What a value starts with.
theorem text_head (hL : WordyCast L) (v : Variant) :
    ∃ b q, text L format v = b :: q ∧ b ≠ comma ∧ b ≠ colon := by
  cases v
  case array a  => exact ⟨openBracket, elementsText L format a ++ [closeBracket], rfl, by decide⟩
  case object o => exact ⟨openBrace, entriesText L format o ++ [closeBrace], rfl, by decide⟩
  all_goals exact (scalar_text hL rfl).head

-- What stands between two elements or members.
theorem prints_separator {α : Type} (as : List α) (hs : Prints indent s) :
    Prints indent ((if as = [] then [] else [comma]) ++ s) := by
  split
  case isTrue  => exact hs
  case isFalse => exact prints_comma hs

theorem ends_separator {α : Type} {as : List α} {u : Bytes} (he : as = [] → Ends (u ++ s)) :
    Ends ((if as = [] then [] else [comma]) ++ u ++ s) := by
  split
  case isTrue h => exact he h
  case isFalse  => exact .inl rfl

theorem prints_elementsText {a : List Variant}
    (ha : ∀ v ∈ a, ∀ {s}, Ends s → Prints indent s → Prints indent (text L format v ++ s))
    (he : Ends s)
    (hs : Prints indent s) : Prints indent (elementsText L format a ++ s) := by
  induction a
  case nil => exact hs
  case cons v a hi =>
    obtain ⟨hv, ha⟩ := List.forall_mem_cons.mp ha
    have hends := @ends_separator s Variant a (elementsText L format a) (by rintro rfl; exact he)
    have hrest := prints_separator a (hi ha)
    rw [elementsText, List.append_assoc, List.append_assoc]
    rw [List.append_assoc] at hends
    exact hv hends hrest

theorem prints_entriesText (hL : WordyCast L) {o : List (Bytes × Variant)}
    (ho : ∀ e ∈ o, ∀ {s}, Ends s → Prints indent s → Prints indent (text L format e.2 ++ s))
    (he : Ends s)
    (hs : Prints indent s) : Prints indent (entriesText L format o ++ s) := by
  induction o
  case nil => exact hs
  case cons e o hi =>
    obtain ⟨hv, ho⟩ := List.forall_mem_cons.mp ho
    have hends := @ends_separator s _ o (entriesText L format o) (by rintro rfl; exact he)
    have hrest := prints_separator o (hi ho)
    rw [List.append_assoc] at hends
    have hvalue := hv hends hrest
    obtain ⟨b, q, hb, hne⟩ := @text_head L format hL e.2
    rw [hb, List.cons_append] at hvalue
    have hkey := prints_quoted (literal_escaped e.1) (.inr rfl) (prints_colon hne hvalue)
    rw [entriesText, hb]
    simpa only [List.append_assoc, List.singleton_append, List.cons_append, List.nil_append] using hkey

theorem prints_text (hL : WordyCast L) (v : Variant) (he : Ends s) (hs : Prints indent s) :
    Prints indent (text L format v ++ s) := by
  induction v using Variant.induct generalizing s
  case array a ha =>
    have hclose : Prints indent (closeBracket :: s) := prints_close (.inr rfl) hs
    have hends : Ends (closeBracket :: s) := .inr (.inl rfl)
    have hels := prints_elementsText (fun v hv _ => ha v hv) hends hclose
    rw [text, List.append_assoc, List.append_assoc]
    exact prints_open (.inr rfl) hels
  case object o ho =>
    have hclose : Prints indent (closeBrace :: s) := prints_close (.inl rfl) hs
    have hends : Ends (closeBrace :: s) := .inr (.inr rfl)
    have hels := prints_entriesText hL (fun e he _ => ho e he) hends hclose
    rw [text, List.append_assoc, List.append_assoc]
    exact prints_open (.inl rfl) hels
  all_goals exact (scalar_text hL rfl).prints he hs

-- The text of a variant is only laid out.
theorem layout_prettyPrint (hL : WordyCast L) {v : Variant}
    (hv : (text L format v).length < 2 ^ 32) :
    ∃ t, prettyPrint (text L format v) indent = some t ∧ Layout (text L format v) t := by
  have hp := @prints_text L format indent [] hL v trivial prints_nil
  rw [List.append_nil] at hp
  obtain ⟨t, ht, hl⟩ := hp none ⟨0, false, false, false, []⟩ ⟨rfl, rfl⟩
  exact ⟨t, by rw [prettyPrint_eq indent hv, ht, List.nil_append], hl⟩

end Text

end Json
