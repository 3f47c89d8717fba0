import FcModel.Io.Json.Unescape

-- Texts that differ in the white space between their tokens only.

namespace Json

open Ascii Utf8

section Literals

-- What the generator writes between quotes, from a place that may be just behind a backslash.
def isLiteral : (escape : Bool) → Bytes → Bool
  | escape, []    => !escape
  | false, b :: s => if b = backslash then isLiteral true s else 0x20 ≤ b ∧ b ≠ quote ∧ isLiteral false s
  | true, b :: s  => b ∈ ascii "\\\"ntru" ∧ isLiteral false s

structure Literal (l : Bytes) : Prop where
  written : isLiteral false l
  eof     : 0xff ∉ l

theorem isLiteral_append {escape : Bool} {l s : Bytes} (hl : isLiteral escape l)
    (hs : isLiteral false s) :
    isLiteral escape (l ++ s) := by
  induction l generalizing escape
  case nil =>
    cases escape
    case false => exact hs
    case true  => cases hl
  case cons b l hi =>
    cases escape
    case true =>
      have hl := of_decide_eq_true hl
      exact decide_eq_true ⟨hl.1, hi hl.2⟩
    case false =>
      rw [List.cons_append, isLiteral]
      rw [isLiteral] at hl
      split at hl
      case isTrue hb =>
        rw [if_pos hb]
        exact hi hl
      case isFalse hb =>
        have hl := of_decide_eq_true hl
        rw [if_neg hb]
        exact decide_eq_true ⟨hl.1, hl.2.1, hi hl.2.2⟩

theorem isLiteral_escapeChar : ∀ b, isLiteral false (escapeChar true b) := by
  decide +kernel

theorem isLiteral_flatMap_escapeChar (s : Bytes) :
    isLiteral false (s.flatMap (escapeChar true)) := by
  induction s
  case nil          => rfl
  case cons b s hi  => exact isLiteral_append (isLiteral_escapeChar b) hi

theorem isLiteral_escape {v : Nat} (hv : v < 256) : isLiteral false (escape v) := by
  have hall : ∀ v : Fin 256, isLiteral false (escape v) := by decide +kernel
  exact hall ⟨v, hv⟩

-- A byte that is no ASCII character does not follow a backslash.
theorem isLiteral_cons_of_le {b : UInt8} (hb : 128 ≤ b.toNat) {escape : Bool} {s : Bytes} :
    isLiteral escape (b :: s) = (!escape && isLiteral false s) := by
  have hne (a : UInt8) (ha : a.toNat < 128) : b ≠ a := fun he => by rw [he] at hb; omega
  cases escape
  case true =>
    have hmem : b ∉ ascii "\\\"ntru" := fun hm => by
      have hlt : ∀ a ∈ ascii "\\\"ntru", a.toNat < 128 := by decide +kernel
      exact absurd (hlt b hm) (by omega)
    simp only [isLiteral, hmem, false_and, decide_false, Bool.not_true, Bool.false_and]
  case false =>
    have hle : 0x20 ≤ b := UInt8.le_iff_toNat_le.mpr (le_trans (by decide) hb)
    rw [isLiteral, if_neg (hne backslash (by decide))]
    simp [hle, hne quote (by decide)]

theorem isLiteral_append_of_le {bs : Bytes} (hbs : ∀ b ∈ bs, 128 ≤ b.toNat) (hne : bs ≠ [])
    {escape : Bool} {s : Bytes} :
    isLiteral escape (bs ++ s) = (!escape && isLiteral false s) := by
  induction bs generalizing escape
  case nil => exact absurd rfl hne
  case cons b bs hi =>
    obtain ⟨hb, hbs⟩ := List.forall_mem_cons.mp hbs
    rw [List.cons_append, isLiteral_cons_of_le hb]
    cases bs
    case nil  => rfl
    case cons => rw [hi hbs (List.cons_ne_nil _ _), Bool.not_false, Bool.true_and]

theorem isLiteral_cons_congr {b : UInt8} {escape : Bool} {s t : Bytes}
    (hst : ∀ {escape}, isLiteral escape s → isLiteral escape t)
    (h : isLiteral escape (b :: s)) : isLiteral escape (b :: t) := by
  cases escape
  case true =>
    have h := of_decide_eq_true h
    exact decide_eq_true ⟨h.1, hst h.2⟩
  case false =>
    rw [isLiteral] at h ⊢
    split at h
    case isTrue hb =>
      rw [if_pos hb]
      exact hst h
    case isFalse hb =>
      have h := of_decide_eq_true h
      rw [if_neg hb]
      exact decide_eq_true ⟨h.1, h.2.1, hst h.2.2⟩

-- Escapes are made of ASCII characters, which are not pruned.
theorem isLiteral_of_prunes {s t : Bytes} (h : Prunes s t) {escape : Bool}
    (hs : isLiteral escape s) :
    isLiteral escape t := by
  induction h generalizing escape
  case nil => exact hs
  case drop b s t hb _ hi =>
    have hle : 128 ≤ b.toNat := by
      by_contra hlt
      obtain ⟨cs, hcs, -⟩ := @exists_encode_of_lt [b] (List.forall_mem_singleton.mpr (by omega))
      cases cs
      case nil => cases hcs
      case cons c cs => exact hb c (encode cs ++ s) (by rw [← List.append_assoc, ← encode_cons, ← hcs]; rfl)
    rw [isLiteral_cons_of_le hle, Bool.and_eq_true] at hs
    cases escape
    case true  => exact absurd hs.1 (by decide)
    case false => exact hi hs.2
  case char c s t _ hi =>
    by_cases hc : c.val.toNat < 128
    case pos =>
      have hno : ¬(0x80 ≤ c.val ∧ c.val ≤ 0x9f) := fun h => by
        have := (toNat_c1 h).1
        omega
      rw [pruneChar, if_neg hno]
      rw [utf8EncodeChar_of_lt hc] at hs ⊢
      exact isLiteral_cons_congr hi hs
    case neg =>
      have hle : ∀ b ∈ String.utf8EncodeChar c, 128 ≤ b.toNat := fun b => le_of_mem_utf8EncodeChar (by omega)
      rw [isLiteral_append_of_le hle (by simp), Bool.and_eq_true] at hs
      cases escape
      case true => exact absurd hs.1 (by decide)
      case false =>
        rw [pruneChar]
        split
        case isTrue h =>
          have := (toNat_c1 h).2
          exact isLiteral_append (isLiteral_escape (by omega)) (hi hs.2)
        case isFalse =>
          rw [isLiteral_append_of_le hle (by simp)]
          exact hi hs.2

theorem literal_escaped (s : Bytes) : Literal (escaped s) := by
  have hp := prunes_pruneInvalidUtf8 (s.flatMap (escapeChar true))
  rw [← escaped_eq_prune] at hp
  refine ⟨isLiteral_of_prunes hp (isLiteral_flatMap_escapeChar s), fun hmem => ?_⟩
  obtain ⟨cs, hcs, -⟩ := hp.valid
  rw [hcs, encode, List.mem_flatMap] at hmem
  obtain ⟨c, -, hc⟩ := hmem
  exact absurd (lt_of_mem_utf8EncodeChar hc) (by decide)

-- Such a string is read by all of the parsers.
theorem body_of_isLiteral {escape : Bool} {l : Bytes} (hl : isLiteral escape l) (heof : 0xff ∉ l) :
    ∃ t, Body PlainLiteral (if escape then backslash :: l else l) t := by
  induction l generalizing escape
  case nil =>
    cases escape
    case false => exact ⟨[], .nil⟩
    case true  => cases hl
  case cons b l hi =>
    obtain ⟨hb, heof⟩ := not_or.mp (List.mem_cons.not.mp heof)
    cases escape
    case true =>
      obtain ⟨t, ht⟩ := @hi false (of_decide_eq_true hl).2 heof
      exact ⟨_, .escape ht⟩
    case false =>
      rw [isLiteral] at hl
      split at hl
      case isTrue h =>
        obtain ⟨t, ht⟩ := @hi true hl heof
        rw [h]
        exact ⟨t, ht⟩
      case isFalse h =>
        have hl := of_decide_eq_true hl
        obtain ⟨t, ht⟩ := @hi false hl.2.2 heof
        exact ⟨_, .literal ⟨UInt8.le_iff_toNat_le.mp hl.1, Ne.symm hb, hl.2.1, h⟩ ht⟩

theorem Literal.body {l : Bytes} (h : Literal l) : ∃ t, Body PlainLiteral l t :=
  @body_of_isLiteral false l h.written h.eof

end Literals

section Layout

-- The characters of numbers and words.
def isWordChar (c : UInt8) : Bool :=
  isalnum c ∨ c = minus ∨ c = dot

-- What can follow a number or a word.
def Ends : Bytes → Prop
  | []     => True
  | c :: _ => c = comma ∨ c = closeBracket ∨ c = closeBrace

-- The second text is the first one with spaces and newlines between some of the tokens. There are
-- none at the end, nor before commas and colons.
inductive Layout : Bytes → Bytes → Prop
  | nil : Layout [] []
  | space {c b : UInt8} {s t : Bytes} (hc : c = space ∨ c = newline) (hb : b ≠ comma ∧ b ≠ colon)
      (h : Layout (b :: s) t) : Layout (b :: s) (c :: t)
  | punctuation {c : UInt8} {s t : Bytes} (hc : c ∈ [openBracket, closeBracket, openBrace, closeBrace, comma, colon])
      (h : Layout s t) : Layout (c :: s) (c :: t)
  | word {c : UInt8} {w s t : Bytes} (hw : ∀ b ∈ c :: w, isWordChar b) (hs : Ends s) (h : Layout s t) :
      Layout (c :: w ++ s) (c :: w ++ t)
  | string {l s t : Bytes} (hl : Literal l) (hs : Ends s ∨ s.head? = some colon) (h : Layout s t) :
      Layout (quoted l ++ s) (quoted l ++ t)

-- Where a character stands: in a string literal behind a backslash, elsewhere in a literal, or
-- outside.
inductive Place
  | outside
  | inside
  | escaped
deriving DecidableEq, Repr

def Place.next : Place → UInt8 → Place
  | .outside, c => if c = quote then .inside else .outside
  | .inside, c  => if c = backslash then .escaped else if c = quote then .outside else .inside
  | .escaped, _ => .inside

-- Spaces and newlines outside of string literals are deleted.
def strip : Place → Bytes → Bytes
  | _, []         => []
  | place, c :: s =>
    if place = .outside ∧ (c = space ∨ c = newline) then strip place s else c :: strip (place.next c) s

-- The string literals of a text, from a place where `l` has been read of one.
def literals : Place → (l : Bytes) → Bytes → List Bytes
  | _, _, []         => []
  | place, l, c :: s =>
    if place = .outside then literals (place.next c) [] s
    else if place.next c = .outside then l :: literals .outside [] s
    else literals (place.next c) (l ++ [c]) s

variable {s t l : Bytes}

theorem isLiteral_cons {escape : Bool} {b : UInt8} (h : isLiteral escape (b :: l)) :
    ∃ escape', isLiteral escape' l ∧
      Place.next (if escape then .escaped else .inside) b = if escape' then .escaped else .inside := by
  cases escape
  case true => exact ⟨false, (of_decide_eq_true h).2, rfl⟩
  case false =>
    rw [isLiteral] at h
    split at h
    case isTrue hb   => exact ⟨true, h, if_pos hb⟩
    case isFalse hb  =>
      have h := of_decide_eq_true h
      exact ⟨false, h.2.2, by simp [Place.next, hb, h.2.1]⟩

theorem place_ne_outside (escape : Bool) :
    (if escape then Place.escaped else Place.inside) ≠ .outside := by
  cases escape
  case false => exact nofun
  case true  => exact nofun

theorem strip_literal {escape : Bool} (hl : isLiteral escape l) :
    strip (if escape then .escaped else .inside) (l ++ quote :: t) = l ++ quote :: strip .outside t := by
  induction l generalizing escape
  case nil =>
    cases escape
    case false => rfl
    case true  => cases hl
  case cons b l hi =>
    obtain ⟨escape', hl', hnext⟩ := isLiteral_cons hl
    rw [List.cons_append, strip, if_neg fun h => place_ne_outside escape h.1, hnext, hi hl',
      List.cons_append]

theorem literals_literal {escape : Bool} (hl : isLiteral escape l) (k : Bytes) :
    literals (if escape then .escaped else .inside) k (l ++ quote :: t) = (k ++ l) :: literals .outside [] t := by
  induction l generalizing escape k
  case nil =>
    cases escape
    case false => rw [List.append_nil]; rfl
    case true  => cases hl
  case cons b l hi =>
    obtain ⟨escape', hl', hnext⟩ := isLiteral_cons hl
    rw [List.cons_append, literals, if_neg (place_ne_outside escape), hnext,
      if_neg (place_ne_outside escape'),
      hi hl', List.append_assoc, List.singleton_append]

-- No part of a text outside of literals is white space or a quote.
theorem strip_outside {w : Bytes} (hw : ∀ c ∈ w, c ≠ quote ∧ c ≠ space ∧ c ≠ newline) :
    strip .outside (w ++ t) = w ++ strip .outside t ∧
    literals .outside [] (w ++ t) = literals .outside [] t := by
  induction w
  case nil => exact ⟨rfl, rfl⟩
  case cons c w hi =>
    obtain ⟨⟨hq, hs, hn⟩, hw⟩ := List.forall_mem_cons.mp hw
    obtain ⟨hstrip, hlit⟩ := hi hw
    have hnext : Place.next .outside c = .outside := if_neg hq
    constructor
    · rw [List.cons_append, strip, if_neg fun h => h.2.elim hs hn, hnext, hstrip, List.cons_append]
    · rw [List.cons_append, literals, if_pos rfl, hnext, hlit]

theorem isWordChar_ne {c : UInt8} (h : isWordChar c) : c ≠ quote ∧ c ≠ space ∧ c ≠ newline := by
  refine ⟨?_, ?_, ?_⟩
  all_goals
    rintro rfl
    exact absurd h (by decide)

theorem punctuation_ne {c : UInt8}
    (h : c ∈ [openBracket, closeBracket, openBrace, closeBrace, comma, colon]) :
    ∀ b ∈ [c], b ≠ quote ∧ b ≠ space ∧ b ≠ newline := by
  have hall : ∀ a ∈ [openBracket, closeBracket, openBrace, closeBrace, comma, colon],
      a ≠ quote ∧ a ≠ space ∧ a ≠ newline := by
    decide +kernel
  intro b hb
  rw [List.mem_singleton] at hb
  exact hall b (hb ▸ h)

theorem quoted_append (l s : Bytes) : quoted l ++ s = quote :: (l ++ quote :: s) := by
  simp [quoted]

theorem strip_quoted (hl : Literal l) :
    strip .outside (quoted l ++ t) = quoted l ++ strip .outside t := by
  rw [quoted_append, quoted_append]
  exact congrArg (quote :: ·) (@strip_literal t l false hl.written)

theorem literals_quoted (hl : Literal l) :
    literals .outside [] (quoted l ++ t) = l :: literals .outside [] t := by
  rw [quoted_append]
  exact @literals_literal t l false hl.written []

namespace Layout

theorem strip_eq (h : Layout s t) : strip .outside t = s := by
  induction h
  case nil                   => rfl
  case space hc _ _ hi       => rw [strip, if_pos ⟨rfl, hc⟩, hi]
  case word hw _ _ hi        => rw [(strip_outside fun c hc => isWordChar_ne (hw c hc)).1, hi]
  case string hl _ _ hi      => rw [strip_quoted hl, hi]
  case punctuation c s t hc _ hi =>
    exact (@strip_outside t [c] (punctuation_ne hc)).1.trans (congrArg (c :: ·) hi)

theorem literals_eq (h : Layout s t) : literals .outside [] t = literals .outside [] s := by
  induction h
  case nil                   => rfl
  case string hl _ _ hi      => rw [literals_quoted hl, literals_quoted hl, hi]
  case word hw _ _ hi        =>
    have hw := fun c hc => isWordChar_ne (hw c hc)
    rw [(strip_outside hw).2, (strip_outside hw).2, hi]
  case punctuation c s t hc _ hi =>
    have hw (t : Bytes) := (@strip_outside t [c] (punctuation_ne hc)).2
    exact (hw t).trans (hi.trans (hw s).symm)
  case space c b s t hc _ _ hi =>
    have hnext : Place.next .outside c = .outside := by
      rcases hc with rfl | rfl
      case inl => rfl
      case inr => rfl
    rw [literals, if_pos rfl, hnext, hi]

end Layout

end Layout

end Json
