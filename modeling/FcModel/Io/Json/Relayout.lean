import FcModel.Io.Json.Pretty
import FcModel.Io.Json.Termination

-- The parsers read a text that is laid out in the same way.

namespace Json

open Ascii Utf8

variable {s t : Bytes} {c : UInt8}

namespace Layout

-- What a text starts with that is not laid out.
theorem head_ne (h : Layout (c :: s) t) : isSpace c = false ∧ c ≠ 0 := by
  generalize hu : c :: s = u at h
  induction h
  case nil => cases hu
  case space hi => exact hi hu
  case punctuation d s t hd _ _ =>
    have hall : ∀ a ∈ [openBracket, closeBracket, openBrace, closeBrace, comma, colon], isSpace a = false ∧ a ≠ 0 := by
      decide +kernel
    cases hu
    exact hall c hd
  case word d w s t hw _ _ _ =>
    cases hu
    have hc := hw c (List.mem_cons_self ..)
    have hall : ∀ a ∈ [Ascii.space, tab, newline, carriageReturn, 0], isWordChar a = false := by decide +kernel
    have hne : ∀ a ∈ [Ascii.space, tab, newline, carriageReturn, 0], c ≠ a := fun a ha he => by
      rw [he, hall a ha] at hc
      cases hc
    simp only [List.forall_mem_cons] at hne
    simp [isSpace, hne]
  case string l s t _ _ _ _ =>
    rw [quoted_append] at hu
    cases hu
    decide

theorem eq_nil (h : Layout [] t) : t = [] := by
  generalize hs : ([] : Bytes) = s at h
  cases h
  case nil          => rfl
  case space        => cases hs
  case punctuation  => cases hs
  case word         => cases hs
  case string       => rw [quoted_append] at hs; cases hs

-- Behind the blanks at its start, the text starts in the same way.
theorem skip (h : Layout s t) : ∃ w t', t = w ++ t' ∧ Blank w ∧ Layout s t' ∧ s.head? = t'.head? ∧
    (w ≠ [] → s.head? ≠ some comma) := by
  induction h
  case nil => exact ⟨[], [], rfl, List.forall_mem_nil _, .nil, rfl, absurd rfl⟩
  case space c b s t hc hb _ hi =>
    obtain ⟨w, t', rfl, hw, hl, hh, -⟩ := hi
    exact ⟨c :: w, t', rfl, List.forall_mem_cons.mpr ⟨hc, hw⟩, hl, hh, fun _ he => hb.1 (Option.some.inj he)⟩
  case punctuation c s t hc h _ =>
    exact ⟨[], c :: t, rfl, List.forall_mem_nil _, .punctuation hc h, rfl, absurd rfl⟩
  case word c w s t hw hs h _ =>
    exact ⟨[], c :: w ++ t, rfl, List.forall_mem_nil _, .word hw hs h, rfl, absurd rfl⟩
  case string l s t hl hs h _ =>
    exact ⟨[], quoted l ++ t, rfl, List.forall_mem_nil _, .string hl hs h, rfl, absurd rfl⟩

end Layout

-- The texts from a place on that may be in the middle of a word.
def Within (s t : Bytes) : Prop :=
  ∃ w s₀ t₀, s = w ++ s₀ ∧ t = w ++ t₀ ∧ (∀ c ∈ w, isWordChar c) ∧ Ends s₀ ∧ Layout s₀ t₀

theorem Within.layout (h : Within s t) : Layout s t := by
  obtain ⟨w, s₀, t₀, rfl, rfl, hw, hs, hl⟩ := h
  cases w
  case nil  => exact hl
  case cons => exact .word hw hs hl

theorem Within.cons (hc : isWordChar c) (h : Within s t) : Within (c :: s) (c :: t) := by
  obtain ⟨w, s₀, t₀, rfl, rfl, hw, hs, hl⟩ := h
  exact ⟨c :: w, s₀, t₀, rfl, rfl, List.forall_mem_cons.mpr ⟨hc, hw⟩, hs, hl⟩

-- What follows where the two texts start with the same character.
inductive Starts : UInt8 → Bytes → Bytes → Prop
  | punctuation {c : UInt8} {s t : Bytes}
  (hc : c ∈ [openBracket, closeBracket, openBrace, closeBrace, comma, colon])
      (h : Layout s t) : Starts c s t
  | word {c : UInt8} {s t : Bytes} (hc : isWordChar c) (h : Within s t) : Starts c s t
  | string {l s t : Bytes} (hl : Literal l) (hs : Ends s ∨ s.head? = some colon) (h : Layout s t) :
      Starts quote (l ++ quote :: s) (l ++ quote :: t)

theorem Layout.starts (h : Layout (c :: s) (c :: t)) : Starts c s t := by
  have hspace := h.head_ne.1
  generalize hu : c :: s = u at h
  generalize hv : c :: t = v at h
  cases h
  case nil                => cases hu
  case space d b s t hd _ _ =>
    cases hv
    rcases hd with rfl | rfl
    all_goals cases hspace
  case punctuation hc h   =>
    cases hu
    cases hv
    exact .punctuation hc h
  case word w s t hw hs h =>
    cases hu
    cases hv
    exact .word (hw c (List.mem_cons_self ..)) ⟨w, s, t, rfl, rfl, fun b hb => hw b (List.mem_cons_of_mem _ hb), hs, h⟩
  case string hl hs h     =>
    rw [quoted_append] at hu hv
    cases hu
    cases hv
    exact .string hl hs h

-- The streams of the two texts.
structure Laid (R : Bytes → Bytes → Prop) (x y : Stringstream) : Prop where
  texts : R x.unread y.unread
  eof   : x.eof = y.eof
  seen  : x.unread ≠ [] → x.eof = false

-- Nothing has to be skipped.
def Tight (s t : Bytes) : Prop :=
  Layout s t ∧ s.head? = t.head?

-- What follows a number or a word.
inductive Stops : Bytes → Bytes → Prop
  | nil : Stops [] []
  | comma {s t : Bytes} (h : Layout s t) : Stops (comma :: s) (comma :: t)
  | close {c : UInt8} {s t : Bytes} (hc : c = closeBracket ∨ c = closeBrace) (h : Layout (c :: s) (c :: t)) :
      Stops (c :: s) (c :: t)
  | blank {c d : UInt8} {s t : Bytes} (hc : c = closeBracket ∨ c = closeBrace) (hd : d = space ∨ d = newline)
      (h : Layout (c :: s) t) : Stops (c :: s) (d :: t)

theorem Layout.stops (h : Layout s t) (he : Ends s) : Stops s t := by
  have hword (c : UInt8) (hc : isWordChar c) : ¬(c = Ascii.comma ∨ c = closeBracket ∨ c = closeBrace) := by
    rintro (rfl | rfl | rfl)
    all_goals cases hc
  cases h
  case nil                    => exact .nil
  case word hw _ _            => exact absurd he (hword _ (hw _ (List.mem_cons_self ..)))
  case string hl hs h         => exact absurd he (by rw [quoted_append]; exact not_or.mpr (by decide))
  case space hc hb h          => exact .blank (he.resolve_left hb.1) hc h
  case punctuation c s t hc h =>
    rcases he with rfl | he
    case inl => exact .comma h
    case inr => exact .close he (.punctuation hc h)

section Words

variable {β : Type} {k k' : UInt8 → Parser β} {e : Bool} {Q : Stringstream → Stringstream → Prop}
    {fuel fuel' : Nat}

theorem mimics_peekChar (h : Mimics Error.Limit (k c) (k' c) ⟨c :: s, e⟩ ⟨c :: t, e⟩ Q) :
    Mimics Error.Limit (peekChar >>= k) (peekChar >>= k') ⟨c :: s, e⟩ ⟨c :: t, e⟩ Q :=
  h.congr rfl rfl

theorem mimics_peek {k k' : Option UInt8 → Parser β}
    (h : Mimics Error.Limit (k (some c)) (k' (some c)) ⟨c :: s, e⟩ ⟨c :: t, e⟩ Q) :
    Mimics Error.Limit (peek >>= k) (peek >>= k') ⟨c :: s, e⟩ ⟨c :: t, e⟩ Q :=
  h.congr rfl rfl

theorem mimics_getc {k k' : Option UInt8 → Parser β}
    (h : Mimics Error.Limit (k (some c)) (k' (some c)) ⟨s, e⟩ ⟨t, e⟩ Q) :
    Mimics Error.Limit (getc >>= k) (getc >>= k') ⟨c :: s, e⟩ ⟨c :: t, e⟩ Q :=
  h.congr rfl rfl

theorem mimics_getChar (h : Mimics Error.Limit (k c) (k' c) ⟨s, e⟩ ⟨t, e⟩ Q) :
    Mimics Error.Limit (getChar >>= k) (getChar >>= k') ⟨c :: s, e⟩ ⟨c :: t, e⟩ Q :=
  h.congr rfl rfl

theorem limit_fuel : Error.fuel.Limit :=
  .inl rfl

theorem laid {R : Bytes → Bytes → Prop} (h : R s t) (he : s ≠ [] → e = false) :
    Laid R ⟨s, e⟩ ⟨t, e⟩ :=
  ⟨h, rfl, he⟩

-- The characters of words are those of tokens for both parsers.
theorem isWordChar_cases (h : isWordChar c) : c ≠ backslash ∧ c ≠ tab ∧ c ≠ space ∧ c ≠ newline ∧
    c ≠ 0 ∧
    isTokenChar c ∧ Relaxed.isDelimiter c = false ∧ Relaxed.isTokenChar c := by
  have hall : ∀ c, isWordChar c → c ≠ backslash ∧ c ≠ tab ∧ c ≠ space ∧ c ≠ newline ∧ c ≠ 0 ∧
      isTokenChar c ∧ Relaxed.isDelimiter c = false ∧ Relaxed.isTokenChar c := by
    decide +kernel
  exact hall c h

theorem mimics_stringFromToken_go (h : Within s t) (he : s ≠ [] → e = false) {token : Bytes} :
    Mimics Error.Limit (stringFromToken.go fuel token) (stringFromToken.go fuel' token) ⟨s, e⟩ ⟨t, e⟩ (Laid Layout) := by
  induction fuel' generalizing fuel token s t
  case zero => exact .of_bad rfl limit_fuel
  case succ fuel' hi =>
    cases fuel
    case zero => exact .throw
    case succ fuel =>
      obtain ⟨w, s₀, t₀, rfl, rfl, hw, hs, hl⟩ := h
      cases w
      case cons c w =>
        obtain ⟨hc, hw⟩ := List.forall_mem_cons.mp hw
        obtain ⟨h₁, h₂, h₃, h₄, h₅, h₆, -⟩ := isWordChar_cases hc
        have hstep (fuel : Nat) (u : Bytes) : (stringFromToken.go (fuel + 1) token).run ⟨c :: u, e⟩ =
            (stringFromToken.go fuel (token ++ [c])).run ⟨u, e⟩ := by
          rw [he (by simp)]
          simp [stringFromToken.go, EStateM.run_bind, h₁, h₂, h₃, h₄, h₅, h₆]
        have hrest : Within (w ++ s₀) (w ++ t₀) := ⟨w, s₀, t₀, rfl, rfl, hw, hs, hl⟩
        exact (hi hrest fun _ => he (by simp)).congr (hstep fuel _) (hstep fuel' _)
      case nil =>
        cases hl.stops hs
        case nil =>
          cases e
          case false => exact .of_run rfl rfl (laid hl (absurd rfl))
          case true  => exact .of_run rfl rfl (laid hl (absurd rfl))
        case comma h =>
          cases he (by simp)
          exact .of_run rfl rfl (laid hl fun _ => rfl)
        case close hc h =>
          cases he (by simp)
          rcases hc with rfl | rfl
          all_goals exact .of_run rfl rfl (laid hl fun _ => rfl)
        case blank hc hd h =>
          cases he (by simp)
          rcases hc with rfl | rfl <;> rcases hd with rfl | rfl
          all_goals exact .of_run rfl rfl (laid h fun _ => rfl)

theorem mimics_stringFromToken (h : Within s t) (he : s ≠ [] → e = false) :
    Mimics Error.Limit (stringFromToken fuel) (stringFromToken fuel') ⟨s, e⟩ ⟨t, e⟩ (Laid Layout) := by
  cases s
  case nil =>
    cases h.layout.eq_nil
    exact (@mimics_stringFromToken_go _ _ true fuel fuel' h (absurd rfl) []).congr rfl rfl
  case cons c s =>
    cases t
    case nil =>
      obtain ⟨w, s₀, t₀, hs, ht, -, he₀, hl⟩ := h
      obtain ⟨rfl, rfl⟩ := List.append_eq_nil_iff.mp ht.symm
      rw [List.nil_append] at hs
      rw [← hs] at hl he₀
      cases hl.stops he₀
    case cons d t => exact (mimics_stringFromToken_go h he).congr rfl rfl

theorem mimics_numberFromStream_go (h : Within s t) (he : s ≠ [] → e = false) {ss : Bytes}
    {dot : Bool} :
    Mimics Error.Limit (numberFromStream.go fuel ss dot) (numberFromStream.go fuel' ss dot) ⟨s, e⟩ ⟨t, e⟩
      (Laid Layout) := by
  induction fuel' generalizing fuel ss dot s t
  case zero => exact .of_bad rfl limit_fuel
  case succ fuel' hi =>
    cases fuel
    case zero => exact .throw
    case succ fuel =>
      have hlay := h.layout
      obtain ⟨w, s₀, t₀, rfl, rfl, hw, hs, hl⟩ := h
      cases w
      case cons c w =>
        obtain ⟨hc, hw⟩ := List.forall_mem_cons.mp hw
        have hrest : Within (w ++ s₀) (w ++ t₀) := ⟨w, s₀, t₀, rfl, rfl, hw, hs, hl⟩
        have hword : Within (c :: w ++ s₀) (c :: w ++ t₀) :=
          ⟨c :: w, s₀, t₀, rfl, rfl, List.forall_mem_cons.mpr ⟨hc, hw⟩, hs, hl⟩
        have hgo {ss : Bytes} {dot : Bool} := @hi (w ++ s₀) (w ++ t₀) fuel hrest (fun _ => he (by simp)) ss dot
        have htoken := @mimics_stringFromToken _ _ e fuel fuel' hword he
        refine mimics_peekChar (.ite (fun _ => .ite (fun _ => .throw) fun _ => mimics_getChar hgo) fun _ =>
          .ite (fun _ => mimics_getChar hgo) fun _ => .ite (fun _ => .pure (laid hlay he)) fun _ =>
          .ite (fun _ => .bind htoken fun _ _ _ h => .pure h) fun _ => .pure (laid hlay he))
      case nil =>
        cases hl.stops hs
        case nil => exact .of_run rfl rfl (laid hl (absurd rfl))
        case comma h => exact .of_run rfl rfl (laid hl he)
        case close hc h =>
          rcases hc with rfl | rfl
          all_goals exact .of_run rfl rfl (laid hl he)
        case blank hc hd h =>
          rcases hc with rfl | rfl <;> rcases hd with rfl | rfl
          all_goals exact .of_run rfl rfl (laid hl he)

theorem mimics_tokenFromStream_go (h : Within s t) (he : s ≠ [] → e = false) {ss : Bytes} :
    Mimics Error.Limit (tokenFromStream.go fuel ss) (tokenFromStream.go fuel' ss) ⟨s, e⟩ ⟨t, e⟩ (Laid Within) := by
  induction fuel' generalizing fuel ss s t
  case zero => exact .of_bad rfl limit_fuel
  case succ fuel' hi =>
    cases fuel
    case zero => exact .throw
    case succ fuel =>
      have hsame := h
      obtain ⟨w, s₀, t₀, rfl, rfl, hw, hs, hl⟩ := h
      cases w
      case cons c w =>
        obtain ⟨hc, hw⟩ := List.forall_mem_cons.mp hw
        have hrest : Within (w ++ s₀) (w ++ t₀) := ⟨w, s₀, t₀, rfl, rfl, hw, hs, hl⟩
        exact mimics_peekChar (.ite (fun _ => mimics_getChar (hi hrest fun _ => he (by simp))) fun _ =>
          .pure (laid hsame he))
      case nil =>
        cases hl.stops hs
        case nil => exact .of_run rfl rfl (laid hsame (absurd rfl))
        case comma h => exact .of_run rfl rfl (laid hsame he)
        case close hc h =>
          rcases hc with rfl | rfl
          all_goals exact .of_run rfl rfl (laid hsame he)
        case blank hc hd h =>
          rcases hc with rfl | rfl <;> rcases hd with rfl | rfl
          all_goals exact .of_run rfl rfl (laid hsame he)

theorem mimics_tokenFromStream (h : Within s t) (he : s ≠ [] → e = false) :
    Mimics Error.Limit (tokenFromStream fuel) (tokenFromStream fuel') ⟨s, e⟩ ⟨t, e⟩ (Laid Layout) := by
  refine .bind (mimics_tokenFromStream_go h he) fun str u v huv => ?_
  obtain ⟨htext, heof, hseen⟩ := huv
  obtain ⟨s, e⟩ := u
  obtain ⟨t, e'⟩ := v
  cases heof
  have hsame := laid htext.layout hseen
  exact .ite (fun _ => .pure hsame) fun _ => .ite (fun _ => .pure hsame) fun _ => .ite (fun _ => .pure hsame) fun _ =>
    .bind (mimics_stringFromToken htext hseen) fun _ _ _ h => .pure h

theorem mimics_converted {α : Type} {v : Option α} {m : String} {x y : α → Parser Variant}
    {u u' : Stringstream}
    (h : ∀ a, Mimics Error.Limit (x a) (y a) u u' Q) :
    Mimics Error.Limit (converted v m >>= x) (converted v m >>= y) u u' Q := by
  cases v
  case none   => exact .of_not_ok nofun
  case some a => exact (h a).congr rfl rfl

theorem mimics_numberResult {L : LexicalCast} {stringDoubles neg : Bool} {r : Scanned}
    {u v : Stringstream} (h : Q u v) :
    Mimics Error.Limit (numberFromStream.result L stringDoubles neg r) (numberFromStream.result L stringDoubles neg r)
      u v Q := by
  cases r
  case token str => exact .pure h
  case number str dot =>
    exact .ite (fun _ => .throw) fun _ => .ite (fun _ => .ite (fun _ => .pure h) fun _ =>
      mimics_converted fun _ => .pure h) fun _ => .ite (fun _ => mimics_converted fun _ => .pure h) fun _ =>
      mimics_converted fun _ => .pure h

-- At least one character is read before the loop or in it.
theorem mimics_numberFromStream {L : LexicalCast} {stringDoubles : Bool} (hc : isWordChar c)
    (h : Within s t)
    (he : c :: s ≠ [] → e = false) :
    Mimics Error.Limit (numberFromStream L stringDoubles fuel) (numberFromStream L stringDoubles fuel') ⟨c :: s, e⟩
      ⟨c :: t, e⟩ (Laid Layout) := by
  refine mimics_peek (.ite (fun _ => mimics_getChar ?_) fun _ => ?_)
  · exact .bind (mimics_numberFromStream_go h fun _ => he (by simp)) fun _ _ _ h => mimics_numberResult h
  · exact .bind (mimics_numberFromStream_go (h.cons hc) he) fun _ _ _ h => mimics_numberResult h

namespace Relaxed

theorem mimics_tokenFromStream_go (h : Within s t) (he : s ≠ [] → e = false) {token : Bytes} :
    Mimics Error.Limit (tokenFromStream.go fuel token) (tokenFromStream.go fuel' token) ⟨s, e⟩ ⟨t, e⟩ (Laid Layout) := by
  induction fuel' generalizing fuel token s t
  case zero => exact .of_bad rfl limit_fuel
  case succ fuel' hi =>
    cases fuel
    case zero => exact .throw
    case succ fuel =>
      obtain ⟨w, s₀, t₀, rfl, rfl, hw, hs, hl⟩ := h
      cases w
      case cons c w =>
        obtain ⟨hc, hw⟩ := List.forall_mem_cons.mp hw
        obtain ⟨h₁, -, -, -, -, -, h₂, h₃⟩ := isWordChar_cases hc
        have hstep (fuel : Nat) (u : Bytes) : (tokenFromStream.go (fuel + 1) token).run ⟨c :: u, e⟩ =
            (tokenFromStream.go fuel (token ++ [c])).run ⟨u, e⟩ := by
          simp [tokenFromStream.go, EStateM.run_bind, h₁, h₂, h₃]
        have hrest : Within (w ++ s₀) (w ++ t₀) := ⟨w, s₀, t₀, rfl, rfl, hw, hs, hl⟩
        exact (hi hrest fun _ => he (by simp)).congr (hstep fuel _) (hstep fuel' _)
      case nil =>
        cases hl.stops hs
        case nil => exact .of_run rfl rfl (laid hl (absurd rfl))
        case comma h => exact .of_run rfl rfl (laid h fun _ => he (by simp))
        case close hc h =>
          rcases hc with rfl | rfl
          all_goals exact .of_run rfl rfl (laid hl he)
        case blank hc hd h =>
          rcases hc with rfl | rfl <;> rcases hd with rfl | rfl
          all_goals exact .of_run rfl rfl (laid h he)

-- What is peeked at behind a character of a word is no quote.
theorem mimics_peekChar_within (h : Within s t) (he : s ≠ [] → e = false)
    (hk : ∀ c d e, (c ≠ quote ∧ c ≠ apostrophe) → (d ≠ quote ∧ d ≠ apostrophe) → (s ≠ [] → e = false) →
      Mimics Error.Limit (k c) (k' d) ⟨s, e⟩ ⟨t, e⟩ Q) :
    Mimics Error.Limit (peekChar >>= k) (peekChar >>= k') ⟨s, e⟩ ⟨t, e⟩ Q := by
  obtain ⟨w, s₀, t₀, rfl, rfl, hw, hs, hl⟩ := h
  cases w
  case cons c w =>
    have hc : c ≠ quote ∧ c ≠ apostrophe := by
      have hc := hw c (List.mem_cons_self ..)
      constructor
      all_goals
        rintro rfl
        cases hc
    exact mimics_peekChar (hk c c e hc hc he)
  case nil =>
    cases hl.stops hs
    case nil => exact (hk 0xff 0xff true (by decide) (by decide) (absurd rfl)).congr rfl rfl
    case comma => exact mimics_peekChar (hk comma comma e (by decide) (by decide) he)
    case close hc h =>
      rcases hc with rfl | rfl
      all_goals exact mimics_peekChar (hk _ _ e (by decide) (by decide) he)
    case blank hc hd h =>
      rcases hc with rfl | rfl <;> rcases hd with rfl | rfl
      all_goals exact (hk _ _ e (by decide) (by decide) he).congr rfl rfl

theorem mimics_tokenFromStream (h : Within s t) (he : s ≠ [] → e = false) :
    Mimics Error.Limit (tokenFromStream fuel) (tokenFromStream fuel') ⟨s, e⟩ ⟨t, e⟩ (Laid Layout) :=
  mimics_peekChar_within h he fun _ _ _ _ _ he => mimics_tokenFromStream_go h he

-- A key that is not quoted.
theorem mimics_stringFromStream_word {strict : Bool} (hc : isWordChar c) (h : Within s t)
    (he : c :: s ≠ [] → e = false) :
    Mimics Error.Limit (stringFromStream strict fuel) (stringFromStream strict fuel') ⟨c :: s, e⟩ ⟨c :: t, e⟩
      (Laid Layout) := by
  have hne : ¬(c = apostrophe ∨ c = quote) := by
    rintro (rfl | rfl)
    all_goals cases hc
  refine mimics_peekChar (.ite (fun _ => .throw) fun _ => .ite (fun h => absurd h hne) fun _ =>
    .ite (fun _ => .throw) fun _ => .ite (fun _ => mimics_getc ?_) fun _ => ?_)
  · refine mimics_peekChar_within h (fun _ => he (by simp)) fun a b e ha hb he => ?_
    rw [if_neg (not_or.mpr ha), if_neg (not_or.mpr hb)]
    exact .ite (fun _ => .throw) fun _ => .bind (mimics_tokenFromStream h he) fun _ _ _ h => .pure h
  · refine .ite (fun _ => .ite (fun _ => .throw) fun _ => mimics_tokenFromStream (h.cons hc) he) fun _ =>
      .ite (fun _ => .throw) fun _ => .throw

end Relaxed

end Words

section Strings

variable {l : Bytes} {fuel fuel' : Nat}

theorem approx_stringFromStream (hf : fuel ≤ fuel') :
    Approx Error.Limit (stringFromStream fuel) (stringFromStream fuel') :=
  .bind (.refl _) fun _ => .ite (fun _ => .refl _) fun _ => .bind (.refl _) fun _ =>
    approx_stringFromStream_go ignores_limit hf

theorem mimics_stringFromStream (hl : Literal l) (h : Layout s t) :
    Mimics Error.Limit (stringFromStream fuel) (stringFromStream fuel') ⟨quote :: (l ++ quote :: s), false⟩
      ⟨quote :: (l ++ quote :: t), false⟩ (Laid Layout) := by
  obtain ⟨body, hbody⟩ := hl.body
  have hrun (fuel : Nat) (u : Bytes) : (stringFromStream (l.length + 1 + fuel)).run ⟨quote :: (l ++ quote :: u), false⟩ =
      .ok body ⟨u, false⟩ := by
    have hgo := @stringFromStream_go_run (l.length + 1 + fuel) [] l body u hbody (by omega)
    simpa [stringFromStream] using hgo
  exact .of_approx (approx_stringFromStream (Nat.le_add_left ..)) (approx_stringFromStream (Nat.le_add_left ..))
    (.of_run (hrun fuel s) (hrun fuel' t) (laid h fun _ => rfl))

theorem Layout.ne_quote (h : Layout s t) (hs : Ends s ∨ s.head? = some colon) :
    s.head? ≠ some quote ∧ t.head? ≠ some quote := by
  rcases hs with hs | hs
  case inl =>
    cases h.stops hs
    case nil   => exact ⟨nofun, nofun⟩
    case comma => exact ⟨nofun, nofun⟩
    case close hc _ =>
      rcases hc with rfl | rfl
      all_goals exact ⟨nofun, nofun⟩
    case blank hc hd _ =>
      rcases hc with rfl | rfl <;> rcases hd with rfl | rfl
      all_goals exact ⟨nofun, nofun⟩
  case inr =>
    refine ⟨by rw [hs]; nofun, ?_⟩
    cases h
    case nil                 => cases hs
    case punctuation         => rw [List.head?_cons] at hs ⊢; rw [hs]; nofun
    case word                => rw [List.cons_append, List.head?_cons] at hs ⊢; rw [hs]; nofun
    case string              => rw [quoted_append] at hs; cases hs
    case space hb _          => exact absurd (Option.some.inj hs) hb.2

theorem Relaxed.mimics_stringFromStream {strict : Bool} (hl : Literal l)
    (hs : Ends s ∨ s.head? = some colon) (h : Layout s t) :
    Mimics Error.Limit (Relaxed.stringFromStream strict fuel) (Relaxed.stringFromStream strict fuel')
      ⟨quote :: (l ++ quote :: s), false⟩ ⟨quote :: (l ++ quote :: t), false⟩ (Laid Layout) := by
  obtain ⟨body, hbody⟩ := hl.body
  obtain ⟨hs, ht⟩ := h.ne_quote hs
  have hrun (u : Bytes) (hu : u.head? ≠ some quote) :
      Leaves u body ((Relaxed.stringFromStream strict (fuel + fuel' + l.length + 1)).run
        ⟨quote :: (l ++ quote :: u), false⟩) :=
    Relaxed.quoteStringFromStream_run hbody hu (by omega)
  obtain ⟨e, hx, he⟩ := hrun s hs
  obtain ⟨e', hy, he'⟩ := hrun t ht
  have heof : e = e' := by
    by_cases hnil : s = []
    case pos =>
      -- Then both have seen the same text.
      subst hnil
      cases h.eq_nil
      rw [hx] at hy
      cases hy
      rfl
    case neg =>
      obtain ⟨w, t', rfl, -, -, hh, -⟩ := h.skip
      have hne : w ++ t' ≠ [] := fun hn => hnil (by
        rw [(List.append_eq_nil_iff.mp hn).2] at hh
        exact List.head?_eq_none_iff.mp hh)
      rw [he hnil, he' hne]
  have happrox {n : Nat} (hn : n ≤ fuel + fuel' + l.length + 1) :=
    @Relaxed.approx_stringFromStream Error.Limit n (fuel + fuel' + l.length + 1) strict ignores_limit hn
  exact .of_approx (happrox (by omega)) (happrox (by omega)) (.of_run hx hy ⟨h, heof, he⟩)

end Strings

section Containers

variable {β : Type} {fuel fuel' : Nat} {u v : Stringstream} {Q : Stringstream → Stringstream → Prop}

theorem Laid.tight (h : Laid Tight u v) : Laid Layout u v :=
  ⟨h.texts.1, h.eof, h.seen⟩

-- The streams are at the end, or at the same character.
theorem Laid.cases (h : Laid Tight u v) : (∃ e, u = ⟨[], e⟩ ∧ v = ⟨[], e⟩) ∨
    ∃ c s t, u = ⟨c :: s, false⟩ ∧ v = ⟨c :: t, false⟩ ∧ Starts c s t := by
  obtain ⟨s, e⟩ := u
  obtain ⟨t, e'⟩ := v
  obtain ⟨⟨hl, hh⟩, heof, hseen⟩ := h
  simp only at hl hh heof hseen
  subst heof
  cases s
  case nil =>
    cases hl.eq_nil
    exact .inl ⟨e, rfl, rfl⟩
  case cons c s =>
    cases t
    case nil => cases hh
    case cons d t =>
      cases hh
      cases hseen (List.cons_ne_nil _ _)
      exact .inr ⟨c, s, t, rfl, rfl, hl.starts⟩

theorem Starts.head_ne (h : Starts c s t) : isSpace c = false ∧ c ≠ 0 := by
  have hall : ∀ a ∈ [openBracket, closeBracket, openBrace, closeBrace, comma, colon], isSpace a = false ∧ a ≠ 0 := by
    decide +kernel
  cases h
  case punctuation hc _ => exact hall c hc
  case string           => decide
  case word hc h        => exact (h.cons hc).layout.head_ne

theorem skipWhiteSpace_tight (h : Laid Tight u v) {fuel : Nat} :
    ∃ e, ((skipWhiteSpace (fuel + 1)).run u = .ok false ⟨u.unread, e⟩ ∧
      (skipWhiteSpace (fuel + 1)).run v = .ok false ⟨v.unread, e⟩) ∧ (u.unread ≠ [] →
      e = false) := by
  obtain ⟨e, rfl, rfl⟩ | ⟨c, s, t, rfl, rfl, hst⟩ := h.cases
  case inl => exact ⟨true, ⟨rfl, rfl⟩, absurd rfl⟩
  case inr =>
    obtain ⟨hspace, hzero⟩ := hst.head_ne
    have hrun (w : Bytes) := @skipWhiteSpace_run (fuel + 1) c w [] false (List.forall_mem_nil _) hspace hzero (by simp)
    exact ⟨false, ⟨hrun s, hrun t⟩, fun _ => rfl⟩

theorem mimics_skip_tight {k k' : Bool → Parser β} (h : Laid Tight u v)
    (hk : ∀ u' v', Laid Tight u' v' → Mimics Error.Limit (k false) (k' false) u' v' Q) :
    Mimics Error.Limit (skipWhiteSpace fuel >>= k) (skipWhiteSpace fuel' >>= k') u v Q := by
  have happrox {n : Nat} (k : Bool → Parser β) (hn : n ≤ fuel + fuel' + 1) :
      Approx Error.Limit (skipWhiteSpace n >>= k) (skipWhiteSpace (fuel + fuel' + 1) >>= k) :=
    .bind (approx_skipWhiteSpace ignores_limit hn) fun _ => .refl _
  obtain ⟨e, ⟨hx, hy⟩, he⟩ := @skipWhiteSpace_tight u v h (fuel + fuel')
  refine .of_approx (happrox k (by omega)) (happrox k' (by omega)) ?_
  refine (hk ⟨u.unread, e⟩ ⟨v.unread, e⟩ ⟨h.texts, rfl, he⟩).congr ?_ ?_
  · rw [EStateM.run_bind, hx]
  · rw [EStateM.run_bind, hy]

theorem Blank.ws {w : Bytes} (h : Blank w) : Ws w := by
  intro c hc
  rcases h c hc with rfl | rfl
  case inl => rfl
  case inr => rfl

-- The second text starts with a blank.
theorem skip_blank {d : UInt8} {q : Bytes} (h : Laid Layout u v) (hv : v.unread = d :: q)
    (hd : d = space ∨ d = newline) :
    u.unread.head? ≠ some comma ∧ ∃ v', Laid Tight u v' ∧ ∀ fuel,
      (skipWhiteSpace fuel).run v = .ok true v' ∨ ∃ e v'',
      (skipWhiteSpace fuel).run v = .error e v'' ∧ e.Limit := by
  obtain ⟨w, t', ht, hw, hl, hh, hc⟩ := h.texts.skip
  have hhead {c : UInt8} {q : Bytes} (ht' : t' = c :: q) : isSpace c = false ∧ c ≠ 0 := by
    rw [ht', List.head?_cons] at hh
    obtain ⟨s, hs⟩ := List.head?_eq_some_iff.mp hh
    rw [hs] at hl
    exact hl.head_ne
  have hne : w ≠ [] := by
    rintro rfl
    have hspace := (hhead (ht.symm.trans hv)).1
    rcases hd with rfl | rfl
    all_goals cases hspace
  refine ⟨hc hne, ⟨t', v.eof⟩, ⟨⟨hl, hh⟩, h.eof, h.seen⟩, fun fuel => ?_⟩
  cases t'
  case nil =>
    have hlay := h.texts
    rw [List.head?_nil, List.head?_eq_none_iff] at hh
    rw [hh] at hlay
    rw [hlay.eq_nil] at hv
    cases hv
  case cons c q =>
    obtain ⟨hspace, hzero⟩ := hhead rfl
    have hrun := @skipWhiteSpace_run (fuel + w.length + 1) c q w v.eof hw.ws hspace hzero (by omega)
    rw [← ht, show (!w.isEmpty) = true by simpa using hne] at hrun
    rcases @approx_skipWhiteSpace Error.Limit fuel (fuel + w.length + 1) ignores_limit (by omega) v with hlimit | heq
    case inl => exact .inr hlimit
    case inr => exact .inl (heq.trans hrun)

-- There is a blank to skip or not.
theorem Laid.blank_or_tight (h : Laid Layout u v) :
    (∃ d q, v.unread = d :: q ∧ (d = space ∨ d = newline)) ∨ Laid Tight u v := by
  obtain ⟨w, t', ht, hw, hl, hh, -⟩ := h.texts.skip
  cases w
  case nil       => exact .inr ⟨⟨h.texts, by rw [hh, ht, List.nil_append]⟩, h.eof, h.seen⟩
  case cons d w  => exact .inl ⟨d, w ++ t', ht, hw d (List.mem_cons_self ..)⟩

theorem mimics_skip {k k' : Bool → Parser β} (h : Laid Layout u v)
    (hk : ∀ b u' v', Laid Tight u' v' → Mimics Error.Limit (k false) (k' b) u' v' Q) :
    Mimics Error.Limit (skipWhiteSpace fuel >>= k) (skipWhiteSpace fuel' >>= k') u v Q := by
  obtain ⟨d, q, hv, hd⟩ | ht := h.blank_or_tight
  case inr => exact mimics_skip_tight ht fun u' v' h' => hk false u' v' h'
  case inl =>
    obtain ⟨-, v', ht, hrun⟩ := skip_blank h hv hd
    rcases hrun fuel' with hok | ⟨e, v'', herr, he⟩
    case inr => exact .of_bad (by rw [EStateM.run_bind, herr]) he
    case inl =>
      obtain ⟨e, ⟨hx, -⟩, he⟩ := @skipWhiteSpace_tight u v' ht fuel
      have hne : u.unread ≠ [] := fun hu => by
        have hl := h.texts
        rw [hu] at hl
        rw [hl.eq_nil] at hv
        cases hv
      have heof : e = v'.eof := by rw [he hne, ← ht.eof, ht.seen hne]
      have happrox : Approx Error.Limit (skipWhiteSpace fuel >>= k) (skipWhiteSpace (fuel + 1) >>= k) :=
        .bind (approx_skipWhiteSpace ignores_limit (Nat.le_succ _)) fun _ => .refl _
      refine .of_approx happrox (.refl _) ?_
      refine (hk true ⟨u.unread, e⟩ v' ⟨ht.texts, heof, he⟩).congr ?_ ?_
      · rw [EStateM.run_bind, hx]
      · rw [EStateM.run_bind, hok]

-- What is read on one text is read on the other.
def Same {α : Type} (R : Bytes → Bytes → Prop) (x y : Parser α) : Prop :=
  ∀ u v, Laid R u v → Mimics Error.Limit x y u v (Laid Layout)

theorem Same.tight {α : Type} {x y : Parser α} (h : Same Layout x y) : Same Tight x y :=
  fun u v huv => h u v huv.tight

theorem same_containerLoop {γ : Type} {close : UInt8}
    (hclose : close = closeBracket ∨ close = closeBrace)
    {item item' : Nat → γ → Parser γ}
    (hitem : ∀ fuel fuel' acc, Same Tight (item fuel acc) (item' fuel' acc))
    (acc : γ) :
    Same Layout (containerLoop close item fuel acc) (containerLoop close item' fuel' acc) := by
  induction fuel' generalizing fuel acc
  case zero => exact fun _ _ _ => .of_bad rfl limit_fuel
  case succ fuel' hi =>
    intro u v huv
    cases fuel
    case zero => exact .throw
    case succ fuel =>
      obtain ⟨d, q, hv, hd⟩ | ht := huv.blank_or_tight
      case inl =>
        -- Only the second loop has something to skip.
        obtain ⟨-, v', ht, hrun⟩ := skip_blank huv hv hd
        have hne : some d ≠ some close ∧ some d ≠ some comma := by
          rcases hd with rfl | rfl <;> rcases hclose with rfl | rfl
          all_goals exact ⟨nofun, nofun⟩
        have hpeek : peek.run v = .ok (some d) v := by
          obtain ⟨t, e⟩ := v
          cases hv
          rfl
        have hloop : (containerLoop close item' (fuel' + 1) acc).run v =
            (skipWhiteSpace fuel' >>= fun b => if b then containerLoop close item' fuel' acc
              else item' fuel' acc >>= containerLoop close item' fuel').run v := by
          rw [containerLoop, EStateM.run_bind, hpeek]
          simp only [if_neg hne.1, if_neg hne.2]
        rcases hrun fuel' with hok | ⟨e, v'', herr, he⟩
        case inr => exact .of_bad (by rw [hloop, EStateM.run_bind, herr]) he
        case inl =>
          refine (@hi (fuel + 1) acc u v' ht.tight).congr rfl ?_
          rw [hloop, EStateM.run_bind, hok]
          rfl
      case inr =>
        have hrest (u v : Stringstream) (huv : Laid Tight u v) : Mimics Error.Limit
            (skipWhiteSpace fuel >>= fun b => if b then containerLoop close item fuel acc
              else item fuel acc >>= containerLoop close item fuel)
            (skipWhiteSpace fuel' >>= fun b => if b then containerLoop close item' fuel' acc
              else item' fuel' acc >>= containerLoop close item' fuel') u v (Laid Layout) :=
          mimics_skip_tight huv fun u' v' h => .bind (hitem fuel fuel' acc u' v' h) fun acc u'' v'' h => hi acc u'' v'' h
        obtain ⟨e, rfl, rfl⟩ | ⟨c, s, t, rfl, rfl, hst⟩ := ht.cases
        case inl => exact (hrest ⟨[], true⟩ ⟨[], true⟩ ⟨⟨.nil, rfl⟩, rfl, absurd rfl⟩).congr rfl rfl
        case inr =>
          have hnext (hc : c = close ∨ c = comma) : Laid Layout ⟨s, false⟩ ⟨t, false⟩ := by
            refine laid ?_ fun _ => rfl
            cases hst
            case punctuation h => exact h
            case word hc' _    =>
              rcases hclose with rfl | rfl <;> rcases hc with rfl | rfl
              all_goals cases hc'
            case string        =>
              rcases hclose with rfl | rfl <;> rcases hc with hc | hc
              all_goals cases hc
          refine mimics_peek (.ite (fun hc => mimics_getc (.pure (hnext (.inl (Option.some.inj hc))))) fun _ =>
            .ite (fun hc => mimics_getc (hi acc _ _ (hnext (.inr (Option.some.inj hc))))) fun _ => hrest _ _ ht)

theorem same_elementFromStream {x y : Parser Variant} (h : Same Layout x y) (fuel fuel' : Nat)
    (ar : List Variant) :
    Same Tight (elementFromStream x fuel ar) (elementFromStream y fuel' ar) :=
  fun u v huv => .bind (h u v huv.tight) fun _ _ _ h => mimics_skip h fun _ _ _ h => .pure h.tight

theorem Starts.layout {close : UInt8} (h : Starts close s t)
    (hc : close ∈ [openBracket, openBrace, colon]) :
    Layout s t := by
  cases h
  case punctuation h => exact h
  case word hw _     =>
    simp only [List.mem_cons, List.not_mem_nil, or_false] at hc
    rcases hc with rfl | rfl | rfl
    all_goals cases hw
  case string        => exact absurd hc (by decide)

theorem same_arrayFromStream {x y : UInt32 → Parser Variant} {d : UInt32}
    (h : Same Layout (x (d - 1)) (y (d - 1))) :
    Same Tight (arrayFromStream x fuel d) (arrayFromStream y fuel' d) := by
  intro u v huv
  obtain ⟨e, rfl, rfl⟩ | ⟨c, s, t, rfl, rfl, hst⟩ := huv.cases
  case inl => exact .of_not_ok nofun
  case inr =>
    refine mimics_peek (.ite (fun _ => .throw) fun hc => ?_)
    cases Option.some.inj (not_not.mp hc)
    have hl := laid (hst.layout (by decide)) fun _ => rfl
    exact mimics_getc (mimics_skip hl fun _ _ _ h' =>
      same_containerLoop (.inl rfl) (same_elementFromStream h) [] _ _ h'.tight)

theorem mimics_catchEof {α : Type} {x y : Parser α} (h : Mimics Error.Limit x y u v Q) :
    Mimics Error.Limit (catchEof x) (catchEof y) u v Q := by
  intro a u' hr
  have hx : x.run u = .ok a u' := by
    simp only [catchEof, EStateM.run] at hr
    split at hr
    case h_1 => cases hr
    case h_2 => exact hr
  rcases h a u' hx with ⟨v', hy, hq⟩ | ⟨e, v', hy, he⟩
  case inl => exact .inl ⟨v', catchEof_run hy, hq⟩
  case inr =>
    refine .inr ⟨e, v', ?_, he⟩
    simp only [catchEof, EStateM.run] at hy ⊢
    rw [hy]
    rcases he with rfl | rfl
    case inl => rfl
    case inr => rfl

-- What follows the name of a member.
theorem mimics_value {γ : Type} {x y : Parser Variant} (h : Same Layout x y)
    {k k' : Variant → Parser γ} {m : Error}
    (hk : ∀ val u v, Laid Layout u v → Mimics Error.Limit (k val) (k' val) u v (Laid Layout))
    (huv : Laid Layout u v) :
    Mimics Error.Limit
      (skipWhiteSpace fuel >>= fun _ => peek >>= fun c =>
        if c ≠ some colon then throw m else getc >>= fun _ => x >>= k)
      (skipWhiteSpace fuel' >>= fun _ => peek >>= fun c =>
        if c ≠ some colon then throw m else getc >>= fun _ => y >>= k') u v (Laid Layout) := by
  refine mimics_skip huv fun _ u' v' ht => ?_
  obtain ⟨e, rfl, rfl⟩ | ⟨c, s, t, rfl, rfl, hst⟩ := ht.cases
  case inl => exact .of_not_ok nofun
  case inr =>
    refine mimics_peek (.ite (fun _ => .throw) fun hc => ?_)
    cases Option.some.inj (not_not.mp hc)
    have hl := laid (hst.layout (by decide)) fun _ => rfl
    exact mimics_getc (.bind (h _ _ hl) hk)

theorem same_entryFromStream {x y : Parser Variant} (h : Same Layout x y) (fuel fuel' : Nat)
    (obj : List (Bytes × Variant)) :
    Same Tight (entryFromStream x fuel obj) (entryFromStream y fuel' obj) := by
  intro u v huv
  refine .bind ?_ fun key _ _ h' => mimics_value h (fun _ _ _ h => .pure h) h'
  obtain ⟨e, rfl, rfl⟩ | ⟨c, s, t, rfl, rfl, hst⟩ := huv.cases
  case inl => exact .of_not_ok nofun
  case inr =>
    cases hst
    case string hl hs h => exact mimics_stringFromStream hl h
    case punctuation hc h =>
      refine mimics_peekChar (.ite (fun _ => .throw) fun hq => ?_)
      rw [not_not.mp hq] at hc
      exact absurd hc (by decide)
    case word hc h =>
      refine mimics_peekChar (.ite (fun _ => .throw) fun hq => ?_)
      rw [not_not.mp hq] at hc
      cases hc

theorem same_objectFromStream {x y : UInt32 → Parser Variant} {d : UInt32}
    (h : Same Layout (x (d - 1)) (y (d - 1))) :
    Same Tight (objectFromStream x fuel d) (objectFromStream y fuel' d) := by
  intro u v huv
  refine mimics_catchEof ?_
  obtain ⟨e, rfl, rfl⟩ | ⟨c, s, t, rfl, rfl, hst⟩ := huv.cases
  case inl => exact .of_not_ok nofun
  case inr =>
    refine mimics_peekChar (.ite (fun _ => .throw) fun hc => ?_)
    cases not_not.mp hc
    have hl := laid (hst.layout (by decide)) fun _ => rfl
    exact mimics_getc (same_containerLoop (.inr rfl) (same_entryFromStream h) [] _ _ hl)

-- What a value can start with, by the character.
theorem Starts.word_of {P : UInt8 → Prop} (h : Starts c s t) (hc : P c)
    (hP : ∀ a ∈ [quote, openBracket, closeBracket, openBrace, closeBrace, comma, colon], ¬P a) :
    isWordChar c ∧ Within s t := by
  cases h
  case word hw h => exact ⟨hw, h⟩
  case punctuation hm _ => exact absurd hc (hP c (List.mem_cons_of_mem _ hm))
  case string => exact absurd hc (hP quote (List.mem_cons_self ..))

theorem Starts.string_of (h : Starts quote s t) : ∃ l s₀ t₀, s = l ++ quote :: s₀ ∧
    t = l ++ quote :: t₀ ∧
    Literal l ∧ (Ends s₀ ∨ s₀.head? = some colon) ∧ Layout s₀ t₀ := by
  cases h
  case string hl hs h    => exact ⟨_, _, _, rfl, rfl, hl, hs, h⟩
  case punctuation hc _  => exact absurd hc (by decide)
  case word hc _         => cases hc

theorem same_variantSwitch {L : LexicalCast} {stringDoubles : Bool} {x y : UInt32 → Parser Variant}
    {d : UInt32}
    (h : Same Layout (x (d - 1 - 1)) (y (d - 1 - 1))) :
    Same Tight (variantSwitch L stringDoubles x d fuel) (variantSwitch L stringDoubles y d fuel') := by
  intro u v huv
  cases fuel'
  case zero => exact .of_bad rfl limit_fuel
  case succ fuel' =>
    cases fuel
    case zero => exact .throw
    case succ fuel =>
      obtain ⟨e, rfl, rfl⟩ | ⟨c, s, t, rfl, rfl, hst⟩ := huv.cases
      case inl => exact .of_not_ok nofun
      case inr =>
        refine mimics_peekChar (.ite (fun hc => ?_) fun _ => .ite (fun hc => ?_) fun _ => .ite (fun _ => ?_) fun _ =>
          .ite (fun _ => ?_) fun _ => .ite (fun hc => ?_) fun _ => .ite (fun hc => ?_) fun _ => .ite (fun _ => .throw) fun _ => ?_)
        · rw [hst.head_ne.1] at hc
          cases hc
        · subst hc
          obtain ⟨l, s₀, t₀, rfl, rfl, hl, hs, h⟩ := hst.string_of
          exact .bind (mimics_stringFromStream hl h) fun _ _ _ h => .pure h
        · exact .bind (same_objectFromStream h _ _ huv) fun _ _ _ h => .pure h
        · exact .bind (same_arrayFromStream h _ _ huv) fun _ _ _ h => .pure h
        · obtain ⟨hw, hin⟩ := hst.word_of (P := fun c => startsNumber c) hc (by decide +kernel)
          exact mimics_numberFromStream hw hin fun _ => rfl
        · obtain ⟨hw, hin⟩ := hst.word_of (P := fun c => c ∈ ascii "ntf") hc (by decide +kernel)
          exact mimics_tokenFromStream (hin.cons hw) fun _ => rfl
        · refine .of_not_ok fun a u' hr => ?_
          rw [EStateM.run_bind] at hr
          split at hr
          case h_1 => cases hr
          case h_2 => cases hr

theorem same_variantFromStream {L : LexicalCast} {stringDoubles : Bool} {stack stack' : Nat}
    {d : UInt32} :
    Same Layout (variantFromStream L stringDoubles fuel stack d) (variantFromStream L stringDoubles fuel' stack' d) := by
  induction stack' generalizing stack d
  case zero => exact fun _ _ _ => .of_bad rfl (.inr rfl)
  case succ stack' hi =>
    intro u v huv
    cases stack
    case zero => exact .throw
    case succ stack =>
      exact .ite (fun _ => .throw) fun _ => mimics_skip huv fun _ _ _ h => same_variantSwitch hi _ _ h

namespace Relaxed

-- The functions of the two readers read the same.
structure Reader.Same (r r' : Reader) : Prop where
  literal : ∀ {l s t}, Literal l → (Ends s ∨ s.head? = some colon) → Layout s t →
    Mimics Error.Limit r.string r'.string ⟨quote :: (l ++ quote :: s), false⟩ ⟨quote :: (l ++ quote :: t), false⟩
      (Laid Layout)
  name    : ∀ {c s t}, isWordChar c → Within s t →
    Mimics Error.Limit r.string r'.string ⟨c :: s, false⟩ ⟨c :: t, false⟩ (Laid Layout)
  other   : ∀ {c s a u}, c ∈ [openBracket, closeBracket, openBrace, closeBrace, comma, colon] →
    r.string.run ⟨c :: s, false⟩ ≠ .ok a u
  empty   : ∀ {e a u}, r.string.run ⟨[], e⟩ ≠ .ok a u
  number  : ∀ {c s t}, isWordChar c → Within s t →
    Mimics Error.Limit r.number r'.number ⟨c :: s, false⟩ ⟨c :: t, false⟩ (Laid Layout)
  word    : ∀ {c s t}, isWordChar c → Within s t →
    Mimics Error.Limit r.word r'.word ⟨c :: s, false⟩ ⟨c :: t, false⟩ (Laid Layout)

variable {r r' : Reader}

theorem same_string (hr : r.Same r') : Json.Same Tight r.string r'.string := by
  intro u v huv
  obtain ⟨e, rfl, rfl⟩ | ⟨c, s, t, rfl, rfl, hst⟩ := huv.cases
  case inl => exact .of_not_ok fun _ _ => hr.empty
  case inr =>
    cases hst
    case string hl hs h    => exact hr.literal hl hs h
    case word hc h         => exact hr.name hc h
    case punctuation hc h  => exact .of_not_ok fun _ _ => hr.other hc

theorem same_entryFromStream (hr : r.Same r') {x y : Parser Variant} (h : Json.Same Layout x y)
    (fuel fuel' : Nat)
    (obj : List (Bytes × Variant)) :
    Json.Same Tight (entryFromStream r.string x fuel obj) (entryFromStream r'.string y fuel' obj) :=
  fun u v huv => .bind (same_string hr u v huv) fun _ _ _ h' => mimics_value h
    (fun _ _ _ h => mimics_skip h fun _ _ _ h => .pure h.tight) h'

theorem same_objectFromStream (hr : r.Same r') {x y : UInt32 → Parser Variant} {d : UInt32}
    (h : Json.Same Layout (x (d - 1)) (y (d - 1))) :
    Json.Same Tight (objectFromStream r.string x fuel d) (objectFromStream r'.string y fuel' d) := by
  intro u v huv
  refine mimics_catchEof ?_
  obtain ⟨e, rfl, rfl⟩ | ⟨c, s, t, rfl, rfl, hst⟩ := huv.cases
  case inl => exact .of_not_ok nofun
  case inr =>
    refine mimics_peekChar (.ite (fun _ => .throw) fun hc => ?_)
    cases not_not.mp hc
    have hl := laid (hst.layout (by decide)) fun _ => rfl
    exact mimics_getc (mimics_skip hl fun _ _ _ h' =>
      same_containerLoop (.inr rfl) (same_entryFromStream hr h) [] _ _ h'.tight)

theorem same_variantSwitch (hr : r.Same r') {x y : UInt32 → Parser Variant} {d : UInt32}
    (h : ∀ d, Json.Same Layout (x d) (y d)) :
    Json.Same Tight (variantSwitch r x d fuel) (variantSwitch r' y d fuel') := by
  intro u v huv
  cases fuel'
  case zero => exact .of_bad rfl limit_fuel
  case succ fuel' =>
    cases fuel
    case zero => exact .throw
    case succ fuel =>
      obtain ⟨e, rfl, rfl⟩ | ⟨c, s, t, rfl, rfl, hst⟩ := huv.cases
      case inl => exact .of_not_ok nofun
      case inr =>
        refine mimics_peekChar (.ite (fun hc => absurd hc hst.head_ne.2) fun _ => .ite (fun hc => ?_) fun _ =>
          .ite (fun _ => ?_) fun _ => .ite (fun _ => ?_) fun _ => .ite (fun _ => ?_) fun _ => .ite (fun hc => ?_) fun _ =>
          .ite (fun hc => ?_) fun _ => .ite (fun _ => .throw) fun _ => ?_)
        · rw [hst.head_ne.1] at hc
          cases hc
        · exact .bind (same_string hr _ _ huv) fun _ _ _ h => .pure h
        · exact .bind (same_objectFromStream hr (h _) _ _ huv) fun _ _ _ h => .pure h
        · exact .bind (same_arrayFromStream (h _) _ _ huv) fun _ _ _ h => .pure h
        · obtain ⟨hw, hin⟩ := hst.word_of (P := fun c => startsNumber c) hc (by decide +kernel)
          exact hr.number hw hin
        · obtain ⟨hw, hin⟩ := hst.word_of (P := fun c => isTokenChar c) hc (by decide +kernel)
          exact hr.word hw hin
        · refine .of_not_ok fun a u' hr => ?_
          rw [EStateM.run_bind] at hr
          split at hr
          case h_1 => cases hr
          case h_2 => cases hr

theorem same_variantFromStream (hr : r.Same r') {stack stack' : Nat} {d : UInt32} :
    Json.Same Layout (variantFromStream r fuel stack d) (variantFromStream r' fuel' stack' d) := by
  induction stack' generalizing stack d
  case zero => exact fun _ _ _ => .of_bad rfl (.inr rfl)
  case succ stack' hi =>
    intro u v huv
    cases stack
    case zero => exact .throw
    case succ stack => exact mimics_skip huv fun _ _ _ h => same_variantSwitch hr (fun _ => hi) _ _ h

theorem stringFromStream_punctuation {strict : Bool} {s : Bytes} {c : UInt8}
    (hc : c ∈ [openBracket, closeBracket, openBrace, closeBrace, comma, colon]) {a : Bytes}
    {u : Stringstream} :
    (stringFromStream strict fuel).run ⟨c :: s, false⟩ ≠ .ok a u := by
  simp only [List.mem_cons, List.not_mem_nil, or_false] at hc
  rcases hc with rfl | rfl | rfl | rfl | rfl | rfl
  all_goals
    cases strict
    all_goals nofun

theorem mimics_ofToken {strict : Bool} {token : Bytes} {L : LexicalCast} (huv : Laid Layout u v) :
    Mimics Error.Limit
      (match parseNumberOrStr L strict token with
        | .error e   => throw e
        | .ok result => if strict ∧
        !isNumber result then throw (.parseError "expected: number") else return result)
      (match parseNumberOrStr L strict token with
        | .error e   => throw e
        | .ok result => if strict ∧
        !isNumber result then throw (.parseError "expected: number") else return result)
      u v (Laid Layout) := by
  split
  case h_1 => exact .throw
  case h_2 => exact .ite (fun _ => .throw) fun _ => .pure huv

theorem mimics_wordFromStream {strict : Bool} (hc : isWordChar c) (h : Within s t) :
    Mimics Error.Limit (wordFromStream strict fuel) (wordFromStream strict fuel') ⟨c :: s, false⟩ ⟨c :: t, false⟩
      (Laid Layout) :=
  .bind (mimics_tokenFromStream (h.cons hc) fun _ => rfl) fun _ _ _ h => .ite (fun _ => .throw) fun _ =>
    .ite (fun _ => .pure h) fun _ => .ite (fun _ => .pure h) fun _ => .ite (fun _ => .pure h) fun _ =>
    .ite (fun _ => .throw) fun _ => .pure h

theorem same_reader (L : LexicalCast) (strict : Bool) :
    (reader L strict fuel).Same (reader L strict fuel') where
  literal hl hs h := mimics_stringFromStream hl hs h
  name hc h       := mimics_stringFromStream_word hc h fun _ => rfl
  other hc        := stringFromStream_punctuation hc
  empty           := by
    cases strict
    all_goals nofun
  number hc h     := .bind (mimics_tokenFromStream (h.cons hc) fun _ => rfl) fun _ _ _ h => mimics_ofToken h
  word hc h       := mimics_wordFromStream hc h

theorem unclosed_literal {l : Bytes} (hl : Literal l) (ht : t.head? ≠ some quote) :
    unclosed (quote :: (l ++ quote :: t)) = false := by
  have hquote : unclosed (quote :: (l ++ quote :: t)) = tripleUnclosed true quote (l ++ quote :: t) := rfl
  rw [hquote]
  cases l
  case nil =>
    cases t
    case nil => rfl
    case cons b t =>
      have hb : b ≠ quote := fun h => ht (by rw [h]; rfl)
      simp [tripleUnclosed, hb]
  case cons b l =>
    obtain ⟨body, hbody⟩ := hl.body
    have hb := head_ne_quote hbody
    cases l
    case nil  => simp [tripleUnclosed, hb]
    case cons => simp [tripleUnclosed, hb]

theorem unclosed_name (hc : isWordChar c) (h : Within s t) : unclosed (c :: t) = false := by
  have hne : ¬(c = quote ∨ c = apostrophe) := by
    rintro (rfl | rfl)
    all_goals cases hc
  have ht : ∀ d q, t = d :: q → ¬(d = quote ∨ d = apostrophe) := by
    obtain ⟨w, s₀, t₀, rfl, rfl, hw, hs, hl⟩ := h
    rintro d q hd (rfl | rfl)
    all_goals
      cases w
      case cons b w =>
        cases hd
        cases hw _ (List.mem_cons_self ..)
      case nil =>
        rw [List.nil_append] at hd
        subst hd
        cases hl.stops hs
        case close hc _    => rcases hc with hc | hc <;> cases hc
        case blank hd _    => rcases hd with hd | hd <;> cases hd
  cases t
  case nil        => simp [unclosed, hne]
  case cons d t   => simp [unclosed, hne, ht d t rfl]

-- The guard does not stop at any of the strings.
theorem same_guardedReader (L : LexicalCast) :
    (reader L false fuel).Same (guardedReader L fuel') where
  literal hl hs h := by
    have hu := unclosed_literal hl (h.ne_quote hs).2
    exact (@mimics_stringFromStream _ _ _ fuel fuel' false hl hs h).congr rfl
      (by simp [guardedReader, EStateM.run_bind, hu])
  name hc h       := by
    have hu := unclosed_name hc h
    exact (@mimics_stringFromStream_word _ _ _ false fuel fuel' false hc h fun _ => rfl).congr rfl
      (by simp [guardedReader, EStateM.run_bind, hu])
  other hc        := stringFromStream_punctuation hc
  empty           := nofun
  number hc h     := .bind (mimics_tokenFromStream (h.cons hc) fun _ => rfl) fun _ _ _ h => mimics_ofToken h
  word hc h       := mimics_wordFromStream hc h

end Relaxed

end Containers

section Parsers

variable {L : LexicalCast} {ptype : ParseType} {d : UInt32} {w : Variant} {u : Stringstream}

theorem Same.fromString {x y : Parser Variant} (h : Same Layout x y) (hl : Layout s t)
    (hx : x.run ⟨s, false⟩ = .ok w u)
    (hy : ∀ e u', y.run ⟨t, false⟩ = .error e u' → ¬e.Limit) : ∃ u',
    y.run ⟨t, false⟩ = .ok w u' := by
  rcases h _ _ (laid hl fun _ => rfl) w u hx with ⟨u', hu', -⟩ | ⟨e, u', hu', he⟩
  case inl => exact ⟨u', hu'⟩
  case inr => exact absurd he (hy e u' hu')

-- A parser that accepts a text accepts it when it is laid out, with the same value.
theorem Layout.fromString (hl : Layout s t) (hs : fromString L s ptype d = .ok w u) :
    ∃ u', fromString L t ptype d = .ok w u' := by
  cases ptype
  case legacyParser                  => exact same_variantFromStream.fromString hl hs fun _ _ => legacy_terminates false
  case legacyParserWithStringDoubles => exact same_variantFromStream.fromString hl hs fun _ _ => legacy_terminates true
  case strictParser                  =>
    exact (Relaxed.same_variantFromStream (Relaxed.same_reader L true)).fromString hl hs fun _ _ =>
      Relaxed.strict_terminates
  case relaxedParser =>
    have hguard := (@Relaxed.same_variantFromStream _ (fuelFor t) _ _ (Relaxed.same_guardedReader L) _ (stackFor t) d).fromString
      hl hs fun e u' he =>
        (@guarded_ensures L t ⟨t, false⟩ d t.length (Nat.le_refl _) (Nat.le_refl _)).error he
    obtain ⟨u', hu'⟩ := hguard
    exact ⟨u', Relaxed.guards_variantFromStream.above.ok hu'⟩

end Parsers

section Statement

variable {ε : Type} {L : LexicalCast} {yield : Yield ε} {format : OutputFormatting} {v : Variant}

-- The text is the same but for spaces and newlines between the tokens, and is read in the same way.
theorem toPrettyString_spec (hL : WordyCast L) (hs : toString L yield format v = .ok s)
    (hlen : s.length < 2 ^ 32) :
    ∃ t, toPrettyString L yield format v = .ok (some t) ∧ strip .outside t = s ∧
      literals .outside [] t = literals .outside [] s ∧
      ∀ ptype maxDepth w u, fromString L s ptype maxDepth = .ok w u →
        ∃ u', fromString L t ptype maxDepth = .ok w u' := by
  have htext : s = text L format v := by
    have hemits := @emits_toString ε L yield format v
    rw [hs] at hemits
    cases hemits
    rfl
  obtain ⟨t, ht, hl⟩ := @layout_prettyPrint L format 2 hL v (htext ▸ hlen)
  rw [← htext] at ht hl
  refine ⟨t, ?_, hl.strip_eq, hl.literals_eq, fun _ _ _ _ h => hl.fromString h⟩
  rw [toPrettyString, hs, ← ht]
  rfl

-- The conversions, with the text of zero for a `double`.
def zeroCast : LexicalCast :=
  { LexicalCast.decimal with ofDouble := fun _ => ascii "0.00000000000000000" }

theorem wordy_zeroCast : WordyCast zeroCast where
  ofInt64 _  := wordy_ofInt _
  ofUint64 v := by
    have hn := Decimal.numeral_ofNat v.toNat
    exact ⟨hn.nonempty, fun c hc => isWordChar_digit (hn.digits c hc)⟩
  ofDouble _ := by
    have hzero : Wordy (ascii "0.00000000000000000") := ⟨by decide +kernel, by decide +kernel⟩
    exact hzero

theorem toPrettyString_object :
    ∃ t, toPrettyString zeroCast (fun _ => .ok () : Yield Empty) .legacyGenerator
      (.object [(ascii "a\\", .array [.double 0, .array [], .string (ascii "[\", ]")])]) = .ok (some t) ∧
      strip .outside t = ascii "\x7b\"a\\\\\":[0.00000000000000000,[],\"[\\\", ]\"]\x7d" := by
  obtain ⟨t, ht, hstrip, -⟩ := @toPrettyString_spec _ Empty zeroCast (fun _ => .ok ()) .legacyGenerator
    (.object [(ascii "a\\", .array [.double 0, .array [], .string (ascii "[\", ]")])]) wordy_zeroCast rfl (by decide +kernel)
  exact ⟨t, ht, hstrip.trans (by decide +kernel)⟩

end Statement

end Json
