import FcModel.Io.Json.Termination
import FcModel.Io.Json.Reading

-- Functions for whole documents: `json::is_valid` and `json::variants_from_string`.

namespace Json

open Ascii

section IsValid

variable {L : LexicalCast} {str : Bytes} {ptype : ParseType} {maxDepth : UInt32}

-- What follows the parser. No exception is thrown at the end of a `std::stringstream`.
def isValid.atEnd : Parser Bool := fun s =>
  match peek s with
  | .ok _ s           => .ok false s
  | .error (.eof _) s => .ok true s
  | .error e s        => .error e s

def isValid (L : LexicalCast) (str : Bytes) (ptype : ParseType) (maxDepth : UInt32) :
    Outcome Bool :=
  if str.length = 0 then .ok false ⟨str, false⟩
  else (do let _ ← parser L (fuelFor str) (stackFor str) ptype maxDepth; isValid.atEnd).run
    ⟨str, false⟩

-- The parser accepts a value, and leaves nothing but white space.
def IsDocument (L : LexicalCast) (str : Bytes) (ptype : ParseType) (maxDepth : UInt32) : Prop :=
  ∃ v s, fromString L str ptype maxDepth = .ok v s ∧ Ws s.unread

def IsValidExact (L : LexicalCast) (str : Bytes) (ptype : ParseType) (maxDepth : UInt32) : Prop :=
  (∃ s, isValid L str ptype maxDepth = .ok true s) ↔ IsDocument L str ptype maxDepth

theorem atEnd_ne_true (s : Stringstream) : ∀ s', isValid.atEnd.run s ≠ .ok true s' := by
  obtain ⟨u, e⟩ := s
  cases u
  case nil  => exact nofun
  case cons => exact nofun

-- The function does not return `true`.
theorem isValid_ne_true : ¬∃ s, isValid L str ptype maxDepth = .ok true s := by
  rintro ⟨s, hs⟩
  rw [isValid] at hs
  split at hs
  case isTrue => cases hs
  case isFalse =>
    rw [EStateM.run_bind] at hs
    split at hs
    case h_1 v u _ => exact atEnd_ne_true u s hs
    case h_2       => cases hs

theorem isValid_exact_iff (L : LexicalCast) (str : Bytes) (ptype : ParseType) (maxDepth : UInt32) :
    IsValidExact L str ptype maxDepth ↔ ¬IsDocument L str ptype maxDepth := by
  rw [IsValidExact, iff_false_left isValid_ne_true]

-- A number that fits any of the parsers.
theorem not_isValid_exact_number : ¬IsValidExact .decimal (ascii "1") .strictParser 200 := by
  intro h
  exact isValid_ne_true (h.mpr ⟨.uint64 1, ⟨[], true⟩, by decide +kernel, List.forall_mem_nil _⟩)

end IsValid

section Truncation

open Relaxed

variable {L : LexicalCast} {fuel stack : Nat} {d : UInt32} {u : Stringstream}

-- The parser that `variants_from_string` calls again and again.
def relaxedFromStream (L : LexicalCast) (fuel stack : Nat) (maxDepth : UInt32) : Parser Variant :=
  Relaxed.variantFromStream (reader L false fuel) fuel stack maxDepth

-- The string whose first quote has been read ends with the text, or with the byte that stands for
-- its end.
def openString : (escape : Bool) → Bytes → Bool
  | _, []         => true
  | true, _ :: s  => openString false s
  | false, c :: s =>
    if c = 0xff then true
    else if c = quote ∨ c = 0x04 ∨ c = carriageReturn ∨ c = newline then false
    else openString (c = backslash) s

-- Where a value is to be read, the text stops in the middle: there is a byte that stands for its
-- end, or a string or an array that is not closed. `inside` is set in an array, where the next
-- element or the closing bracket is to be read.
inductive CutOff (L : LexicalCast) : (inside : Bool) → Stringstream → Prop
  | stop {inside e : Bool} {w s : Bytes} {c : UInt8} (hw : Ws w)
  (hc : c = 0 ∨ c = 0x04 ∨ c = 0xff) :
      CutOff L inside ⟨w ++ c :: s, e⟩
  | string {inside e : Bool} {w s : Bytes} (hw : Ws w) (hs : openString false s) :
    CutOff L inside ⟨w ++ quote :: s, e⟩
  | array {inside e : Bool} {w s : Bytes} (hw : Ws w) (h : CutOff L true ⟨s, e⟩) :
      CutOff L inside ⟨w ++ openBracket :: s, e⟩
  | last {e : Bool} {w : Bytes} (hw : Ws w) : CutOff L true ⟨w, e⟩
  | comma {e : Bool} {w s : Bytes} (hw : Ws w) (h : CutOff L true ⟨s, e⟩) :
    CutOff L true ⟨w ++ comma :: s, e⟩
  | value {e : Bool} {w s : Bytes} {c : UInt8} {v : Variant} {u : Stringstream} {fuel stack : Nat}
    {d : UInt32} (hw : Ws w)
      (hc : isSpace c = false)
          (hread : (relaxedFromStream L fuel stack d).run ⟨c :: s, e⟩ = .ok v u)
      (h : CutOff L true u) : CutOff L true ⟨w ++ c :: s, e⟩

theorem CutOff.spaces {inside e : Bool} {w s : Bytes} (hw : Ws w) (h : CutOff L inside ⟨s, e⟩) :
    CutOff L inside ⟨w ++ s, e⟩ := by
  have hcat {w' : Bytes} (hw' : Ws w') : Ws (w ++ w') := List.forall_mem_append.mpr ⟨hw, hw'⟩
  generalize hu : (⟨s, e⟩ : Stringstream) = u at h
  cases h
  case stop hw' hc              => cases hu; rw [← List.append_assoc]; exact .stop (hcat hw') hc
  case string hw' hs            => cases hu; rw [← List.append_assoc]; exact .string (hcat hw') hs
  case array hw' h              => cases hu; rw [← List.append_assoc]; exact .array (hcat hw') h
  case last hw'                 => cases hu; exact .last (hcat hw')
  case comma hw' h              => cases hu; rw [← List.append_assoc]; exact .comma (hcat hw') h
  case value hw' hc hread h     =>
    cases hu; rw [← List.append_assoc]; exact .value (hcat hw') hc hread h

def NotEof (e : Error) : Prop :=
  ∀ m, e ≠ .eof m

-- White space is skipped up to a byte that is none.
def SkipsTo (u : Stringstream) (skipped b : Bool) (u' : Stringstream) : Prop :=
  ∃ w, Ws w ∧ u.unread = w ++ u'.unread ∧
    (∀ c, u'.unread.head? = some c → isSpace c = false ∧ c ≠ 0) ∧
    (u'.unread ≠ [] → u'.eof = u.eof) ∧ (b = false → skipped = false ∧ w = [])

-- There is a NUL behind white space.
def NulAhead (u : Stringstream) : Prop :=
  ∃ w s, Ws w ∧ u.unread = w ++ 0 :: s

theorem ensures_skip_go {skipped : Bool} :
    Ensures (skipWhiteSpace.go fuel skipped) u (SkipsTo u skipped) fun e => NotEof e ∨
    NulAhead u := by
  induction fuel generalizing u skipped
  case zero => exact .inl nofun
  case succ fuel hi =>
    obtain ⟨s, e⟩ := u
    cases s
    case nil => exact ⟨[], List.forall_mem_nil _, rfl, nofun, absurd rfl, fun h => ⟨h, rfl⟩⟩
    case cons c s =>
      refine .bind (.of_run peek_cons
        (.ite (fun hs => ?space) fun hs => .ite (fun h0 => ?nul) fun h0 => ?char))
      case nul  => exact .inr ⟨[], s, List.forall_mem_nil _, by rw [h0]; rfl⟩
      case char =>
        refine ⟨[], List.forall_mem_nil _, rfl, fun c' hc => ?_, fun _ => rfl, fun h => ⟨h, rfl⟩⟩
        cases hc
        exact ⟨by simpa using hs, h0⟩
      case space =>
        refine .bind (.of_run getc_cons (hi.mono (fun b u' h => ?_) fun e h => ?_))
        · obtain ⟨w, hw, hu, hhead, heof, hb⟩ := h
          exact ⟨c :: w, List.forall_mem_cons.mpr ⟨hs, hw⟩, congrArg (c :: ·) hu, hhead, heof,
            fun h => by cases (hb h).1⟩
        · refine h.imp_right ?_
          rintro ⟨w, s', hw, hs'⟩
          exact ⟨c :: w, s', List.forall_mem_cons.mpr ⟨hs, hw⟩, congrArg (c :: ·) hs'⟩

theorem ensures_skip : Ensures (skipWhiteSpace fuel) u (SkipsTo u false) fun e => NotEof e ∨
    NulAhead u :=
  ensures_skip_go

theorem NulAhead.cutOff {inside : Bool} (h : NulAhead u) : CutOff L inside u := by
  obtain ⟨s, e⟩ := u
  obtain ⟨w, s', hw, rfl⟩ := h
  exact .stop hw (.inl rfl)

theorem SkipsTo.cutOff {skipped b : Bool} {u' : Stringstream} (h : SkipsTo u skipped b u')
    (hc : CutOff L true u') :
    CutOff L true u := by
  obtain ⟨s, e⟩ := u
  obtain ⟨s', e'⟩ := u'
  obtain ⟨w, hw, rfl, -, heof, -⟩ := h
  cases s'
  case nil  => rw [List.append_nil]; exact .last hw
  case cons =>
    cases heof (List.cons_ne_nil _ _)
    exact hc.spaces hw

abbrev Always {α : Type} (_ : α) (_ : Stringstream) : Prop :=
  True

theorem ensures_eof_quoteLoop {token : Bytes} :
    Ensures (quoteLoop true quote fuel token) u Always fun e => NotEof e ∨
    openString false u.unread := by
  induction fuel generalizing u token
  case zero => exact .inl nofun
  case succ fuel hi =>
    obtain ⟨s, e⟩ := u
    cases s
    case nil => exact .inr rfl
    case cons c s =>
      refine .bind (.of_run peekChar_cons
        (.ite (fun hc => ?eof) fun h₁ => .ite (fun _ => ?close) fun h₂ =>
        .ite (fun _ => .inl nofun) fun h₃ => .ite (fun hc => ?escape) fun h₄ =>
          .ite (fun _ => .inl nofun) fun h₅ => ?char))
      case eof   => exact .inr (by rw [hc]; rfl)
      case close => exact .bind (.of_run getc_cons trivial)
      case escape =>
        cases hc.2
        cases s
        case nil =>
          exact .bind (.of_run parseEscape_nil (hi.mono (fun _ _ h => h) fun _ _ => .inr rfl))
        case cons b s =>
          exact .bind (.of_run parseEscape_cons (hi.mono (fun _ _ h => h) fun _ h => h))
      case char =>
        have hbackslash : c ≠ backslash := fun hc => h₄ ⟨rfl, hc⟩
        have hopen : openString false (c :: s) = openString false s := by
          rw [openString, if_neg h₁, if_neg (not_or.mpr ⟨h₂, not_or.mpr ⟨h₃, h₅⟩⟩),
            decide_eq_false hbackslash]
        exact .bind (.of_run getc_cons (hi.mono (fun _ _ h => h) fun _ h => hopen ▸ h))

-- The exception for the end of the input is not thrown, wherever the parser starts.
def NoEof {α : Type} (x : Parser α) : Prop :=
  ∀ u, Ensures x u Always NotEof

namespace NoEof

variable {α β : Type} {x y : Parser α} {f : α → Parser β}

theorem pure (a : α) : NoEof (Pure.pure a) :=
  fun _ => trivial

theorem throw {e : Error} (h : NotEof e) : NoEof (MonadExcept.throw e : Parser α) :=
  fun _ => h

theorem bind (hx : NoEof x) (hf : ∀ a, NoEof (f a)) : NoEof (x >>= f) :=
  fun u => .bind ((hx u).imp fun a u' _ => hf a u')

theorem ite {p : Prop} [Decidable p] (hx : NoEof x) (hy : NoEof y) : NoEof (if p then x else y) :=
  fun u => .ite (fun _ => hx u) fun _ => hy u

theorem peek : NoEof peek :=
  fun _ => ensures_peek fun _ _ => trivial

theorem peekChar : NoEof peekChar :=
  fun _ => ensures_peekChar fun _ _ => trivial

theorem getc : NoEof getc :=
  fun _ => (ensures_getc_atMost (Nat.le_refl _)).imp fun _ _ _ => trivial

theorem getChar : NoEof getChar :=
  bind getc fun _ => pure _

theorem parseEscape : NoEof parseEscape :=
  bind peek fun _ => ite
    (bind getc fun _ => bind peek fun _ =>
    ite (bind getc fun _ => pure _) (ite (bind getc fun _ => pure _)
    (ite (bind getc fun _ => pure _) (ite (bind getc fun _ => pure _) getChar)))) (throw nofun)

theorem tripleQuoteLoop {allowEscape : Bool} {q : UInt8} {token : Bytes} :
    NoEof (tripleQuoteLoop allowEscape q fuel token) := by
  induction fuel generalizing token
  case zero => exact throw nofun
  case succ fuel hi =>
    exact bind peekChar fun _ =>
      ite (bind getc fun _ => bind peekChar fun _ => ite (bind getc fun _ => bind peekChar fun _ =>
      ite (bind getc fun _ => pure _) hi) hi)
        (ite (throw nofun) (ite (bind parseEscape fun _ => hi) (bind getc fun _ => hi)))

theorem tokenFromStream : NoEof (Relaxed.tokenFromStream fuel) :=
  fun _ => (Relaxed.ensures_tokenFromStream (Nat.le_refl _) (.inr nofun)).imp fun _ _ _ => trivial

theorem stringFromToken : NoEof (stringFromToken fuel) :=
  fun _ => (ensures_stringFromToken (Nat.le_refl _) (.inr nofun)).imp fun _ _ _ => trivial

theorem numberFromStream : NoEof (Relaxed.numberFromStream L false fuel) := by
  refine bind tokenFromStream fun token => ?_
  have hp := @ParseErrors.parseNumberOrStr false L token
  generalize parseNumberOrStr L false token = r at hp
  cases hp
  case ok     => exact ite (throw nofun) (pure _)
  case error  => exact throw nofun

theorem wordFromStream : NoEof (Relaxed.wordFromStream false fuel) :=
  bind tokenFromStream fun _ =>
    ite (throw nofun) (ite (pure _) (ite (pure _) (ite (pure _) (ite (throw nofun) (pure _)))))

theorem catchEof (x : Parser α) : NoEof (catchEof x) := by
  intro u
  unfold Ensures
  simp only [Json.catchEof, EStateM.run]
  cases x u
  case ok => exact trivial
  case error e s =>
    cases e
    all_goals exact fun m h => Error.noConfusion h

end NoEof

-- A string ends with the exception only if it is not closed.
theorem ensures_eof_string {s : Bytes} {e : Bool} :
    Ensures (Relaxed.stringFromStream false fuel) ⟨quote :: s, e⟩ Always fun e => NotEof e ∨
    openString false s := by
  have hnot {α : Type} {x : Parser α} (hx : NoEof x) (u : Stringstream) :
      Ensures x u Always fun e => NotEof e ∨ openString false s :=
    (hx u).mono (fun _ _ h => h) fun _ h => .inl h
  refine .bind (.of_run peekChar_cons (.bind (.of_run getChar_cons ?_)))
  cases s
  case nil => exact .bind (.of_run peek_nil ensures_eof_quoteLoop)
  case cons c s =>
    refine .bind (.of_run peek_cons (.ite (fun _ => ?_) fun _ => ensures_eof_quoteLoop))
    refine .bind (.of_run getc_cons
      (hnot (.bind .peek fun _ => .ite (.pure _) (.bind .getc fun _ => .tripleQuoteLoop)) _))

theorem CutOff.inside (h : CutOff L false u) : CutOff L true u := by
  cases h
  case stop hw hc    => exact .stop hw hc
  case string hw hs  => exact .string hw hs
  case array hw h    => exact .array hw h

theorem ensures_of_all {α : Type} {x : Parser α} {E : Error → Prop} (h : ∀ e, E e) :
    Ensures x u Always E := by
  unfold Ensures
  split
  case h_1 => trivial
  case h_2 => exact h _

-- Something was read by the parser, with some bounds.
def WasRead (L : LexicalCast) (u : Stringstream) (v : Variant) (u' : Stringstream) : Prop :=
  ∃ fuel stack d, (relaxedFromStream L fuel stack d).run u = .ok v u'

theorem ensures_eof_containerLoop {v : Parser Variant} {acc : List Variant}
    (hv : ∀ u, Ensures v u (WasRead L u) fun e => NotEof e ∨ CutOff L false u ∨ Ws u.unread) :
    Ensures (containerLoop closeBracket (elementFromStream v) fuel acc) u Always fun e => NotEof e ∨
    CutOff L true u := by
  induction fuel generalizing u acc
  case zero => exact .inl nofun
  case succ fuel hi =>
    obtain ⟨s, e⟩ := u
    cases s
    case nil => exact ensures_of_all fun _ => .inr (.last (List.forall_mem_nil _))
    case cons c s =>
      refine .bind (.of_run peek_cons
        (.ite (fun _ => ?close) fun _ => .ite (fun hc => ?comma) fun _ => ?_))
      case close => exact .bind (.of_run getc_cons trivial)
      case comma =>
        cases Option.some.inj hc
        exact .bind (.of_run getc_cons
          (hi.mono (fun _ _ h => h) fun _ => .imp_right (.comma (List.forall_mem_nil _))))
      refine .bind (ensures_skip.mono (fun b u' hskip => ?_) fun _ => .imp_right NulAhead.cutOff)
      cases b
      case true => exact hi.mono (fun _ _ h => h) fun _ => .imp_right hskip.cutOff
      case false =>
        -- Nothing was skipped, so that an element starts here.
        obtain ⟨s', e'⟩ := u'
        obtain ⟨w, -, hu, hhead, heof, hb⟩ := hskip
        cases (hb rfl).2
        cases hu
        cases heof (List.cons_ne_nil _ _)
        have hc := (hhead c rfl).1
        refine .bind (.bind ((hv _).mono (fun a u' hread => ?_) fun _ h => ?_))
        · obtain ⟨_, _, _, hread⟩ := hread
          refine .bind (ensures_skip.mono (fun b u'' hskip => ?_) fun _ => .imp_right fun h =>
            .value (List.forall_mem_nil _) hc hread h.cutOff)
          exact hi.mono (fun _ _ h => h) fun _ => .imp_right fun h =>
            .value (List.forall_mem_nil _) hc hread (hskip.cutOff h)
        · refine h.imp_right fun h => ?_
          rcases h with h | h
          case inl => exact h.inside
          case inr =>
            rw [h c (List.mem_cons_self ..)] at hc
            cases hc

theorem ensures_eof_variantSwitch {v : UInt32 → Parser Variant} {c : UInt8} {s : Bytes} {e : Bool}
    (hc : isSpace c = false)
    (hv : ∀ u d, Ensures (v d) u (WasRead L u) fun e => NotEof e ∨ CutOff L false u ∨ Ws u.unread)
    {n : Nat} :
    Ensures (Relaxed.variantSwitch (reader L false fuel) v d n) ⟨c :: s, e⟩ Always fun err =>
        NotEof err ∨ CutOff L false ⟨c :: s, e⟩ := by
  have hnot {α : Type} {x : Parser α} (hx : NoEof x) :
      Ensures x ⟨c :: s, e⟩ Always fun err => NotEof err ∨ CutOff L false ⟨c :: s, e⟩ :=
    (hx _).mono (fun _ _ h => h) fun _ h => .inl h
  have hnil : Ws [] := List.forall_mem_nil _
  cases n
  case zero => exact .inl nofun
  case succ n =>
    refine .bind (.of_run peekChar_cons
      (.ite (fun _ => trivial) fun _ => .ite (fun h => ?space) fun _ =>
      .ite (fun hq => ?string) fun _ =>
        .ite (fun _ => hnot (.bind (.catchEof _) fun _ => .pure _)) fun _ =>
        .ite (fun ha => ?array) fun _ =>
      .ite (fun _ => hnot .numberFromStream) fun _ => .ite (fun _ => hnot .wordFromStream) fun _ =>
        .ite (fun hs => ?stop) fun _ => ?other))
    case space =>
      rw [hc] at h
      cases h
    case string =>
      subst hq
      refine .bind (ensures_eof_string.mono (fun _ _ _ => trivial) fun _ => .imp_right fun h => ?_)
      exact .string hnil h
    case array =>
      subst ha
      refine .bind (Ensures.mono (Q := Always) ?_ (fun _ _ _ => trivial) fun _ h => h)
      refine .bind (.of_run peek_cons
        (.ite (fun h => absurd rfl h) fun _ => .bind (.of_run getc_cons ?_)))
      refine .bind (ensures_skip.mono (fun b u' hskip => ?_) fun _ => .imp_right fun h =>
        .array hnil h.cutOff)
      exact (ensures_eof_containerLoop fun u => hv u _).mono (fun _ _ h => h) fun _ =>
        .imp_right fun h => .array hnil (hskip.cutOff h)
    case stop => exact .inr (.stop hnil (.inr hs))
    case other => exact hnot (.bind .stringFromToken fun _ => .throw nofun)

-- The exception is thrown at the end, behind nothing but white space, or where the text is cut off.
theorem ensures_eof_fromStream : Ensures (relaxedFromStream L fuel stack d) u (WasRead L u)
    fun e => NotEof e ∨ CutOff L false u ∨ Ws u.unread := by
  induction stack generalizing u d
  case zero => exact .inl nofun
  case succ stack hi =>
    refine (Ensures.self (Q := Always)
      (.bind (ensures_skip.mono (fun b u' hskip => ?_) fun _ h => ?_))).imp fun a u' h => ?_
    · obtain ⟨s, e⟩ := u
      obtain ⟨s', e'⟩ := u'
      obtain ⟨w, hw, rfl, hhead, heof, -⟩ := hskip
      cases s'
      case nil =>
        refine ensures_of_all fun _ => .inr (.inr ?_)
        rw [List.append_nil]
        exact hw
      case cons c s =>
        cases heof (List.cons_ne_nil _ _)
        exact (ensures_eof_variantSwitch (hhead c rfl).1 fun u d => hi).mono
          (fun _ _ h => h) fun _ =>
          .imp_right fun h => .inl (h.spaces hw)
    · exact h.imp_right fun h => .inl h.cutOff
    · exact ⟨fuel, stack + 1, d, h⟩

section Stops

-- The exception is thrown.
def ThrowsEof {α : Type} (x : Parser α) (u : Stringstream) : Prop :=
  ∃ m u', x.run u = .error (.eof m) u'

theorem ThrowsEof.bind {α β : Type} {x : Parser α} {f : α → Parser β} (h : ThrowsEof x u) :
    ThrowsEof (x >>= f) u := by
  obtain ⟨m, u', h⟩ := h
  exact ⟨m, u', by rw [EStateM.run_bind, h]⟩

theorem ThrowsEof.of_run {α β : Type} {x : Parser α} {f : α → Parser β} {a : α} {u' : Stringstream}
    (hx : x.run u = .ok a u')
    (h : ThrowsEof (f a) u') : ThrowsEof (x >>= f) u := by
  obtain ⟨m, u'', h⟩ := h
  refine ⟨m, u'', ?_⟩
  rw [EStateM.run_bind, hx]
  exact h

-- The depth is not looked at.
theorem variantSwitch_depth {r : Reader} {v : UInt32 → Parser Variant} (hv : ∀ d d', v d = v d')
    (d d' : UInt32) {n : Nat} :
    Relaxed.variantSwitch r v d n = Relaxed.variantSwitch r v d' n := by
  induction n
  case zero => rfl
  case succ n hi =>
    have ha : arrayFromStream v n (d - 1) = arrayFromStream v n (d' - 1) := by
      rw [arrayFromStream, arrayFromStream, hv (d - 1 - 1) (d' - 1 - 1)]
    have ho : Relaxed.objectFromStream r.string v n (d - 1) =
        Relaxed.objectFromStream r.string v n (d' - 1) := by
      rw [Relaxed.objectFromStream, Relaxed.objectFromStream, hv (d - 1 - 1) (d' - 1 - 1)]
    rw [Relaxed.variantSwitch, Relaxed.variantSwitch, hi, ha, ho]

theorem relaxedFromStream_depth (d d' : UInt32) :
    relaxedFromStream L fuel stack d = relaxedFromStream L fuel stack d' := by
  induction stack generalizing d d'
  case zero => rfl
  case succ stack hi =>
    have hs := @variantSwitch_depth (reader L false fuel)
      (relaxedFromStream L fuel stack) hi d d' fuel
    rw [relaxedFromStream, relaxedFromStream, Relaxed.variantFromStream, Relaxed.variantFromStream]
    exact congrArg (fun x => skipWhiteSpace fuel >>= fun _ => x) hs

theorem reader_mono {fuel' : Nat} (hf : fuel ≤ fuel') :
    (reader L false fuel).Below Error.Limit (reader L false fuel') where
  string := approx_stringFromStream ignores_limit hf
  number := .bind (approx_tokenFromStream ignores_limit hf) fun _ => .refl _
  word   := .bind (approx_tokenFromStream ignores_limit hf) fun _ => .refl _

theorem relaxedFromStream_mono {fuel' stack' : Nat} (hf : fuel ≤ fuel') (hs : stack ≤ stack')
    (d' : UInt32) :
    Approx Error.Limit (relaxedFromStream L fuel stack d)
        (relaxedFromStream L fuel' stack' d') := by
  rw [relaxedFromStream_depth d d']
  exact approx_variantFromStream ignores_limit hf (reader_mono hf) hs

theorem skipWhiteSpace_nul {w s : Bytes} {e : Bool} (hw : Ws w) {n : Nat} (hn : w.length < n) :
    ThrowsEof (skipWhiteSpace n) ⟨w ++ 0 :: s, e⟩ := by
  rw [skipWhiteSpace]
  generalize false = skipped
  induction w generalizing n skipped
  case nil =>
    obtain ⟨n, rfl⟩ : ∃ k, n = k + 1 := ⟨n - 1, by omega⟩
    exact ⟨_, _, rfl⟩
  case cons c w hi =>
    obtain ⟨n, rfl⟩ : ∃ k, n = k + 1 := ⟨n - 1, by omega⟩
    obtain ⟨hc, hw⟩ := List.forall_mem_cons.mp hw
    obtain ⟨m, u', h⟩ := hi hw (Nat.lt_of_succ_lt_succ hn) true
    refine ⟨m, u', ?_⟩
    simp only [skipWhiteSpace.go, EStateM.run_bind, List.cons_append, peek_cons, hc, if_true,
      getc_cons]
    exact h

theorem skipWhiteSpace_last {w : Bytes} {e : Bool} (hw : Ws w) {n : Nat} (hn : w.length < n) :
    ∃ b, (skipWhiteSpace n).run ⟨w, e⟩ = .ok b ⟨[], true⟩ := by
  rw [skipWhiteSpace]
  generalize false = skipped
  induction w generalizing n skipped
  case nil =>
    obtain ⟨n, rfl⟩ : ∃ k, n = k + 1 := ⟨n - 1, by omega⟩
    exact ⟨_, rfl⟩
  case cons c w hi =>
    obtain ⟨n, rfl⟩ : ∃ k, n = k + 1 := ⟨n - 1, by omega⟩
    obtain ⟨hc, hw⟩ := List.forall_mem_cons.mp hw
    obtain ⟨b, h⟩ := hi hw (Nat.lt_of_succ_lt_succ hn) true
    refine ⟨b, ?_⟩
    simp only [skipWhiteSpace.go, EStateM.run_bind, peek_cons, hc, if_true, getc_cons]
    exact h

theorem quoteLoop_throws {s : Bytes} {e : Bool} {token : Bytes} (h : openString false s) {n : Nat}
    (hn : s.length < n) :
    ThrowsEof (quoteLoop true quote n token) ⟨s, e⟩ := by
  induction n generalizing s token e
  case zero => cases hn
  case succ n hi =>
    cases s
    case nil => exact ⟨_, _, rfl⟩
    case cons c s =>
      have hlt : s.length < n := Nat.lt_of_succ_lt_succ hn
      refine .of_run peekChar_cons ?_
      rw [openString] at h
      split at h
      case isTrue hc => rw [if_pos hc]; exact ⟨_, _, rfl⟩
      case isFalse hc =>
        split at h
        case isTrue => cases h
        case isFalse hend =>
          simp only [not_or] at hend
          rw [if_neg hc, if_neg hend.1, if_neg hend.2.1]
          by_cases hb : c = backslash
          case pos =>
            subst hb
            rw [if_pos ⟨rfl, rfl⟩]
            cases s
            case nil       => exact .of_run parseEscape_nil (hi rfl hlt)
            case cons b s  => exact .of_run parseEscape_cons (hi h (Nat.lt_of_succ_lt hlt))
          case neg =>
            rw [decide_eq_false hb] at h
            rw [if_neg fun h => hb h.2, if_neg (not_or.mpr hend.2.2)]
            exact .of_run getc_cons (hi h hlt)

theorem stringFromStream_throws {s : Bytes} {e : Bool} (h : openString false s) {n : Nat}
    (hn : s.length < n) :
    ThrowsEof (Relaxed.stringFromStream false n) ⟨quote :: s, e⟩ := by
  refine .of_run peekChar_cons (.of_run getChar_cons ?_)
  cases s
  case nil => exact .of_run peek_nil (quoteLoop_throws h hn)
  case cons c s =>
    have hc : some c ≠ some quote := by
      rintro hc
      cases hc
      cases h
    refine .of_run peek_cons ?_
    rw [if_neg hc]
    exact quoteLoop_throws h hn

-- With bounds that are large enough, a value cannot be read.
def NoValue (L : LexicalCast) (u : Stringstream) : Prop :=
  ∃ N, ∀ fuel stack d, N ≤ fuel → N ≤ stack → ThrowsEof (relaxedFromStream L fuel stack d) u

-- With bounds that are large enough, an array cannot be read to its end.
def NoArray (L : LexicalCast) (u : Stringstream) : Prop :=
  ∃ N, ∀ fuel stack d n n' acc, N ≤ fuel → N ≤ stack → N ≤ n → N ≤ n' →
    ThrowsEof (do let _ ← skipWhiteSpace n
                  containerLoop closeBracket
                    (elementFromStream (relaxedFromStream L fuel stack d)) n' acc) u

theorem NoValue.spaces {w s : Bytes} {c : UInt8} {e : Bool} (hw : Ws w) (hc : isSpace c = false)
    (h : NoValue L ⟨c :: s, e⟩) :
    NoValue L ⟨w ++ c :: s, e⟩ := by
  obtain ⟨N, hN⟩ := h
  refine ⟨N + w.length + 1, fun fuel stack d hf hs => ?_⟩
  obtain ⟨stack, rfl⟩ : ∃ k, stack = k + 1 := ⟨stack - 1, by omega⟩
  by_cases h0 : c = 0
  case pos =>
    subst h0
    exact (skipWhiteSpace_nul hw (by omega)).bind
  case neg =>
    obtain ⟨m, u', h⟩ := hN fuel (stack + 1) d (by omega) (by omega)
    refine ⟨m, u', ?_⟩
    rw [← h, relaxedFromStream, Relaxed.variantFromStream, EStateM.run_bind, EStateM.run_bind,
      skipWhiteSpace_run hw hc h0 (by omega)]
    have hskip := @skipWhiteSpace_run fuel c s [] e (List.forall_mem_nil _) hc h0 (by simp; omega)
    rw [List.nil_append] at hskip
    rw [hskip]

-- The loop reads an element here.
theorem containerLoop_element {c : UInt8} {s : Bytes} {e : Bool} (hc : isSpace c = false)
    (h0 : c ≠ 0) (hclose : c ≠ closeBracket)
    (hcomma : c ≠ comma) {v : Parser Variant} {n : Nat} (hn : 0 < n) (acc : List Variant) :
    (containerLoop closeBracket (elementFromStream v) (n + 1) acc).run ⟨c :: s, e⟩ =
      (elementFromStream v n acc >>= containerLoop closeBracket (elementFromStream v) n).run
          ⟨c :: s, e⟩ := by
  have hskip := @skipWhiteSpace_run n c s [] e (List.forall_mem_nil _) hc h0 hn
  rw [List.nil_append] at hskip
  rw [containerLoop, EStateM.run_bind, peek_cons]
  simp only [if_neg fun h => hclose (Option.some.inj h), if_neg fun h => hcomma (Option.some.inj h)]
  rw [EStateM.run_bind, hskip]
  rfl

theorem NoValue.noArray {w s : Bytes} {c : UInt8} {e : Bool} (hw : Ws w) (hc : isSpace c = false)
    (hclose : c ≠ closeBracket)
    (hcomma : c ≠ comma) (h : NoValue L ⟨c :: s, e⟩) : NoArray L ⟨w ++ c :: s, e⟩ := by
  obtain ⟨N, hN⟩ := h
  refine ⟨N + w.length + 2, fun fuel stack d n n' acc hf hs hn hn' => ?_⟩
  by_cases h0 : c = 0
  case pos =>
    subst h0
    exact (skipWhiteSpace_nul hw (by omega)).bind
  case neg =>
    refine .of_run (skipWhiteSpace_run hw hc h0 (by omega)) ?_
    obtain ⟨n', rfl⟩ : ∃ k, n' = k + 1 := ⟨n' - 1, by omega⟩
    obtain ⟨m, u', hu'⟩ := (hN fuel stack d (by omega) (by omega)).bind.bind
    exact ⟨m, u', (containerLoop_element hc h0 hclose hcomma (by omega) acc).trans hu'⟩

-- The loop skips white space by itself.
theorem NoArray.loop {s : Bytes} {e : Bool} (h : NoArray L ⟨s, e⟩) : ∃ N, ∀ fuel stack d n acc,
    N ≤ fuel → N ≤ stack → N ≤ n →
    ThrowsEof (containerLoop closeBracket
        (elementFromStream (relaxedFromStream L fuel stack d)) n acc) ⟨s, e⟩ := by
  obtain ⟨N, hN⟩ := h
  refine ⟨N + 2, fun fuel stack d n acc hf hs hn => ?_⟩
  obtain ⟨n, rfl⟩ : ∃ k, n = k + 1 := ⟨n - 1, by omega⟩
  cases s
  case nil =>
    obtain ⟨m, u', h⟩ :=
      hN fuel stack d (n + 1) (n + 1) acc (by omega) (by omega) (by omega) (by omega)
    exact ⟨m, u', h⟩
  case cons c s =>
    by_cases hc : isSpace c
    case pos =>
      have hne : some c ≠ some closeBracket ∧ some c ≠ some comma := by
        constructor
        all_goals
          rintro h
          cases h
          cases hc
      refine .of_run peek_cons ?_
      rw [if_neg hne.1, if_neg hne.2]
      obtain ⟨m, u', h⟩ := hN fuel stack d n n acc (by omega) (by omega) (by omega) (by omega)
      have hskips := @ensures_skip n ⟨c :: s, e⟩
      rw [EStateM.run_bind] at h
      cases hr : (skipWhiteSpace n).run ⟨c :: s, e⟩
      case error => rw [hr] at h; exact ⟨m, u', by rw [EStateM.run_bind, hr]; exact h⟩
      case ok b u'' =>
        rw [hr] at h
        have hb : b = true := by
          obtain ⟨w, -, hu, hhead, -, hb⟩ := hskips.ok hr
          by_contra hfalse
          rw [(hb (by simpa using hfalse)).2] at hu
          have hhead := (hhead c (by rw [← List.nil_append u''.unread, ← hu]; rfl)).1
          rw [hhead] at hc
          cases hc
        refine .of_run hr ?_
        rw [hb]
        exact ⟨m, u', h⟩
    case neg =>
      have hc : isSpace c = false := by simpa using hc
      by_cases h0 : c = 0
      case pos =>
        subst h0
        exact .of_run peek_cons
          (skipWhiteSpace_nul (List.forall_mem_nil _) (show 0 < n by omega)).bind
      case neg =>
        have hskip := @skipWhiteSpace_run n c s [] e (List.forall_mem_nil _) hc h0
          (show 0 < n by omega)
        obtain ⟨m, u', h⟩ :=
          hN fuel stack d n (n + 1) acc (by omega) (by omega) (by omega) (by omega)
        rw [EStateM.run_bind, ← List.nil_append (c :: s), hskip] at h
        exact ⟨m, u', h⟩

-- Where a value is read, there is none of these.
theorem relaxedFromStream_head {c : UInt8} {s : Bytes} {e : Bool} {v : Variant} {u : Stringstream}
    (hc : isSpace c = false)
    (h : (relaxedFromStream L fuel stack d).run ⟨c :: s, e⟩ = .ok v u) : c ≠ 0 ∧ c ≠ closeBracket ∧
    c ≠ comma := by
  cases stack
  case zero => cases h
  case succ stack =>
    rw [relaxedFromStream, Relaxed.variantFromStream, EStateM.run_bind] at h
    cases fuel
    case zero => cases h
    case succ fuel =>
      have hother (hc : isSpace c = false) (h0 : c ≠ 0) (hswitch : ∀ v : UInt32 → Parser Variant,
          (Relaxed.variantSwitch (reader L false (fuel + 1)) v d (fuel + 1)).run ⟨c :: s, e⟩ =
            (stringFromToken fuel >>= fun _ => throw (.parseError "Unexpected char")).run
              ⟨c :: s, e⟩) : False := by
        have hskip := @skipWhiteSpace_run (fuel + 1) c s [] e (List.forall_mem_nil _) hc h0
          (Nat.succ_pos _)
        rw [List.nil_append] at hskip
        rw [hskip] at h
        simp only [hswitch] at h
        rw [EStateM.run_bind] at h
        split at h
        case h_1 => cases h
        case h_2 => cases h
      refine ⟨?_, ?_, ?_⟩
      · rintro rfl
        cases h
      · rintro rfl
        exact hother rfl (by decide) fun _ => rfl
      · rintro rfl
        exact hother rfl (by decide) fun _ => rfl

theorem noValue_stop {c : UInt8} {s : Bytes} {e : Bool} (hc : c = 0 ∨ c = 0x04 ∨ c = 0xff) :
    NoValue L ⟨c :: s, e⟩ := by
  refine ⟨2, fun fuel stack d hf hs => ?_⟩
  obtain ⟨fuel, rfl⟩ : ∃ k, fuel = k + 1 := ⟨fuel - 1, by omega⟩
  obtain ⟨stack, rfl⟩ : ∃ k, stack = k + 1 := ⟨stack - 1, by omega⟩
  rcases hc with rfl | rfl | rfl
  all_goals exact ⟨_, _, rfl⟩

theorem noValue_string {s : Bytes} {e : Bool} (h : openString false s) :
    NoValue L ⟨quote :: s, e⟩ := by
  refine ⟨s.length + 2, fun fuel stack d hf hs => ?_⟩
  obtain ⟨m, u', hstring⟩ :=
    (@stringFromStream_throws s e h fuel (by omega)).bind (f := fun s => pure (Variant.string s))
  obtain ⟨fuel, rfl⟩ : ∃ k, fuel = k + 1 := ⟨fuel - 1, by omega⟩
  obtain ⟨stack, rfl⟩ : ∃ k, stack = k + 1 := ⟨stack - 1, by omega⟩
  exact ⟨m, u', hstring⟩

theorem noValue_array {s : Bytes} {e : Bool} (h : NoArray L ⟨s, e⟩) :
    NoValue L ⟨openBracket :: s, e⟩ := by
  obtain ⟨N, hN⟩ := h
  refine ⟨N + 2, fun fuel stack d hf hs => ?_⟩
  obtain ⟨fuel, rfl⟩ : ∃ k, fuel = k + 1 := ⟨fuel - 1, by omega⟩
  obtain ⟨stack, rfl⟩ : ∃ k, stack = k + 1 := ⟨stack - 1, by omega⟩
  obtain ⟨m, u', h⟩ :=
    (hN (fuel + 1) stack (d - 1 - 1) fuel fuel [] (by omega) (by omega) (by omega) (by omega)).bind
    (f := fun a => pure (Variant.array a))
  exact ⟨m, u', h⟩

theorem noArray_last {w : Bytes} {e : Bool} (hw : Ws w) : NoArray L ⟨w, e⟩ := by
  refine ⟨w.length + 2, fun fuel stack d n n' acc hf hs hn hn' => ?_⟩
  obtain ⟨b, hskip⟩ := @skipWhiteSpace_last w e hw n (by omega)
  refine .of_run hskip ?_
  obtain ⟨fuel, rfl⟩ : ∃ k, fuel = k + 1 := ⟨fuel - 1, by omega⟩
  obtain ⟨stack, rfl⟩ : ∃ k, stack = k + 1 := ⟨stack - 1, by omega⟩
  obtain ⟨n', rfl⟩ : ∃ k, n' = k + 2 := ⟨n' - 2, by omega⟩
  exact ⟨_, _, rfl⟩

theorem noArray_comma {w s : Bytes} {e : Bool} (hw : Ws w) (h : NoArray L ⟨s, e⟩) :
    NoArray L ⟨w ++ comma :: s, e⟩ := by
  obtain ⟨N, hN⟩ := h.loop
  refine ⟨N + w.length + 2, fun fuel stack d n n' acc hf hs hn hn' => ?_⟩
  refine .of_run (skipWhiteSpace_run hw (by decide) (by decide) (by omega)) ?_
  obtain ⟨n', rfl⟩ : ∃ k, n' = k + 1 := ⟨n' - 1, by omega⟩
  exact hN fuel stack d n' acc (by omega) (by omega) (by omega)

theorem noArray_value {w s : Bytes} {c : UInt8} {e : Bool} {v : Variant} (hw : Ws w)
    (hc : isSpace c = false)
    (hread : (relaxedFromStream L fuel stack d).run ⟨c :: s, e⟩ = .ok v u) (h : NoArray L u) :
    NoArray L ⟨w ++ c :: s, e⟩ := by
  obtain ⟨N, hN⟩ := h
  obtain ⟨h0, hclose, hcomma⟩ := relaxedFromStream_head hc hread
  refine ⟨N + w.length + fuel + stack + 2, fun fuel' stack' d' n n' acc hf hs hn hn' => ?_⟩
  have hread' := (@relaxedFromStream_mono L fuel stack d fuel' stack' (by omega)
    (by omega) d').ok hread
  refine .of_run (skipWhiteSpace_run hw hc h0 (by omega)) ?_
  obtain ⟨n', rfl⟩ : ∃ k, n' = k + 1 := ⟨n' - 1, by omega⟩
  obtain ⟨m, u', hloop⟩ :=
    hN fuel' stack' d' n' n' (acc ++ [v]) (by omega) (by omega) (by omega) (by omega)
  refine ⟨m, u', (containerLoop_element hc h0 hclose hcomma (by omega) acc).trans ?_⟩
  rw [elementFromStream, bind_assoc, EStateM.run_bind, hread']
  simp only [bind_assoc, pure_bind]
  exact hloop

-- Where the text is cut off, nothing can be read.
theorem CutOff.throws {inside : Bool} (h : CutOff L inside u) :
    if inside then NoArray L u else NoValue L u := by
  induction h
  case stop inside e w s c hw hc =>
    have hcore := @noValue_stop L c s e hc
    have hne : isSpace c = false ∧ c ≠ closeBracket ∧ c ≠ Ascii.comma := by
      rcases hc with rfl | rfl | rfl <;> decide
    cases inside
    case false => exact hcore.spaces hw hne.1
    case true  => exact hcore.noArray hw hne.1 hne.2.1 hne.2.2
  case string inside e w s hw hs =>
    have hcore := @noValue_string L s e hs
    cases inside
    case false => exact hcore.spaces hw (by decide)
    case true  => exact hcore.noArray hw (by decide) (by decide) (by decide)
  case array inside e w s hw _ hi =>
    have hcore := noValue_array hi
    cases inside
    case false => exact hcore.spaces hw (by decide)
    case true  => exact hcore.noArray hw (by decide) (by decide) (by decide)
  case last hw                => exact noArray_last hw
  case comma hw _ hi          => exact noArray_comma hw hi
  case value hw hc hread _ hi => exact noArray_value hw hc hread hi

end Stops

section Statement

variable {str : Bytes} {ptype : ParseType}

-- Values that are read one after the other.
inductive Values (parse : Parser Variant) : Stringstream → List Variant → Stringstream → Prop
  | nil (u : Stringstream) : Values parse u [] u
  | cons {u u' u'' : Stringstream} {v : Variant} {vs : List Variant}
    (hread : parse.run u = .ok v u')
      (h : Values parse u' vs u'') : Values parse u (v :: vs) u''

def documentParser (L : LexicalCast) (str : Bytes) (maxDepth : UInt32) : Parser Variant :=
  relaxedFromStream L (fuelFor str) (stackFor str) maxDepth

-- Whatever is returned are all the values of the text.
def ReportsTruncation (L : LexicalCast) (str : Bytes) (ptype : ParseType) (maxDepth : UInt32) :
    Prop :=
  ∀ vs u, variantsFromString L (fuelFor str) (stackFor str) str ptype maxDepth = .ok vs u →
    ∃ u', Values (documentParser L str maxDepth) ⟨str, false⟩ vs u' ∧ Ws u'.unread

theorem variantsLoop_eq_ok {parse : Parser Variant} {result vs : List Variant} {u' : Stringstream}
    (h : (variantsLoop parse fuel result).run u = .ok vs u') :
    ∃ vs' u'', vs = result ++ vs' ∧ Values parse u vs' u'' ∧ ThrowsEof parse u'' := by
  induction fuel generalizing u result
  case zero => cases h
  case succ fuel hi =>
    simp only [variantsLoop, EStateM.run] at h
    split at h
    case h_1 v s hv =>
      obtain ⟨vs', u'', rfl, hvalues, hstop⟩ := hi h
      exact ⟨v :: vs', u'', List.append_assoc .., .cons hv hvalues, hstop⟩
    case h_2 m s hv =>
      cases h
      exact ⟨[], u, (List.append_nil _).symm, .nil u, m, _, hv⟩
    case h_3 => cases h

theorem variantsLoop_of_values {parse : Parser Variant} {result vs : List Variant}
    {u' : Stringstream}
    (h : Values parse u vs u') (hstop : ThrowsEof parse u') (hf : vs.length < fuel) :
    ∃ u'', (variantsLoop parse fuel result).run u = .ok (result ++ vs) u'' := by
  induction h generalizing fuel result
  case nil =>
    obtain ⟨fuel, rfl⟩ : ∃ k, fuel = k + 1 := ⟨fuel - 1, by omega⟩
    obtain ⟨m, u'', hu''⟩ := hstop
    refine ⟨u'', ?_⟩
    simp only [variantsLoop, EStateM.run] at hu'' ⊢
    rw [hu'', List.append_nil]
  case cons v vs hread _ hi =>
    obtain ⟨fuel, rfl⟩ : ∃ k, fuel = k + 1 := ⟨fuel - 1, by omega⟩
    obtain ⟨u'', hu''⟩ := @hi fuel (result ++ [v]) hstop (Nat.lt_of_succ_lt_succ hf)
    refine ⟨u'', ?_⟩
    simp only [variantsLoop, EStateM.run] at hread hu'' ⊢
    rw [hread]
    simp only [hu'', List.append_assoc, List.singleton_append]

-- Every value takes a byte.
theorem Values.length_le {vs : List Variant} {u' : Stringstream}
    (h : Values (relaxedFromStream L fuel stack d) u vs u') :
    vs.length + u'.unread.length ≤ u.unread.length := by
  induction h
  case nil => simp
  case cons u u' u'' v vs hread _ hi =>
    have hlt := (@ensures_ne_unclosed L fuel stack u d _ (Nat.le_refl _)).ok hread
    rw [List.length_cons]
    have : u'.unread.length < u.unread.length := hlt
    omega

theorem Values.unique {parse : Parser Variant} {vs : List Variant} {u' u'' : Stringstream}
    (h : Values parse u vs u')
    (h' : Values parse u vs u'') : u' = u'' := by
  induction h
  case nil => cases h'; rfl
  case cons hread _ hi =>
    cases h'
    case cons hread' h' =>
      rw [hread] at hread'
      cases hread'
      exact hi h'

theorem CutOff.not_ws (h : CutOff L false u) : ¬Ws u.unread := by
  cases h
  case stop hw hc =>
    intro hws
    have hspace := hws _ (List.mem_append_right _ (List.mem_cons_self ..))
    rcases hc with rfl | rfl | rfl
    all_goals cases hspace
  case string     =>
    exact fun hws => absurd (hws quote (List.mem_append_right _ (List.mem_cons_self ..)))
      (by decide)
  case array      =>
    exact fun hws => absurd (hws openBracket (List.mem_append_right _ (List.mem_cons_self ..)))
      (by decide)

-- The bounds for the text are large enough.
theorem CutOff.documentParser_throws {n : Nat} (h : CutOff L false u) (hn : u.unread.length ≤ n)
    (hstr : n ≤ str.length) :
    ThrowsEof (documentParser L str d) u := by
  obtain ⟨N, hN⟩ : NoValue L u := h.throws
  obtain ⟨m, u', hu'⟩ :=
    hN (max N (fuelFor str)) (max N (stackFor str)) d (le_max_left ..) (le_max_left ..)
  have hguards := @guards_variantFromStream L d
  have hnot : ∀ e u', (guardedFromStream L (fuelFor str) (stackFor str) d).run u = .error e u' →
    ¬e.Limit :=
    fun e u' he => (guarded_ensures hn hstr).error he
  have hlarge : (relaxedFromStream L (max N (fuelFor str)) (max N (stackFor str)) d).run u =
      (guardedFromStream L (max N (fuelFor str)) (max N (stackFor str)) d).run u := by
    refine hguards.below.eq fun e u'' he hlimit => ?_
    rw [← relaxedFromStream, hu'] at he
    cases he
    rcases hlimit with h | h
    all_goals cases h
  have hsmall : (guardedFromStream L (fuelFor str) (stackFor str) d).run u =
      (guardedFromStream L (max N (fuelFor str)) (max N (stackFor str)) d).run u :=
    (hguards.mono (le_max_right ..) (le_max_right ..)).eq hnot
  have hguarded : (guardedFromStream L (fuelFor str) (stackFor str) d).run u =
      .error (.eof m) u' := by
    rw [hsmall, ← hlarge, hu']
  refine ⟨m, u', ?_⟩
  rw [← hguarded, documentParser, relaxedFromStream]
  refine (hguards.above.eq fun e u'' he hbad => ?_).symm
  rw [hguarded] at he
  cases he
  rcases hbad with (h | h) | h
  all_goals cases h

-- Nowhere where a value is to be read is the text cut off.
def NowhereCutOff (L : LexicalCast) (str : Bytes) (maxDepth : UInt32) : Prop :=
  ∀ vs u, Values (documentParser L str maxDepth) ⟨str, false⟩ vs u → ¬CutOff L false u

end Statement

end Truncation

end Json
