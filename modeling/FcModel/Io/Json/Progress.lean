import FcModel.Io.Json.Parse
import FcModel.Lib.Run

-- No function of the parsers puts characters back, and what reads a value consumes some. So a loop
-- ends when the characters are used up, if not before.

namespace Json

open Ascii

variable {α : Type} {E : Error → Prop} {fuel n m : Nat} {s : Stringstream} {b : UInt8}

-- There are at most `n` characters left.
def AtMost (n : Nat) (_ : α) (s : Stringstream) : Prop :=
  s.unread.length ≤ n

def Fewer (n : Nat) (_ : α) (s : Stringstream) : Prop :=
  s.unread.length < n

theorem AtMost.of_eq {a : α} {s' : Stringstream} (h : AtMost n a s) (hs : s'.unread = s.unread) :
    s'.unread.length ≤ n := by
  rw [hs]
  exact h

-- All the exceptions of the code are in `E`.
structure Closed (E : Error → Prop) : Prop where
  eof        : ∀ m, E (.eof m)
  parseError : ∀ m, E (.parseError m)
  assertion  : ∀ m, E (.assertion m)

-- A bound is not exceeded while there are `n` characters left, unless it may be exceeded.
def Enough (e : Prop) (bound n : Nat) : Prop :=
  n < bound ∨ e

theorem Enough.step {e : Prop} (h : Enough e (fuel + 1) n) (hm : m < n) : Enough e fuel m :=
  h.imp (by omega) id

theorem Enough.le {e : Prop} (h : Enough e fuel n) (hm : m ≤ n) : Enough e fuel m :=
  h.imp (by omega) id

theorem Enough.zero {e : Prop} (h : Enough e 0 n) : e :=
  h.resolve_left (Nat.not_lt_zero n)

section Shared

theorem ensures_peek {Q : Option UInt8 → Stringstream → Prop}
    (h : ∀ s', s'.unread = s.unread → Q s'.unread.head? s') : Ensures peek s Q E := by
  obtain ⟨u, e⟩ := s
  cases u
  case nil  => exact h ⟨[], true⟩ rfl
  case cons => exact h _ rfl

theorem ensures_peekChar {Q : UInt8 → Stringstream → Prop}
    (h : ∀ s', s'.unread = s.unread → Q (s'.unread.head?.getD 0xff) s') : Ensures peekChar s Q E :=
  .bind (ensures_peek fun s' hs => h s' hs)

theorem ensures_getc {c : UInt8} (h : s.unread.head? = some c) (hn : s.unread.length ≤ n) :
    Ensures getc s (Fewer n) E := by
  obtain ⟨u, e⟩ := s
  cases u
  case nil  => cases h
  case cons => exact hn

theorem ensures_getc_atMost (hn : s.unread.length ≤ n) : Ensures getc s (AtMost n) E := by
  obtain ⟨u, e⟩ := s
  cases u
  case nil  => exact hn
  case cons => exact Nat.le_of_succ_le hn

-- If the next character is not the one that stands for the end, there is one.
theorem ensures_getc_of_ne (h : s.unread.head?.getD 0xff ≠ 0xff) (hn : s.unread.length ≤ n) :
    Ensures getc s (Fewer n) E := by
  cases hc : s.unread.head?
  case none   => rw [hc] at h; exact absurd rfl h
  case some c => exact ensures_getc hc hn

theorem ensures_getChar_of_ne (h : s.unread.head?.getD 0xff ≠ 0xff) (hn : s.unread.length ≤ n) :
    Ensures getChar s (Fewer n) E :=
  .bind ((ensures_getc_of_ne h hn).imp fun _ _ h => h)

theorem ensures_parseEscape (h : s.unread.head?.getD 0xff = backslash) (hn : s.unread.length ≤ n) :
    Ensures parseEscape s (Fewer n) E := by
  obtain ⟨u, e⟩ := s
  cases u
  case nil => cases h
  case cons c q =>
    have hc : c = backslash := h
    subst hc
    cases q
    case nil  => exact .of_run parseEscape_nil (Nat.lt_of_lt_of_le Nat.zero_lt_one hn)
    case cons => exact .of_run parseEscape_cons (Nat.lt_of_lt_of_le (by simp) hn)

-- What is left does not start with white space, and not with a NUL.
def Skipped (n : Nat) (skipped : Bool) (b : Bool) (s : Stringstream) : Prop :=
  AtMost n b s ∧ (b = true → skipped = true ∨ Fewer n b s) ∧
    ∀ c, s.unread.head? = some c → isSpace c = false ∧ c ≠ 0

theorem ensures_skipWhiteSpace_go (hE : Closed E) {skipped : Bool} (hn : s.unread.length ≤ n)
    (hf : Enough (E .fuel) fuel n) :
    Ensures (skipWhiteSpace.go fuel skipped) s (Skipped n skipped) E := by
  induction fuel generalizing s n skipped
  case zero => exact hf.zero
  case succ fuel hi =>
    obtain ⟨u, e⟩ := s
    cases u
    case nil => exact ⟨Nat.zero_le _, .inl, nofun⟩
    case cons c q =>
      refine .bind (.of_run peek_cons (.ite (fun _ => ?space) fun hs => .ite (fun _ => hE.eof _) fun h0 => ?char))
      case space =>
        have hlt : q.length < n := hn
        refine .bind (.of_run getc_cons ((hi (Nat.le_refl _) (hf.step hlt)).imp fun b s' ⟨h, _, hh⟩ => ?_))
        exact ⟨h.trans hlt.le, fun _ => .inr (h.trans_lt hlt), hh⟩
      case char =>
        refine ⟨hn, .inl, fun c' hc => ?_⟩
        obtain rfl : c = c' := Option.some.inj hc
        exact ⟨by simpa using hs, h0⟩

theorem ensures_skipWhiteSpace (hE : Closed E) (hn : s.unread.length ≤ n)
    (hf : Enough (E .fuel) fuel n) :
    Ensures (skipWhiteSpace fuel) s (Skipped n false) E :=
  ensures_skipWhiteSpace_go hE hn hf

theorem ensures_stringFromToken_go {token : Bytes} (hn : s.unread.length ≤ n)
    (hf : Enough (E .fuel) fuel n) : Ensures (stringFromToken.go fuel token) s (AtMost n) E := by
  induction fuel generalizing s n token
  case zero => exact hf.zero
  case succ fuel hi =>
    have hloop {s' : Stringstream} {token : Bytes} (h : s'.unread.length < n) :
        Ensures (stringFromToken.go fuel token) s' (AtMost n) E :=
      (hi (Nat.le_refl _) (hf.step h)).imp fun _ _ h' => h'.trans h.le
    refine .bind (.of_run rfl (.ite (fun _ => hn) fun _ => .bind (ensures_peekChar fun s' hs => ?_)))
    rw [← hs] at hn
    refine .ite (fun hc => ?escape) fun _ => .ite (fun hc => ?space) fun _ =>
      .ite (fun _ => hn) fun _ => .ite (fun hc => ?char) fun _ => hn
    case escape => exact .bind ((ensures_parseEscape hc hn).imp fun _ _ h => hloop h)
    case space =>
      have hne : s'.unread.head?.getD 0xff ≠ 0xff := by rcases hc with h | h | h <;> rw [h] <;> decide
      exact .bind ((ensures_getc_of_ne hne hn).imp fun _ _ h => h.le)
    case char =>
      have hne : s'.unread.head?.getD 0xff ≠ 0xff := fun h => by rw [h] at hc; cases hc
      exact .bind ((ensures_getc_of_ne hne hn).imp fun _ _ h => hloop h)

theorem ensures_stringFromToken (hn : s.unread.length ≤ n) (hf : Enough (E .fuel) fuel n) :
    Ensures (stringFromToken fuel) s (AtMost n) E :=
  .bind (ensures_peekChar fun _ hs => ensures_stringFromToken_go (hs ▸ hn) hf)

theorem ensures_containerLoop (hE : Closed E) {γ : Type} {close : UInt8} {item : Nat → γ → Parser γ}
    {acc : γ}
    (hi : ∀ {s' m fuel acc}, s'.unread.length ≤ m → m ≤ n → Enough (E .fuel) fuel m →
      Ensures (item fuel acc) s' (Fewer m) E) (hn : s.unread.length ≤ n)
    (hf : Enough (E .fuel) fuel (n + 1)) :
    Ensures (containerLoop close item fuel acc) s (Fewer n) E := by
  induction fuel generalizing s n acc
  case zero => exact hf.zero
  case succ fuel ih =>
    have hskip : Enough (E .fuel) fuel n := hf.step (Nat.lt_succ_self _)
    -- Whatever was consumed, the loop goes on with less.
    have hloop {s' : Stringstream} {acc : γ} (h : s'.unread.length < n) :
        Ensures (containerLoop close item fuel acc) s' (Fewer n) E :=
      (ih (fun hs hm => hi hs (hm.trans h.le)) (Nat.le_refl _) (hf.step (Nat.succ_lt_succ h))).imp
        fun _ _ h' => h'.trans h
    refine .bind (ensures_peek fun s' hs => ?_)
    rw [← hs] at hn
    refine .ite (fun hc => ?close) fun _ => .ite (fun hc => ?comma) fun _ => ?_
    case close => exact .bind (ensures_getc hc hn)
    case comma => exact .bind ((ensures_getc hc hn).imp fun _ _ h => hloop h)
    refine .bind ((ensures_skipWhiteSpace hE hn hskip).imp fun b s' ⟨h, hb, _⟩ => ?_)
    refine .ite (fun hc => hloop ((hb hc).resolve_left Bool.false_ne_true)) fun _ => ?_
    exact .bind ((hi h (Nat.le_refl _) hskip).imp fun _ _ h => hloop h)

theorem ensures_elementFromStream (hE : Closed E) {v : Parser Variant} {ar : List Variant}
    (hv : Ensures v s (Fewer n) E) (hf : Enough (E .fuel) fuel n) :
    Ensures (elementFromStream v fuel ar) s (Fewer n) E := by
  refine .bind (hv.imp fun _ s' h => ?_)
  exact .bind ((ensures_skipWhiteSpace hE (Nat.le_refl _) (hf.le h.le)).imp fun _ _ ⟨h', _⟩ => h'.trans_lt h)

theorem ensures_arrayFromStream (hE : Closed E) {v : UInt32 → Parser Variant} {d : UInt32}
    (hv : ∀ {s' m}, s'.unread.length ≤ m → m < n → Ensures (v (d - 1)) s' (Fewer m) E)
    (hn : s.unread.length ≤ n) (hf : Enough (E .fuel) fuel n) :
    Ensures (arrayFromStream v fuel d) s (Fewer n) E := by
  refine .bind (ensures_peek fun s' hs => .ite (fun _ => hE.parseError _) fun hc => ?_)
  refine .bind ((ensures_getc (not_not.mp hc) (hs ▸ hn)).imp fun _ s' h => ?_)
  refine .bind ((ensures_skipWhiteSpace hE (Nat.le_refl _) (hf.le h.le)).imp fun _ s'' ⟨h', _⟩ => ?_)
  have hlt : s''.unread.length < n := h'.trans_lt h
  have hloop := @ensures_containerLoop E _ _ s'' hE _ closeBracket (elementFromStream (v (d - 1))) [] (fun hs hm hf =>
    ensures_elementFromStream hE (hv hs (hm.trans_lt hlt)) hf) (Nat.le_refl _) (hf.le hlt)
  exact hloop.imp fun _ _ h => h.trans hlt

theorem ensures_catchEof (hE : Closed E) {x : Parser α} {Q : α → Stringstream → Prop}
    (h : Ensures x s Q E) :
    Ensures (catchEof x) s Q E := by
  unfold Ensures at *
  simp only [catchEof, EStateM.run] at *
  split at h
  case h_1 hx => simpa only [hx] using h
  case h_2 e s' hx =>
    cases e
    case eof => simpa only [hx] using hE.parseError _
    all_goals simpa only [hx] using h

end Shared

section Legacy

-- After the end has been reached there is one more round.
theorem ensures_stringFromStream_go (hE : Closed E) {token : Bytes} (hn : s.unread.length ≤ n)
    (hf : Enough (E .fuel) fuel (n + 1)) :
    Ensures (stringFromStream.go fuel token) s (AtMost n) E := by
  induction fuel generalizing s n token
  case zero => exact hf.zero
  case succ fuel hi =>
    obtain ⟨u, e⟩ := s
    refine .bind (.of_run rfl (.ite (fun _ => hE.parseError _) ?_))
    cases u
    case nil =>
      intro _
      cases fuel
      case zero => exact hf.resolve_left (by omega)
      case succ => exact hE.parseError _
    case cons c q =>
      have hloop {s' : Stringstream} {token : Bytes} (h : s'.unread.length < n) :
          Ensures (stringFromStream.go fuel token) s' (AtMost n) E :=
        (hi (Nat.le_refl _) (hf.step (Nat.succ_lt_succ h))).imp fun _ _ h' => h'.trans h.le
      refine fun _ => .bind (.of_run peekChar_cons (.ite (fun hc => ?escape) fun _ =>
        .ite (fun _ => hE.parseError _) fun _ => .ite (fun _ => ?close) fun _ => ?char))
      case escape => exact .bind ((ensures_parseEscape (s := ⟨c :: q, e⟩) hc hn).imp fun _ _ h => hloop h)
      case close  => exact .bind (.of_run getc_cons (Nat.le_of_succ_le hn))
      case char   => exact .bind (.of_run getc_cons (hloop hn))

theorem ensures_stringFromStream (hE : Closed E) (hn : s.unread.length ≤ n)
    (hf : Enough (E .fuel) fuel n) :
    Ensures (stringFromStream fuel) s (Fewer n) E := by
  refine .bind (ensures_peekChar fun s' hs => .ite (fun _ => hE.parseError _) fun hc => ?_)
  have hne : s'.unread.head?.getD 0xff ≠ 0xff := by rw [not_not.mp hc]; decide
  refine .bind ((ensures_getc_of_ne hne (hs ▸ hn)).imp fun _ s' h => ?_)
  exact (ensures_stringFromStream_go hE (Nat.le_refl _) (hf.le h)).imp fun _ _ h' => h'.trans_lt h

theorem ensures_numberFromStream_go (hE : Closed E) {ss : Bytes} {dot : Bool}
    (hn : s.unread.length ≤ n)
    (hf : Enough (E .fuel) fuel (n + 1)) :
    Ensures (numberFromStream.go fuel ss dot) s (AtMost n) E := by
  induction fuel generalizing s n ss dot
  case zero => exact hf.zero
  case succ fuel hi =>
    have hloop {s' : Stringstream} {ss : Bytes} {dot : Bool} (h : s'.unread.length < n) :
        Ensures (numberFromStream.go fuel ss dot) s' (AtMost n) E :=
      (hi (Nat.le_refl _) (hf.step (Nat.succ_lt_succ h))).imp fun _ _ h' => h'.trans h.le
    refine .bind (ensures_peekChar fun s' hs => ?_)
    rw [← hs] at hn
    refine .ite (fun hc => .ite (fun _ => hE.parseError _) fun _ => ?dot) fun _ => .ite (fun hc => ?digit) fun _ =>
      .ite (fun _ => hn) fun _ => .ite (fun _ => ?token) fun _ => hn
    case dot =>
      have hne : s'.unread.head?.getD 0xff ≠ 0xff := by rw [hc]; decide
      exact .bind ((ensures_getChar_of_ne hne hn).imp fun _ _ h => hloop h)
    case digit =>
      have hne : s'.unread.head?.getD 0xff ≠ 0xff := fun h => by rw [h] at hc; cases hc
      exact .bind ((ensures_getChar_of_ne hne hn).imp fun _ _ h => hloop h)
    case token => exact .bind ((ensures_stringFromToken hn (hf.step (Nat.lt_succ_self _))).imp fun _ _ h => h)

-- A point or a digit is consumed.
theorem ensures_numberFromStream_go_starts (hE : Closed E) {ss : Bytes} {c : UInt8} {q : Bytes}
    {e : Bool}
    (hc : c = dot ∨ isDigit c) (hn : q.length < n) (hf : Enough (E .fuel) fuel (n + 1)) :
    Ensures (numberFromStream.go fuel ss false) ⟨c :: q, e⟩ (Fewer n) E := by
  cases fuel
  case zero => exact hf.zero
  case succ fuel =>
    have hloop {ss : Bytes} {dot : Bool} : Ensures (numberFromStream.go fuel ss dot) ⟨q, e⟩ (Fewer n) E :=
      (ensures_numberFromStream_go hE (Nat.le_refl _) (hf.step (Nat.succ_lt_succ hn))).imp
        fun _ _ h => h.trans_lt hn
    refine .bind (.of_run peekChar_cons (.ite (fun _ => .ite (fun _ => hE.parseError _) fun _ => ?_) fun h =>
      .ite (fun _ => ?_) fun h' => absurd hc (not_or.mpr ⟨h, h'⟩)))
    all_goals exact .bind (.of_run getChar_cons hloop)

theorem ensures_converted (hE : Closed E) {v : Option α} {m : String} {Q : α → Stringstream → Prop}
    (h : ∀ a, Q a s) : Ensures (converted v m) s Q E := by
  cases v
  case none   => exact hE.parseError _
  case some a => exact h a

theorem ensures_numberFromStream_result (hE : Closed E) {L : LexicalCast} {sd neg : Bool}
    {r : Scanned}
    (hs : s.unread.length < n) : Ensures (numberFromStream.result L sd neg r) s (Fewer n) E := by
  cases r
  case token => exact hs
  case number str dot =>
    refine .ite (fun _ => hE.parseError _) fun _ => .ite (fun _ => .ite (fun _ => hs) fun _ => ?_) fun _ =>
      .ite (fun _ => ?_) fun _ => ?_
    all_goals exact .bind (ensures_converted hE fun _ => hs)

theorem ensures_numberFromStream (hE : Closed E) {L : LexicalCast} {sd : Bool} {c : UInt8}
    {q : Bytes} {e : Bool}
    (hc : startsNumber c) (hn : q.length < n) (hf : Enough (E .fuel) fuel (n + 1)) :
    Ensures (numberFromStream L sd fuel) ⟨c :: q, e⟩ (Fewer n) E := by
  refine .bind (.of_run peek_cons (.ite (fun _ => ?minus) fun hm => ?digit))
  case minus =>
    refine .bind (.of_run getChar_cons (.bind ?_))
    exact (ensures_numberFromStream_go hE (Nat.le_refl _) (hf.le (Nat.succ_le_succ hn.le))).imp fun _ _ h =>
      ensures_numberFromStream_result hE (h.trans_lt hn)
  case digit =>
    have hc : c = minus ∨ c = dot ∨ isDigit c := by simpa [startsNumber] using hc
    have hc := hc.resolve_left fun h => hm (congrArg some h)
    exact .bind ((ensures_numberFromStream_go_starts hE hc hn hf).imp fun _ _ h =>
      ensures_numberFromStream_result hE h)

theorem ensures_tokenFromStream_go {ss : Bytes} (hn : s.unread.length ≤ n)
    (hf : Enough (E .fuel) fuel n) :
    Ensures (tokenFromStream.go fuel ss) s (AtMost n) E := by
  induction fuel generalizing s n ss
  case zero => exact hf.zero
  case succ fuel hi =>
    refine .bind (ensures_peekChar fun s' hs => ?_)
    rw [← hs] at hn
    refine .ite (fun hc => ?_) fun _ => hn
    have hne : s'.unread.head?.getD 0xff ≠ 0xff := fun h => by rw [h] at hc; revert hc; decide
    exact .bind ((ensures_getChar_of_ne hne hn).imp fun _ _ h =>
      (hi (Nat.le_refl _) (hf.step h)).imp fun _ _ h' => h'.trans h.le)

theorem ensures_tokenFromStream {c : UInt8} {q : Bytes} {e : Bool} (hc : c ∈ ascii "nultrefas")
    (hn : q.length < n) (hf : Enough (E .fuel) fuel n) :
    Ensures (tokenFromStream fuel) ⟨c :: q, e⟩ (Fewer n) E := by
  have hgo : Ensures (tokenFromStream.go fuel []) ⟨c :: q, e⟩ (Fewer n) E := by
    cases fuel
    case zero => exact hf.zero
    case succ fuel =>
      refine .bind (.of_run peekChar_cons (.ite (fun _ => ?_) (absurd hc)))
      exact .bind (.of_run getChar_cons ((ensures_tokenFromStream_go (Nat.le_refl _) (hf.step hn)).imp
        fun _ _ h => h.trans_lt hn))
  refine .bind (hgo.imp fun str s' h => .ite (fun _ => h) fun _ => .ite (fun _ => h) fun _ =>
    .ite (fun _ => h) fun _ => ?_)
  exact .bind ((ensures_stringFromToken (Nat.le_refl _) (hf.le h.le)).imp fun _ _ h' => h'.trans_lt h)

theorem ensures_entryFromStream (hE : Closed E) {v : Parser Variant} {obj : List (Bytes × Variant)}
    (hv : ∀ {s' m}, s'.unread.length ≤ m → m ≤ n → Ensures v s' (Fewer m) E)
    (hn : s.unread.length ≤ n)
    (hf : Enough (E .fuel) fuel n) : Ensures (entryFromStream v fuel obj) s (Fewer n) E := by
  refine .bind ((ensures_stringFromStream hE hn hf).imp fun key s' h => ?_)
  refine .bind ((ensures_skipWhiteSpace hE (Nat.le_refl _) (hf.le h.le)).imp fun _ s' ⟨h', _⟩ => ?_)
  refine .bind (ensures_peek fun s' hs => .ite (fun _ => hE.parseError _) fun hc => ?_)
  refine .bind ((ensures_getc (not_not.mp hc) (Nat.le_refl _)).imp fun _ s'' h'' => ?_)
  have hlt : s''.unread.length < n := h''.trans (hs ▸ Nat.lt_of_le_of_lt h' h)
  exact .bind ((hv (Nat.le_refl _) hlt.le).imp fun _ _ h => h.trans hlt)

theorem ensures_objectFromStream (hE : Closed E) {v : UInt32 → Parser Variant} {d : UInt32}
    (hv : ∀ {s' m}, s'.unread.length ≤ m → m < n → Ensures (v (d - 1)) s' (Fewer m) E)
    (hn : s.unread.length ≤ n) (hf : Enough (E .fuel) fuel n) :
    Ensures (objectFromStream v fuel d) s (Fewer n) E := by
  refine ensures_catchEof hE (.bind (ensures_peekChar fun s' hs => .ite (fun _ => hE.parseError _) fun hc => ?_))
  have hne : s'.unread.head?.getD 0xff ≠ 0xff := by rw [not_not.mp hc]; decide
  refine .bind ((ensures_getc_of_ne hne (hs ▸ hn)).imp fun _ s' h => ?_)
  have hloop := @ensures_containerLoop E _ _ s' hE _ closeBrace (entryFromStream (v (d - 1))) [] (fun hs hm hf =>
    ensures_entryFromStream hE (fun hs' hm' => hv hs' ((hm'.trans hm).trans_lt h)) hs hf) (Nat.le_refl _) (hf.le h)
  exact hloop.imp fun _ _ h' => h'.trans h

variable {L : LexicalCast} {sd : Bool}

theorem ensures_variantSwitch (hE : Closed E) {v : UInt32 → Parser Variant} {d : UInt32}
    (hv : ∀ {s' m}, s'.unread.length ≤ m → m < n → Ensures (v (d - 1 - 1)) s' (Fewer m) E)
    (hn : s.unread.length ≤ n) (hf : Enough (E .fuel) fuel (n + 2)) :
    Ensures (variantSwitch L sd v d fuel) s (Fewer n) E := by
  induction fuel generalizing s n
  case zero => exact hf.zero
  case succ fuel hi =>
    obtain ⟨u, e⟩ := s
    cases u
    case nil => exact hE.eof _
    case cons c q =>
      have hq : q.length < n := hn
      have hf' : Enough (E .fuel) fuel (n + 1) := hf.step (by omega)
      refine .bind (.of_run peekChar_cons (.ite (fun _ => ?space) fun _ => .ite (fun _ => ?string) fun _ =>
        .ite (fun _ => ?object) fun _ => .ite (fun _ => ?array) fun _ => .ite (fun hc => ?number) fun _ =>
        .ite (fun hc => ?token) fun _ => .ite (fun _ => hE.eof _) fun _ => ?_))
      case space =>
        refine .bind (.of_run getc_cons ((hi (fun hs hm => hv hs (hm.trans hq)) (Nat.le_refl _) ?_).imp
          fun _ _ h => h.trans hq))
        exact hf.step (by omega)
      case string => exact .bind ((ensures_stringFromStream hE hn (hf'.le (by omega))).imp fun _ _ h => h)
      case object => exact .bind ((ensures_objectFromStream hE hv hn (hf'.le (by omega))).imp fun _ _ h => h)
      case array  => exact .bind ((ensures_arrayFromStream hE hv hn (hf'.le (by omega))).imp fun _ _ h => h)
      case number => exact ensures_numberFromStream hE hc hq hf'
      case token =>
        have hc : c ∈ ascii "nultrefas" := (by decide : ascii "ntf" ⊆ ascii "nultrefas") hc
        exact ensures_tokenFromStream hc hq (hf'.le (by omega))
      exact .bind ((ensures_stringFromToken hn (hf'.le (by omega))).imp fun _ _ _ => hE.parseError _)

-- Every call of a call consumes a bracket first.
theorem ensures_variantFromStream (hE : Closed E) {stack : Nat} {d : UInt32}
    (hn : s.unread.length ≤ n)
    (hf : Enough (E .fuel) fuel (n + 2)) (hs : Enough (E .stack) stack n) :
    Ensures (variantFromStream L sd fuel stack d) s (Fewer n) E := by
  induction stack generalizing s n d
  case zero => exact hs.zero
  case succ stack hi =>
    refine .ite (fun _ => hE.parseError _) fun _ => ?_
    refine .bind ((ensures_skipWhiteSpace hE hn (hf.le (by omega))).imp fun _ s' ⟨h, _⟩ => ?_)
    exact ensures_variantSwitch hE (fun hs' hm => hi hs' (hf.le (by omega)) (hs.step hm)) h hf

end Legacy

namespace Relaxed

theorem ensures_tokenFromStream_go {token : Bytes} (hn : s.unread.length ≤ n)
    (hf : Enough (E .fuel) fuel n) : Ensures (tokenFromStream.go fuel token) s (AtMost n) E := by
  induction fuel generalizing s n token
  case zero => exact hf.zero
  case succ fuel hi =>
    have hloop {s' : Stringstream} {token : Bytes} (h : s'.unread.length < n) :
        Ensures (tokenFromStream.go fuel token) s' (AtMost n) E :=
      (hi (Nat.le_refl _) (hf.step h)).imp fun _ _ h' => h'.trans h.le
    refine .bind (ensures_peekChar fun s' hs => ?_)
    rw [← hs] at hn
    refine .ite (fun hc => ?escape) fun _ => .ite (fun hc => ?delimiter) fun _ => .ite (fun hc => ?char) fun _ => hn
    case escape => exact .bind ((ensures_parseEscape hc hn).imp fun _ _ h => hloop h)
    case delimiter =>
      have hne : s'.unread.head?.getD 0xff ≠ 0xff := fun h => by rw [h] at hc; cases hc
      exact .bind ((ensures_getc_of_ne hne hn).imp fun _ _ h => h.le)
    case char =>
      have hne : s'.unread.head?.getD 0xff ≠ 0xff := fun h => by rw [h] at hc; cases hc
      exact .bind ((ensures_getc_of_ne hne hn).imp fun _ _ h => hloop h)

theorem ensures_tokenFromStream (hn : s.unread.length ≤ n) (hf : Enough (E .fuel) fuel n) :
    Ensures (tokenFromStream fuel) s (AtMost n) E :=
  .bind (ensures_peekChar fun _ hs => ensures_tokenFromStream_go (hs ▸ hn) hf)

-- The first character of a token is consumed.
theorem ensures_tokenFromStream_starts {c : UInt8} {q : Bytes} {e : Bool} (hc : isTokenChar c)
    (hn : q.length < n) (hf : Enough (E .fuel) fuel n) :
    Ensures (tokenFromStream fuel) ⟨c :: q, e⟩ (Fewer n) E := by
  refine .bind (.of_run peekChar_cons ?_)
  cases fuel
  case zero => exact hf.zero
  case succ fuel =>
    have hloop {token : Bytes} {s' : Stringstream} (h : s'.unread.length < n) :
        Ensures (tokenFromStream.go fuel token) s' (Fewer n) E :=
      (ensures_tokenFromStream_go (Nat.le_refl _) (hf.step h)).imp fun _ _ h' => h'.trans_lt h
    refine .bind (.of_run peekChar_cons (.ite (fun h => ?_) fun _ => .ite (fun _ => ?_) fun _ =>
      .ite (fun _ => ?_) (absurd hc)))
    case refine_1 => exact .bind ((ensures_parseEscape (s := ⟨c :: q, e⟩) h hn).imp fun _ _ h => hloop h)
    case refine_2 => exact .bind (.of_run getc_cons hn)
    case refine_3 => exact .bind (.of_run getc_cons (hloop hn))

theorem ensures_quoteLoop (hE : Closed E) {allowEscape : Bool} {q : UInt8} {token : Bytes}
    (hn : s.unread.length ≤ n) (hf : Enough (E .fuel) fuel n) :
    Ensures (quoteLoop allowEscape q fuel token) s (AtMost n) E := by
  induction fuel generalizing s n token
  case zero => exact hf.zero
  case succ fuel hi =>
    have hloop {s' : Stringstream} {token : Bytes} (h : s'.unread.length < n) :
        Ensures (quoteLoop allowEscape q fuel token) s' (AtMost n) E :=
      (hi (Nat.le_refl _) (hf.step h)).imp fun _ _ h' => h'.trans h.le
    refine .bind (ensures_peekChar fun s' hs => ?_)
    rw [← hs] at hn
    refine .ite (fun _ => hE.eof _) fun hne => .ite (fun _ => ?close) fun _ => .ite (fun _ => hE.parseError _) fun _ =>
      .ite (fun hc => ?escape) fun _ => .ite (fun _ => hE.parseError _) fun _ => ?char
    case close  => exact .bind ((ensures_getc_of_ne hne hn).imp fun _ _ h => h.le)
    case escape => exact .bind ((ensures_parseEscape hc.2 hn).imp fun _ _ h => hloop h)
    case char   => exact .bind ((ensures_getc_of_ne hne hn).imp fun _ _ h => hloop h)

-- The loop for a string in triple quotes ends: there are three of the quotes, or the character that
-- stands for the end of a transmission.
def closes (allowEscape : Bool) (q : UInt8) : Bytes → Bool
  | []          => false
  | [c]         => c ≠ q ∧ c = 0x04
  | c :: d :: t =>
    if c = q then
      if d = q then t.head? = some q ∨ closes allowEscape q t else closes allowEscape q (d :: t)
    else if c = 0x04 then true
    else if allowEscape ∧ c = backslash then closes allowEscape q t
    else closes allowEscape q (d :: t)

-- The loop goes on for ever if there are not.
theorem tripleQuoteLoop_of_not_closes {allowEscape : Bool} {q : UInt8} (hq : q ≠ 0xff)
    {token : Bytes}
    (h : closes allowEscape q s.unread = false) :
    ∃ s', (tripleQuoteLoop allowEscape q fuel token).run s = .error .fuel s' := by
  induction fuel generalizing s token
  case zero => exact ⟨s, rfl⟩
  case succ fuel hi =>
    obtain ⟨u, e⟩ := s
    have hend : ¬(0xff : UInt8) = q := fun h => hq h.symm
    have hi₀ (e : Bool) (token : Bytes) := @hi ⟨[], e⟩ token rfl
    rw [tripleQuoteLoop]
    match u with
    | [] =>
      have h4 : ¬(0xff : UInt8) = 0x04 := by decide
      have hb : ¬(allowEscape = true ∧ (0xff : UInt8) = backslash) := fun h => absurd h.2 (by decide)
      simp only [EStateM.run_bind, peekChar_nil, if_neg hend, if_neg h4, if_neg hb, getc_nil]
      exact hi₀ ..
    | [c] =>
      simp only [EStateM.run_bind, peekChar_cons]
      by_cases hc : c = q
      case pos =>
        simp only [if_pos hc, EStateM.run_bind, getc_cons, peekChar_nil, if_neg hend]
        exact hi₀ ..
      case neg =>
        have h4 : c ≠ 0x04 := fun h4 => by simp [closes, h4] at h; exact hc (h4.trans h)
        simp only [if_neg hc, if_neg h4]
        split_ifs
        case pos he => simp only [he.2, EStateM.run_bind, parseEscape_nil]; exact hi₀ ..
        case neg    => simp only [EStateM.run_bind, getc_cons]; exact hi₀ ..
    | c :: d :: t =>
      simp only [EStateM.run_bind, peekChar_cons]
      simp only [closes] at h
      split_ifs at h ⊢
      case pos hd =>
        rw [decide_eq_false_iff_not, not_or] at h
        simp only [EStateM.run_bind, getc_cons, peekChar_cons, if_pos hd]
        cases t
        case nil =>
          simp only [peekChar_nil, if_neg hend]
          exact hi₀ ..
        case cons c' t =>
          have hc' : c' ≠ q := fun he => h.1 (congrArg some he)
          simp only [peekChar_cons, if_neg hc']
          exact @hi ⟨c' :: t, e⟩ _ (by simpa using h.2)
      case neg hd =>
        simp only [EStateM.run_bind, getc_cons, peekChar_cons, if_neg hd]
        exact @hi ⟨d :: t, e⟩ _ h
      case pos he =>
        simp only [he.2, EStateM.run_bind, parseEscape_cons]
        exact @hi ⟨t, e⟩ _ h
      case neg =>
        simp only [EStateM.run_bind, getc_cons]
        exact @hi ⟨d :: t, e⟩ _ h

-- Nothing but the bound stops the loop then.
theorem ensures_tripleQuoteLoop_of_fuel (hE : Closed E) (hfuel : E .fuel) {allowEscape : Bool}
    {q : UInt8}
    {token : Bytes} (hn : s.unread.length ≤ n) :
    Ensures (tripleQuoteLoop allowEscape q fuel token) s (AtMost n) E := by
  induction fuel generalizing s token
  case zero => exact hfuel
  case succ fuel hi =>
    refine .bind (ensures_peekChar fun s' hs => ?_)
    rw [← hs] at hn
    refine .ite (fun _ => ?quote) fun _ => .ite (fun _ => hE.parseError _) fun _ => .ite (fun hb => ?escape) fun _ => ?char
    case quote =>
      refine .bind ((ensures_getc_atMost hn).imp fun _ _ h => .bind (ensures_peekChar fun _ hs => ?_))
      refine .ite (fun _ => ?_) fun _ => hi (h.of_eq hs)
      refine .bind ((ensures_getc_atMost (h.of_eq hs)).imp fun _ _ h => .bind (ensures_peekChar fun _ hs => ?_))
      exact .ite (fun _ => .bind (ensures_getc_atMost (h.of_eq hs))) fun _ => hi (h.of_eq hs)
    case escape => exact .bind ((ensures_parseEscape hb.2 hn).imp fun _ _ h => hi h.le)
    case char   => exact .bind ((ensures_getc_atMost hn).imp fun _ _ h => hi h)

theorem ensures_tripleQuoteLoop (hE : Closed E) {allowEscape : Bool} {q : UInt8} {token : Bytes}
    (hc : closes allowEscape q s.unread) (hn : s.unread.length ≤ n) (hf : Enough (E .fuel) fuel n) :
    Ensures (tripleQuoteLoop allowEscape q fuel token) s (AtMost n) E := by
  induction fuel generalizing s n token
  case zero => exact hf.zero
  case succ fuel hi =>
    obtain ⟨u, e⟩ := s
    have hloop {u' : Bytes} {e' : Bool} {token : Bytes} (hc : closes allowEscape q u') (h : u'.length < n) :
        Ensures (tripleQuoteLoop allowEscape q fuel token) ⟨u', e'⟩ (AtMost n) E :=
      (hi hc (Nat.le_refl _) (hf.step h)).imp fun _ _ h' => h'.trans h.le
    match u with
    | []  => cases hc
    | [c] =>
      have ⟨hq, h4⟩ : c ≠ q ∧ c = 0x04 := of_decide_eq_true hc
      exact .bind (.of_run peekChar_cons (.ite (fun h => absurd h hq) fun _ =>
        .ite (fun _ => hE.parseError _) (absurd h4)))
    | c :: d :: t =>
      have hd : (d :: t).length < n := hn
      have ht : t.length < n := Nat.lt_of_succ_lt hd
      simp only [closes] at hc
      refine .bind (.of_run peekChar_cons (.ite (fun h => ?quote) fun h => .ite (fun _ => hE.parseError _) fun h4 =>
        .ite (fun hb => ?escape) fun hb => ?char))
      case quote =>
        rw [if_pos h] at hc
        refine .bind (.of_run getc_cons (.bind (.of_run peekChar_cons (.ite (fun h' => ?two) fun h' => ?one))))
        case one =>
          rw [if_neg h'] at hc
          exact hloop hc hd
        case two =>
          rw [if_pos h'] at hc
          refine .bind (.of_run getc_cons ?_)
          cases t
          case nil => exact absurd hc (by simp [closes])
          case cons c' t =>
            have hc : c' = q ∨ closes allowEscape q (c' :: t) := by simpa using hc
            refine .bind (.of_run peekChar_cons (.ite (fun _ => ?_) fun h'' => ?_))
            case refine_1 => exact .bind (.of_run getc_cons (Nat.le_of_succ_le ht.le))
            case refine_2 => exact hloop (hc.resolve_left h'') ht
      case escape =>
        rw [if_neg h, if_neg h4, if_pos hb] at hc
        rw [hb.2]
        exact .bind (.of_run parseEscape_cons (hloop hc ht))
      case char =>
        rw [if_neg h, if_neg h4, if_neg hb] at hc
        exact .bind (.of_run getc_cons (hloop hc hd))

-- A string in triple quotes follows, of which the first quote has been read, and is not closed.
def tripleUnclosed (allowEscape : Bool) (q : UInt8) : Bytes → Bool
  | a :: b :: t => a = q ∧ b = q ∧ !closes allowEscape q t
  | _           => false

-- The relaxed parser would read a string in triple quotes here that is not closed.
def unclosed : Bytes → Bool
  | []     => false
  | c :: t =>
    if c = quote ∨ c = apostrophe then tripleUnclosed true c t
    else if c = 'r'.toUInt8 ∨ c = 'R'.toUInt8 then
      match t with
      | []     => false
      | d :: t => (d = quote ∨ d = apostrophe) ∧ tripleUnclosed false d t
    else false

variable {strict : Bool}

theorem ensures_quoteStringFromStream (hE : Closed E) {allowEscape : Bool} {c : UInt8} {t : Bytes}
    {e : Bool}
    (hu : strict = true ∨ tripleUnclosed allowEscape c t = false ∨ E .fuel) (hn : t.length < n)
    (hf : Enough (E .fuel) fuel n) :
    Ensures (quoteStringFromStream strict allowEscape fuel) ⟨c :: t, e⟩ (Fewer n) E := by
  have hloop {t' : Bytes} {e : Bool} (ht : t'.length < n) :
      Ensures (quoteLoop allowEscape c fuel []) ⟨t', e⟩ (Fewer n) E :=
    (ensures_quoteLoop hE (Nat.le_refl _) (hf.le ht.le)).imp fun _ _ h => h.trans_lt ht
  refine .bind (.of_run getChar_cons (.ite (fun _ => hE.parseError _) fun _ => .ite (fun _ =>
    .ite (fun _ => hE.parseError _) fun _ => hE.parseError _) fun _ => ?_))
  match t with
  | []     => exact .bind (.of_run peek_nil (.ite nofun fun _ => hloop hn))
  | a :: t =>
    refine .bind (.of_run peek_cons (.ite (fun ha => ?_) fun _ => hloop hn))
    refine .bind (.of_run getc_cons ?_)
    match t with
    | []     => exact .bind (.of_run peek_nil (.ite (fun _ => Nat.lt_of_succ_lt hn) fun h => absurd nofun h))
    | b :: t =>
      have ht : t.length < n := by simp only [List.length_cons] at hn; omega
      refine .bind (.of_run peek_cons (.ite (fun _ => Nat.lt_of_succ_lt hn) fun hb => .ite (fun _ => hE.parseError _)
        fun hs => .bind (.of_run getc_cons ?_)))
      rcases hu with hu | hu | hfuel
      case inl => exact absurd hu hs
      case inr.inl =>
        have hc : closes allowEscape c t := by
          simpa [tripleUnclosed, Option.some.inj ha, Option.some.inj (not_not.mp hb)] using hu
        exact (ensures_tripleQuoteLoop hE hc (Nat.le_refl _) (hf.le ht.le)).imp fun _ _ h => h.trans_lt ht
      case inr.inr =>
        exact (ensures_tripleQuoteLoop_of_fuel hE hfuel (Nat.le_refl _)).imp fun _ _ h => h.trans_lt ht

theorem ensures_stringFromStream (hE : Closed E)
    (hu : strict = true ∨ unclosed s.unread = false ∨ E .fuel)
    (hn : s.unread.length ≤ n) (hf : Enough (E .fuel) fuel n) :
    Ensures (stringFromStream strict fuel) s (Fewer n) E := by
  obtain ⟨u, e⟩ := s
  cases u
  case nil => exact hE.eof _
  case cons c t =>
    refine .bind (.of_run peekChar_cons (.ite (fun _ => hE.parseError _) fun _ => .ite (fun hc => ?quoted) fun hq =>
      .ite (fun _ => hE.parseError _) fun hr => .ite (fun hc => ?raw) fun _ => .ite (fun hc =>
      .ite (fun _ => hE.parseError _) fun _ => ?token) fun _ => .ite (fun _ => hE.eof _) fun _ => hE.parseError _))
    case quoted =>
      refine ensures_quoteStringFromStream hE (hu.imp id (.imp (fun h => ?_) id)) hn hf
      simpa only [unclosed, if_pos hc.symm] using h
    case raw =>
      refine .bind (.of_run getc_cons ?_)
      cases t
      case nil =>
        refine .bind (.of_run peekChar_nil (.ite (fun h => absurd h (by decide)) fun _ => .ite (fun _ => hE.parseError _)
          fun _ => .bind ((ensures_tokenFromStream (Nat.le_refl _) (hf.le (Nat.zero_le _))).imp fun _ _ h => ?_)))
        exact Nat.lt_of_le_of_lt h hn
      case cons d t =>
        have hd : (d :: t).length < n := hn
        have ht : t.length < n := Nat.lt_of_succ_lt hd
        refine .bind (.of_run peekChar_cons (.ite (fun hd => .ite (fun _ => hE.parseError _) fun _ => ?_) fun _ =>
          .ite (fun _ => hE.parseError _) fun _ => .bind ((ensures_tokenFromStream (Nat.le_refl _)
          (hf.le hd.le)).imp fun _ _ h => Nat.lt_of_le_of_lt h hd)))
        refine ensures_quoteStringFromStream hE (hu.imp id (.imp (fun h => ?_) id)) ht hf
        simpa only [unclosed, if_neg fun h => hq (Or.symm h), if_pos hc, hd, true_and, Bool.decide_eq_true] using h
    case token => exact ensures_tokenFromStream_starts hc hn hf

-- All that is thrown is a parse error.
inductive ParseErrors : Except Error α → Prop
  | ok {a : α} : ParseErrors (.ok a)
  | error {m : String} : ParseErrors (.error (.parseError m))

namespace ParseErrors

theorem ite {p : Prop} [Decidable p] {x y : Except Error α} (h : p → ParseErrors x)
    (h' : ¬p → ParseErrors y) :
    ParseErrors (if p then x else y) := by
  by_cases hp : p
  case pos => simpa only [if_pos hp] using h hp
  case neg => simpa only [if_neg hp] using h' hp

theorem notNumber {token : Bytes} {m : String} : ParseErrors (notNumber strict token m) :=
  .ite (fun _ => .error) fun _ => .ok

theorem parseInt_go {base val : UInt64} {ds : Bytes} : ParseErrors (parseInt.go base val ds) := by
  induction ds generalizing val
  case nil => exact .ok
  case cons hi =>
    exact .ite (fun _ => .error) fun _ => .ite (fun _ => .error) fun _ => .ite (fun _ => .error) fun _ => hi

theorem parseInt {base : UInt64} {token ds : Bytes} : ParseErrors (parseInt base token ds) := by
  refine .ite (fun _ => .error) fun _ => ?_
  cases h : parseInt.go base 0 ds
  case ok => exact .ite (fun _ => .ite (fun _ => .error) fun _ => .ite (fun _ => .ok) fun _ => .ok) fun _ => .ok
  case error =>
    have hp := @parseInt_go base 0 ds
    rw [h] at hp
    cases hp
    exact .error

theorem maybeParseInt {base : UInt64} {token ds : Bytes} :
    ParseErrors (maybeParseInt strict base token ds) := by
  have hp := @parseInt base token ds
  rw [Relaxed.maybeParseInt]
  generalize Relaxed.parseInt base token ds = r at hp ⊢
  cases hp
  case ok     => exact .ok
  case error  => exact .ite (fun _ => .error) fun _ => .ok

variable {L : LexicalCast} {token ds r : Bytes}

theorem toDouble : ParseErrors (toDouble L token) := by
  rw [Relaxed.toDouble]
  split
  case h_1 => exact .ok
  case h_2 => exact .error

theorem exponentDigits : ParseErrors (exponentDigits L strict token r) := by
  induction r
  case nil      => exact toDouble
  case cons hi  => exact .ite (fun _ => hi) fun _ => .ite (fun _ => notNumber) fun _ => hi

theorem exponent : ParseErrors (exponent L strict token r) := by
  cases r
  case nil => exact notNumber
  case cons =>
    exact .ite (fun _ => .ite (fun _ => notNumber) fun _ => exponentDigits) fun _ =>
      .ite (fun _ => exponentDigits) fun _ => .ite (fun _ => notNumber) fun _ => .error

theorem numberLoop : ParseErrors (numberLoop L strict token ds r) := by
  induction r
  case nil => exact parseInt
  case cons hi =>
    exact .ite (fun _ => hi) fun _ => .ite (fun _ => .ok) fun _ => .ite (fun _ => exponent) fun _ =>
      .ite (fun _ => notNumber) fun _ => .error

theorem afterZero : ParseErrors (afterZero L strict token ds r) := by
  cases r
  case nil => exact .ok
  case cons =>
    exact .ite (fun _ => .ite (fun _ => .error) fun _ => .ite (fun _ => .error) fun _ => maybeParseInt) fun _ =>
      .ite (fun _ => .ite (fun _ => .error) fun _ => maybeParseInt) fun _ =>
      .ite (fun _ => .ite (fun _ => .error) fun _ => maybeParseInt) fun _ =>
      .ite (fun _ => .error) fun _ => numberLoop

theorem unsignedNumber : ParseErrors (unsignedNumber L strict token r) := by
  cases r
  case nil => exact .error
  case cons =>
    exact .ite (fun _ => afterZero) fun _ => .ite (fun _ => numberLoop) fun _ => .ite (fun _ => notNumber) fun _ => .error

theorem parseNumberOrStr : ParseErrors (parseNumberOrStr L strict token) := by
  cases token
  case nil  => exact .error
  case cons => exact .ite (fun _ => .error) fun _ => .ite (fun _ => unsignedNumber) fun _ => unsignedNumber

end ParseErrors

variable {L : LexicalCast} {c : UInt8} {q : Bytes} {e : Bool}

theorem ensures_numberFromStream (hE : Closed E) (hc : startsNumber c) (hn : q.length < n)
    (hf : Enough (E .fuel) fuel n) :
    Ensures (numberFromStream L strict fuel) ⟨c :: q, e⟩ (Fewer n) E := by
  have hc : isTokenChar c := by
    have hc : c = minus ∨ c = plus ∨ c = dot ∨ isDigit c := by simpa [startsNumber] using hc
    rcases hc with rfl | rfl | rfl | hc
    case inr.inr.inr => simp [isTokenChar, isalnum, hc]
    all_goals decide
  refine .bind ((ensures_tokenFromStream_starts hc hn hf).imp fun token s' h => ?_)
  have hp := @ParseErrors.parseNumberOrStr strict L token
  cases hr : parseNumberOrStr L strict token
  case ok => exact .ite (fun _ => hE.parseError _) fun _ => h
  case error =>
    rw [hr] at hp
    cases hp
    exact hE.parseError _

theorem ensures_wordFromStream (hE : Closed E) (hc : isTokenChar c) (hn : q.length < n)
    (hf : Enough (E .fuel) fuel n) : Ensures (wordFromStream strict fuel) ⟨c :: q, e⟩ (Fewer n) E :=
  .bind ((ensures_tokenFromStream_starts hc hn hf).imp fun _ _ h => .ite (fun _ => hE.assertion _) fun _ =>
    .ite (fun _ => h) fun _ => .ite (fun _ => h) fun _ => .ite (fun _ => h) fun _ =>
    .ite (fun _ => hE.parseError _) fun _ => h)

-- What is read consumes something, while there are at most `n` characters left.
structure Reader.Progress (r : Reader) (E : Error → Prop) (n : Nat) : Prop where
  string : ∀ {s m}, s.unread.length ≤ m → m ≤ n → Ensures r.string s (Fewer m) E
  number : ∀ {c q e m}, startsNumber c → q.length < m → m ≤ n → Ensures r.number ⟨c :: q, e⟩ (Fewer m) E
  word   : ∀ {c q e m}, isTokenChar c → q.length < m → m ≤ n → Ensures r.word ⟨c :: q, e⟩ (Fewer m) E

theorem Reader.Progress.le {r : Reader} (h : r.Progress E n) (hm : m ≤ n) : r.Progress E m where
  string hs hk    := h.string hs (hk.trans hm)
  number hc hq hk := h.number hc hq (hk.trans hm)
  word hc hq hk   := h.word hc hq (hk.trans hm)

theorem ensures_entryFromStream (hE : Closed E) {str : Parser Bytes} {v : Parser Variant}
    {obj : List (Bytes × Variant)} (hstr : Ensures str s (Fewer n) E)
    (hv : ∀ {s' m}, s'.unread.length ≤ m → m ≤ n → Ensures v s' (Fewer m) E)
    (hf : Enough (E .fuel) fuel n) :
    Ensures (entryFromStream str v fuel obj) s (Fewer n) E := by
  refine .bind (hstr.imp fun key s' h => ?_)
  refine .bind ((ensures_skipWhiteSpace hE (Nat.le_refl _) (hf.le h.le)).imp fun _ s' ⟨h', _⟩ => ?_)
  refine .bind (ensures_peek fun s' hs => .ite (fun _ => hE.parseError _) fun hc => ?_)
  refine .bind ((ensures_getc (not_not.mp hc) (Nat.le_refl _)).imp fun _ s'' h'' => ?_)
  have hlt : s''.unread.length < n := h''.trans (hs ▸ Nat.lt_of_le_of_lt h' h)
  refine .bind ((hv (Nat.le_refl _) hlt.le).imp fun _ s' h => ?_)
  have hlt : s'.unread.length < n := h.trans hlt
  exact .bind ((ensures_skipWhiteSpace hE (Nat.le_refl _) (hf.le hlt.le)).imp fun _ _ ⟨h', _⟩ => h'.trans_lt hlt)

theorem ensures_objectFromStream (hE : Closed E) {str : Parser Bytes} {v : UInt32 → Parser Variant}
    {d : UInt32}
    (hstr : ∀ {s' m}, s'.unread.length ≤ m → m ≤ n → Ensures str s' (Fewer m) E)
    (hv : ∀ {s' m}, s'.unread.length ≤ m → m < n → Ensures (v (d - 1)) s' (Fewer m) E)
    (hn : s.unread.length ≤ n) (hf : Enough (E .fuel) fuel n) :
    Ensures (objectFromStream str v fuel d) s (Fewer n) E := by
  refine ensures_catchEof hE (.bind (ensures_peekChar fun s' hs => .ite (fun _ => hE.parseError _) fun hc => ?_))
  have hne : s'.unread.head?.getD 0xff ≠ 0xff := by rw [not_not.mp hc]; decide
  refine .bind ((ensures_getc_of_ne hne (hs ▸ hn)).imp fun _ s' h => ?_)
  refine .bind ((ensures_skipWhiteSpace hE (Nat.le_refl _) (hf.le h.le)).imp fun _ s'' ⟨h', _⟩ => ?_)
  have hlt : s''.unread.length < n := h'.trans_lt h
  have hloop := @ensures_containerLoop E _ _ s'' hE _ closeBrace (entryFromStream str (v (d - 1))) [] (fun hs hm hf =>
    ensures_entryFromStream hE (hstr hs (hm.trans hlt.le)) (fun hs' hm' => hv hs' ((hm'.trans hm).trans_lt hlt)) hf)
    (Nat.le_refl _) (hf.le hlt)
  exact hloop.imp fun _ _ h' => h'.trans hlt

-- The function is called after white space has been skipped.
theorem ensures_variantSwitch (hE : Closed E) {r : Reader} (hr : r.Progress E n)
    {v : UInt32 → Parser Variant}
    {d : UInt32}
    (hv : ∀ {s' m}, s'.unread.length ≤ m → m < n → Ensures (v (d - 1 - 1)) s' (Fewer m) E)
    (hh : ∀ c, s.unread.head? = some c → isSpace c = false ∧ c ≠ 0) (hn : s.unread.length ≤ n)
    (hf : Enough (E .fuel) fuel (n + 1)) : Ensures (variantSwitch r v d fuel) s (Fewer n) E := by
  cases fuel
  case zero => exact hf.zero
  case succ fuel =>
    obtain ⟨u, e⟩ := s
    cases u
    case nil => exact hE.eof _
    case cons c q =>
      have hq : q.length < n := hn
      have ⟨hs, h0⟩ := hh c rfl
      have hf : Enough (E .fuel) fuel n := hf.step (Nat.lt_succ_self _)
      refine .bind (.of_run peekChar_cons (.ite (fun h => absurd h h0) fun _ => .ite (fun h => absurd h (by simp [hs]))
        fun _ => .ite (fun _ => ?string) fun _ => .ite (fun _ => ?object) fun _ => .ite (fun _ => ?array) fun _ =>
        .ite (fun hc => hr.number hc hq (Nat.le_refl _)) fun _ => .ite (fun hc => hr.word hc hq (Nat.le_refl _)) fun _ =>
        .ite (fun _ => hE.eof _) fun _ => ?_))
      case string => exact .bind ((hr.string hn (Nat.le_refl _)).imp fun _ _ h => h)
      case object => exact .bind ((ensures_objectFromStream hE hr.string hv hn hf).imp fun _ _ h => h)
      case array  => exact .bind ((ensures_arrayFromStream hE hv hn hf).imp fun _ _ h => h)
      exact .bind ((ensures_stringFromToken hn hf).imp fun _ _ _ => hE.parseError _)

theorem ensures_variantFromStream (hE : Closed E) {r : Reader} (hr : r.Progress E n) {stack : Nat}
    {d : UInt32}
    (hn : s.unread.length ≤ n) (hf : Enough (E .fuel) fuel (n + 1))
    (hs : Enough (E .stack) stack n) :
    Ensures (variantFromStream r fuel stack d) s (Fewer n) E := by
  induction stack generalizing s n d
  case zero => exact hs.zero
  case succ stack hi =>
    refine .bind ((ensures_skipWhiteSpace hE hn (hf.le (Nat.le_succ _))).imp fun _ s' ⟨h, _, hh⟩ => ?_)
    exact ensures_variantSwitch hE hr (fun hs' hm => hi (hr.le hm.le) hs' (hf.le (by omega)) (hs.step hm)) hh h hf

-- The strict parser and, where no string in triple quotes is left open, the relaxed one.
theorem progress_reader (hE : Closed E) (hf : Enough (E .fuel) fuel n)
    (hs : strict = true ∨ E .fuel) :
    (reader L strict fuel).Progress E n where
  string h hm   := ensures_stringFromStream hE (hs.imp id .inr) h (hf.le hm)
  number h h' hm := ensures_numberFromStream hE h h' (hf.le hm)
  word h h' hm   := ensures_wordFromStream hE h h' (hf.le hm)

end Relaxed

end Json
