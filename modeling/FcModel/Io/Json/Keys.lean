import FcModel.Io.Json.Documents
import FcModel.Io.Json.Values

-- Names that are not quoted: what the relaxed parser makes of an object whose members have them.

namespace Json.Relaxed

open Ascii

-- A member with a word as its name, and some text in the place of its value.
structure WordMember where
  word     : Bytes
  value    : Bytes
  nonempty : word ≠ []
  chars    : ∀ c ∈ word, isalnum c ∨ c = '_'.toUInt8

namespace WordMember

def unquoted (m : WordMember) : Bytes :=
  m.word ++ colon :: m.value

def quoted (m : WordMember) : Bytes :=
  [quote] ++ m.word ++ [quote] ++ colon :: m.value

end WordMember

-- The text of an object whose members are spelled by `f`.
def objectText (f : WordMember → Bytes) (ms : List WordMember) : Bytes :=
  openBrace :: (List.intercalate [comma] (ms.map f) ++ [closeBrace])

def ReadsText (L : LexicalCast) (maxDepth : UInt32) (str : Bytes) (v : Variant) : Prop :=
  ∃ u, fromString L str .relaxedParser maxDepth = .ok v u

-- The object is the same with the names quoted and without quotes.
def SameObject (L : LexicalCast) (maxDepth : UInt32) (ms : List WordMember) : Prop :=
  ∀ v, ReadsText L maxDepth (objectText WordMember.quoted ms) v →
    ReadsText L maxDepth (objectText WordMember.unquoted ms) v

-- A colon with nothing but white space in front of it.
def ColonAhead (s : Bytes) : Prop :=
  ∃ w t, Ws w ∧ s = w ++ colon :: t

section Words

variable {w x : Bytes} {fuel : Nat} {token : Bytes}

theorem isTokenChar_word {c : UInt8} (h : isalnum c ∨ c = '_'.toUInt8) : isTokenChar c := by
  rcases h with h | rfl
  case inl => simp [isTokenChar, h]
  case inr => decide

-- The colon behind a token is consumed with it.
theorem tokenFromStream_go_colon (hw : ∀ c ∈ w, isTokenChar c) (hf : w.length < fuel) :
    (tokenFromStream.go fuel token).run ⟨w ++ colon :: x, false⟩ = .ok (token ++ w) ⟨x, false⟩ := by
  induction w generalizing fuel token
  case nil =>
    cases fuel
    case zero => cases hf
    case succ => rw [List.append_nil]; rfl
  case cons c w hi =>
    cases fuel
    case zero => cases hf
    case succ fuel =>
      obtain ⟨hc, hw⟩ := List.forall_mem_cons.mp hw
      obtain ⟨hbackslash, hdelimiter⟩ := tokenChar_cases hc
      have hi := @hi fuel (token ++ [c]) hw (Nat.lt_of_succ_lt_succ hf)
      rw [List.append_assoc, List.singleton_append] at hi
      simpa only [tokenFromStream.go, EStateM.run_bind, List.cons_append, peekChar_cons,
        if_neg hbackslash, hdelimiter,
        Bool.false_eq_true, if_false, hc, if_true, getc_cons] using hi

theorem tokenFromStream_colon (hw : ∀ c ∈ w, isTokenChar c) (hf : w.length < fuel) :
    (tokenFromStream fuel).run ⟨w ++ colon :: x, false⟩ = .ok w ⟨x, false⟩ := by
  have hgo := @tokenFromStream_go_colon w x fuel [] hw hf
  cases w
  case nil  => exact hgo
  case cons => exact hgo

theorem ne_of_isTokenChar {a c : UInt8} (hc : isTokenChar c) (ha : isTokenChar a = false) : c ≠ a :=
  fun he => by rw [he, ha] at hc; cases hc

-- A word is a string, whatever letter it starts with, and the colon behind it is gone.
theorem stringFromStream_word (m : WordMember) (hf : m.word.length < fuel) :
    (stringFromStream false fuel).run ⟨m.word ++ colon :: x, false⟩ = .ok m.word ⟨x, false⟩ := by
  have htoken : ∀ c ∈ m.word, isTokenChar c := fun c hc => isTokenChar_word (m.chars c hc)
  obtain ⟨c, w, hcw⟩ := List.exists_cons_of_ne_nil m.nonempty
  rw [hcw] at htoken hf ⊢
  obtain ⟨hc, hw⟩ := List.forall_mem_cons.mp htoken
  have hquotes : ¬(c = apostrophe ∨ c = quote) :=
    not_or.mpr ⟨ne_of_isTokenChar hc (by decide), ne_of_isTokenChar hc (by decide)⟩
  by_cases hr : c = 'r'.toUInt8 ∨ c = 'R'.toUInt8
  case pos =>
    obtain ⟨c₂, q, hq, hc₂⟩ :
        ∃ c₂ q, w ++ colon :: x = c₂ :: q ∧ ¬(c₂ = quote ∨ c₂ = apostrophe) := by
      cases w
      case nil => exact ⟨colon, x, rfl, by decide⟩
      case cons c₂ w =>
        have hc₂ := (List.forall_mem_cons.mp hw).1
        exact ⟨c₂, _, rfl, not_or.mpr
          ⟨ne_of_isTokenChar hc₂ (by decide), ne_of_isTokenChar hc₂ (by decide)⟩⟩
    have hrun := @tokenFromStream_colon w x fuel hw (Nat.lt_of_succ_lt hf)
    rw [hq] at hrun
    simp only [stringFromStream, EStateM.run_bind, List.cons_append, peekChar_cons,
      Bool.false_eq_true, and_false,
      if_false, if_neg hquotes, if_pos hr, getc_cons, hq, if_neg hc₂, hrun]
    rfl
  case neg =>
    have hrun := @tokenFromStream_colon (c :: w) x fuel htoken hf
    simp only [stringFromStream, EStateM.run_bind, List.cons_append, peekChar_cons,
      Bool.false_eq_true, and_false,
      if_false, if_neg hquotes, if_neg hr, hc, if_true]
    exact hrun

theorem plainLiteral_of_isTokenChar {c : UInt8} (hc : isTokenChar c) : PlainLiteral c := by
  refine ⟨?_, ne_of_isTokenChar hc (by decide), ne_of_isTokenChar hc (by decide),
    ne_of_isTokenChar hc (by decide)⟩
  have hall : ∀ c, isTokenChar c → 0x20 ≤ c.toNat := by decide +kernel
  exact hall c hc

-- The same word in quotes is the same string, and the colon is still there.
theorem stringFromStream_quoted (m : WordMember) (hf : m.quoted.length + x.length < fuel) :
    (stringFromStream false fuel).run ⟨m.quoted ++ x, false⟩ =
        .ok m.word ⟨colon :: (m.value ++ x), false⟩ := by
  have hbody : Body PlainLiteral m.word m.word := by
    simpa using Body.literals
      (fun c hc => plainLiteral_of_isTokenChar (isTokenChar_word (m.chars c hc))) Body.nil
  have hread : ReadsName (stringFromStream false fuel) (m.quoted.length + x.length) _ m.word :=
    readsName_stringFromStream hbody hf
  have hleaves := hread (colon :: (m.value ++ x)) (by simp; decide)
    (by simp [WordMember.quoted]; omega)
  have hrun := hleaves.eq (List.cons_ne_nil _ _)
  simpa [WordMember.quoted] using hrun

end Words

section Members

variable {L : LexicalCast} {fuel n stack : Nat} {d : UInt32} {x : Bytes} {e : Bool}

theorem ColonAhead.of_skip {s : Bytes} {b : Bool} {u : Stringstream} (h : SkipsTo ⟨s, e⟩ false b u)
    (hc : u.unread.head? = some colon) : ColonAhead s := by
  obtain ⟨w, hw, hs, -⟩ := h
  obtain ⟨t, ht⟩ := List.head?_eq_some_iff.mp hc
  exact ⟨w, t, hw, by rw [← ht]; exact hs⟩

-- No value starts with a colon.
theorem variantFromStream_colon (hx : ColonAhead x) (hf : x.length < fuel) :
    Ensures (variantFromStream (reader L false fuel) fuel stack d) ⟨x, false⟩ (fun _ _ => False)
        fun _ => True := by
  obtain ⟨w, t, hw, rfl⟩ := hx
  cases stack
  case zero => trivial
  case succ stack =>
    have hskip := @skipWhiteSpace_run fuel colon t w false hw (by decide) (by decide)
      (by simp at hf; omega)
    refine .bind (.of_run hskip ?_)
    cases fuel
    case zero => trivial
    case succ fuel =>
      refine .bind (.of_run peekChar_cons
        (.ite (fun h => absurd h (by decide)) fun _ => .ite (fun h => absurd h (by decide))
        fun _ => .ite (fun h => absurd h (by decide)) fun _ =>
          .ite (fun h => absurd h (by decide)) fun _ =>
        .ite (fun h => absurd h (by decide)) fun _ => .ite (fun h => absurd h (by decide)) fun _ =>
        .ite (fun h => absurd h (by decide)) fun _ => .ite (fun h => absurd h (by decide)) fun _ =>
          .bind ?_))
      exact .of_forall (fun _ _ => trivial) fun _ => trivial

-- The member is read up to its value if there is a colon behind the name.
theorem entryFromStream_unquoted (m : WordMember) (v : Parser Variant)
    {obj : List (Bytes × Variant)}
    (hf : m.word.length < fuel) :
    Ensures (entryFromStream (stringFromStream false fuel) v n obj) ⟨m.unquoted ++ x, false⟩
      (fun _ _ => ColonAhead (m.value ++ x)) fun _ => True := by
  have hword := @stringFromStream_word (m.value ++ x) fuel m hf
  have happ : m.unquoted ++ x = m.word ++ colon :: (m.value ++ x) := by simp [WordMember.unquoted]
  rw [happ]
  refine .bind (.of_run hword (.bind ?_))
  refine ensures_skip.mono (fun b u hu => .bind ?_) fun _ _ => trivial
  obtain ⟨s, e⟩ := u
  cases s
  case nil => exact .of_run peek_nil (.ite (fun _ => trivial) fun h => absurd nofun h)
  case cons c s =>
    refine .of_run peek_cons (.ite (fun _ => trivial) fun hc => ?_)
    have hcolon := ColonAhead.of_skip hu (not_not.mp hc)
    exact .of_forall (fun _ _ => hcolon) fun _ => trivial

theorem entryFromStream_quoted (m : WordMember) {obj : List (Bytes × Variant)}
    (hf : m.quoted.length + x.length < fuel)
    (hn : 0 < n) :
    Ensures (entryFromStream (stringFromStream false fuel)
        (variantFromStream (reader L false fuel) fuel stack d) n obj)
      ⟨m.quoted ++ x, false⟩ (fun _ _ => ¬ColonAhead (m.value ++ x)) fun _ => True := by
  have hword := stringFromStream_quoted m hf
  have hskip := @skipWhiteSpace_run n colon (m.value ++ x) [] false (List.forall_mem_nil _)
    (by decide) (by decide) hn
  refine .bind (.of_run hword (.bind (.of_run hskip (.bind (.of_run peek_cons
    (.ite (fun h => absurd rfl h) fun _ => .bind (.of_run getc_cons (.bind ?_))))))))
  by_cases hx : ColonAhead (m.value ++ x)
  case neg =>
    exact .of_forall (fun _ _ => .of_forall (fun _ _ => hx) fun _ => trivial) fun _ => trivial
  case pos =>
    have hlen : (m.value ++ x).length < fuel := by simp [WordMember.quoted] at hf ⊢; omega
    exact (variantFromStream_colon hx hlen).mono (fun _ _ h => h.elim) fun _ => id

theorem closed_true : Closed fun _ => True := by
  constructor <;> intros <;> trivial

-- The object is read if its first member is.
theorem fromString_object {c : UInt8} {q : Bytes} {P : Prop} (hc : isTokenChar c ∨ c = quote)
    (h : ∀ n, Ensures (entryFromStream (stringFromStream false (q.length + 5))
        (variantFromStream (reader L false (q.length + 5)) (q.length + 5) (q.length + 2)
            (d - 1 - 1)) (n + 1) [])
      ⟨c :: q, false⟩ (fun _ _ => P) fun _ => True) {v : Variant} (hv :
      ReadsText L d (openBrace :: c :: q) v) : P := by
  have hne {a : UInt8} (ha : isTokenChar a = false ∧ a ≠ quote) : c ≠ a := by
    rcases hc with hc | rfl
    case inl => exact ne_of_isTokenChar hc ha.1
    case inr => exact ha.2.symm
  have hspace : isSpace c = false := by
    simp only [isSpace, decide_eq_false_iff_not, not_or]
    exact ⟨hne (by decide), hne (by decide), hne (by decide), hne (by decide)⟩
  have hskip := fun (n : Nat) =>
    @skipWhiteSpace_run (n + 1) c q [] false (List.forall_mem_nil _) hspace (hne (by decide))
    (Nat.succ_pos n)
  have hbrace := fun (n : Nat) =>
    @skipWhiteSpace_run (n + 1) openBrace (c :: q) [] false (List.forall_mem_nil _)
    (by decide) (by decide) (Nat.succ_pos n)
  have hbraceNe : some c ≠ some closeBrace := fun h => hne (by decide) (Option.some.inj h)
  have hcommaNe : some c ≠ some comma := fun h => hne (by decide) (Option.some.inj h)
  have hloop : Ensures (objectFromStream (stringFromStream false (q.length + 5))
      (variantFromStream (reader L false (q.length + 5)) (q.length + 5) (q.length + 2))
        (q.length + 4) (d - 1))
      ⟨openBrace :: c :: q, false⟩ (fun _ _ => P) fun _ => True := by
    refine ensures_catchEof closed_true
      (.bind (.of_run peekChar_cons (.ite (fun h => absurd rfl h) fun _ =>
      .bind (.of_run getc_cons (.bind (.of_run (hskip _) ?_))))))
    refine .bind (.of_run peek_cons
      (.ite (fun h => absurd h hbraceNe) fun _ => .ite (fun h => absurd h hcommaNe) fun _ =>
      .bind (.of_run (hskip _) (.ite (fun h => absurd h (by decide)) fun _ => .bind ?_))))
    exact (h _).imp fun _ _ hp => .of_forall (fun _ _ => hp) fun _ => trivial
  have hparser : Ensures (parser L (q.length + 5) (q.length + 3) .relaxedParser d)
    ⟨openBrace :: c :: q, false⟩
      (fun _ _ => P) fun _ => True := by
    refine .bind (.of_run (hbrace _) (.bind (.of_run peekChar_cons ?_)))
    exact .bind (hloop.imp fun _ _ hp => hp)
  obtain ⟨u, hu⟩ := hv
  exact hparser.ok hu

theorem colonAhead_append_iff {s t : Bytes} {c : UInt8} (hc : c ≠ colon)
    (hspace : isSpace c = false) :
    ColonAhead (s ++ c :: t) ↔ ColonAhead s := by
  constructor
  case mp =>
    rintro ⟨w, r, hw, heq⟩
    rcases List.append_eq_append_iff.mp heq with ⟨a, rfl, ha⟩ | ⟨a, rfl, ha⟩
    case inl =>
      cases a
      case nil => exact absurd (List.cons.inj ha).1 hc
      case cons b a =>
        obtain ⟨rfl, -⟩ := List.cons.inj ha
        have hb := hw c (by simp)
        rw [hspace] at hb
        cases hb
    case inr =>
      cases a
      case nil => exact absurd (List.cons.inj ha).1.symm hc
      case cons b a => exact ⟨w, a, hw, by rw [(List.cons.inj ha).1]⟩
  case mpr =>
    rintro ⟨w, r, hw, rfl⟩
    exact ⟨w, r ++ c :: t, hw, by simp⟩

-- What follows the first member is a comma or the closing brace, however the names are spelled.
theorem objectText_cons (f : WordMember → Bytes) (m : WordMember) (ms : List WordMember) :
    ∃ c t, objectText f (m :: ms) = openBrace :: (f m ++ c :: t) ∧ c ≠ colon ∧
    isSpace c = false := by
  cases ms
  case nil => exact ⟨closeBrace, [], by simp [objectText], by decide, by decide⟩
  case cons m' ms =>
    refine ⟨comma, List.intercalate [comma] ((m' :: ms).map f) ++ [closeBrace], ?_,
      by decide, by decide⟩
    simp [objectText, List.intercalate]

theorem ColonAhead.of_unquoted {m : WordMember} {ms : List WordMember} {v : Variant}
    (h : ReadsText L d (objectText WordMember.unquoted (m :: ms)) v) : ColonAhead m.value := by
  obtain ⟨c, t, htext, hc, hspace⟩ := objectText_cons WordMember.unquoted m ms
  obtain ⟨a, w, haw⟩ := List.exists_cons_of_ne_nil m.nonempty
  have ha := isTokenChar_word (m.chars a (by rw [haw]; exact List.mem_cons_self ..))
  have hsplit : m.unquoted ++ c :: t = a :: (w ++ colon :: m.value ++ c :: t) := by
    simp [WordMember.unquoted, haw]
  rw [htext, hsplit] at h
  rw [← colonAhead_append_iff hc hspace]
  refine fromString_object (.inl ha) (fun n => ?_) h
  rw [← hsplit]
  exact entryFromStream_unquoted m _ (by simp [haw]; omega)

theorem ColonAhead.not_of_quoted {m : WordMember} {ms : List WordMember} {v : Variant}
    (h : ReadsText L d (objectText WordMember.quoted (m :: ms)) v) : ¬ColonAhead m.value := by
  obtain ⟨c, t, htext, hc, hspace⟩ := objectText_cons WordMember.quoted m ms
  have hsplit : m.quoted ++ c :: t = quote :: (m.word ++ quote :: colon :: m.value ++ c :: t) := by
    simp [WordMember.quoted]
  rw [htext, hsplit] at h
  rw [← colonAhead_append_iff hc hspace]
  refine fromString_object (.inr rfl) (fun n => ?_) h
  rw [← hsplit]
  exact entryFromStream_quoted m (by simp [WordMember.quoted]; omega) (Nat.succ_pos n)

-- With the names in quotes there is a value behind the first colon, and without them a second
-- colon.
theorem sameObject_iff (L : LexicalCast) (d : UInt32) (ms : List WordMember)
    (h : ∃ v, ReadsText L d (objectText WordMember.quoted ms) v) : SameObject L d ms ↔ ms = [] := by
  constructor
  case mp =>
    intro hsame
    cases ms
    case nil => rfl
    case cons m ms =>
      obtain ⟨v, hv⟩ := h
      exact absurd (ColonAhead.of_unquoted (hsame v hv)) (ColonAhead.not_of_quoted hv)
  case mpr =>
    rintro rfl v hv
    exact hv

def memberA : WordMember :=
  ⟨ascii "a", ascii "1", by decide, by decide +kernel⟩

theorem sameObject_iff_memberA : SameObject .decimal 200 [memberA] ↔ [memberA] = [] :=
  sameObject_iff .decimal 200 [memberA]
    ⟨.object [(ascii "a", .uint64 1)], ⟨[], false⟩, by decide +kernel⟩

theorem not_sameObject_memberA : ¬SameObject .decimal 200 [memberA] := by
  intro h
  have hquoted : ReadsText .decimal 200 (objectText WordMember.quoted [memberA])
    (.object [(ascii "a", .uint64 1)]) :=
    ⟨⟨[], false⟩, by decide +kernel⟩
  obtain ⟨u, hu⟩ := h _ hquoted
  have herror : fromString .decimal (objectText WordMember.unquoted [memberA]) .relaxedParser 200 =
      .error (.parseError "Expected ':' after key") ⟨ascii "1" ++ [closeBrace], false⟩ := by
        decide +kernel
  rw [herror] at hu
  cases hu

end Members

end Json.Relaxed
