import FcModel.Io.Json.Dialects
import FcModel.Io.Json.Parse

-- How the loops of the parsers read what the grammar derives: white space, and the elements of
-- arrays and objects.

namespace Json

open Ascii

variable {fuel : Nat} {c : UInt8} {q w s t rest : Bytes} {e : Bool}

def isSeparator (c : UInt8) : Bool :=
  c = comma ∨ isSpace c

-- What can follow a value: nothing, or what separates or ends the elements of a container.
def Follow : Bytes → Prop
  | []     => True
  | c :: _ => isSeparator c ∨ c = closeBracket ∨ c = closeBrace

theorem Follow.mem (h : Follow (c :: q)) :
    c ∈ [comma, space, tab, newline, carriageReturn, closeBracket, closeBrace] := by
  simp only [Follow, isSeparator, isSpace, decide_eq_true_eq] at h
  rcases h with (h | h | h | h | h) | h | h
  all_goals rw [h]; decide

theorem follow_of_ws (hw : Ws w) : Follow w := by
  cases w
  case nil      => trivial
  case cons c w => exact .inl (by simp [isSeparator, hw c (List.mem_cons_self ..)])

-- What a value or the name of a member can start with.
structure Head (c : UInt8) : Prop where
  separator    : isSeparator c = false
  closeBracket : c ≠ Ascii.closeBracket
  closeBrace   : c ≠ Ascii.closeBrace
  nul          : c ≠ 0

theorem Head.space (h : Head c) : isSpace c = false := by
  have := h.separator
  simp [isSeparator] at this
  exact this.2

theorem Head.comma (h : Head c) : c ≠ Ascii.comma := by
  have := h.separator
  simp [isSeparator] at this
  exact this.1

-- Separators are consumed. Some of the parsers consume one together with the value before it.
def Drops (t t' : Bytes) : Prop :=
  ∃ w, t = w ++ t' ∧ ∀ c ∈ w, isSeparator c

theorem Drops.refl (t : Bytes) : Drops t t :=
  ⟨[], rfl, List.forall_mem_nil _⟩

-- The value is returned and `t` is left. If something is left, the end was not seen.
def Leaves {α : Type} (t : Bytes) (a : α) (r : Outcome α) : Prop :=
  ∃ e, r = .ok a ⟨t, e⟩ ∧ (t ≠ [] → e = false)

-- The text `s` is read as `a` where `t` follows, of which separators may be consumed as well.
def Reads {α : Type} (x : Parser α) (s t : Bytes) (a : α) : Prop :=
  ∃ t', Leaves t' a (x.run ⟨s ++ t, false⟩) ∧ Drops t t'

theorem Leaves.reads {α : Type} {x : Parser α} {a : α} (h : Leaves t a (x.run ⟨s ++ t, false⟩)) :
    Reads x s t a :=
  ⟨t, h, .refl t⟩

-- What is made of a result does not read on.
theorem Reads.bind {α β : Type} {x : Parser α} {f : α → Parser β} {a : α} {b : β}
    (h : Reads x s t a)
    (hf : f a = pure b) : Reads (x >>= f) s t b := by
  have ⟨t', ⟨e, hrun, he⟩, hd⟩ := h
  refine ⟨t', ⟨e, ?_, he⟩, hd⟩
  simp only [EStateM.run_bind, hrun, hf]
  rfl

theorem Reads.map {α β : Type} {x : Parser α} {a : α} (f : α → β) (h : Reads x s t a) :
    Reads (do return f (← x)) s t (f a) :=
  h.bind rfl

theorem Reads.congr {α : Type} {x y : Parser α} {a : α} (h : Reads x s t a)
    (hxy : y.run ⟨s ++ t, false⟩ = x.run ⟨s ++ t, false⟩) : Reads y s t a := by
  rw [Reads, hxy]
  exact h

theorem Leaves.eq {α : Type} {a : α} {r : Outcome α} (h : Leaves t a r) (ht : t ≠ []) :
    r = .ok a ⟨t, false⟩ := by
  have ⟨e, hr, he⟩ := h
  rw [hr, he ht]

theorem skipWhiteSpace_go_run (hw : Ws w) (hc : isSpace c = false) (h0 : c ≠ 0)
    (hf : w.length < fuel)
    {skipped : Bool} :
    (skipWhiteSpace.go fuel skipped).run ⟨w ++ c :: q, e⟩ = .ok (skipped || !w.isEmpty) ⟨c :: q, e⟩ := by
  induction w generalizing fuel skipped
  case nil =>
    cases fuel
    case zero => cases hf
    case succ =>
      simp only [skipWhiteSpace.go, EStateM.run_bind, List.nil_append, peek_cons, hc, h0]
      simp
  case cons b w hi =>
    cases fuel
    case zero => cases hf
    case succ =>
      have ⟨hb, hw⟩ := List.forall_mem_cons.mp hw
      simp only [skipWhiteSpace.go, EStateM.run_bind, List.cons_append, peek_cons, hb, if_true,
        getc_cons]
      rw [hi hw (Nat.lt_of_succ_lt_succ hf)]
      simp

theorem skipWhiteSpace_run (hw : Ws w) (hc : isSpace c = false) (h0 : c ≠ 0)
    (hf : w.length < fuel) :
    (skipWhiteSpace fuel).run ⟨w ++ c :: q, e⟩ = .ok (!w.isEmpty) ⟨c :: q, e⟩ := by
  rw [skipWhiteSpace, skipWhiteSpace_go_run hw hc h0 hf, Bool.false_or]

-- Elements with any commas and white space between them. What follows an element in the sequence is
-- in `F`.
inductive Sequence {α : Type} (R : Bytes → α → Prop) (F : Bytes → Prop) : Bytes → List α → Prop
  | nil : Sequence R F [] []
  | skip {c : UInt8} {s : Bytes} {as : List α} (hc : isSeparator c) (h : Sequence R F s as) : Sequence R F (c :: s) as
  | cons {s t : Bytes} {a : α} {as : List α} (h : R s a) (hf : F t) (ht : Sequence R F t as) :
      Sequence R F (s ++ t) (a :: as)

def Separated (t : Bytes) : Prop :=
  ∀ c q, t = c :: q → isSeparator c

theorem Separated.follow (h : Separated s) (hc : c = closeBracket ∨ c = closeBrace) :
    Follow (s ++ c :: rest) := by
  cases s
  case nil  => exact .inr hc
  case cons => exact .inl (h _ _ rfl)

theorem Separated.spaces (hw : Ws w) (ht : Separated t) : Separated (w ++ t) := by
  cases w
  case nil => exact ht
  case cons b w =>
    intro c q he
    rw [← (List.cons.inj he).1]
    simp [isSeparator, hw b (List.mem_cons_self ..)]

theorem Separated.comma (t : Bytes) : Separated ([comma] ++ t) := by
  intro c q he
  rw [← (List.cons.inj he).1]
  rfl

-- Where a sequence can end: nothing of what follows is skipped.
structure Stop (c : UInt8) : Prop where
  separator : isSeparator c = false
  nul       : c ≠ 0

theorem Stop.space (h : Stop c) : isSpace c = false := by
  have := h.separator
  simp [isSeparator] at this
  exact this.2

theorem Head.stop (h : Head c) : Stop c :=
  ⟨h.separator, h.nul⟩

theorem stop_close (h : c = closeBracket ∨ c = closeBrace) : Stop c := by
  rcases h with rfl | rfl
  all_goals exact ⟨rfl, by decide⟩

namespace Sequence

variable {α : Type} {R : Bytes → α → Prop} {F : Bytes → Prop} {as : List α}

theorem spaces (hw : Ws w) (h : Sequence R F s as) : Sequence R F (w ++ s) as := by
  induction w
  case nil => exact h
  case cons b w hi =>
    have ⟨hb, hw⟩ := List.forall_mem_cons.mp hw
    exact .skip (by simp [isSeparator, hb]) (hi hw)

-- The elements of a list in a text of RFC 8259 are such a sequence.
theorem ofElements (h : Elements R s as) : Sequence R Separated s as := by
  induction h
  case nil w hw => exact List.append_nil w ▸ spaces hw .nil
  case one w s w' a hw h hw' =>
    rw [List.append_assoc]
    have hw'' : Separated w' := List.append_nil w' ▸ Separated.spaces hw' nofun
    exact spaces hw (.cons h hw'' (List.append_nil w' ▸ spaces hw' .nil))
  case cons w s w' t a b as hw h hw' _ hi =>
    have ht : Sequence R Separated (w' ++ ([comma] ++ t)) (b :: as) := spaces hw' (.skip rfl hi)
    rw [List.append_assoc, List.append_assoc, List.append_assoc]
    exact spaces hw (.cons h (.spaces hw' (.comma t)) ht)

-- A separator at the start belongs to no element.
theorem tail (hR : ∀ s a, R s a → ∃ c q, s = c :: q ∧ Head c) (h : Sequence R F (c :: s) as)
    (hc : isSeparator c) : Sequence R F s as := by
  generalize hu : c :: s = u at h
  cases h
  case nil => cases hu
  case skip h => rw [(List.cons.inj hu).2]; exact h
  case cons a as hr hf ht =>
    have ⟨c', q', he, hh⟩ := hR _ _ hr
    rw [he] at hu
    rw [(List.cons.inj hu).1, hh.separator] at hc
    cases hc

-- The white space at the start, and what is left.
theorem split (hR : ∀ s a, R s a → ∃ c q, s = c :: q ∧ Head c) (h : Sequence R F s as) : ∃ w s',
    s = w ++ s' ∧ Ws w ∧ Sequence R F s' as ∧
    ∀ c q, s' = c :: q → isSpace c = false ∧ c ≠ 0 := by
  induction h
  case nil => exact ⟨[], [], rfl, List.forall_mem_nil _, .nil, nofun⟩
  case skip c s as hc h hi =>
    by_cases hs : isSpace c
    case pos =>
      have ⟨w, s', hw, hws, hseq, hh⟩ := hi
      exact ⟨c :: w, s', by rw [hw]; rfl, List.forall_mem_cons.mpr ⟨hs, hws⟩, hseq, hh⟩
    case neg =>
      refine ⟨[], c :: s, rfl, List.forall_mem_nil _, .skip hc h, fun c' q he => ?_⟩
      have hcomma : c = comma := by simpa [isSeparator, hs] using hc
      rw [← (List.cons.inj he).1, hcomma]
      decide
  case cons s t a as h hf ht _ =>
    have ⟨c, q, hs, hh⟩ := hR _ _ h
    refine ⟨[], s ++ t, rfl, List.forall_mem_nil _, .cons h hf ht, fun c' q' he => ?_⟩
    rw [hs] at he
    rw [← (List.cons.inj he).1]
    exact ⟨hh.space, hh.nul⟩

-- What is left of the sequence after separators have been consumed.
theorem drop (hR : ∀ s a, R s a → ∃ c q, s = c :: q ∧ Head c) (h : Sequence R F s as)
    (hc : isSeparator c = false) (ht : Drops (s ++ c :: rest) t) :
    ∃ s', t = s' ++ c :: rest ∧ Sequence R F s' as ∧ s'.length ≤ s.length := by
  have ⟨w, he, hw⟩ := ht
  clear ht
  induction w generalizing s
  case nil => exact ⟨s, he.symm, h, Nat.le_refl _⟩
  case cons b w hi =>
    have ⟨hb, hw⟩ := List.forall_mem_cons.mp hw
    cases s
    case nil =>
      rw [← (List.cons.inj he).1, hc] at hb
      cases hb
    case cons b' s =>
      have ⟨hb', he⟩ := List.cons.inj he
      have ⟨s', ht, hs, hle⟩ := hi (h.tail hR (hb' ▸ hb)) he hw
      exact ⟨s', ht, hs, Nat.le_succ_of_le hle⟩

-- White space in front of the sequence is skipped.
theorem skipWhiteSpace_run (hR : ∀ s a, R s a → ∃ c q, s = c :: q ∧ Head c) (h : Sequence R F s as)
    (hc : Stop c) (hf : (s ++ c :: rest).length < fuel) :
    ∃ w s', s = w ++ s' ∧ Sequence R F s' as ∧ (∀ c q, s' = c :: q → isSpace c = false) ∧
      (skipWhiteSpace fuel).run ⟨s ++ c :: rest, e⟩ = .ok (!w.isEmpty) ⟨s' ++ c :: rest, e⟩ := by
  have ⟨w, s', hs, hw, hseq, hh⟩ := h.split hR
  refine ⟨w, s', hs, hseq, fun c q he => (hh c q he).1, ?_⟩
  rw [hs] at hf ⊢
  simp only [List.length_append] at hf
  rw [List.append_assoc]
  cases s'
  case nil      => exact Json.skipWhiteSpace_run hw hc.space hc.nul (by omega)
  case cons b q => exact Json.skipWhiteSpace_run hw (hh b q rfl).1 (hh b q rfl).2 (by omega)

end Sequence

section Containers

variable {β : Type} {R : Bytes → β → Prop} {F : Bytes → Prop} {close : UInt8}
  {item : Nat → List β → Parser (List β)} {n : Nat}

-- An element is read in front of a sequence, and leaves the sequence.
def ReadsItem (R : Bytes → β → Prop) (F : Bytes → Prop) (rest : Bytes) (n : Nat)
    (item : Nat → List β → Parser (List β)) : Prop :=
  ∀ s t b bs fuel acc, R s b → F t → Sequence R F t bs →
    (s ++ (t ++ rest)).length ≤ n → (s ++ (t ++ rest)).length < fuel →
    ∃ t', (item fuel acc).run ⟨s ++ (t ++ rest), false⟩ = .ok (acc ++ [b]) ⟨t' ++ rest, false⟩ ∧
      Sequence R F t' bs ∧ t'.length ≤ t.length

-- What the loop does with an element: it goes on with what the item leaves.
theorem containerLoop_item (hclose : close = closeBracket ∨ close = closeBrace) (hc : Head c)
    (hf : 0 < fuel)
    {acc : List β} :
    (containerLoop close item (fuel + 1) acc).run ⟨c :: q, false⟩ =
      (do containerLoop close item fuel (← item fuel acc)).run ⟨c :: q, false⟩ := by
  have hne : some c ≠ some close := fun he => by
    rcases hclose with rfl | rfl
    case inl => exact hc.closeBracket (Option.some.inj he)
    case inr => exact hc.closeBrace (Option.some.inj he)
  have hne' : some c ≠ some comma := fun he => hc.comma (Option.some.inj he)
  have hskip : (skipWhiteSpace fuel).run ⟨c :: q, false⟩ = .ok false ⟨c :: q, false⟩ :=
    @skipWhiteSpace_run fuel c q [] false (List.forall_mem_nil _) hc.space hc.nul hf
  simp only [containerLoop, EStateM.run_bind, peek_cons, if_neg hne, if_neg hne', hskip,
    Bool.false_eq_true, if_false]

-- The loop reads the elements of a sequence if it can read each of them, and goes on after the
-- sequence.
theorem containerLoop_sequence (hclose : close = closeBracket ∨ close = closeBrace)
    (hR : ∀ s b, R s b → ∃ c q, s = c :: q ∧ Head c) (hc : Stop c)
    (hi : ReadsItem R F (c :: rest) n item)
    {bs : List β} (hs : Sequence R F s bs) (hn : (s ++ c :: rest).length ≤ n)
    (hf : (s ++ c :: rest).length + 1 < fuel) {acc : List β} :
    ∃ fuel', (c :: rest).length + 1 < fuel' ∧
    (containerLoop close item fuel acc).run ⟨s ++ c :: rest, false⟩ =
      (containerLoop close item fuel' (acc ++ bs)).run ⟨c :: rest, false⟩ := by
  have hsep := (stop_close hclose).separator
  induction fuel generalizing s bs acc
  case zero => cases hf
  case succ fuel ih =>
    cases hs
    case nil => exact ⟨fuel + 1, hf, by rw [List.append_nil]; rfl⟩
    case skip c' s hc' h =>
      have hne : some c' ≠ some close := fun he => by rw [Option.some.inj he, hsep] at hc'; cases hc'
      by_cases hcomma : c' = comma
      case pos =>
        simp only [List.cons_append, List.length_cons] at hn hf
        simp only [containerLoop, List.cons_append, EStateM.run_bind, peek_cons, if_neg hne,
          if_pos (congrArg some hcomma), getc_cons]
        exact ih h (by omega) (by omega)
      case neg =>
        have hne' : some c' ≠ some comma := fun he => hcomma (Option.some.inj he)
        have hspace : isSpace c' := by simpa [isSeparator, hcomma] using hc'
        have ⟨w, s', hs, hseq, hh, hskip⟩ := @Sequence.skipWhiteSpace_run fuel c _ rest false _ _ _ _ hR
          (.skip hc' h) hc (by omega)
        have hw : w ≠ [] := fun hw => by
          rw [hw, List.nil_append] at hs
          rw [hh c' s hs.symm] at hspace
          cases hspace
        have htrue : (!w.isEmpty) = true := by simpa using hw
        have hlen := congrArg List.length hs
        have hpos := List.length_pos_of_ne_nil hw
        simp only [List.length_cons, List.length_append] at hlen hn hf
        rw [List.cons_append] at hskip
        simp only [containerLoop, List.cons_append, EStateM.run_bind, peek_cons, if_neg hne,
          if_neg hne', hskip,
          htrue, if_true]
        exact ih hseq (by simp only [List.length_cons, List.length_append]; omega)
          (by simp only [List.length_cons, List.length_append]; omega)
    case cons s t b bs hr ht h =>
      have ⟨c', q, hs, hh⟩ := hR _ _ hr
      have hpos : 0 < s.length := by rw [hs]; exact Nat.zero_lt_succ _
      rw [List.append_assoc] at hn hf ⊢
      have ⟨t', hrun, hseq, hle⟩ := hi s t b bs fuel acc hr ht h hn (by omega)
      have hitem := @containerLoop_item fuel c' (q ++ (t ++ c :: rest)) _ close item hclose hh (by omega) acc
      rw [← List.cons_append, ← hs] at hitem
      simp only [hitem, EStateM.run_bind, hrun]
      simp only [List.length_append, List.length_cons] at hn hf
      have ⟨fuel', hf', hrest⟩ := @ih t' bs hseq (by simp only [List.length_append, List.length_cons]; omega)
        (by simp only [List.length_append, List.length_cons]; omega) (acc ++ [b])
      exact ⟨fuel', hf', by rw [hrest, List.append_assoc, List.singleton_append]⟩

-- A sequence up to the bracket.
theorem containerLoop_run (hclose : close = closeBracket ∨ close = closeBrace)
    (hR : ∀ s b, R s b → ∃ c q, s = c :: q ∧ Head c) (hi : ReadsItem R F (close :: rest) n item)
    {bs : List β}
    (hs : Sequence R F s bs) (hn : (s ++ close :: rest).length ≤ n)
    (hf : (s ++ close :: rest).length + 1 < fuel) {acc : List β} :
    (containerLoop close item fuel acc).run ⟨s ++ close :: rest, false⟩ = .ok (acc ++ bs) ⟨rest, false⟩ := by
  have ⟨fuel', hf', hrun⟩ :=
    @containerLoop_sequence _ _ _ _ _ _ _ _ _ _ hclose hR (stop_close hclose) hi bs hs hn hf acc
  cases fuel'
  case zero => cases hf'
  case succ =>
    rw [hrun, containerLoop]
    simp only [EStateM.run_bind, peek_cons, if_true, getc_cons]
    rfl

-- What is left after an element is still a sequence.
theorem Reads.sequence {α : Type} {x : Parser α} {a : α} (hc : Stop c)
    (hR : ∀ s b, R s b → ∃ c q, s = c :: q ∧ Head c) {bs : List β}
    (h : Reads x s (t ++ c :: rest) a)
    (ht : Sequence R F t bs) :
    ∃ t', x.run ⟨s ++ (t ++ c :: rest), false⟩ = .ok a ⟨t' ++ c :: rest, false⟩ ∧
      Sequence R F t' bs ∧ t'.length ≤ t.length := by
  have ⟨u, hrun, hdrop⟩ := h
  have ⟨t', hu, hseq, hle⟩ := ht.drop hR hc.separator hdrop
  rw [hu] at hrun
  exact ⟨t', hrun.eq (List.append_ne_nil_of_right_ne_nil _ (List.cons_ne_nil _ _)), hseq, hle⟩

-- White space in front of a sequence is skipped.
theorem Sequence.skipped (hc : Stop c) (hR : ∀ s b, R s b → ∃ c q, s = c :: q ∧ Head c)
    {bs : List β}
    (ht : Sequence R F t bs) (hf : (t ++ c :: rest).length < fuel) :
    ∃ b t', (skipWhiteSpace fuel).run ⟨t ++ c :: rest, false⟩ = .ok b ⟨t' ++ c :: rest, false⟩ ∧
      Sequence R F t' bs ∧ t'.length ≤ t.length := by
  have ⟨w, t', hs, hseq, _, hskip⟩ := @Sequence.skipWhiteSpace_run fuel c _ rest false _ _ _ _ hR ht hc hf
  exact ⟨_, t', hskip, hseq, by rw [hs, List.length_append]; exact Nat.le_add_left ..⟩

end Containers

-- The value that `s` spells is read where white space stands in front of it, up to what follows it.
-- Texts of more than `n` characters are not considered.
def ReadsValue (x : Parser Variant) (n : Nat) (s : Bytes) (v : Variant) : Prop :=
  ∀ w t, Ws w → Follow t → (w ++ s ++ t).length ≤ n → Reads x (w ++ s) t v

-- A name is read up to what follows it, which is not a quote.
def ReadsName (x : Parser Bytes) (n : Nat) (s : Bytes) (k : Bytes) : Prop :=
  ∀ t, t.head? ≠ some quote → (s ++ t).length ≤ n → Leaves t k (x.run ⟨s ++ t, false⟩)

section Elements

variable {R : Bytes → Variant → Prop} {F : Bytes → Prop} {n : Nat}

theorem readsItem_elementFromStream {v : Parser Variant}
    (hR : ∀ s b, R s b → ∃ c q, s = c :: q ∧ Head c)
    (hv : ∀ s b, R s b → ReadsValue v n s b) (hc : Stop c)
    (hF : ∀ t, F t → Follow (t ++ c :: rest)) :
    ReadsItem R F (c :: rest) n (elementFromStream v) := by
  intro s t b bs fuel ar hr hsep ht hn hf
  have hreads := hv s b hr [] _ (List.forall_mem_nil _) (hF t hsep) hn
  have ⟨u, hrun, hu, hle⟩ := hreads.sequence hc hR ht
  have hlen : (u ++ c :: rest).length < fuel := by
    simp only [List.length_append, List.length_cons] at hf ⊢
    omega
  have ⟨_, t', hskip, ht', hle'⟩ := hu.skipped hc hR hlen
  refine ⟨t', ?_, ht', hle'.trans hle⟩
  rw [List.nil_append] at hrun
  simp only [elementFromStream, EStateM.run_bind, hrun, hskip]
  rfl

theorem arrayFromStream_run {v : UInt32 → Parser Variant} {d : UInt32}
    (hR : ∀ s b, R s b → ∃ c q, s = c :: q ∧ Head c)
    (hv : ∀ s b, R s b → ReadsValue (v (d - 1)) n s b)
    {vs : List Variant} (hs : Elements R s vs) (hn : (s ++ closeBracket :: rest).length ≤ n)
    (hf : (s ++ closeBracket :: rest).length + 1 < fuel) :
    (arrayFromStream v fuel d).run ⟨openBracket :: (s ++ closeBracket :: rest), false⟩ = .ok vs ⟨rest, false⟩ := by
  have hc := @stop_close closeBracket (.inl rfl)
  have ⟨_, s', hskip, hs', hle⟩ := (Sequence.ofElements hs).skipped hc hR (Nat.lt_of_succ_lt hf)
  have hlen : (s' ++ closeBracket :: rest).length ≤ (s ++ closeBracket :: rest).length := by
    simp only [List.length_append]
    omega
  have hitem := @readsItem_elementFromStream _ rest R Separated n (v (d - 1)) hR hv hc fun t ht => ht.follow (.inl rfl)
  have hloop := @containerLoop_run fuel s' rest _ _ _ closeBracket _ _ (.inl rfl) hR hitem vs hs'
    (hlen.trans hn) (by omega) []
  simp only [arrayFromStream, EStateM.run_bind, peek_cons, ne_eq, not_true_eq_false, if_false,
    getc_cons, hskip,
    hloop, List.nil_append]

end Elements

section Members

variable {K : Bytes → Bytes → Prop} {R : Bytes → Variant → Prop} {F : Bytes → Prop} {n : Nat}

theorem Member.head (hK : ∀ s k, K s k → ∃ c q, s = c :: q ∧ Head c) (s : Bytes)
    (m : Bytes × Variant)
    (h : Member K R s m) : ∃ c q, s = c :: q ∧ Head c := by
  have .intro hk _ _ _ := h
  have ⟨c, q, he, hh⟩ := hK _ _ hk
  exact ⟨c, _, by rw [he]; rfl, hh⟩

-- What the functions for the members of an object start with.
theorem name_run {γ : Type} {str : Parser Bytes} {key : Bytes} {k : Bytes → Parser γ}
    (hs : ReadsName str n s key)
    (hw : Ws w) (hn : (s ++ (w ++ colon :: t)).length ≤ n) (hf : w.length < fuel) :
    (do let key ← str
        let _ ← skipWhiteSpace fuel
        if (← peek) ≠ some colon then throw (.parseError "Expected ':' after key")
        else do let _ ← getc
                k key : Parser γ).run ⟨s ++ (w ++ colon :: t), false⟩ = (k key).run ⟨t, false⟩ := by
  have hhead : (w ++ colon :: t).head? ≠ some quote := by
    cases w
    case nil => exact fun he => absurd (Option.some.inj he) (by decide)
    case cons b w =>
      intro he
      have hb := hw b (List.mem_cons_self ..)
      rw [Option.some.inj he] at hb
      cases hb
  have hstr := (hs _ hhead hn).eq (List.append_ne_nil_of_right_ne_nil _ (List.cons_ne_nil _ _))
  have hskip := @skipWhiteSpace_run fuel colon t w false hw rfl (by decide) hf
  simp only [EStateM.run_bind, hstr, hskip, peek_cons, ne_eq, not_true_eq_false, if_false,
    getc_cons]

-- What the functions for the members of an object do up to the value.
theorem member_run {γ : Type} {str : Parser Bytes} {v : Parser Variant}
    {j : Bytes → Variant → Parser γ}
    (hK : ∀ s k, K s k → ∃ c q, s = c :: q ∧ Head c) {n' : Nat}
    (hstr : ∀ s k, K s k → ReadsName str n' s k)
    (hv : ∀ s b, R s b → ReadsValue v n s b) (hc : Stop c) (hF : ∀ t, F t → Follow (t ++ c :: rest))
    {m : Bytes × Variant} {ms : List (Bytes × Variant)} (hm : Member K R s m) (hsep : F t)
    (ht : Sequence (Member K R) F t ms) (hn : (s ++ (t ++ c :: rest)).length ≤ n)
    (hn' : (s ++ (t ++ c :: rest)).length ≤ n') (hf : (s ++ (t ++ c :: rest)).length < fuel) :
    ∃ t', (do let key ← str
              let _ ← skipWhiteSpace fuel
              if (← peek) ≠ some colon then throw (.parseError "Expected ':' after key")
              else do let _ ← getc
                      let val ← v
                      j key val : Parser γ).run ⟨s ++ (t ++ c :: rest), false⟩ =
        (j m.1 m.2).run ⟨t' ++ c :: rest, false⟩ ∧ Sequence (Member K R) F t' ms ∧
        t'.length ≤ t.length := by
  cases hm
  case intro k w w' s key a hk hw hw' h =>
    have hs : k ++ w ++ [colon] ++ w' ++ s ++ (t ++ c :: rest) =
        k ++ (w ++ colon :: (w' ++ s ++ (t ++ c :: rest))) := by simp
    rw [hs] at hn hn' hf ⊢
    simp only [List.length_append, List.length_cons] at hn hf
    have hname := @name_run fuel w k (w' ++ s ++ (t ++ c :: rest)) n' γ str key
      (fun key => do let val ← v; j key val) (hstr k key hk) hw hn' (by omega)
    have hreads := hv s a h w' (t ++ c :: rest) hw' (hF t hsep)
      (by simp only [List.length_append, List.length_cons]; omega)
    have ⟨t', hrun, ht', hle⟩ := hreads.sequence hc (Member.head hK) ht
    refine ⟨t', ?_, ht', hle⟩
    rw [hname, EStateM.run_bind, hrun]

theorem readsItem_entryFromStream {v : Parser Variant}
    (hK : ∀ s k, K s k → ∃ c q, s = c :: q ∧ Head c)
    (hstr : ∀ fuel n s k, n < fuel → K s k → ReadsName (stringFromStream fuel) n s k)
    (hv : ∀ s b, R s b → ReadsValue v n s b) (hc : Stop c)
    (hF : ∀ t, F t → Follow (t ++ c :: rest)) :
    ReadsItem (Member K R) F (c :: rest) n (entryFromStream v) := by
  intro s t m ms fuel obj hm hsep ht hn hf
  exact member_run (j := fun key val => return obj ++ [(key, val)]) hK (fun s k hk => hstr fuel _ s k hf hk) hv hc hF
    hm hsep ht hn (Nat.le_refl _) hf

theorem Relaxed.readsItem_entryFromStream {str : Parser Bytes} {v : Parser Variant}
    (hK : ∀ s k, K s k → ∃ c q, s = c :: q ∧ Head c) (hstr : ∀ s k, K s k → ReadsName str n s k)
    (hv : ∀ s b, R s b → ReadsValue v n s b) (hc : Stop c)
    (hF : ∀ t, F t → Follow (t ++ c :: rest)) :
    ReadsItem (Member K R) F (c :: rest) n (Relaxed.entryFromStream str v) := by
  intro s t m ms fuel obj hm hsep ht hn hf
  have ⟨u, hrun, hu, hle⟩ := @member_run fuel c s t rest _ _ _ n _ str v
    (fun key val => do let _ ← skipWhiteSpace fuel; return obj ++ [(key, val)]) hK n hstr hv hc hF m ms hm hsep ht
    hn hn hf
  have hlen : (u ++ c :: rest).length < fuel := by
    simp only [List.length_append, List.length_cons] at hf ⊢
    omega
  have ⟨_, t', hskip, ht', hle'⟩ := hu.skipped hc (Member.head hK) hlen
  refine ⟨t', hrun.trans ?_, ht', hle'.trans hle⟩
  rw [EStateM.run_bind, hskip]
  rfl

theorem catchEof_run {α : Type} {x : Parser α} {a : α} {st st' : Stringstream}
    (h : x.run st = .ok a st') :
    (catchEof x).run st = .ok a st' := by
  have h : x st = .ok a st' := h
  simp only [EStateM.run, catchEof, h]

theorem objectFromStream_run {v : UInt32 → Parser Variant} {d : UInt32}
    (hK : ∀ s k, K s k → ∃ c q, s = c :: q ∧ Head c)
    (hstr : ∀ fuel n s k, n < fuel → K s k → ReadsName (stringFromStream fuel) n s k)
    (hv : ∀ s b, R s b → ReadsValue (v (d - 1)) n s b) {ms : List (Bytes × Variant)}
    (hs : Elements (Member K R) s ms) (hn : (s ++ closeBrace :: rest).length ≤ n)
    (hf : (s ++ closeBrace :: rest).length + 1 < fuel) :
    (objectFromStream v fuel d).run ⟨openBrace :: (s ++ closeBrace :: rest), false⟩ = .ok ms ⟨rest, false⟩ := by
  have hitem := @readsItem_entryFromStream _ rest K R Separated n (v (d - 1)) hK hstr hv (stop_close (.inr rfl))
    fun t ht => ht.follow (.inr rfl)
  have hloop := @containerLoop_run fuel s rest _ _ _ closeBrace _ _ (.inr rfl) (Member.head hK) hitem ms
    (Sequence.ofElements hs) hn hf []
  refine catchEof_run ?_
  simp only [EStateM.run_bind, peekChar_cons, ne_eq, not_true_eq_false, if_false, getc_cons, hloop,
    List.nil_append]

theorem Relaxed.objectFromStream_run {str : Parser Bytes} {v : UInt32 → Parser Variant} {d : UInt32}
    (hK : ∀ s k, K s k → ∃ c q, s = c :: q ∧ Head c) (hstr : ∀ s k, K s k → ReadsName str n s k)
    (hv : ∀ s b, R s b → ReadsValue (v (d - 1)) n s b) {ms : List (Bytes × Variant)}
    (hs : Elements (Member K R) s ms) (hn : (s ++ closeBrace :: rest).length ≤ n)
    (hf : (s ++ closeBrace :: rest).length + 1 < fuel) :
    (Relaxed.objectFromStream str v fuel d).run ⟨openBrace :: (s ++ closeBrace :: rest), false⟩ =
      .ok ms ⟨rest, false⟩ := by
  have ⟨_, s', hskip, hs', hle⟩ :=
    (Sequence.ofElements hs).skipped (stop_close (.inr rfl)) (Member.head hK) (Nat.lt_of_succ_lt hf)
  have hlen : (s' ++ closeBrace :: rest).length ≤ (s ++ closeBrace :: rest).length := by
    simp only [List.length_append]
    omega
  have hitem := @Relaxed.readsItem_entryFromStream _ rest K R Separated n str (v (d - 1)) hK hstr hv
    (stop_close (.inr rfl)) fun t ht => ht.follow (.inr rfl)
  have hloop := @containerLoop_run fuel s' rest _ _ _ closeBrace _ _ (.inr rfl) (Member.head hK) hitem ms hs'
    (hlen.trans hn) (by omega) []
  refine catchEof_run ?_
  simp only [EStateM.run_bind, peekChar_cons, ne_eq, not_true_eq_false, if_false, getc_cons, hskip,
    hloop,
    List.nil_append]

end Members

end Json
