import FcModel.Io.Json.Completeness
import FcModel.Lib.Run

-- The numbers that the strict parser accepts. A point makes a string of a number, and the strict
-- parser rejects the text then.

namespace Json

open Ascii

variable {α β : Type} {G B R : Bytes → α → Prop} {s t w rest : Bytes} {c : UInt8} {as : List α}
    {n fuel : Nat}

section Failure

-- There is a separator.
def Spaced (t : Bytes) : Prop :=
  t ≠ [] ∧ Separated t

theorem Spaced.follow (h : Spaced t) (rest : Bytes) : Follow (t ++ rest) := by
  cases t
  case nil  => exact absurd rfl h.1
  case cons => exact .inl (h.2 _ _ rfl)

-- Either all the elements are in `G`, or there is a first one that is in `B`.
theorem Elements.split (h : Elements (fun s a => G s a ∨ B s a) s as) :
    Elements G s as ∨ ∃ s₁ u s₂ bs b, s = s₁ ++ (u ++ s₂) ∧ Sequence G Spaced s₁ bs ∧ B u b ∧
    b ∈ as ∧ Separated s₂ := by
  induction h
  case nil hw => exact .inl (.nil hw)
  case one w s w' a hw h hw' =>
    rcases h with h | h
    case inl => exact .inl (.one hw h hw')
    case inr =>
      have hw'' : Separated w' := List.append_nil w' ▸ Separated.spaces hw' nofun
      exact .inr ⟨w, s, w', [], a, by rw [List.append_assoc], List.append_nil w ▸ Sequence.spaces hw .nil, h,
        List.mem_cons_self .., hw''⟩
  case cons w s w' t a b as hw h hw' _ hi =>
    have hsep : Separated (w' ++ ([comma] ++ t)) := .spaces hw' (.comma t)
    rcases h with h | h
    case inr =>
      exact .inr ⟨w, s, w' ++ ([comma] ++ t), [], a, by simp, List.append_nil w ▸ Sequence.spaces hw .nil, h,
        List.mem_cons_self .., hsep⟩
    case inl =>
      rcases hi with hi | ⟨s₁, u, s₂, bs, b', ht, hs₁, hu, hm, hs₂⟩
      case inl => exact .inl (.cons hw h hw' hi)
      case inr =>
        have hs₁' : Sequence G Spaced (w' ++ ([comma] ++ s₁)) bs := Sequence.spaces hw' (.skip rfl hs₁)
        have hne : w' ++ ([comma] ++ s₁) ≠ [] := List.append_ne_nil_of_right_ne_nil _ (List.cons_ne_nil _ _)
        exact .inr ⟨w ++ (s ++ (w' ++ ([comma] ++ s₁))), u, s₂, a :: bs, b', by rw [ht]; simp,
          Sequence.spaces hw (.cons h ⟨hne, .spaces hw' (.comma s₁)⟩ hs₁'), hu, List.mem_cons_of_mem _ hm, hs₂⟩

theorem Sequence.imp {F : Bytes → Prop} {G' : Bytes → α → Prop} (h : Sequence G F s as)
    (hG : ∀ s a, G s a → G' s a) : Sequence G' F s as := by
  induction h
  case nil            => exact .nil
  case skip hc _ hi   => exact .skip hc hi
  case cons h hf _ hi => exact .cons (hG _ _ h) hf hi

theorem Sequence.choose {F : Bytes → Prop} {H : Bytes → β → Prop} (h : Sequence G F s as)
    (hG : ∀ s a, G s a → ∃ b, H s b) : ∃ bs, Sequence H F s bs := by
  induction h
  case nil => exact ⟨[], .nil⟩
  case skip hc _ hi =>
    have ⟨bs, hbs⟩ := hi
    exact ⟨bs, .skip hc hbs⟩
  case cons h hf _ hi =>
    have ⟨b, hb⟩ := hG _ _ h
    have ⟨bs, hbs⟩ := hi
    exact ⟨b :: bs, .cons hb hf hbs⟩

-- The run ends with an error.
def Fails (x : Parser α) (s : Bytes) : Prop :=
  ∃ e st, x.run ⟨s, false⟩ = .error e st

theorem Fails.bind {x : Parser α} {f : α → Parser β} (h : Fails x s) : Fails (x >>= f) s := by
  have ⟨e, st, hrun⟩ := h
  exact ⟨e, st, by rw [EStateM.run_bind, hrun]⟩

theorem Fails.congr {x y : Parser α} (h : Fails x s) (hxy : y.run ⟨t, false⟩ = x.run ⟨s, false⟩) :
    Fails y t := by
  have ⟨e, st, hrun⟩ := h
  exact ⟨e, st, hxy.trans hrun⟩

theorem Fails.catchEof {x : Parser α} (h : Fails x s) : Fails (catchEof x) s := by
  have ⟨e, st, hrun⟩ := h
  have hrun : x ⟨s, false⟩ = .error e st := hrun
  cases e
  case eof => exact ⟨_, st, by simp only [EStateM.run, Json.catchEof, hrun]; rfl⟩
  all_goals exact ⟨_, st, by simp only [EStateM.run, Json.catchEof, hrun]; rfl⟩

-- The loop fails at the first element that fails.
theorem containerLoop_fails {close : UInt8} {item : Nat → List α → Parser (List α)}
    (hclose : close = closeBracket ∨ close = closeBrace)
    (hR : ∀ s b, R s b → ∃ c q, s = c :: q ∧ Head c) (hc : Head c)
    (hi : ReadsItem R Spaced (c :: rest) n item) (hs : Sequence R Spaced s as)
    (hfail : ∀ fuel acc, (c :: rest).length < fuel → Fails (item fuel acc) (c :: rest))
    (hn : (s ++ c :: rest).length ≤ n) (hf : (s ++ c :: rest).length + 1 < fuel) {acc : List α} :
    Fails (containerLoop close item fuel acc) (s ++ c :: rest) := by
  have ⟨fuel', hf', hrun⟩ :=
    @containerLoop_sequence _ _ _ _ _ _ _ _ _ _ hclose hR hc.stop hi as hs hn hf acc
  cases fuel'
  case zero => cases hf'
  case succ fuel' =>
    have hf' : (c :: rest).length < fuel' := Nat.lt_of_succ_lt_succ hf'
    refine Fails.congr ?_ hrun
    exact (Fails.bind (hfail fuel' (acc ++ as) hf')).congr (containerLoop_item hclose hc (Nat.zero_lt_of_lt hf'))

theorem Fails.of_run {x : Parser α} {f : α → Parser β} {a : α}
    (hx : x.run ⟨s, false⟩ = .ok a ⟨t, false⟩)
    (h : Fails (f a) t) : Fails (x >>= f) s :=
  h.congr (by rw [EStateM.run_bind, hx])

-- A value fails wherever white space stands in front of it.
def FailsValue (x : Parser Variant) (n : Nat) (s : Bytes) : Prop :=
  ∀ w t, Ws w → Follow t → (w ++ s ++ t).length ≤ n → Fails x (w ++ s ++ t)

theorem arrayFromStream_fails {R : Bytes → Variant → Prop} {v : UInt32 → Parser Variant}
    {d : UInt32}
    {s₁ u s₂ : Bytes} {vs : List Variant} (hR : ∀ s b, R s b → ∃ c q, s = c :: q ∧ Head c)
    (hv : ∀ s b, R s b → ReadsValue (v (d - 1)) n s b) (hs₁ : Sequence R Spaced s₁ vs)
    (hu : ∃ c q, u = c :: q ∧ Head c) (hfail : FailsValue (v (d - 1)) n u) (hs₂ : Separated s₂)
    (hn : (s₁ ++ (u ++ (s₂ ++ closeBracket :: rest))).length ≤ n)
    (hf : (s₁ ++ (u ++ (s₂ ++ closeBracket :: rest))).length + 1 < fuel) :
    Fails (arrayFromStream v fuel d) (openBracket :: (s₁ ++ (u ++ (s₂ ++ closeBracket :: rest)))) := by
  have hfollow : Follow (s₂ ++ closeBracket :: rest) := hs₂.follow (.inl rfl)
  generalize s₂ ++ closeBracket :: rest = r at *
  have ⟨c, q, he, hc⟩ := hu
  have ⟨_, s', hskip, hs', hle⟩ := @Sequence.skipped fuel c s₁ (q ++ r) _ _ _ hc.stop hR vs hs₁ (by rw [he] at hf; exact Nat.lt_of_succ_lt hf)
  have hitem := @readsItem_elementFromStream c (q ++ r) R Spaced n (v (d - 1)) hR hv hc.stop fun t ht => ht.follow _
  rw [he] at hn hf hfail ⊢
  simp only [List.length_append] at hn hf
  have hloop := @containerLoop_fails _ _ s' (q ++ r) c vs n fuel closeBracket _ (.inl rfl) hR hc hitem hs'
    (fun fuel acc _ => .bind (hfail [] r (List.forall_mem_nil _) hfollow (by simp only [List.nil_append, List.length_append]; omega)))
    (by simp only [List.length_append, List.length_cons] at *; omega) (by simp only [List.length_append, List.length_cons] at *; omega) []
  refine .of_run peek_cons ?_
  simp only [ne_eq, not_true_eq_false, if_false]
  exact .of_run getc_cons (.of_run hskip hloop)

-- A member fails with its value.
theorem Relaxed.entryFromStream_fails {str : Parser Bytes} {v : Parser Variant} {k w w' s : Bytes}
    {key : Bytes}
    (hk : ReadsName str n k key) (hw : Ws w) (hw' : Ws w') (hfail : FailsValue v n s)
    (ht : Follow t)
    (hn : (k ++ w ++ [colon] ++ w' ++ s ++ t).length ≤ n)
    (hf : (k ++ w ++ [colon] ++ w' ++ s ++ t).length < fuel)
    {obj : List (Bytes × Variant)} :
    Fails (Relaxed.entryFromStream str v fuel obj) (k ++ w ++ [colon] ++ w' ++ s ++ t) := by
  have hs : k ++ w ++ [colon] ++ w' ++ s ++ t = k ++ (w ++ colon :: (w' ++ s ++ t)) := by simp
  rw [hs] at hn hf ⊢
  have hname := @name_run fuel w k (w' ++ s ++ t) n _ str key
    (fun key => do let val ← v; let _ ← skipWhiteSpace fuel; return obj ++ [(key, val)]) hk hw hn
    (by simp only [List.length_append] at hf; omega)
  simp only [List.length_append, List.length_cons] at hn
  exact (Fails.bind (hfail w' t hw' ht (by simp only [List.length_append]; omega))).congr hname

theorem Relaxed.objectFromStream_fails {K : Bytes → Bytes → Prop} {R : Bytes → Variant → Prop}
    {str : Parser Bytes}
    {v : UInt32 → Parser Variant} {d : UInt32} {s₁ u s₂ : Bytes} {ms : List (Bytes × Variant)}
    (hK : ∀ s k, K s k → ∃ c q, s = c :: q ∧ Head c) (hstr : ∀ s k, K s k → ReadsName str n s k)
    (hv : ∀ s b, R s b → ReadsValue (v (d - 1)) n s b) (hs₁ : Sequence (Member K R) Spaced s₁ ms)
    {B : Bytes → α → Prop} (hB : ∀ s a, B s a → FailsValue (v (d - 1)) n s) {m : Bytes × α}
    (hu : Member K B u m)
    (hs₂ : Separated s₂) (hn : (s₁ ++ (u ++ (s₂ ++ closeBrace :: rest))).length ≤ n)
    (hf : (s₁ ++ (u ++ (s₂ ++ closeBrace :: rest))).length + 1 < fuel) :
    Fails (Relaxed.objectFromStream str v fuel d) (openBrace :: (s₁ ++ (u ++ (s₂ ++ closeBrace :: rest)))) := by
  have hfollow : Follow (s₂ ++ closeBrace :: rest) := hs₂.follow (.inr rfl)
  generalize s₂ ++ closeBrace :: rest = r at *
  have hfail {fuel : Nat} {obj : List (Bytes × Variant)} (hn : (u ++ r).length ≤ n) (hf : (u ++ r).length < fuel) :
      Fails (Relaxed.entryFromStream str (v (d - 1)) fuel obj) (u ++ r) := by
    have .intro hk hw hw' h := hu
    exact Relaxed.entryFromStream_fails (hstr _ _ hk) hw hw' (hB _ _ h) hfollow hn hf
  have ⟨c, q, he, hc⟩ : ∃ c q, u = c :: q ∧ Head c := by
    have .intro hk _ _ _ := hu
    have ⟨c, q, he, hc⟩ := hK _ _ hk
    exact ⟨c, _, by rw [he]; rfl, hc⟩
  have ⟨_, s', hskip, hs', hle⟩ := @Sequence.skipped fuel c s₁ (q ++ r) _ _ _ hc.stop (Member.head hK) ms hs₁
    (by rw [he] at hf; exact Nat.lt_of_succ_lt hf)
  have hitem := @Relaxed.readsItem_entryFromStream c (q ++ r) K R Spaced n str (v (d - 1)) hK hstr hv hc.stop
    fun t ht => ht.follow _
  rw [he] at hn hf hfail ⊢
  simp only [List.length_append, List.length_cons] at hn hf hfail
  have hloop := @containerLoop_fails _ _ s' (q ++ r) c ms n fuel closeBrace _ (.inr rfl) (Member.head hK) hc hitem hs'
    (fun fuel acc h => hfail (by omega) (by simp only [List.length_append, List.length_cons] at h; omega))
    (by simp only [List.length_append, List.length_cons]; omega)
    (by simp only [List.length_append, List.length_cons]; omega) []
  refine Fails.catchEof (.of_run peekChar_cons ?_)
  simp only [ne_eq, not_true_eq_false, if_false]
  exact .of_run getc_cons (.of_run hskip hloop)

end Failure

namespace Relaxed

variable {L : LexicalCast} {strict : Bool} {x : Value}

-- The text is rejected wherever it stands.
structure Rejects (L : LexicalCast) (s : Bytes) (x : Value) : Prop where
  head  : ∃ c q, s = c :: q ∧ Head c
  fails : ∀ fuel stack d n, n + 2 < fuel → x.nesting < stack → ∀ w t, Ws w → Follow t → (w ++ s ++ t).length ≤ n →
    Fails (variantFromStream (reader L true fuel) fuel stack d) (w ++ s ++ t)

-- The text is rejected if the switch rejects it.
theorem rejects_of_switch (hs : ∃ c q, s = c :: q ∧ Head c)
    (h : ∀ fuel stack d t, x.nesting ≤ stack → Follow t → (s ++ t).length + 1 < fuel →
      Fails (variantSwitch (reader L true (fuel + 1)) (variantFromStream (reader L true (fuel + 1)) (fuel + 1) stack) d
        (fuel + 1)) (s ++ t)) : Rejects L s x where
  head := hs
  fails := by
    intro fuel stack d n hn hstack w t hw ht hlen
    have ⟨c, q, he, hc⟩ := hs
    simp only [List.length_append] at hlen
    cases fuel
    case zero => cases hn
    case succ fuel =>
      cases stack
      case zero => cases hstack
      case succ stack =>
        refine (h fuel stack d t (Nat.le_of_lt_succ hstack) ht (by rw [List.length_append]; omega)).congr ?_
        rw [he, List.append_assoc]
        exact (@switches_variantSwitch L true).start (n := 0) hw hc trivial (by omega)

theorem rejects_number {n : Number} (hn : n.frac ≠ none) : Rejects L n.text (.number n) := by
  have ⟨c, q, he, hc⟩ := n.head
  have ⟨hhead, hspace, h0, hquote, hbrace, hbracket, _, hstarts⟩ := number_cases hc
  refine rejects_of_switch ⟨c, q, he, hhead⟩ fun fuel stack d t _ ht hf => ?_
  rw [List.length_append] at hf
  have hswitch : Fails (numberFromStream L true (fuel + 1)) (n.text ++ t) := by
    have ⟨t', ⟨e, htoken, _⟩, _⟩ :=
      @tokenFromStream_reads (fuel + 1) n.text t (isTokenChar_text n) (Number.text_ne_nil n) ht (by omega)
    have ⟨ds, hfrac⟩ := Option.ne_none_iff_exists'.mp hn
    refine ⟨.parseError "expected: number", ⟨t', e⟩, ?_⟩
    simp only [numberFromStream, EStateM.run_bind, htoken, parseNumberOrStr_text, ofNumber, hfrac]
    rfl
  refine hswitch.congr ?_
  rw [he]
  simp only [variantSwitch, EStateM.run_bind, List.cons_append, peekChar_cons, if_neg h0, hspace,
    Bool.false_eq_true,
    if_false, if_neg hquote, if_neg hbrace, if_neg hbracket, hstarts, if_true]
  rfl

-- The strict parser has read the text as a value of the same form, with numbers for numbers.
def Numeric : Variant → Value → Prop :=
  Represents (fun _ _ => True) fun v _ => isNumber v

theorem Numeric.nesting_eq {v : Variant} (h : Numeric v x) : v.nesting = x.nesting := by
  refine Represents.nesting_eq (fun v n hv => ?_) h
  cases v
  case array  => cases hv
  case object => cases hv
  all_goals rfl

-- The text is read as such a value.
def Accepts (L : LexicalCast) (s : Bytes) (x : Value) : Prop :=
  ∃ v, Relaxed.Reads L true s v ∧ Numeric v x

-- What the elements of a container are read with.
theorem Accepts.readsValue {fuel stack n k : Nat} {d : UInt32} (hn : n + 2 < fuel) (hk : k ≤ stack)
    (s : Bytes) (v : Variant)
    (h : Relaxed.Reads L true s v ∧ v.nesting < k) :
    ReadsValue (variantFromStream (reader L true fuel) fuel stack d) n s v :=
  h.1.reads fuel stack d n hn (h.2.trans_le hk) trivial

-- A container is rejected if one of its elements is.
theorem rejects_array {xs bs : List Value} {s₁ u s₂ : Bytes} {b : Value}
    (hs₁ : Sequence (fun s x => Accepts L s x ∧ x.nesting < (Value.array xs).nesting) Spaced s₁ bs)
    (hu : Rejects L u b) (hb : b.nesting < (Value.array xs).nesting) (hs₂ : Separated s₂) :
    Rejects L ([openBracket] ++ (s₁ ++ (u ++ s₂)) ++ [closeBracket]) (.array xs) := by
  refine rejects_of_switch ⟨openBracket, _, rfl, by constructor <;> decide⟩ fun fuel stack d t hstack ht hf => ?_
  have hs : [openBracket] ++ (s₁ ++ (u ++ s₂)) ++ [closeBracket] ++ t =
    openBracket :: (s₁ ++ (u ++ (s₂ ++ closeBracket :: t))) := by simp
  rw [hs, List.length_cons] at hf
  rw [hs]
  have ⟨vs, hvs⟩ := hs₁.choose (H := fun s v => Relaxed.Reads L true s v ∧ v.nesting < (Value.array xs).nesting)
    fun s x ⟨⟨v, hv, hx⟩, hlt⟩ => ⟨v, hv, hx.nesting_eq ▸ hlt⟩
  have hfail := @arrayFromStream_fails t _ fuel _ _ (d - 1) s₁ u s₂ vs (fun s v h => h.1.head)
    (Accepts.readsValue (Nat.lt_succ_of_lt hf) hstack) hvs hu.head
    (hu.fails (fuel + 1) stack (d - 1 - 1) _ (Nat.lt_succ_of_lt hf) (hb.trans_le hstack)) hs₂ (Nat.le_refl _)
    (Nat.lt_of_succ_lt hf)
  exact (Fails.bind hfail).congr rfl

theorem rejects_object {K : Bytes → List Char → Prop} (hK : ∀ s cs, K s cs → ∃ k, Named s k)
    {ys bs : List (List Char × Value)} {s₁ u s₂ : Bytes} {b : List Char × Value}
    (hs₁ : Sequence (Member K fun s x => Accepts L s x ∧ x.nesting < (Value.object ys).nesting) Spaced s₁ bs)
    (hu : Member K (fun s x => Rejects L s x ∧ x.nesting < (Value.object ys).nesting) u b)
    (hs₂ : Separated s₂) :
    Rejects L ([openBrace] ++ (s₁ ++ (u ++ s₂)) ++ [closeBrace]) (.object ys) := by
  refine rejects_of_switch ⟨openBrace, _, rfl, by constructor <;> decide⟩ fun fuel stack d t hstack ht hf => ?_
  have hs : [openBrace] ++ (s₁ ++ (u ++ s₂)) ++ [closeBrace] ++ t =
    openBrace :: (s₁ ++ (u ++ (s₂ ++ closeBrace :: t))) := by simp
  rw [hs, List.length_cons] at hf
  rw [hs]
  have ⟨ms, hms⟩ := hs₁.choose (H := Member Named fun s v => Relaxed.Reads L true s v ∧
    v.nesting < (Value.object ys).nesting) fun s m h => by
      have .intro hk hw hw' ⟨⟨v, hv, hx⟩, hlt⟩ := h
      have ⟨k, hk⟩ := hK _ _ hk
      exact ⟨(k, v), .intro hk hw hw' ⟨hv, hx.nesting_eq ▸ hlt⟩⟩
  have ⟨m, hm⟩ : ∃ m, Member Named (fun s x => Rejects L s x ∧ x.nesting < (Value.object ys).nesting) u m := by
    have .intro hk hw hw' h := hu
    have ⟨k, hk⟩ := hK _ _ hk
    exact ⟨(k, _), .intro hk hw hw' h⟩
  have hfail := @objectFromStream_fails _ t _ fuel Named _ (stringFromStream true (fuel + 1)) _ (d - 1) s₁ u s₂ ms
    Named.head (fun s k ⟨b, hs, hb⟩ => hs ▸ readsName_stringFromStream hb (by omega))
    (Accepts.readsValue (Nat.lt_succ_of_lt hf) hstack) hms _
    (fun s x h => h.1.fails (fuel + 1) stack (d - 1 - 1) _ (Nat.lt_succ_of_lt hf) (h.2.trans_le hstack)) m hm hs₂
    (Nat.le_refl _) (Nat.lt_of_succ_lt hf)
  exact (Fails.bind hfail).congr rfl

-- All the numbers in a value are in `P`.
inductive AllNumbers (P : Number → Prop) : Value → Prop
  | null : AllNumbers P .null
  | bool (b : Bool) : AllNumbers P (.bool b)
  | string (cs : List Char) : AllNumbers P (.string cs)
  | number {n : Number} (h : P n) : AllNumbers P (.number n)
  | array {xs : List Value} (h : ∀ x ∈ xs, AllNumbers P x) : AllNumbers P (.array xs)
  | object {ms : List (List Char × Value)} (h : ∀ m ∈ ms, AllNumbers P m.2) : AllNumbers P (.object ms)

-- The text of a number in range is converted if a `double` is asked for.
def ConvertsDoubles (L : LexicalCast) : Prop :=
  ∀ n : Number, DoubleRange n.value → ∃ d, L.toDouble n.text = some d

theorem text_takeWhile (n : Number) : n.text.takeWhile (· ≠ 0) = n.text := by
  rw [List.takeWhile_eq_self_iff]
  intro c hc
  have htoken := isTokenChar_text n c hc
  have hne : c ≠ 0 := fun he => by rw [he] at htoken; exact absurd htoken (by decide +kernel)
  simpa using hne

theorem ofNumber_inRange (hL : ConvertsDoubles L) {n : Number} (hn : n.InRange)
    (hf : n.frac = none) :
    ∃ v, ofNumber L n n.text = .ok v ∧ isNumber v := by
  cases he : n.exp
  case none => exact ⟨_, ofNumber_plain (hn.integer ⟨hf, he⟩), isNumber_ofPlain n⟩
  case some e =>
    have hother : ¬n.IsInteger := fun h => by rw [h.2] at he; cases he
    have ⟨d, hd⟩ := hL n (hn.other hother)
    refine ⟨.double d, ?_, rfl⟩
    simp only [ofNumber, hf, he, toDouble, text_takeWhile, hd]
    rfl

theorem Quoted.named_rfc {s : Bytes} {cs : List Char} (h : Quoted RfcChar s cs) : ∃ k,
    Named s k := by
  have .intro h := h
  have ⟨k, hk⟩ := h.body_rfc
  exact ⟨k, _, rfl, hk⟩

-- A text is accepted with its numbers, or one of them has a point and the text is rejected.
theorem accepts_or_rejects (hL : ConvertsDoubles L) (h : Spells rfc8259InRange s x) :
    Accepts L s x ∧ AllNumbers (·.frac = none) x ∨ Rejects L s x ∧
    ¬AllNumbers (·.frac = none) x := by
  have hp := @switches_variantSwitch L true
  induction h using Spells.induct
  case null   => exact .inl ⟨⟨_, hp.readsAs_null, .null⟩, .null⟩
  case bool b => exact .inl ⟨⟨_, hp.readsAs_bool b, .bool b⟩, .bool b⟩
  case string s cs h =>
    have ⟨k, hk⟩ := Quoted.named_rfc h
    exact .inl ⟨⟨_, hp.readsAs_string hk, .string trivial⟩, .string cs⟩
  case number n h =>
    by_cases hf : n.frac = none
    case neg => exact .inr ⟨rejects_number hf, fun | .number h => hf h⟩
    case pos =>
      have ⟨v, hv, hnumber⟩ := ofNumber_inRange hL h hf
      exact .inl ⟨⟨v, readsAs_number hv fun _ => hnumber, .number hnumber⟩, .number hf⟩
  case array s xs _ hi =>
    have hnesting := Value.nesting_array_le.mp (Nat.le_refl (Value.array xs).nesting)
    have hsplit := (hi.imp_mem (Q := fun s x =>
      (Accepts L s x ∧ x.nesting < (Value.array xs).nesting) ∧ AllNumbers (·.frac = none) x ∨
      (Rejects L s x ∧ x.nesting < (Value.array xs).nesting) ∧ ¬AllNumbers (·.frac = none) x) fun s x hx h =>
        h.2.imp (fun h => ⟨⟨h.1, hnesting x hx⟩, h.2⟩) fun h => ⟨⟨h.1, hnesting x hx⟩, h.2⟩).split
    rcases hsplit with hall | ⟨s₁, u, s₂, bs, b, rfl, hs₁, hu, hb, hs₂⟩
    case inl =>
      exact .inl ⟨hp.array_represents (hall.imp fun _ _ h => h.1.1), .array (hall.imp fun _ _ h => h.2).forall_mem⟩
    case inr =>
      refine .inr ⟨rejects_array (hs₁.imp fun _ _ h => h.1) hu.1.1 hu.1.2 hs₂, fun | .array h => hu.2 (h b hb)⟩
  case object s ms _ hi =>
    have hnesting := Value.nesting_object_le.mp (Nat.le_refl (Value.object ms).nesting)
    have hsplit := (hi.imp_mem (Q := fun s m =>
      Member (Quoted RfcChar) (fun s x => Accepts L s x ∧ x.nesting < (Value.object ms).nesting) s m ∧
        AllNumbers (·.frac = none) m.2 ∨
      Member (Quoted RfcChar) (fun s x => Rejects L s x ∧ x.nesting < (Value.object ms).nesting) s m ∧
        ¬AllNumbers (·.frac = none) m.2) fun s m hm h => by
          have .intro hk hw hw' ⟨_, h⟩ := h
          exact h.imp (fun h => ⟨.intro hk hw hw' ⟨h.1, hnesting _ hm⟩, h.2⟩)
            fun h => ⟨.intro hk hw hw' ⟨h.1, hnesting _ hm⟩, h.2⟩).split
    rcases hsplit with hall | ⟨s₁, u, s₂, bs, b, rfl, hs₁, hu, hb, hs₂⟩
    case inl =>
      refine .inl ⟨hp.object_represents (K := Quoted RfcChar) (fun _ _ h => ?_)
        (hall.imp fun _ _ h => h.1.imp fun _ _ h => h.1), .object (hall.imp fun _ _ h => h.2).forall_mem⟩
      have ⟨k, hk⟩ := Quoted.named_rfc h
      exact ⟨k, hk, trivial⟩
    case inr =>
      exact .inr ⟨rejects_object (fun _ _ h => Quoted.named_rfc h) (hs₁.imp fun _ _ h => h.1) hu.1 hs₂,
        fun | .object h => hu.2 (h b hb)⟩

theorem Rejects.fromString_fails {w w' : Bytes} (h : Rejects L s x) (hw : Ws w) (hw' : Ws w')
    (hs : x.nesting ≤ s.length)
    {maxDepth : UInt32} : ∃ e st,
    fromString L (w ++ s ++ w') .strictParser maxDepth = .error e st := by
  refine h.fails _ _ _ _ (Nat.lt_succ_self _) ?_ w w' hw (follow_of_ws hw') (Nat.le_refl _)
  simp only [stackFor, List.length_append]
  omega

-- The strict parser accepts a text with its numbers as numbers if and only if none of them has a
-- fraction.
theorem strict_numbers_iff (hL : ConvertsDoubles L) (h : IsText rfc8259InRange s x)
    (maxDepth : UInt32) :
    (∃ v st, fromString L s .strictParser maxDepth = .ok v st ∧ Numeric v x) ↔
    AllNumbers (·.frac = none) x := by
  have ⟨w, t, w', hs, hw, ht, hw'⟩ := h
  rcases accepts_or_rejects hL ht with ⟨⟨v, hv, hx⟩, hall⟩ | ⟨hreject, hall⟩
  case inl =>
    have ⟨st, hrun⟩ := @ReadsAs.fromString_eq L _ _ _ _ _ _ maxDepth .strictParser hv (fun _ _ => rfl) hw hw' trivial
      (by rw [hx.nesting_eq]; exact ht.nesting_le)
    exact ⟨fun _ => hall, fun _ => ⟨v, st, hs ▸ hrun, hx⟩⟩
  case inr =>
    have ⟨e, st, hrun⟩ := @Rejects.fromString_fails t L x w w' hreject hw hw' ht.nesting_le maxDepth
    refine ⟨fun ⟨v, st', hok, _⟩ => ?_, fun h => absurd h hall⟩
    rw [hs, hrun] at hok
    cases hok

theorem strict_numbers_iff_exponent : ∃ x v st, IsText rfc8259InRange (ascii "[1e0]") x ∧
    fromString { LexicalCast.decimal with toDouble := fun _ => some 0x3ff0000000000000 } (ascii "[1e0]") .strictParser
      200 = .ok v st ∧ Numeric v x := by
  have hdigit (c : UInt8) (hc : isDigit c) : Decimal.Numeral [c] :=
    ⟨List.cons_ne_nil _ _, List.forall_mem_singleton.mpr hc⟩
  let e : Exponent := ⟨'e'.toUInt8, none, ascii "0", .inl rfl, (fun _ h => by cases h), hdigit _ rfl⟩
  let n : Number := ⟨false, ascii "1", none, some e, hdigit _ rfl, (fun h => by cases h), (fun _ h => by cases h)⟩
  have hvalue : n.value = 1 := by
    have h1 : Decimal.value (ascii "1") = 1 := by decide
    have h0 : Decimal.value (ascii "0") = 0 := by decide
    simp [Number.value, n, e, Exponent.value, h1, h0]
  have hn : n.InRange := by
    refine ⟨(fun h => by cases h.2), fun _ => ?_⟩
    exact doubleRange_of_le (by rw [hvalue]; norm_num) (by rw [hvalue]; norm_num)
  have hws : Ws [] := List.forall_mem_nil _
  have h : IsText rfc8259InRange (ascii "[1e0]") (.array [.number n]) :=
    ⟨[], _, [], rfl, hws, .array (.one hws (.number hn) hws), hws⟩
  have hall : AllNumbers (·.frac = none) (.array [.number n]) :=
    .array (List.forall_mem_singleton.mpr (.number rfl))
  obtain ⟨v, st, hrun, hv⟩ :=
    (@strict_numbers_iff _ { LexicalCast.decimal with toDouble := fun _ => some 0x3ff0000000000000 }
      _ (fun _ _ => ⟨_, rfl⟩) h 200).mpr hall
  exact ⟨_, v, st, h, hrun, hv⟩

-- A number with a fraction is not accepted.
theorem strict_rejects_fraction : ∃ n : Number, n.InRange ∧ n.text = ascii "1.5" ∧
    ∃ st,
    fromString .decimal n.text .strictParser 200 = .error (.parseError "expected: number") st := by
  have hdigit (c : UInt8) (hc : isDigit c) : Decimal.Numeral [c] :=
    ⟨List.cons_ne_nil _ _, List.forall_mem_singleton.mpr hc⟩
  let n : Number := ⟨false, ascii "1", some (ascii "5"), none, hdigit _ rfl, (fun h => by cases h),
    fun _ h => Option.some.inj h ▸ hdigit _ rfl⟩
  have hvalue : n.value = 3 / 2 := by
    have h1 : Decimal.value (ascii "1") = 1 := by decide
    have h5 : Decimal.value (ascii "5") = 5 := by decide
    have hlength : (ascii "5").length = 1 := by decide
    simp only [Number.value, n, h1, h5, hlength, Option.elim_some, Option.elim_none]
    norm_num
  refine ⟨n, ⟨(fun h => by cases h.1), fun _ => ?_⟩, rfl, ⟨[], true⟩, ?_⟩
  case refine_1 => exact doubleRange_of_le (by rw [hvalue]; norm_num) (by rw [hvalue]; norm_num)
  case refine_2 =>
    have htext : n.text = ascii "1.5" := rfl
    rw [htext]
    decide +kernel

end Relaxed

end Json
