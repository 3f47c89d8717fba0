import FcModel.Io.Json.Scalars

-- How the parsers read whole values: a text that a parser reads wherever it stands.

namespace Json

open Ascii

-- The text is read as the value, with any bounds that are large enough and any depth that is left
-- for the containers of the value.
structure ReadsAs (parse : (fuel stack : Nat) → UInt32 → Parser Variant)
    (admits : UInt32 → Nat → Prop)
    (s : Bytes) (v : Variant) : Prop where
  head  : ∃ c q, s = c :: q ∧ Head c
  reads : ∀ fuel stack d n, n + 2 < fuel → v.nesting < stack → admits d v.nesting → ReadsValue (parse fuel stack d) n s v

-- Each container takes two from the depth that is left, which is only compared with zero.
def Admits (d : UInt32) (n : Nat) : Prop :=
  d.toNat % 2 = 1 ∨ 2 * n < d.toNat

namespace Admits

variable {d : UInt32} {n m : Nat}

theorem ne_zero (h : Admits d n) : d ≠ 0 := by
  rintro rfl
  have h0 : (0 : UInt32).toNat = 0 := rfl
  rw [Admits, h0] at h
  omega

theorem mono (h : Admits d n) (hm : m ≤ n) : Admits d m := by
  rcases h with h | h
  case inl => exact .inl h
  case inr => exact .inr (by omega)

theorem toNat_sub_one_sub_one (d : UInt32) :
    (d - 1 - 1).toNat = (d.toNat + (2 ^ 32 - 2)) % 2 ^ 32 := by
  have h1 : (1 : UInt32).toNat = 1 := rfl
  have := d.toNat_lt
  rw [UInt32.toNat_sub, UInt32.toNat_sub, h1]
  omega

-- An odd depth stays odd when it wraps.
theorem inner (h : Admits d n) (hm : m < n) : Admits (d - 1 - 1) m := by
  have hd := d.toNat_lt
  have hsub := toNat_sub_one_sub_one d
  rcases h with h | h
  case inl => exact .inl (by omega)
  case inr => exact .inr (by omega)

end Admits

theorem Follow.head (h : Follow t) : t.head? ≠ some quote := by
  cases t
  case nil => exact nofun
  case cons c t =>
    intro he
    have hm := h.mem
    rw [Option.some.inj he] at hm
    exact absurd hm (by decide)

-- The names of the members are quoted like strings.
def Named (s : Bytes) (k : Bytes) : Prop :=
  ∃ b, s = [quote] ++ b ++ [quote] ∧ Body PlainLiteral b k

theorem Named.head (s k : Bytes) (h : Named s k) : ∃ c q, s = c :: q ∧ Head c := by
  have ⟨b, hs, _⟩ := h
  exact ⟨quote, b ++ [quote], hs, by constructor <;> decide⟩

-- What a number starts with.
theorem Number.head (n : Number) : ∃ c q, n.text = c :: q ∧ (c = minus ∨ isDigit c) := by
  have ⟨d, r, hint⟩ := List.exists_cons_of_ne_nil n.numeral.nonempty
  have hd := n.numeral.digits d (by rw [hint]; exact List.mem_cons_self ..)
  cases hneg : n.neg
  case true   => exact ⟨minus, n.unsigned, by simp [Number.text, hneg], .inl rfl⟩
  case false  => exact ⟨d, r ++ n.fracText ++ n.expText, by simp [Number.text, Number.unsigned, hneg, hint], .inr hd⟩

-- A number is told by its first character.
theorem number_cases {c : UInt8} (h : c = minus ∨ isDigit c) : Head c ∧ isSpace c = false ∧ c ≠ 0 ∧
    c ≠ quote ∧
    c ≠ openBrace ∧ c ≠ openBracket ∧ startsNumber c ∧ Relaxed.startsNumber c := by
  have hle : 0x2d ≤ c.toNat ∧ c.toNat ≤ 0x39 := by
    rcases h with rfl | h
    case inl => decide
    case inr => have := isDigit_iff.mp h; omega
  have hne {a : UInt8} (ha : a.toNat < 0x2d ∨ 0x39 < a.toNat) : c ≠ a := fun he => by rw [he] at hle; omega
  have hspace : isSpace c = false := by
    simp only [isSpace, decide_eq_false_iff_not, not_or]
    exact ⟨hne (by decide), hne (by decide), hne (by decide), hne (by decide)⟩
  have hcomma : c ≠ comma := hne (by decide)
  have hstarts : startsNumber c := by rcases h with h | h <;> simp [startsNumber, h]
  have hrelaxed : Relaxed.startsNumber c := by rcases h with h | h <;> simp [Relaxed.startsNumber, h]
  have hhead : Head c :=
    ⟨by simp [isSeparator, hspace, hcomma], hne (by decide), hne (by decide), hne (by decide)⟩
  exact ⟨hhead, hspace, hne (by decide), hne (by decide), hne (by decide), hne (by decide), hstarts, hrelaxed⟩

-- What the parsers have in common: the loop that chooses by the first character of a value is
-- reached with the depth checked and the white space skipped, and it reads each kind of value but
-- numbers.
structure Switches (parse : (fuel stack : Nat) → UInt32 → Parser Variant)
    (admits : UInt32 → Nat → Prop)
    (switch : (fuel stack : Nat) → UInt32 → Parser Variant) : Prop where
  inner : ∀ {d n m}, admits d n → m < n → admits (d - 1 - 1) m
  start : ∀ {fuel stack d n w c q}, Ws w → Head c → admits d n → w.length < fuel →
    (parse fuel (stack + 1) d).run ⟨w ++ c :: q, false⟩ = (switch fuel stack d).run ⟨c :: q, false⟩
  string : ∀ {fuel stack d s k t}, Named s k → Follow t → (s ++ t).length < fuel →
    Reads (switch (fuel + 1) stack d) s t (.string k)
  null : ∀ {fuel stack d t}, Follow t → (ascii "null").length < fuel →
    Reads (switch (fuel + 1) stack d) (ascii "null") t .null
  bool : ∀ {fuel stack d t} b, Follow t → (ascii (if b then "true" else "false")).length < fuel →
    Reads (switch (fuel + 1) stack d) (ascii (if b then "true" else "false")) t (.bool b)
  array : ∀ {fuel stack d s t vs} {R : Bytes → Variant → Prop}, (∀ s v, R s v → ∃ c q, s = c :: q ∧ Head c) →
    (∀ u v, R u v → ReadsValue (parse (fuel + 1) stack (d - 1 - 1)) (s ++ closeBracket :: t).length u v) →
    Elements R s vs → (s ++ closeBracket :: t).length + 1 < fuel →
    (switch (fuel + 1) stack d).run ⟨openBracket :: (s ++ closeBracket :: t), false⟩ = .ok (.array vs) ⟨t, false⟩
  object : ∀ {fuel stack d s t ms} {R : Bytes → Variant → Prop},
    (∀ u v, R u v → ReadsValue (parse (fuel + 1) stack (d - 1 - 1)) (s ++ closeBrace :: t).length u v) →
    Elements (Member Named R) s ms → (s ++ closeBrace :: t).length + 1 < fuel →
    (switch (fuel + 1) stack d).run ⟨openBrace :: (s ++ closeBrace :: t), false⟩ = .ok (.object ms) ⟨t, false⟩

namespace Switches

variable {parse switch : (fuel stack : Nat) → UInt32 → Parser Variant}
    {admits : UInt32 → Nat → Prop}

-- A text is read as the value if the switch does it.
theorem readsAs (h : Switches parse admits switch) {s : Bytes} {v : Variant}
    (hs : ∃ c q, s = c :: q ∧ Head c)
    (hv : ∀ fuel stack d t, v.nesting ≤ stack → admits d v.nesting → Follow t → (s ++ t).length + 1 < fuel →
      Reads (switch (fuel + 1) stack d) s t v) : ReadsAs parse admits s v where
  head := hs
  reads := by
    intro fuel stack d n hn hstack hd w t hw ht hlen
    have ⟨c, q, he, hc⟩ := hs
    simp only [List.length_append] at hlen
    cases fuel
    case zero => cases hn
    case succ fuel =>
      cases stack
      case zero => cases hstack
      case succ stack =>
        have hswitch := hv fuel stack d t (Nat.le_of_lt_succ hstack) hd ht (by rw [List.length_append]; omega)
        have hstart := @h.start (fuel + 1) stack d _ w c (q ++ t) hw hc hd (by omega)
        rw [Reads, he, List.cons_append, ← hstart] at hswitch
        rw [Reads, he, List.append_assoc]
        exact hswitch

theorem readsAs_string (h : Switches parse admits switch) {s k : Bytes} (hs : Named s k) :
    ReadsAs parse admits s (.string k) :=
  h.readsAs (hs.head s k) fun _ _ _ _ _ _ ht hf => h.string hs ht (Nat.lt_of_succ_lt hf)

theorem readsAs_null (h : Switches parse admits switch) :
    ReadsAs parse admits (ascii "null") .null := by
  refine h.readsAs ⟨'n'.toUInt8, _, rfl, by constructor <;> decide⟩ fun fuel stack d t _ _ ht hf => h.null ht ?_
  rw [List.length_append] at hf
  omega

theorem readsAs_bool (h : Switches parse admits switch) (b : Bool) :
    ReadsAs parse admits (ascii (if b then "true" else "false")) (.bool b) := by
  refine h.readsAs ?_ fun fuel stack d t _ _ ht hf => h.bool b ht ?_
  case refine_1 =>
    cases b
    case true   => exact ⟨'t'.toUInt8, _, rfl, by constructor <;> decide⟩
    case false  => exact ⟨'f'.toUInt8, _, rfl, by constructor <;> decide⟩
  case refine_2 =>
    rw [List.length_append] at hf
    omega

theorem readsAs_array (h : Switches parse admits switch) {s : Bytes} {vs : List Variant}
    (hs : Elements (ReadsAs parse admits) s vs) :
    ReadsAs parse admits ([openBracket] ++ s ++ [closeBracket]) (.array vs) := by
  refine h.readsAs ⟨openBracket, _, rfl, by constructor <;> decide⟩ fun fuel stack d t hstack hd ht hf => ?_
  have hs' : [openBracket] ++ s ++ [closeBracket] ++ t = openBracket :: (s ++ closeBracket :: t) := by simp
  rw [hs', List.length_cons] at hf
  have hnesting := Variant.nesting_array_le.mp (Nat.le_refl (Variant.array vs).nesting)
  have hmem := hs.imp_mem (Q := fun s v => ReadsAs parse admits s v ∧ v.nesting < (Variant.array vs).nesting)
    fun s v hv h => ⟨h, hnesting v hv⟩
  have hrun := @h.array fuel stack d s t vs _ (fun s v h => h.1.head)
    (fun s v hv => hv.1.reads _ _ _ _ (Nat.lt_succ_of_lt hf) (Nat.lt_of_lt_of_le hv.2 hstack) (h.inner hd hv.2)) hmem
    (Nat.lt_of_succ_lt hf)
  exact ⟨t, ⟨false, by rw [hs', hrun], fun _ => rfl⟩, .refl t⟩

theorem readsAs_object (h : Switches parse admits switch) {s : Bytes} {ms : List (Bytes × Variant)}
    (hs : Elements (Member Named (ReadsAs parse admits)) s ms) :
    ReadsAs parse admits ([openBrace] ++ s ++ [closeBrace]) (.object ms) := by
  refine h.readsAs ⟨openBrace, _, rfl, by constructor <;> decide⟩ fun fuel stack d t hstack hd ht hf => ?_
  have hs' : [openBrace] ++ s ++ [closeBrace] ++ t = openBrace :: (s ++ closeBrace :: t) := by simp
  rw [hs', List.length_cons] at hf
  have hnesting := Variant.nesting_object_le.mp (Nat.le_refl (Variant.object ms).nesting)
  have hmem := hs.imp_mem (Q := Member Named fun s v => ReadsAs parse admits s v ∧
    v.nesting < (Variant.object ms).nesting) fun s m hm h => by
      have .intro hk hw hw' h := h
      exact .intro hk hw hw' ⟨h, hnesting _ hm⟩
  have hrun := @h.object fuel stack d s t ms _
    (fun s v hv => hv.1.reads _ _ _ _ (Nat.lt_succ_of_lt hf) (Nat.lt_of_lt_of_le hv.2 hstack) (h.inner hd hv.2)) hmem
    (Nat.lt_of_succ_lt hf)
  exact ⟨t, ⟨false, by rw [hs', hrun], fun _ => rfl⟩, .refl t⟩

end Switches

namespace ReadsAs

variable {parse : (fuel stack : Nat) → UInt32 → Parser Variant} {admits : UInt32 → Nat → Prop}
    {s w w' : Bytes}
  {v : Variant} {d : UInt32}

-- What a parser reads, it returns at the top.
theorem run (h : ReadsAs parse admits s v) (hw : Ws w) (hw' : Ws w') (hd : admits d v.nesting)
    {fuel stack : Nat} (hf : (w ++ s ++ w').length + 2 < fuel) (hs : v.nesting < stack) :
    ∃ st, (parse fuel stack d).run ⟨w ++ s ++ w', false⟩ = .ok v st := by
  have ⟨t, ⟨e, hrun, _⟩, _⟩ := h.reads fuel stack d _ hf hs hd w w' hw (follow_of_ws hw') (Nat.le_refl _)
  exact ⟨_, hrun⟩

end ReadsAs

theorem run_map {α β : Type} {x : Parser α} {a : α} {st st' : Stringstream} (f : α → β)
    (h : x.run st = .ok a st') :
    (do return f (← x)).run st = .ok (f a) st' := by
  rw [EStateM.run_bind, h]
  rfl

section Legacy

variable {L : LexicalCast} {stringDoubles : Bool}

theorem switches_variantSwitch : Switches (variantFromStream L stringDoubles) Admits
    fun fuel stack d => variantSwitch L stringDoubles (variantFromStream L stringDoubles fuel stack) d fuel where
  inner := Admits.inner
  start := by
    intro fuel stack d n w c q hw hc hd hf
    rw [variantFromStream, if_neg hd.ne_zero]
    simp only [EStateM.run_bind, @skipWhiteSpace_run fuel c q w false hw hc.space hc.nul hf]
  string := by
    intro fuel stack d s k t ⟨b, hs, hb⟩ ht hf
    rw [hs] at hf ⊢
    have hread := @readsName_stringFromStream fuel b k _ hb hf t ht.head (Nat.le_refl _)
    exact (hread.reads.map Variant.string).congr rfl
  null := fun ht hf => (tokenFromStream_null ht hf).reads.congr rfl
  bool := by
    intro fuel stack d t b ht hf
    refine (@tokenFromStream_bool fuel t b ht hf).reads.congr ?_
    cases b <;> rfl
  array := by
    intro fuel stack d s t vs R hR hv hs hf
    have hrun := @arrayFromStream_run fuel s t R _ _ (d - 1) hR hv vs hs (Nat.le_refl _) hf
    exact run_map Variant.array hrun
  object := by
    intro fuel stack d s t ms R hv hs hf
    have hrun := @objectFromStream_run fuel s t Named R _ _ (d - 1) Named.head
      (fun fuel n s k hf ⟨b, hs, hb⟩ => hs ▸ readsName_stringFromStream hb hf) hv ms hs (Nat.le_refl _) hf
    exact run_map Variant.object hrun

theorem readsAs_number (hL : L.Exact) {n : Number} (hn : n.Plain) :
    ReadsAs (variantFromStream L stringDoubles) Admits n.text n.legacy := by
  have ⟨c, q, he, hc⟩ := n.head
  have ⟨hhead, hspace, _, hquote, hbrace, hbracket, hstarts, _⟩ := number_cases hc
  refine switches_variantSwitch.readsAs ⟨c, q, he, hhead⟩ fun fuel stack d t _ _ ht hf => ?_
  rw [List.length_append] at hf
  refine (@numberFromStream_plain fuel t L stringDoubles hL n hn ht (by omega)).reads.congr ?_
  rw [he]
  simp only [variantSwitch, EStateM.run_bind, List.cons_append, peekChar_cons, hspace,
    Bool.false_eq_true, if_false,
    if_neg hquote, if_neg hbrace, if_neg hbracket, hstarts, if_true]

end Legacy

namespace Relaxed

variable {L : LexicalCast} {strict : Bool}

-- The parser of `strict_parser` or of `relaxed_parser`, in its bounds. The depth is never checked.
abbrev Reads (L : LexicalCast) (strict : Bool) : Bytes → Variant → Prop :=
  ReadsAs (fun fuel stack => variantFromStream (reader L strict fuel) fuel stack) fun _ _ => True

theorem switches_variantSwitch :
    Switches (fun fuel stack => variantFromStream (reader L strict fuel) fuel stack) (fun _ _ => True)
      fun fuel stack d =>
        variantSwitch (reader L strict fuel) (variantFromStream (reader L strict fuel) fuel stack) d fuel where
  inner := fun _ _ => trivial
  start := by
    intro fuel stack d n w c q hw hc _ hf
    rw [variantFromStream]
    simp only [EStateM.run_bind, @skipWhiteSpace_run fuel c q w false hw hc.space hc.nul hf]
  string := by
    intro fuel stack d s k t ⟨b, hs, hb⟩ ht hf
    rw [hs] at hf ⊢
    have hread := @readsName_stringFromStream (fuel + 1) b k strict _ hb (Nat.lt_succ_of_lt hf) t ht.head (Nat.le_refl _)
    exact (hread.reads.map Variant.string).congr rfl
  null := by
    intro fuel stack d t ht hf
    exact (@wordFromStream_null (fuel + 1) t strict ht (Nat.lt_succ_of_lt hf)).congr rfl
  bool := by
    intro fuel stack d t b ht hf
    refine (@wordFromStream_bool (fuel + 1) t strict b ht (Nat.lt_succ_of_lt hf)).congr ?_
    cases b <;> rfl
  array := by
    intro fuel stack d s t vs R hR hv hs hf
    have hrun := @arrayFromStream_run fuel s t R _ _ (d - 1) hR hv vs hs (Nat.le_refl _) hf
    exact run_map Variant.array hrun
  object := by
    intro fuel stack d s t ms R hv hs hf
    have hrun := @objectFromStream_run fuel s t Named R _ (stringFromStream strict (fuel + 1)) _ (d - 1) Named.head
      (fun s k ⟨b, hs, hb⟩ => hs ▸ readsName_stringFromStream hb (by omega)) hv ms hs (Nat.le_refl _) hf
    exact run_map Variant.object hrun

theorem readsAs_number {n : Number} {v : Variant} (hn : ofNumber L n n.text = .ok v)
    (hv : strict = true → isNumber v) :
    Reads L strict n.text v := by
  have ⟨c, q, he, hc⟩ := n.head
  have ⟨hhead, hspace, h0, hquote, hbrace, hbracket, _, hstarts⟩ := number_cases hc
  refine switches_variantSwitch.readsAs ⟨c, q, he, hhead⟩ fun fuel stack d t _ _ ht hf => ?_
  rw [List.length_append] at hf
  refine (@numberFromStream_text L strict (fuel + 1) t n v hn hv ht (by omega)).congr ?_
  rw [he]
  simp only [variantSwitch, EStateM.run_bind, List.cons_append, peekChar_cons, if_neg h0, hspace,
    Bool.false_eq_true,
    if_false, if_neg hquote, if_neg hbrace, if_neg hbracket, hstarts, if_true]
  rfl

end Relaxed

end Json
