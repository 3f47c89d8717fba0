import FcModel.Io.Json.Termination
import FcModel.Io.Json.Completeness

-- How deep the values are that the parsers return, and how deep the parsers recurse.

namespace Json

open Ascii

variable {L : LexicalCast} {stringDoubles : Bool} {fuel stack k : Nat} {d : UInt32}

section Nesting

theorem returns_containerLoop {γ : Type} {P : γ → Prop} {close : UInt8} {item : Nat → γ → Parser γ}
    (hi : ∀ fuel acc, P acc → Returns (item fuel acc) P) {acc : γ} (h : P acc) :
    Returns (containerLoop close item fuel acc) P := by
  induction fuel generalizing acc
  case zero => exact .throw
  case succ fuel ih =>
    exact .seq fun _ => .ite (.seq fun _ => .pure h) (.ite (.seq fun _ => ih h) (.seq fun _ =>
      .ite (ih h) (.bind (hi fuel acc h) fun _ => ih)))

theorem returns_catchEof {α : Type} {P : α → Prop} {x : Parser α} (h : Returns x P) :
    Returns (catchEof x) P := by
  intro s a s' hr
  simp only [EStateM.run, catchEof] at hr
  split at hr
  case h_1 => cases hr
  case h_2 => exact h s a s' hr

-- The elements that have been read are nested less than `k` deep.
def Shallow (k : Nat) (vs : List Variant) : Prop :=
  ∀ v ∈ vs, v.nesting < k

theorem Shallow.append {vs : List Variant} {v : Variant} (h : Shallow k vs) (hv : v.nesting < k) :
    Shallow k (vs ++ [v]) :=
  List.forall_mem_append.mpr ⟨h, List.forall_mem_singleton.mpr hv⟩

theorem returns_arrayFromStream {v : UInt32 → Parser Variant}
    (hv : ∀ d, Returns (v d) (·.nesting < k)) :
    Returns (arrayFromStream v fuel d) (Shallow k) := by
  refine .seq fun _ =>
    .ite .throw (.seq fun _ => .seq fun _ => returns_containerLoop ?_ (List.forall_mem_nil _))
  exact fun fuel ar har => .bind (hv _) fun v hv => .seq fun _ => .pure (har.append hv)

theorem returns_objectFromStream {v : UInt32 → Parser Variant}
    (hv : ∀ d, Returns (v d) (·.nesting < k)) :
    Returns (objectFromStream v fuel d) (fun es => ∀ e ∈ es, e.2.nesting < k) := by
  refine returns_catchEof (.seq fun _ => .ite .throw (.seq fun _ =>
    returns_containerLoop ?_ (List.forall_mem_nil _)))
  refine fun fuel obj hobj => .seq fun _ => .seq fun _ => .seq fun _ =>
    .ite .throw (.seq fun _ => ?_)
  exact .bind (hv _) fun v hv =>
    .pure (List.forall_mem_append.mpr ⟨hobj, List.forall_mem_singleton.mpr hv⟩)

theorem returns_numberFromStream_result {neg : Bool} {r : Scanned} :
    Returns (numberFromStream.result L stringDoubles neg r) (·.nesting = 0) := by
  cases r
  case token => exact .pure rfl
  case number =>
    exact .ite .throw (.ite (.ite (.pure rfl) (.seq fun _ => .pure rfl))
      (.ite (.seq fun _ => .pure rfl)
      (.seq fun _ => .pure rfl)))

theorem returns_variantSwitch {v : UInt32 → Parser Variant}
    (hv : ∀ d, Returns (v d) (·.nesting < k)) :
    Returns (variantSwitch L stringDoubles v d fuel) (·.nesting ≤ k) := by
  have hscalar {x : Parser Variant} (h : Returns x (·.nesting = 0)) : Returns x (·.nesting ≤ k) :=
    fun s a s' hr => (h s a s' hr).le.trans (Nat.zero_le _)
  induction fuel
  case zero => exact .throw
  case succ fuel hi =>
    refine .seq fun _ =>
      .ite (.seq fun _ => hi) (.ite (.seq fun _ => .pure (Nat.zero_le _)) (.ite ?object
      (.ite ?array (.ite (hscalar ?number)
        (.ite (hscalar ?token) (.ite .throw (.seq fun _ => .throw)))))))
    case object =>
      exact .bind (returns_objectFromStream hv) fun es hes =>
        .pure (Variant.nesting_object_le.mpr hes)
    case array  =>
      exact .bind (returns_arrayFromStream hv) fun vs hvs =>
        .pure (Variant.nesting_array_le.mpr hvs)
    case number =>
      exact .seq fun _ => .ite (.seq fun _ => .seq fun _ => returns_numberFromStream_result)
        (.seq fun _ => returns_numberFromStream_result)
    case token =>
      exact .seq fun _ => .ite (.pure rfl)
        (.ite (.pure rfl) (.ite (.pure rfl) (.seq fun _ => .pure rfl)))

end Nesting

def tooMany : Error :=
  .parseError "Too many nested items in JSON input!"

-- The legacy parser without the check of the depth.
def uncheckedFromStream (L : LexicalCast) (stringDoubles : Bool) (fuel : Nat) : (stack : Nat) →
    Parser Variant
  | 0         => throw .stack
  | stack + 1 => do
    let _ ← skipWhiteSpace fuel
    variantSwitch L stringDoubles (fun _ => uncheckedFromStream L stringDoubles fuel stack) 0 fuel

def unchecked (L : LexicalCast) (fuel stack : Nat) : ParseType → Parser Variant
  | .legacyParser                  => uncheckedFromStream L false fuel stack
  | .legacyParserWithStringDoubles => uncheckedFromStream L true fuel stack
  | .strictParser                  =>
    Relaxed.variantFromStream (Relaxed.reader L true fuel) fuel stack 0
  | .relaxedParser                 =>
    Relaxed.variantFromStream (Relaxed.reader L false fuel) fuel stack 0

-- More than `n` containers are open at once: if no depth were checked, there would be more than one
-- call for each of them and one for a value in them.
def Opens (L : LexicalCast) (ptype : ParseType) (str : Bytes) (n : Nat) : Prop :=
  ∃ st, (unchecked L (fuelFor str) (n + 1) ptype).run ⟨str, false⟩ = .error .stack st

-- What is returned is not nested deeper than the limit, what would be is rejected, and the calls
-- that are active at once are limited as well.
structure DepthLimited (L : LexicalCast) (ptype : ParseType) (maxDepth : UInt32) : Prop where
  nesting   : ∀ str v st, fromString L str ptype maxDepth = .ok v st → v.nesting ≤ maxDepth.toNat
  rejects   : ∀ str, Opens L ptype str maxDepth.toNat → ∃ st,
    fromString L str ptype maxDepth = .error tooMany st
  recursion : ∀ str st,
    (parser L (fuelFor str) (maxDepth.toNat + 1) ptype maxDepth).run ⟨str, false⟩ ≠ .error .stack st

section Limited

-- The calls that are active at once are as many as the containers around a value, and one more.
theorem returns_uncheckedFromStream :
    Returns (uncheckedFromStream L stringDoubles fuel stack) (·.nesting < stack) := by
  induction stack
  case zero => exact .throw
  case succ stack hi =>
    refine .seq fun _ s v s' hr => ?_
    exact Nat.lt_succ_of_le (returns_variantSwitch (fun _ => hi) s v s' hr)

-- An error that the parser with the check may end with.
def Checked (e : Error) : Prop :=
  e = tooMany ∨ e.Limit

theorem ignores_checked : Ignores Checked where
  fuel    := .inr (.inl rfl)
  stack   := .inr (.inr rfl)
  eof _ h := by simp [Checked, Error.Limit, tooMany] at h

-- An even depth is two for each container that may be opened. The check fails where the calls of
-- the other parser are used up.
theorem approx_unchecked {stack' : Nat} (heven : d.toNat % 2 = 0) (hd : d.toNat / 2 ≤ stack') :
    Approx Checked (variantFromStream L stringDoubles fuel stack d)
      (uncheckedFromStream L stringDoubles fuel stack') := by
  induction stack generalizing stack' d
  case zero => exact .throw (.inr (.inr rfl)) _
  case succ stack hi =>
    rw [variantFromStream]
    by_cases h0 : d = 0
    case pos =>
      rw [if_pos h0]
      exact .throw (.inl rfl) _
    case neg =>
      have hne : d.toNat ≠ 0 := fun h => h0 (UInt32.toNat_inj.mp h)
      have hlt := d.toNat_lt
      have hsub := Admits.toNat_sub_one_sub_one d
      cases stack'
      case zero => omega
      case succ stack' =>
        rw [if_neg h0]
        exact .bind (.refl _) fun _ =>
          approx_variantSwitch ignores_checked (hi (by omega) (by omega))

theorem closed_ne_stack : Closed (· ≠ Error.stack) where
  eof _        := nofun
  parseError _ := nofun
  assertion _  := nofun

theorem ensures_ne_stack {n : Nat} {s : Stringstream} (heven : d.toNat % 2 = 0)
    (hd : d.toNat / 2 < stack)
    (hn : s.unread.length ≤ n) :
    Ensures (variantFromStream L stringDoubles fuel stack d) s (Fewer n) (· ≠ .stack) := by
  induction stack generalizing s n d
  case zero => cases hd
  case succ stack hi =>
    refine .ite (fun _ => nofun) fun h0 => ?_
    have hne : d.toNat ≠ 0 := fun h => h0 (UInt32.toNat_inj.mp h)
    have hlt := d.toNat_lt
    have hsub := Admits.toNat_sub_one_sub_one d
    refine .bind ((ensures_skipWhiteSpace closed_ne_stack hn (.inr nofun)).imp
      fun _ s' ⟨h, _⟩ => ?_)
    exact ensures_variantSwitch closed_ne_stack (fun hs _ => hi (by omega) (by omega) hs) h
      (.inr nofun)

theorem depthLimited_legacy {ptype : ParseType}
    (hp : ∀ fuel stack, parser L fuel stack ptype d =
        variantFromStream L stringDoubles fuel stack d)
    (hu : ∀ fuel stack, unchecked L fuel stack ptype =
        uncheckedFromStream L stringDoubles fuel stack)
    (heven : d.toNat % 2 = 0) : DepthLimited L ptype d where
  nesting str v st h := by
    rw [fromString, hp] at h
    have hlt := returns_uncheckedFromStream _ _ _ ((approx_unchecked heven (Nat.le_refl _)).ok h)
    omega
  rejects str h := by
    obtain ⟨st, h⟩ := h
    rw [hu] at h
    rw [fromString, hp]
    have hlimit {e : Error} {st : Stringstream} := @legacy_terminates L str st d stringDoubles e
    have happrox := @approx_unchecked L stringDoubles (fuelFor str) (stackFor str) d
      (d.toNat + 1) heven (by omega)
    rcases happrox ⟨str, false⟩ with ⟨e, st', he, hc⟩ | heq
    case inl =>
      rcases hc with rfl | hc
      case inl => exact ⟨st', he⟩
      case inr => exact absurd hc (hlimit he)
    case inr => exact absurd (.inr rfl) (hlimit (heq.trans h))
  recursion str st h := by
    rw [hp] at h
    exact (ensures_ne_stack heven (by omega) (Nat.le_refl _)).error h rfl

end Limited

section Unlimited

-- Arrays in arrays.
def nested : Nat → Variant
  | 0     => .array []
  | n + 1 => .array [nested n]

def nestedText : Nat → Bytes
  | 0     => [openBracket] ++ [] ++ [closeBracket]
  | n + 1 => [openBracket] ++ nestedText n ++ [closeBracket]

theorem nesting_nested (n : Nat) : (nested n).nesting = n := by
  induction n
  case zero       => rfl
  case succ n hi  => simp [nested, Variant.nesting, Variant.nestingElements, hi]

theorem le_length_nestedText (n : Nat) : n ≤ (nestedText n).length := by
  induction n
  case zero       => exact Nat.zero_le _
  case succ n hi  => simp only [nestedText, List.length_append, List.length_singleton]; omega

theorem readsAs_nested {parse switch : (fuel stack : Nat) → UInt32 → Parser Variant}
    {admits : UInt32 → Nat → Prop}
    (hp : Switches parse admits switch) (n : Nat) :
    ReadsAs parse admits (nestedText n) (nested n) := by
  have hnil : Ws [] := List.forall_mem_nil _
  induction n
  case zero => exact hp.readsAs_array (.nil hnil)
  case succ n hi =>
    have hs := Elements.one hnil hi hnil
    rw [List.nil_append, List.append_nil] at hs
    exact hp.readsAs_array hs

-- A parser that admits any depth returns arrays that are nested deeper than any limit.
theorem not_depthLimited {parse switch : (fuel stack : Nat) → UInt32 → Parser Variant}
    {admits : UInt32 → Nat → Prop}
    {ptype : ParseType} (hp : Switches parse admits switch)
    (hparser : ∀ fuel stack, parser L fuel stack ptype d = parse fuel stack d)
    (hd : ∀ n, admits d n) :
    ¬DepthLimited L ptype d := by
  intro h
  have hnil : Ws [] := List.forall_mem_nil _
  have hlength := le_length_nestedText (d.toNat + 1)
  have ⟨st, hrun⟩ := @ReadsAs.fromString_eq L _ parse admits [] [] _ d ptype
    (readsAs_nested hp (d.toNat + 1)) hparser
    hnil hnil (hd _) (by rw [nesting_nested]; exact hlength)
  have hle := h.nesting _ _ _ hrun
  rw [nesting_nested] at hle
  omega

-- The limit only holds for the legacy parsers, and only if it is even: the depth is never checked
-- by the other ones, and an odd depth is decremented past zero.
theorem depthLimited_iff (L : LexicalCast) (ptype : ParseType) (maxDepth : UInt32) :
    DepthLimited L ptype maxDepth ↔
    (ptype = .legacyParser ∨ ptype = .legacyParserWithStringDoubles) ∧ maxDepth.toNat % 2 = 0 := by
  have hodd {stringDoubles : Bool} {ptype : ParseType}
    (hparser : ∀ fuel stack, parser L fuel stack ptype maxDepth =
      variantFromStream L stringDoubles fuel stack maxDepth) (h : DepthLimited L ptype maxDepth) :
      maxDepth.toNat % 2 = 0 := by
    by_contra hne
    exact not_depthLimited switches_variantSwitch hparser (fun _ => .inl (by omega)) h
  have hrelaxed {strict : Bool} {ptype : ParseType}
    (hparser : ∀ fuel stack, parser L fuel stack ptype maxDepth =
      Relaxed.variantFromStream
        (Relaxed.reader L strict fuel) fuel stack maxDepth) : ¬DepthLimited L ptype maxDepth :=
    not_depthLimited (@Relaxed.switches_variantSwitch L strict) hparser fun _ => trivial
  cases ptype
  case legacyParser =>
    exact ⟨fun h => ⟨.inl rfl, hodd (fun _ _ => rfl) h⟩, fun h =>
      depthLimited_legacy (fun _ _ => rfl) (fun _ _ => rfl) h.2⟩
  case legacyParserWithStringDoubles =>
    exact ⟨fun h => ⟨.inr rfl, hodd (fun _ _ => rfl) h⟩, fun h =>
      depthLimited_legacy (fun _ _ => rfl) (fun _ _ => rfl) h.2⟩
  case strictParser   => exact ⟨fun h => absurd h (hrelaxed fun _ _ => rfl), fun h => nomatch h.1⟩
  case relaxedParser  => exact ⟨fun h => absurd h (hrelaxed fun _ _ => rfl), fun h => nomatch h.1⟩

-- Three arrays, where one is allowed.
theorem fromString_too_deep :
    (∃ st, fromString .decimal (ascii "[[[]]]") .legacyParser 1 =
        .ok (.array [.array [.array []]]) st) ∧
    (∃ st, fromString .decimal (ascii "[[[]]]") .strictParser 1 =
        .ok (.array [.array [.array []]]) st) ∧
    ¬(Variant.array [.array [.array []]]).nesting ≤ (1 : UInt32).toNat := by
  refine ⟨⟨⟨[], false⟩, ?_⟩, ⟨⟨[], false⟩, ?_⟩, ?_⟩
  all_goals decide +kernel

end Unlimited

end Json
