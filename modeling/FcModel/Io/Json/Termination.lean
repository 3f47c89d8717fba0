import FcModel.Io.Json.Progress
import FcModel.Io.Json.Monotone

-- The parsers end on every input, except that the relaxed one does not get over a string in triple
-- quotes that is not closed.

namespace Json

open Ascii

variable {L : LexicalCast} {str : Bytes} {fuel stack : Nat} {s : Stringstream} {d : UInt32}

-- There are bounds that the run does not exceed.
def FromStringTerminates (L : LexicalCast) (str : Bytes) (ptype : ParseType) (maxDepth : UInt32) :
    Prop :=
  ∃ fuel stack, ∀ e s, (parser L fuel stack ptype maxDepth).run ⟨str, false⟩ = .error e s → ¬e.Limit

def VariantsFromStringTerminates (L : LexicalCast) (str : Bytes) (ptype : ParseType)
    (maxDepth : UInt32) : Prop :=
  ∃ fuel stack, ∀ e s, variantsFromString L fuel stack str ptype maxDepth = .error e s → ¬e.Limit

theorem closed_not_limit : Closed fun e => ¬e.Limit where
  eof _        := by simp [Error.Limit]
  parseError _ := by simp [Error.Limit]
  assertion _  := by simp [Error.Limit]

theorem ignores_limit : Ignores Error.Limit where
  fuel    := .inl rfl
  stack   := .inr rfl
  eof _ h := by simp [Error.Limit] at h

theorem legacy_terminates (stringDoubles : Bool) {e : Error}
    (h : (variantFromStream L stringDoubles (fuelFor str) (stackFor str) d).run ⟨str, false⟩ = .error e s) :
    ¬e.Limit :=
  (ensures_variantFromStream closed_not_limit (Nat.le_refl _) (.inl (by simp [fuelFor]))
    (.inl (by simp [stackFor]))).error h

namespace Relaxed

theorem strict_terminates {e : Error}
    (h : (variantFromStream (reader L true (fuelFor str)) (fuelFor str) (stackFor str) d).run ⟨str, false⟩ =
      .error e s) : ¬e.Limit :=
  (ensures_variantFromStream closed_not_limit
    (progress_reader closed_not_limit (.inl (by simp [fuelFor])) (.inl rfl)) (Nat.le_refl _)
    (.inl (by simp [fuelFor])) (.inl (by simp [stackFor]))).error h

-- The relaxed parser, but that it stops where it would not get on.
def guardedReader (L : LexicalCast) (fuel : Nat) : Reader :=
  { reader L false fuel with
    string := do if unclosed (← get).unread then throw .unclosed else stringFromStream false fuel }

def guardedFromStream (L : LexicalCast) (fuel stack : Nat) (maxDepth : UInt32) : Parser Variant :=
  variantFromStream (guardedReader L fuel) fuel stack maxDepth

theorem progress_guardedReader {E : Error → Prop} {n : Nat} (hE : Closed E) (hu : E .unclosed)
    (hf : Enough (E .fuel) fuel n) : (guardedReader L fuel).Progress E n where
  string h hm   :=
    .bind (.of_run rfl (.ite (fun _ => hu) fun hc =>
      ensures_stringFromStream hE (.inr (.inl (Bool.eq_false_of_not_eq_true hc))) h (hf.le hm)))
  number h h' hm := ensures_numberFromStream hE h h' (hf.le hm)
  word h h' hm   := ensures_wordFromStream hE h h' (hf.le hm)

theorem quoteStringFromStream_of_unclosed {allowEscape : Bool} {q : UInt8}
    (hq : q = quote ∨ q = apostrophe)
    {t : Bytes} {e : Bool} (h : tripleUnclosed allowEscape q t) :
    ∃ s', (quoteStringFromStream false allowEscape fuel).run ⟨q :: t, e⟩ = .error .fuel s' := by
  match t with
  | [] | [_]    => cases h
  | a :: b :: t =>
    have ⟨ha, hb, hc⟩ : a = q ∧ b = q ∧ closes allowEscape q t = false := by simpa [tripleUnclosed] using h
    rw [ha, hb]
    have hne : q ≠ 0xff := by rcases hq with rfl | rfl <;> decide
    have hloop := @tripleQuoteLoop_of_not_closes fuel ⟨t, e⟩ allowEscape q hne [] hc
    rcases hq with rfl | rfl
    all_goals exact hloop

theorem stringFromStream_of_unclosed (h : unclosed s.unread) :
    ∃ s', (stringFromStream false fuel).run s = .error .fuel s' := by
  obtain ⟨u, e⟩ := s
  cases u
  case nil => cases h
  case cons c t =>
    simp only [unclosed] at h
    split at h
    case isTrue hq =>
      have hrun := @quoteStringFromStream_of_unclosed fuel true c hq t e h
      rcases hq with rfl | rfl
      all_goals exact hrun
    case isFalse hq =>
      split at h
      case isFalse => cases h
      case isTrue hr =>
        cases t
        case nil => cases h
        case cons d t =>
          obtain ⟨hd, hu⟩ := of_decide_eq_true h
          have hrun := @quoteStringFromStream_of_unclosed fuel false d hd t e hu
          rcases hr with rfl | rfl <;> rcases hd with rfl | rfl
          all_goals exact hrun

-- What the relaxed parser reads in the end, the guarded one reads.
theorem below_guardedReader : (reader L false fuel).Below Error.Limit (guardedReader L fuel) where
  string s := by
    cases h : unclosed s.unread
    case true =>
      have ⟨s', hs⟩ := @stringFromStream_of_unclosed fuel s h
      exact .inl ⟨.fuel, s', hs, .inl rfl⟩
    case false => exact .inr (by simp [guardedReader, reader, EStateM.run_bind, h])
  number := .refl _
  word   := .refl _

theorem guardedReader_below {bad : Error → Prop} (hb : bad .unclosed) :
    (guardedReader L fuel).Below bad (reader L false fuel) where
  string s := by
    cases h : unclosed s.unread
    case true   => exact .inl ⟨.unclosed, s, by simp [guardedReader, EStateM.run_bind, h]; rfl, hb⟩
    case false  => exact .inr (by simp [guardedReader, reader, EStateM.run_bind, h])
  number := .refl _
  word   := .refl _

theorem guardedReader_mono {fuel' : Nat} (hf : fuel ≤ fuel') :
    (guardedReader L fuel).Below Error.Limit (guardedReader L fuel') where
  string := .bind (.refl _) fun _ => .ite (fun _ => .refl _) fun _ => approx_stringFromStream ignores_limit hf
  number := .bind (approx_tokenFromStream ignores_limit hf) fun _ => .refl _
  word   := .bind (approx_tokenFromStream ignores_limit hf) fun _ => .refl _

section Guard

variable {α : Type} {orig guarded : Nat → Nat → Parser α}

-- A program with bounds and a guarded one that takes its place.
structure Guards (orig guarded : Nat → Nat → Parser α) : Prop where
  below : ∀ {f s}, Approx Error.Limit (orig f s) (guarded f s)
  above : ∀ {f s}, Approx (fun e => e.Limit ∨ e = .unclosed) (guarded f s) (orig f s)
  mono  : ∀ {f f' s s'}, f ≤ f' → s ≤ s' → Approx Error.Limit (guarded f s) (guarded f' s')
  never : ∀ {f s t e t'}, (orig f s).run t = .error e t' → e ≠ .unclosed

-- With bounds that the guarded program does not exceed, it tells whether there are bounds that the
-- other one does not exceed.
theorem Guards.terminates_iff (h : Guards orig guarded) {f n : Nat} {t : Stringstream}
    (hn : ∀ e t', (guarded f n).run t = .error e t' → ¬e.Limit) :
    (∃ f n, ∀ e t', (orig f n).run t = .error e t' → ¬e.Limit) ↔
      ¬∃ t', (guarded f n).run t = .error .unclosed t' := by
  constructor
  case mp =>
    intro ⟨f', n', ho⟩ ⟨t', ht⟩
    have h₁ : (orig f' n').run t = (guarded f' n').run t := h.below.eq ho
    have h₂ : (guarded f' n').run t = (guarded (max f f') (max n n')).run t :=
      (h.mono (le_max_right ..) (le_max_right ..)).eq (h₁ ▸ ho)
    have h₃ : (guarded f n).run t = (guarded (max f f') (max n n')).run t :=
      (h.mono (le_max_left ..) (le_max_left ..)).eq hn
    exact h.never (h₁.trans (h₂.trans (h₃.symm.trans ht))) rfl
  case mpr =>
    intro hu
    refine ⟨f, n, ?_⟩
    have heq : (guarded f n).run t = (orig f n).run t := by
      refine h.above.eq fun e t' he => not_or.mpr ⟨hn e t' he, fun hc => hu ⟨t', ?_⟩⟩
      rw [he, hc]
    exact heq ▸ hn

end Guard

theorem closed_ne_unclosed : Closed (· ≠ Error.unclosed) where
  eof _        := nofun
  parseError _ := nofun
  assertion _  := nofun

theorem ignores_guard : Ignores fun e => e.Limit ∨ e = .unclosed where
  fuel    := .inl (.inl rfl)
  stack   := .inl (.inr rfl)
  eof _ h := by simp [Error.Limit] at h

theorem ensures_ne_unclosed {n : Nat} (hn : s.unread.length ≤ n) :
    Ensures (variantFromStream (reader L false fuel) fuel stack d) s (Fewer n) (· ≠ .unclosed) :=
  ensures_variantFromStream closed_ne_unclosed (progress_reader closed_ne_unclosed (.inr nofun) (.inr nofun))
    hn (.inr nofun) (.inr nofun)

theorem guards_variantFromStream :
    Guards (fun f n => variantFromStream (reader L false f) f n d) (fun f n => guardedFromStream L f n d) where
  below      := approx_variantFromStream ignores_limit (Nat.le_refl _) below_guardedReader (Nat.le_refl _)
  above      := approx_variantFromStream ignores_guard (Nat.le_refl _) (guardedReader_below (.inr rfl)) (Nat.le_refl _)
  mono hf hs := approx_variantFromStream ignores_limit hf (guardedReader_mono hf) hs
  never h    := (ensures_ne_unclosed (Nat.le_refl _)).error h

theorem guarded_within {E : Error → Prop} (hE : Closed E) (hu : E .unclosed) {n : Nat}
    (hn : s.unread.length ≤ n)
    (hf : n + 1 < fuel) (hs : n < stack) :
    Ensures (guardedFromStream L fuel stack d) s (Fewer n) E :=
  ensures_variantFromStream hE (progress_guardedReader hE hu (.inl (by omega))) hn (.inl hf) (.inl hs)

end Relaxed

section Variants

variable {bad : Error → Prop} {v v' : Parser Variant} {fuel' : Nat} {result : List Variant}

-- The loop catches an exception at the end of the input.
theorem approx_variantsLoop (hb : bad .fuel) (he : ∀ m, ¬bad (.eof m)) (hf : fuel ≤ fuel')
    (hv : Approx bad v v') :
    Approx bad (variantsLoop v fuel result) (variantsLoop v' fuel' result) := by
  induction fuel generalizing fuel' result
  case zero => exact .throw hb _
  case succ fuel hi =>
    cases fuel'
    case zero => cases hf
    case succ fuel' =>
      intro s
      have hs := hv s
      simp only [variantsLoop, EStateM.run] at hs ⊢
      rcases hs with ⟨e, s', hx, hbad⟩ | hxy
      case inl =>
        rw [hx]
        cases e
        case eof m => exact absurd hbad (he m)
        all_goals exact .inl ⟨_, s', rfl, hbad⟩
      case inr =>
        rw [← hxy]
        cases v s
        case ok => exact hi (Nat.le_of_succ_le_succ hf) _
        case error e s' =>
          cases e
          all_goals exact .inr rfl

theorem ensures_variantsLoop {E : Error → Prop} {n : Nat}
    (hv : ∀ {s' m}, s'.unread.length ≤ m → m ≤ n → Ensures v s' (Fewer m) E)
    (hn : s.unread.length ≤ n)
    (hf : Enough (E .fuel) fuel n) :
    Ensures (variantsLoop v fuel result) s (fun _ _ => True) E := by
  induction fuel generalizing s n result
  case zero => exact hf.zero
  case succ fuel hi =>
    have hvs := hv hn (Nat.le_refl _)
    unfold Ensures at hvs ⊢
    simp only [variantsLoop, EStateM.run] at hvs ⊢
    split at hvs
    case h_1 a s' hx =>
      rw [hx]
      exact hi (fun hs hm => hv hs (hm.trans hvs.le)) (Nat.le_refl _) (hf.step hvs)
    case h_2 e s' hx =>
      rw [hx]
      cases e
      case eof => exact trivial
      all_goals exact hvs

open Relaxed

theorem guards_variantsLoop :
    Guards (fun f n => variantsLoop (Relaxed.variantFromStream (reader L false f) f n d) f [])
      (fun f n => variantsLoop (guardedFromStream L f n d) f []) where
  below      := approx_variantsLoop (.inl rfl) (by simp [Error.Limit]) (Nat.le_refl _) guards_variantFromStream.below
  above      := approx_variantsLoop (.inl (.inl rfl)) (by simp [Error.Limit]) (Nat.le_refl _)
    guards_variantFromStream.above
  mono hf hs := approx_variantsLoop (.inl rfl) (by simp [Error.Limit]) hf (guards_variantFromStream.mono hf hs)
  never h    :=
    (ensures_variantsLoop (n := _) (fun hs _ => ensures_ne_unclosed hs) (Nat.le_refl _) (.inr nofun)).error h

end Variants

-- The relaxed parser comes to a string in triple quotes that the rest of the input does not close.
def MeetsUnclosed (L : LexicalCast) (str : Bytes) (maxDepth : UInt32) : Prop :=
  ∃ s, (Relaxed.guardedFromStream L (fuelFor str) (stackFor str) maxDepth).run ⟨str, false⟩ = .error .unclosed s

-- The same, of the loop that reads one value after the other.
def VariantsMeetUnclosed (L : LexicalCast) (str : Bytes) (maxDepth : UInt32) : Prop :=
  ∃ s, (variantsLoop (Relaxed.guardedFromStream L (fuelFor str) (stackFor str) maxDepth) (fuelFor str) []).run
    ⟨str, false⟩ = .error .unclosed s

theorem guarded_ensures {n : Nat} (hn : s.unread.length ≤ n) (hm : n ≤ str.length) :
    Ensures (Relaxed.guardedFromStream L (fuelFor str) (stackFor str) d) s (Fewer n) fun e => ¬e.Limit :=
  Relaxed.guarded_within closed_not_limit (by simp [Error.Limit]) hn (by rw [fuelFor]; omega)
    (by rw [stackFor]; omega)

theorem relaxed_terminates_iff :
    FromStringTerminates L str .relaxedParser d ↔ ¬MeetsUnclosed L str d :=
  (@Relaxed.guards_variantFromStream L d).terminates_iff fun _ _ h =>
    (@guarded_ensures L str ⟨str, false⟩ d str.length (Nat.le_refl _) (Nat.le_refl _)).error h

theorem variants_terminates_iff {ptype : ParseType} :
    VariantsFromStringTerminates L str ptype d ↔ ¬VariantsMeetUnclosed L str d :=
  guards_variantsLoop.terminates_iff fun _ _ h =>
    (ensures_variantsLoop guarded_ensures (Nat.le_refl str.length) (.inl (by rw [fuelFor]; omega))).error h

-- The parsers end on every input but those that make the relaxed one come to a string in triple
-- quotes that is not closed, and on these it does not.
theorem terminates_iff_closed (L : LexicalCast) (str : Bytes) (maxDepth : UInt32) :
    (∀ ptype, FromStringTerminates L str ptype maxDepth ↔
      (ptype = .relaxedParser → ¬MeetsUnclosed L str maxDepth)) ∧
    ∀ ptype, VariantsFromStringTerminates L str ptype maxDepth ↔
    ¬VariantsMeetUnclosed L str maxDepth := by
  refine ⟨fun ptype => ?_, fun ptype => variants_terminates_iff⟩
  cases ptype
  case legacyParser =>
    exact iff_of_true ⟨fuelFor str, stackFor str, fun _ _ => legacy_terminates false⟩ nofun
  case legacyParserWithStringDoubles =>
    exact iff_of_true ⟨fuelFor str, stackFor str, fun _ _ => legacy_terminates true⟩ nofun
  case strictParser =>
    exact iff_of_true ⟨fuelFor str, stackFor str, fun _ _ => Relaxed.strict_terminates⟩ nofun
  case relaxedParser =>
    rw [relaxed_terminates_iff]
    exact ⟨fun h _ => h, fun h => h rfl⟩

-- Three quotes and nothing else.
theorem relaxedParser_does_not_terminate :
    ¬FromStringTerminates .decimal (ascii "\"\"\"") .relaxedParser 200 ∧
      ¬VariantsFromStringTerminates .decimal (ascii "\"\"\"") .legacyParser 200 := by
  rw [relaxed_terminates_iff, variants_terminates_iff, not_not, not_not]
  exact ⟨⟨_, rfl⟩, ⟨_, rfl⟩⟩

end Json
