import FcModel.Io.Json.Monotone

-- What the strict parser reads, the relaxed parser reads in the same way.

namespace Json.Relaxed

open Ascii

variable {L : LexicalCast} {fuel : Nat} {token ds r : Bytes} {v : Variant}

-- In these results only errors make a difference.
abbrev AnyError : Error → Prop := fun _ => True

theorem ignores_anyError : Ignores AnyError where
  fuel    := trivial
  stack   := trivial
  eof _ _ := trivial

theorem strict_quoteStringFromStream {allowEscape : Bool} :
    Approx AnyError (quoteStringFromStream true allowEscape fuel) (quoteStringFromStream false allowEscape fuel) := by
  refine .bind (.refl _) fun q => ?_
  by_cases hq : q = apostrophe
  case pos =>
    rw [if_pos ⟨hq, rfl⟩]
    exact .throw trivial _
  case neg =>
    have hs (b : Bool) : ¬(q = apostrophe ∧ b = true) := fun h => hq h.1
    rw [if_neg (hs true), if_neg (hs false)]
    refine .ite (fun _ => .throw trivial _) fun _ => .bind (.refl _) fun _ => .ite (fun _ => ?_) fun _ => .refl _
    exact .bind (.refl _) fun _ => .bind (.refl _) fun _ => .ite (fun _ => .refl _) fun _ => .throw trivial _

theorem strict_stringFromStream :
    Approx AnyError (stringFromStream true fuel) (stringFromStream false fuel) := by
  refine .bind (.refl _) fun c => ?_
  by_cases hc : c = apostrophe
  case pos =>
    rw [if_pos ⟨hc, rfl⟩]
    exact .throw trivial _
  case neg =>
    have hs (b : Bool) : ¬(c = apostrophe ∧ b = true) := fun h => hc h.1
    rw [if_neg (hs true), if_neg (hs false)]
    refine .ite (fun _ => strict_quoteStringFromStream) fun _ => ?_
    by_cases hr : c = 'r'.toUInt8
    case pos =>
      rw [if_pos ⟨hr, rfl⟩]
      exact .throw trivial _
    case neg =>
      have hs (b : Bool) : ¬(c = 'r'.toUInt8 ∧ b = true) := fun h => hr h.1
      rw [if_neg (hs true), if_neg (hs false)]
      refine .ite (fun _ => .bind (.refl _) fun _ => .bind (.refl _) fun _ => ?_) fun _ =>
        .ite (fun _ => .throw trivial _) fun _ => .refl _
      exact .ite (fun _ => .throw trivial _) fun _ => .throw trivial _

-- A number that the strict parser accepts is one that the relaxed parser accepts.
def Included (x y : Except Error Variant) : Prop :=
  ∀ v, x = .ok v → isNumber v → y = .ok v

namespace Included

theorem refl (x : Except Error Variant) : Included x x :=
  fun _ h _ => h

theorem error {e : Error} {y : Except Error Variant} : Included (.error e) y :=
  nofun

theorem ite {p : Prop} [Decidable p] {x x' y y' : Except Error Variant} (h : p → Included x y)
    (h' : ¬p → Included x' y') : Included (if p then x else x') (if p then y else y') := by
  by_cases hp : p
  case pos => simpa only [if_pos hp] using h hp
  case neg => simpa only [if_neg hp] using h' hp

theorem exponentDigits :
    Included (exponentDigits L true token r) (exponentDigits L false token r) := by
  induction r
  case nil      => exact .refl _
  case cons hi  => exact .ite (fun _ => hi) fun _ => .ite (fun _ => .error) fun _ => hi

theorem exponent : Included (exponent L true token r) (exponent L false token r) := by
  cases r
  case nil => exact .error
  case cons =>
    exact .ite (fun _ => .ite (fun _ => .error) fun _ => exponentDigits) fun _ => .ite (fun _ => exponentDigits) fun _ =>
      .ite (fun _ => .error) fun _ => .refl _

theorem numberLoop : Included (numberLoop L true token ds r) (numberLoop L false token ds r) := by
  induction r
  case nil => exact .refl _
  case cons hi =>
    exact .ite (fun _ => hi) fun _ => .ite (fun _ => .refl _) fun _ => .ite (fun _ => exponent) fun _ =>
      .ite (fun _ => .error) fun _ => .refl _

theorem afterZero : Included (afterZero L true token ds r) (afterZero L false token ds r) := by
  cases r
  case nil => exact .refl _
  case cons d r =>
    refine .ite (fun _ => .error) fun _ => .ite (fun _ => .error) fun _ => .ite (fun _ => .error) fun _ => ?_
    by_cases hd : d = dot ∨ d = 'e'.toUInt8 ∨ d = 'E'.toUInt8
    case pos =>
      rw [if_neg fun h => h.2 hd, if_neg fun h => h.2 hd]
      exact numberLoop
    case neg =>
      rw [if_pos ⟨rfl, hd⟩]
      exact .error

theorem unsignedNumber :
    Included (unsignedNumber L true token r) (unsignedNumber L false token r) := by
  cases r
  case nil => exact .refl _
  case cons =>
    exact .ite (fun _ => afterZero) fun _ => .ite (fun _ => numberLoop) fun _ => .ite (fun _ => .error) fun _ => .refl _

theorem parseNumberOrStr :
    Included (parseNumberOrStr L true token) (parseNumberOrStr L false token) := by
  cases token
  case nil => exact .refl _
  case cons c r =>
    by_cases hc : c = plus
    case pos =>
      rw [Relaxed.parseNumberOrStr, if_pos ⟨hc, rfl⟩]
      exact .error
    case neg =>
      have hs (b : Bool) : ¬(c = plus ∧ b = true) := fun h => hc h.1
      rw [Relaxed.parseNumberOrStr, Relaxed.parseNumberOrStr, if_neg (hs true), if_neg (hs false)]
      exact .ite (fun _ => unsignedNumber) fun _ => unsignedNumber

end Included

theorem strict_numberFromStream :
    Approx AnyError (numberFromStream L true fuel) (numberFromStream L false fuel) := by
  refine .bind (.refl _) fun token => ?_
  cases hv : parseNumberOrStr L true token
  case error => exact .throw trivial _
  case ok v =>
    by_cases hn : isNumber v
    case pos =>
      rw [Included.parseNumberOrStr v hv hn]
      simp only [hn, Bool.not_true, Bool.false_eq_true, and_false, if_false]
      exact .refl _
    case neg =>
      simp only [hn, Bool.not_false, and_self, if_true]
      exact .throw trivial _

theorem strict_wordFromStream :
    Approx AnyError (wordFromStream true fuel) (wordFromStream false fuel) :=
  .bind (.refl _) fun _ => .ite (fun _ => .refl _) fun _ => .ite (fun _ => .refl _) fun _ =>
    .ite (fun _ => .refl _) fun _ => .ite (fun _ => .refl _) fun _ => .throw trivial _

theorem strict_below_relaxed : (reader L true fuel).Below AnyError (reader L false fuel) where
  string := strict_stringFromStream
  number := strict_numberFromStream
  word   := strict_wordFromStream

-- Where the strict parser returns a value, the relaxed one returns the same value and leaves the
-- same input.
theorem strict_sublanguage_relaxed (L : LexicalCast) (fuel stack : Nat) (maxDepth : UInt32)
    {s s' : Stringstream} {v : Variant}
    (h : (variantFromStream (reader L true fuel) fuel stack maxDepth).run s = .ok v s') :
    (variantFromStream (reader L false fuel) fuel stack maxDepth).run s = .ok v s' :=
  (approx_variantFromStream ignores_anyError (Nat.le_refl _) strict_below_relaxed (Nat.le_refl _)).ok h

-- On a stream that goes on after the value.
theorem strict_sublanguage_relaxed_array :
    (variantFromStream (reader .decimal false 20) 20 20 200).run ⟨ascii "[1,\"a\"] 2", false⟩ =
      .ok (.array [.uint64 1, .string (ascii "a")]) ⟨ascii " 2", false⟩ :=
  strict_sublanguage_relaxed .decimal 20 20 200 (by decide +kernel)

end Json.Relaxed
