import FcModel.Lib.IntegerType

-- `fc::safe`: integers of a built-in type whose operators throw where a result does not fit.

-- What ends an operator: one of its exceptions, or behaviour that is undefined.
inductive Safe.Fault
  | overflow
  | underflow
  | divideByZero
  | undefined
deriving DecidableEq, Repr

structure Safe (T : IntegerType) where
  value       : Int
  represented : T.Represents value
deriving DecidableEq

namespace Safe

variable {T : IntegerType}

def defined {α : Type} : Option α → Except Fault α
  | some x => .ok x
  | none   => .error .undefined

-- The constructor from another type.
def of (o : Int) : Safe T :=
  ⟨T.convert o, T.convert_represents o⟩

-- The built-in operators. Operands of less than the width of `int` are promoted to it.
def plus (T : IntegerType) (x y : Int) : Except Fault Int :=
  defined (T.promoted.arith (x + y))

def minus (T : IntegerType) (x y : Int) : Except Fault Int :=
  defined (T.promoted.arith (x - y))

def times (T : IntegerType) (x y : Int) : Except Fault Int :=
  defined (T.promoted.arith (x * y))

def quotient (T : IntegerType) (x y : Int) : Except Fault Int :=
  defined (T.promoted.div x y)

def remainder (T : IntegerType) (x y : Int) : Except Fault Int :=
  defined (T.promoted.mod x y)

def negative (T : IntegerType) (x : Int) : Except Fault Int :=
  defined (T.promoted.arith (-x))

-- `if( applies && exceeds( limit ) ) FC_CAPTURE_AND_THROW( e )`.
def throwIf (applies : Prop) [Decidable applies] (limit : Except Fault Int) (exceeds : Int → Bool)
    (e : Fault) :
    Except Fault Unit :=
  if applies then do
    let l ← limit
    if exceeds l then throw e
  else pure ()

def add (a b : Safe T) : Except Fault (Safe T) := do
  throwIf (0 < b.value) (minus T T.max b.value) (· < a.value) .overflow
  throwIf (b.value < 0) (minus T T.min b.value) (a.value < ·) .underflow
  return of (← plus T a.value b.value)

def sub (a b : Safe T) : Except Fault (Safe T) := do
  throwIf (0 < b.value) (plus T T.min b.value) (a.value < ·) .underflow
  throwIf (b.value < 0) (plus T T.max b.value) (· < a.value) .overflow
  return of (← minus T a.value b.value)

def mul (a b : Safe T) : Except Fault (Safe T) := do
  if 0 < a.value then
    if 0 < b.value then throwIf True (quotient T T.max b.value) (· < a.value) .overflow
    else throwIf True (quotient T T.min a.value) (b.value < ·) .underflow
  else
    if 0 < b.value then throwIf True (quotient T T.min b.value) (a.value < ·) .underflow
    else throwIf (a.value ≠ 0) (quotient T T.max a.value) (b.value < ·) .overflow
  return of (← times T a.value b.value)

-- `-1` is an `int`, which is converted to the type where that is wider or unsigned.
def minusOne (T : IntegerType) : Int :=
  T.promoted.convert (-1)

def checkDivision (a b : Safe T) : Except Fault Unit := do
  if b.value = 0 then throw .divideByZero
  if a.value = T.min ∧ b.value = minusOne T then throw .overflow

def div (a b : Safe T) : Except Fault (Safe T) := do
  checkDivision a b
  return of (← quotient T a.value b.value)

def mod (a b : Safe T) : Except Fault (Safe T) := do
  checkDivision a b
  return of (← remainder T a.value b.value)

def neg (a : Safe T) : Except Fault (Safe T) := do
  if a.value = T.min then throw .overflow
  return of (← negative T a.value)

-- The compound operators, on the object that they are called on.
abbrev Action (T : IntegerType) := EStateM Fault (Safe T)

-- `value = (*this op b).value`.
def assign (op : Safe T → Safe T → Except Fault (Safe T)) (b : Safe T) : Action T Unit := do
  let this ← get
  match op this b with
  | .ok r    => set r
  | .error e => throw e

def addAssign (b : Safe T) : Action T Unit :=
  assign add b

def subAssign (b : Safe T) : Action T Unit :=
  assign sub b

def mulAssign (b : Safe T) : Action T Unit :=
  assign mul b

def divAssign (b : Safe T) : Action T Unit :=
  assign div b

def modAssign (b : Safe T) : Action T Unit :=
  assign mod b

def preIncrement : Action T Unit :=
  addAssign (of 1)

def postIncrement : Action T (Safe T) := do
  let bak ← get
  addAssign (of 1)
  return bak

def preDecrement : Action T Unit :=
  subAssign (of 1)

def postDecrement : Action T (Safe T) := do
  let bak ← get
  subAssign (of 1)
  return bak

-- A result that is exact, or the exception that says on which side of the type it lies.
def checked (T : IntegerType) (x : Int) : Except Fault (Safe T) :=
  if h : T.Represents x then .ok ⟨x, h⟩
  else if T.max < x then .error .overflow
  else .error .underflow

section Guards

variable {a b : Safe T} {x y : Int}

theorem of_value (h : T.Represents x) : (of x : Safe T) = ⟨x, h⟩ := by
  unfold of
  congr 1
  exact IntegerType.convert_of_represents h

theorem checked_of_represents (h : T.Represents x) : checked T x = .ok ⟨x, h⟩ :=
  dif_pos h

theorem checked_of_lt (h : T.max < x) : checked T x = .error .overflow := by
  rw [checked, dif_neg fun hr => Int.not_le.mpr h hr.2, if_pos h]

theorem checked_of_gt (h : x < T.min) : checked T x = .error .underflow := by
  have := T.min_le_zero
  have := T.zero_le_max
  rw [checked, dif_neg fun hr => Int.not_le.mpr h hr.1, if_neg (by omega)]

theorem defined_arith (h : T.Represents x) : defined (T.promoted.arith x) = .ok x := by
  rw [T.promoted_arith h]
  rfl

-- A guard that throws, and one that does not.
theorem throwIf_throws {applies : Prop} [Decidable applies] {limit : Except Fault Int}
    {exceeds : Int → Bool}
    (ha : applies) (hl : limit = .ok x) (he : exceeds x = true) (e : Fault) :
    throwIf applies limit exceeds e = .error e := by
  rw [throwIf, if_pos ha, hl]
  change (if exceeds x then Except.error e else Except.ok ()) = _
  rw [if_pos he]

theorem throwIf_passes {applies : Prop} [Decidable applies] {limit : Except Fault Int}
    {exceeds : Int → Bool}
    (h : applies → limit = .ok x ∧ exceeds x = false) (e : Fault) :
    throwIf applies limit exceeds e = .ok () := by
  by_cases ha : applies
  case neg => rw [throwIf, if_neg ha]; rfl
  case pos =>
    obtain ⟨hl, he⟩ := h ha
    rw [throwIf, if_pos ha, hl]
    change (if exceeds x then Except.error e else Except.ok ()) = _
    rw [he]
    rfl

theorem computed (h : T.Represents x) :
    (do return of (← defined (T.promoted.arith x)) : Except Fault (Safe T)) = .ok ⟨x, h⟩ := by
  rw [defined_arith h, ← of_value h]
  rfl

theorem quotient_exact (hx : T.Represents x) (hy : T.Represents y) (hz : y ≠ 0)
    (h : x = T.min → y ≠ -1) :
    quotient T x y = .ok (x.tdiv y) := by
  rw [quotient, IntegerType.div, if_neg hz]
  exact defined_arith (T.tdiv_represents hx hy h)

-- The three places where a result can lie.
theorem sides (T : IntegerType) (x : Int) : T.max < x ∨ x < T.min ∨ T.Represents x := by
  by_cases hl : T.max < x
  case pos => exact Or.inl hl
  case neg =>
    by_cases hu : x < T.min
    case pos => exact Or.inr (Or.inl hu)
    case neg => exact Or.inr (Or.inr ⟨Int.not_lt.mp hu, Int.not_lt.mp hl⟩)

-- An operator whose result can leave the type on one side only.
theorem guarded_above {applies : Prop} [Decidable applies] {limit : Except Fault Int}
    {exceeds : Int → Bool}
    (hl : applies → limit = .ok y) (he : applies → (exceeds y = true ↔ T.max < x))
    (h0 : ¬applies → x ≤ T.max)
    (hx : T.min ≤ x) :
    (do throwIf applies limit exceeds .overflow; return of (← defined (T.promoted.arith x))) = checked T x := by
  obtain h | h | h := sides T x
  case inl =>
    have ha : applies := Decidable.byContradiction fun ha => Int.not_le.mpr h (h0 ha)
    rw [throwIf_throws ha (hl ha) ((he ha).mpr h), checked_of_lt h]
    rfl
  case inr.inl => omega
  case inr.inr =>
    rw [throwIf_passes fun ha => ⟨hl ha, Bool.eq_false_iff.mpr (mt (he ha).mp (Int.not_lt.mpr h.2))⟩,
      checked_of_represents h]
    exact computed h

theorem guarded_below {limit : Except Fault Int} {exceeds : Int → Bool} (hl : limit = .ok y)
    (he : exceeds y = true ↔ x < T.min) (hx : x ≤ T.max) :
    (do throwIf True limit exceeds .underflow; return of (← defined (T.promoted.arith x))) = checked T x := by
  obtain h | h | h := sides T x
  case inl => omega
  case inr.inl =>
    rw [throwIf_throws trivial hl (he.mpr h), checked_of_gt h]
    rfl
  case inr.inr =>
    rw [throwIf_passes fun _ => ⟨hl, Bool.eq_false_iff.mpr (mt he.mp (Int.not_lt.mpr h.1))⟩,
      checked_of_represents h]
    exact computed h

end Guards

section Operators

variable (a b : Safe T)

theorem add_eq : add a b = checked T (a.value + b.value) := by
  obtain ⟨hal, hau⟩ := a.represented
  obtain ⟨hbl, hbu⟩ := b.represented
  have hz := T.min_le_zero
  have hM := T.zero_le_max
  have hmax (h : 0 < b.value) : minus T T.max b.value = .ok (T.max - b.value) :=
    defined_arith ⟨by omega, by omega⟩
  have hmin (h : b.value < 0) : minus T T.min b.value = .ok (T.min - b.value) :=
    defined_arith ⟨by omega, by omega⟩
  unfold add
  obtain h | h | h := sides T (a.value + b.value)
  case inl =>
    have hb : 0 < b.value := by omega
    rw [throwIf_throws hb (hmax hb) (decide_eq_true (by omega)), checked_of_lt h]
    rfl
  case inr.inl =>
    have hb : b.value < 0 := by omega
    rw [throwIf_passes fun h => absurd h (by omega),
      throwIf_throws hb (hmin hb) (decide_eq_true (by omega)),
      checked_of_gt h]
    · rfl
    · exact 0
  case inr.inr =>
    obtain ⟨hl, hu⟩ := h
    rw [throwIf_passes fun h => ⟨hmax h, decide_eq_false (by omega)⟩,
      throwIf_passes fun h => ⟨hmin h, decide_eq_false (by omega)⟩, checked_of_represents ⟨hl, hu⟩]
    exact computed ⟨hl, hu⟩

theorem sub_eq : sub a b = checked T (a.value - b.value) := by
  obtain ⟨hal, hau⟩ := a.represented
  obtain ⟨hbl, hbu⟩ := b.represented
  have hz := T.min_le_zero
  have hM := T.zero_le_max
  have hmin (h : 0 < b.value) : plus T T.min b.value = .ok (T.min + b.value) :=
    defined_arith ⟨by omega, by omega⟩
  have hmax (h : b.value < 0) : plus T T.max b.value = .ok (T.max + b.value) :=
    defined_arith ⟨by omega, by omega⟩
  unfold sub
  obtain h | h | h := sides T (a.value - b.value)
  case inl =>
    have hb : b.value < 0 := by omega
    rw [throwIf_passes fun h => absurd h (by omega),
      throwIf_throws hb (hmax hb) (decide_eq_true (by omega)),
      checked_of_lt h]
    · rfl
    · exact 0
  case inr.inl =>
    have hb : 0 < b.value := by omega
    rw [throwIf_throws hb (hmin hb) (decide_eq_true (by omega)), checked_of_gt h]
    rfl
  case inr.inr =>
    obtain ⟨hl, hu⟩ := h
    rw [throwIf_passes fun h => ⟨hmin h, decide_eq_false (by omega)⟩,
      throwIf_passes fun h => ⟨hmax h, decide_eq_false (by omega)⟩, checked_of_represents ⟨hl, hu⟩]
    exact computed ⟨hl, hu⟩

-- In each quadrant, the guard compares with the quotient of the bound that the product can exceed.
theorem mul_eq : mul a b = checked T (a.value * b.value) := by
  obtain ⟨hal, hau⟩ := a.represented
  obtain ⟨hbl, hbu⟩ := b.represented
  have hz := T.min_le_zero
  have hM := T.zero_le_max
  have hmin : T.Represents T.min := ⟨Int.le_refl _, by omega⟩
  have hmax : T.Represents T.max := ⟨by omega, Int.le_refl _⟩
  unfold mul
  obtain ha | ha := Int.lt_or_le 0 a.value
  case inl =>
    rw [if_pos ha]
    obtain hb | hb := Int.lt_or_le 0 b.value
    case inl =>
      rw [if_pos hb]
      have hp := Int.mul_pos ha hb
      have hi : T.max.tdiv b.value < a.value ↔ _ := IntegerType.tdiv_lt_iff hM hb
      exact guarded_above (fun _ => quotient_exact hmax b.represented hb.ne' fun _ => by omega)
        (fun _ => decide_eq_true_iff.trans hi) (fun h => absurd trivial h) (by omega)
    case inr =>
      rw [if_neg (Int.not_lt.mpr hb)]
      have hp := Int.mul_nonpos_of_nonneg_of_nonpos ha.le hb
      have hi : b.value < T.min.tdiv a.value ↔ _ := IntegerType.lt_tdiv_iff hz ha
      rw [Int.mul_comm] at hi
      exact guarded_below (quotient_exact hmin a.represented ha.ne' fun _ => by omega)
        (decide_eq_true_iff.trans hi) (by omega)
  case inr =>
    rw [if_neg (Int.not_lt.mpr ha)]
    obtain hb | hb := Int.lt_or_le 0 b.value
    case inl =>
      rw [if_pos hb]
      have hp := Int.mul_nonpos_of_nonpos_of_nonneg ha hb.le
      have hi : a.value < T.min.tdiv b.value ↔ _ := IntegerType.lt_tdiv_iff hz hb
      exact guarded_below (quotient_exact hmin b.represented hb.ne' fun _ => by omega)
        (decide_eq_true_iff.trans hi) (by omega)
    case inr =>
      rw [if_neg (Int.not_lt.mpr hb)]
      have hp := Int.mul_nonneg_of_nonpos_of_nonpos ha hb
      have hi (h : a.value ≠ 0) : b.value < T.max.tdiv a.value ↔ _ :=
        IntegerType.lt_tdiv_neg_iff hM (by omega)
      rw [Int.mul_comm b.value] at hi
      refine guarded_above (fun h => quotient_exact hmax a.represented h fun _ => by omega)
        (fun h => decide_eq_true_iff.trans (hi h)) (fun h => ?_) (by omega)
      rw [Decidable.of_not_not h, Int.zero_mul]
      exact hM

-- Where the type has the number minus one, the constant is not changed by its conversion.
theorem minusOne_of_represents (h : T.Represents (-1)) : minusOne T = -1 :=
  IntegerType.convert_of_represents (IntegerType.promoted_represents h)

variable {a b}

theorem checkDivision_zero (h : b.value = 0) : checkDivision a b = .error .divideByZero := by
  rw [checkDivision, if_pos h]
  rfl

theorem checkDivision_least (h0 : b.value ≠ 0) (h : a.value = T.min ∧ b.value = minusOne T) :
    checkDivision a b = .error .overflow := by
  rw [checkDivision, if_neg h0, if_pos h]
  rfl

theorem checkDivision_passes (h0 : b.value ≠ 0) (h : ¬(a.value = T.min ∧ b.value = minusOne T)) :
    checkDivision a b = .ok () := by
  rw [checkDivision, if_neg h0, if_neg h]
  rfl

theorem quotient_represents (h : ¬(a.value = T.min ∧ b.value = minusOne T)) :
    T.Represents (a.value.tdiv b.value) := by
  refine T.tdiv_represents a.represented b.represented fun ha hb => h ⟨ha, ?_⟩
  rw [minusOne_of_represents (hb ▸ b.represented), hb]

theorem div_error {e : Fault} (h : checkDivision a b = .error e) : div a b = .error e := by
  rw [div, h]
  rfl

theorem mod_error {e : Fault} (h : checkDivision a b = .error e) : mod a b = .error e := by
  rw [mod, h]
  rfl

theorem div_eq (h0 : b.value ≠ 0) (h : ¬(a.value = T.min ∧ b.value = minusOne T)) :
    div a b = .ok ⟨a.value.tdiv b.value, quotient_represents h⟩ := by
  rw [div, checkDivision_passes h0 h, quotient, IntegerType.div, if_neg h0]
  exact computed (quotient_represents h)

theorem mod_eq (h0 : b.value ≠ 0) (h : ¬(a.value = T.min ∧ b.value = minusOne T)) :
    mod a b = .ok ⟨a.value.tmod b.value, T.tmod_represents a.represented⟩ := by
  rw [mod, checkDivision_passes h0 h, remainder, IntegerType.mod, if_neg h0,
    IntegerType.promoted_arith (quotient_represents h)]
  exact computed (T.tmod_represents a.represented)

end Operators

section Compound

variable {op : Safe T → Safe T → Except Fault (Safe T)} {s s' b : Safe T} {e : Fault}

theorem assign_run : (assign op b).run s = match op s b with
    | .ok r    => .ok () r
    | .error e => .error e s := by
  unfold assign
  change EStateM.run (match op s b with | .ok r => set r | .error e => throw e) s = _
  cases op s b
  case ok    => rfl
  case error => rfl

-- The compound operators.
inductive Compound (T : IntegerType)
  | add (b : Safe T)
  | sub (b : Safe T)
  | mul (b : Safe T)
  | div (b : Safe T)
  | mod (b : Safe T)
  | preIncrement
  | postIncrement
  | preDecrement
  | postDecrement

def Compound.run : Compound T → Action T Unit
  | add b         => addAssign b
  | sub b         => subAssign b
  | mul b         => mulAssign b
  | div b         => divAssign b
  | mod b         => modAssign b
  | preIncrement  => Safe.preIncrement
  | postIncrement => do let _ ← Safe.postIncrement
  | preDecrement  => Safe.preDecrement
  | postDecrement => do let _ ← Safe.postDecrement

-- What a compound operator assigns.
def Compound.result (s : Safe T) : Compound T → Except Fault (Safe T)
  | add b                          => s.add b
  | sub b                          => s.sub b
  | mul b                          => s.mul b
  | div b                          => s.div b
  | mod b                          => s.mod b
  | preIncrement | postIncrement   => s.add (of 1)
  | preDecrement | postDecrement   => s.sub (of 1)

theorem Compound.run_eq (op : Compound T) : op.run.run s = match op.result s with
    | .ok r    => .ok () r
    | .error e => .error e s := by
  cases op
  case add b         => exact assign_run
  case sub b         => exact assign_run
  case mul b         => exact assign_run
  case div b         => exact assign_run
  case mod b         => exact assign_run
  case preIncrement  => exact assign_run
  case preDecrement  => exact assign_run
  case postIncrement =>
    simp only [run, Safe.postIncrement, addAssign, EStateM.run_bind, EStateM.run_get, assign_run,
      result]
    cases s.add (of 1)
    case ok    => rfl
    case error => rfl
  case postDecrement =>
    simp only [run, Safe.postDecrement, subAssign, EStateM.run_bind, EStateM.run_get, assign_run,
      result]
    cases s.sub (of 1)
    case ok    => rfl
    case error => rfl

theorem Compound.unchanged (op : Compound T) (h : op.run.run s = .error e s') : s' = s := by
  rw [op.run_eq] at h
  cases hr : op.result s
  case ok r    => rw [hr] at h; cases h
  case error e => rw [hr] at h; cases h; rfl

end Compound

section Signed

variable {d : Nat}

theorem neg_eq (a : Safe (.signed d)) : neg a = checked _ (-a.value) := by
  obtain ⟨hl, hu⟩ := a.represented
  have hp : (0 : Int) < 2 ^ d := Int.pow_pos (by decide)
  simp only [IntegerType.min, IntegerType.max] at hl hu
  unfold neg
  by_cases h : a.value = IntegerType.min (.signed d)
  case pos =>
    have hx : IntegerType.max (.signed d) < -a.value := by
      rw [h]
      simp only [IntegerType.min, IntegerType.max]
      omega
    rw [if_pos h, checked_of_lt hx]
    rfl
  case neg =>
    have hx : IntegerType.Represents (.signed d) (-a.value) := by
      simp only [IntegerType.min] at h
      constructor
      · simp only [IntegerType.min]
        omega
      · simp only [IntegerType.max]
        omega
    rw [if_neg h, checked_of_represents hx]
    exact computed hx

theorem minusOne_signed : minusOne (.signed d) = -1 := by
  have hp : (0 : Int) < 2 ^ d := Int.pow_pos (by decide)
  refine minusOne_of_represents ⟨?_, ?_⟩
  · simp only [IntegerType.min]
    omega
  · simp only [IntegerType.max]
    omega

-- Where a division is refused.
def Indivisible (a b : Safe T) : Prop :=
  b.value = 0 ∨ a.value = T.min ∧ b.value = -1

-- Every operator gives the mathematical result or says that it does not fit, division throws where
-- it is refused only, and a compound operator that throws leaves its object as it was.
theorem signed_checked (a b : Safe (.signed d)) :
    add a b = checked _ (a.value + b.value) ∧ sub a b = checked _ (a.value - b.value) ∧
    mul a b = checked _ (a.value * b.value) ∧ neg a = checked _ (-a.value) ∧
    (Indivisible a b →
      (∃ e, div a b = .error e ∧ e ≠ .undefined) ∧ ∃ e, mod a b = .error e ∧ e ≠ .undefined) ∧
    (¬Indivisible a b →
      (∃ q, div a b = .ok q ∧ q.value = a.value.tdiv b.value) ∧
      ∃ r, mod a b = .ok r ∧ r.value = a.value.tmod b.value) ∧
    ∀ (op : Compound (.signed d)) (s s' : Safe (.signed d)) (e : Fault),
    op.run.run s = .error e s' → s' = s := by
  refine ⟨add_eq a b, sub_eq a b, mul_eq a b, neg_eq a, fun h => ?_, fun h => ?_, fun op s s' e h => op.unchanged h⟩
  case refine_1 =>
    have hc : ∃ e, checkDivision a b = .error e ∧ e ≠ .undefined := by
      by_cases h0 : b.value = 0
      case pos => exact ⟨_, checkDivision_zero h0, Fault.noConfusion⟩
      case neg =>
        have hm := h.resolve_left h0
        rw [← minusOne_signed (d := d)] at hm
        exact ⟨_, checkDivision_least h0 hm, Fault.noConfusion⟩
    obtain ⟨e, hc, he⟩ := hc
    exact ⟨⟨e, div_error hc, he⟩, e, mod_error hc, he⟩
  case refine_2 =>
    have h0 : b.value ≠ 0 := fun h0 => h (Or.inl h0)
    have hm : ¬(a.value = IntegerType.min (.signed d) ∧ b.value = minusOne (.signed d)) := by
      rw [minusOne_signed]
      exact fun hm => h (Or.inr hm)
    exact ⟨⟨_, div_eq h0 hm, rfl⟩, _, mod_eq h0 hm, rfl⟩

end Signed

section Unsigned

inductive Operator
  | add
  | sub
  | mul
  | neg
  | div
  | mod
deriving DecidableEq, Repr

def Operator.apply (a b : Safe T) : Operator → Except Fault (Safe T)
  | add => a.add b
  | sub => a.sub b
  | mul => a.mul b
  | neg => a.neg
  | div => a.div b
  | mod => a.mod b

-- The mathematical result, which a division by zero does not have.
def Operator.exact (x y : Int) : Operator → Option Int
  | add => some (x + y)
  | sub => some (x - y)
  | mul => some (x * y)
  | neg => some (-x)
  | div => if y = 0 then none else some (x.tdiv y)
  | mod => if y = 0 then none else some (x.tmod y)

-- The mathematical result is returned if the type represents it, and otherwise the operator throws.
def Operator.Meets (op : Operator) (a b : Safe T) : Prop :=
  match (op.exact a.value b.value).filter fun x => T.Represents x with
  | some x => ∃ r, op.apply a b = .ok r ∧ r.value = x
  | none   => ∃ e, op.apply a b = .error e ∧ e ≠ .undefined

variable {d : Nat} {op : Operator} {a b : Safe T} {x : Int}

theorem Operator.meets_checked (hx : op.exact a.value b.value = some x)
    (h : op.apply a b = checked T x) :
    op.Meets a b := by
  unfold Meets
  rw [hx, h]
  by_cases hr : T.Represents x
  case pos =>
    rw [Option.filter_some, if_pos (decide_eq_true hr), checked_of_represents hr]
    exact ⟨_, rfl, rfl⟩
  case neg =>
    rw [Option.filter_some, if_neg (by simpa using hr)]
    obtain h | h | h := sides T x
    case inl     => exact ⟨_, checked_of_lt h, Fault.noConfusion⟩
    case inr.inl => exact ⟨_, checked_of_gt h, Fault.noConfusion⟩
    case inr.inr => exact absurd h hr

theorem Operator.meets_undefined (hx : op.exact a.value b.value = none) {e : Fault}
    (h : op.apply a b = .error e)
    (he : e ≠ .undefined) : op.Meets a b := by
  unfold Meets
  rw [hx]
  exact ⟨e, h, he⟩

theorem Operator.meets_represented (hx : op.exact a.value b.value = some x) (hr : T.Represents x) :
    op.Meets a b ↔ ∃ r, op.apply a b = .ok r ∧ r.value = x := by
  unfold Meets
  rw [hx, Option.filter_some, if_pos (decide_eq_true hr)]

theorem Operator.meets_unrepresented (hx : op.exact a.value b.value = some x)
    (hr : ¬T.Represents x) :
    op.Meets a b ↔ ∃ e, op.apply a b = .error e ∧ e ≠ .undefined := by
  unfold Meets
  rw [hx, Option.filter_some, if_neg (by simpa using hr)]

theorem promoted_unsigned (h : 32 ≤ d) : (IntegerType.unsigned d).promoted = .unsigned d :=
  if_neg (Nat.not_lt.mpr h)

-- Converted to an unsigned type, minus one is the greatest number.
theorem minusOne_unsigned (h : 32 ≤ d) :
    minusOne (.unsigned d) = IntegerType.max (.unsigned d) := by
  have hp : (0 : Int) < 2 ^ d := Int.pow_pos (by decide)
  unfold minusOne
  rw [promoted_unsigned h, IntegerType.convert, IntegerType.max, Int.neg_emod_eq_sub_emod,
    Int.emod_eq_of_lt (by omega) (by omega)]

-- Zero is refused, although it is its own negative, and no other number is.
theorem not_meets_neg (h : 32 ≤ d) (a b : Safe (.unsigned d)) : ¬Operator.neg.Meets a b := by
  obtain ⟨hl, hu⟩ := a.represented
  change (0 : Int) ≤ a.value at hl
  by_cases h0 : a.value = 0
  case pos =>
    have hx : Operator.neg.exact a.value b.value = some 0 := by
      rw [h0]
      rfl
    rw [Operator.meets_represented hx (IntegerType.represents_zero _)]
    intro ⟨r, hr, _⟩
    have hn : neg a = .error .overflow := by
      rw [neg, if_pos (show a.value = (IntegerType.unsigned d).min from h0)]
      rfl
    rw [Operator.apply, hn] at hr
    cases hr
  case neg =>
    have hx : Operator.neg.exact a.value b.value = some (-a.value) := rfl
    have hm : ¬(IntegerType.unsigned d).Represents (-a.value) := fun hr => by
      have := hr.1
      change (0 : Int) ≤ -a.value at this
      omega
    rw [Operator.meets_unrepresented hx hm]
    intro ⟨e, he, _⟩
    have hn : neg a = .ok (of ((IntegerType.unsigned d).convert (-a.value))) := by
      rw [neg, if_neg (show a.value ≠ (IntegerType.unsigned d).min from h0), negative,
        promoted_unsigned h]
      rfl
    rw [Operator.apply, hn] at he
    cases he

-- What division refuses besides zero.
def WrapsMinusOne (a b : Safe (.unsigned d)) : Prop :=
  a.value = 0 ∧ b.value = IntegerType.max (.unsigned d)

theorem meets_division_iff (h : 32 ≤ d) (a b : Safe (.unsigned d)) (hop : op = .div ∨ op = .mod) :
    op.Meets a b ↔ ¬WrapsMinusOne a b := by
  have hM : (0 : Int) < IntegerType.max (.unsigned d) := by
    have : (2 : Int) ^ 32 ≤ 2 ^ d := pow_le_pow_right₀ (by decide) h
    simp only [IntegerType.max]
    omega
  by_cases h0 : b.value = 0
  case pos =>
    have hw : ¬WrapsMinusOne a b := fun hw => hM.ne (h0.symm.trans hw.2)
    have hc := checkDivision_zero (a := a) h0
    refine iff_of_true ?_ hw
    cases hop
    case inl hop =>
      subst hop
      exact Operator.meets_undefined (if_pos h0) (div_error hc) Fault.noConfusion
    case inr hop =>
      subst hop
      exact Operator.meets_undefined (if_pos h0) (mod_error hc) Fault.noConfusion
  case neg =>
    by_cases hw : WrapsMinusOne a b
    case pos =>
      have hc := checkDivision_least h0 ⟨hw.1, hw.2.trans (minusOne_unsigned h).symm⟩
      refine iff_of_false ?_ (not_not_intro hw)
      cases hop
      case inl hop =>
        subst hop
        have hx : Operator.div.exact a.value b.value = some 0 := by
          rw [Operator.exact, if_neg h0, hw.1, Int.zero_tdiv]
        rw [Operator.meets_represented hx (IntegerType.represents_zero _), Operator.apply,
          div_error hc]
        rintro ⟨r, hr, _⟩
        cases hr
      case inr hop =>
        subst hop
        have hx : Operator.mod.exact a.value b.value = some 0 := by
          rw [Operator.exact, if_neg h0, hw.1, Int.zero_tmod]
        rw [Operator.meets_represented hx (IntegerType.represents_zero _), Operator.apply,
          mod_error hc]
        rintro ⟨r, hr, _⟩
        cases hr
    case neg =>
      have hm : ¬(a.value = IntegerType.min (.unsigned d) ∧ b.value = minusOne (.unsigned d)) := by
        rw [minusOne_unsigned h]
        exact hw
      refine iff_of_true ?_ hw
      cases hop
      case inl hop =>
        subst hop
        have hx : Operator.div.exact a.value b.value = some (a.value.tdiv b.value) := if_neg h0
        exact (Operator.meets_represented hx (quotient_represents hm)).mpr ⟨_, div_eq h0 hm, rfl⟩
      case inr hop =>
        subst hop
        have hx : Operator.mod.exact a.value b.value = some (a.value.tmod b.value) := if_neg h0
        exact (Operator.meets_represented hx (IntegerType.tmod_represents a.represented)).mpr
          ⟨_, mod_eq h0 hm, rfl⟩

-- The operators are exact on unsigned numbers, but for negation, which never is, and the division
-- of zero by the greatest number.
theorem unsigned_meets_iff (h : 32 ≤ d) (op : Operator) (a b : Safe (.unsigned d)) :
    op.Meets a b ↔ op ≠ .neg ∧ (op = .div ∨ op = .mod → ¬WrapsMinusOne a b) := by
  cases op
  case add => exact iff_of_true (Operator.meets_checked rfl (add_eq a b)) (by simp)
  case sub => exact iff_of_true (Operator.meets_checked rfl (sub_eq a b)) (by simp)
  case mul => exact iff_of_true (Operator.meets_checked rfl (mul_eq a b)) (by simp)
  case neg => exact iff_of_false (not_meets_neg h a b) (by simp)
  case div => simpa using @meets_division_iff _ .div h a b (Or.inl rfl)
  case mod => simpa using @meets_division_iff _ .mod h a b (Or.inr rfl)

theorem unsigned_meets_iff_uint32 :
    Operator.div.Meets (⟨7, by decide⟩ : Safe (.unsigned 32)) ⟨2, by decide⟩ ↔ Operator.div ≠ .neg ∧
      (Operator.div = .div ∨ Operator.div = .mod →
        ¬WrapsMinusOne (⟨7, by decide⟩ : Safe (.unsigned 32)) ⟨2, by decide⟩) :=
  unsigned_meets_iff (by decide) .div ⟨7, by decide⟩ ⟨2, by decide⟩

theorem not_unsigned_meets_five :
    ¬∀ (op : Operator) (a b : Safe (.unsigned 32)), op.Meets a b := by
  intro h
  have hm := h .neg ⟨5, by decide⟩ ⟨0, by decide⟩
  revert hm
  rw [Operator.meets_unrepresented (x := -5) rfl (by decide)]
  intro ⟨e, he, _⟩
  cases he

end Unsigned

end Safe
