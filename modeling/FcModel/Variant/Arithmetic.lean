import FcModel.Variant.Equality

-- The arithmetic operators of `fc::variant`.

namespace Variant.Arithmetic

inductive Error
  | cast (e : CastError)
  | assert (message : String)
  -- A division that the processor traps.
  | divide
  -- A vector does not have the element that is assigned.
  | access
  | fuel
deriving DecidableEq, Repr

-- The operators on `double`, whose values are given by their bits.
structure DoubleOperators where
  add : UInt64 → UInt64 → UInt64
  sub : UInt64 → UInt64 → UInt64
  mul : UInt64 → UInt64 → UInt64
  div : UInt64 → UInt64 → UInt64

-- No double is computed with.
def DoubleOperators.unused : DoubleOperators where
  add _ _ := 0
  sub _ _ := 0
  mul _ _ := 0
  div _ _ := 0

def converted {α : Type} : Except CastError α → Except Error α
  | .ok a    => .ok a
  | .error e => .error (.cast e)

section Loop

variable (op : Variant → Variant → Except Error Variant) (next : UInt32 → UInt32)
    (aa ba : List Variant)

-- What a round of the loop assigns.
def element (i : Nat) : Except Error Variant :=
  match aa[i]?, ba[i]? with
  | some x, some y => op x y
  | some x, none   => .ok x
  | none, some y   => .ok y
  | none, none     => .error .access

-- `result[i] = x`.
def assign (result : List Variant) (i : Nat) (x : Variant) : Except Error (List Variant) :=
  if i < result.length then .ok (result.set i x) else .error .access

-- The index is an `unsigned`, whatever the sizes are.
def loop : (fuel : Nat) → (i : UInt32) → (result : List Variant) → Except Error (List Variant)
  | 0, _, _             => .error .fuel
  | fuel + 1, i, result =>
    if i.toNat < max aa.length ba.length then do
      let x ← element op aa ba i.toNat
      let result ← assign result i.toNat x
      loop fuel (next i) result
    else return result

-- `result.reserve` gives the vector no elements.
def arrays (fuel : Nat) : Except Error Variant := do
  return .array (← loop op next aa ba fuel 0 [])

end Loop

section Operators

variable (L : LexicalCast) (D : Doubles) (A : DoubleOperators)

-- The branches for numbers, of which an overflow wraps around.
def numbers (onDouble : UInt64 → UInt64 → UInt64) (onInt64 : Int64 → Int64 → Except Error Int64)
    (onUint64 : UInt64 → UInt64 → Except Error UInt64) (otherwise : Except Error Variant)
    (a b : Variant) :
    Except Error Variant :=
  if a.isDouble ∨ b.isDouble then
    return .double (onDouble (← converted (a.asDouble L D)) (← converted (b.asDouble L D)))
  else if a.isInt64 ∨ b.isInt64 then
    return .int64 (← onInt64 (← converted (a.asInt64 L D)) (← converted (b.asInt64 L D)))
  else if a.isUint64 ∨ b.isUint64 then
    return .uint64 (← onUint64 (← converted (a.asUint64 L D)) (← converted (b.asUint64 L D)))
  else otherwise

-- `operator +`.
def add : Nat → Variant → Variant → Except Error Variant
  | 0, _, _                      => .error .fuel
  | fuel + 1, array aa, array ba => arrays (add fuel) (· + 1) aa ba fuel
  | _ + 1, a, b                  =>
    if a.isString ∨ b.isString then
      return .string ((← converted (a.asString L)) ++ (← converted (b.asString L)))
    else numbers L D A.add (fun x y => return x + y) (fun x y => return x + y)
      (.error (.assert "false: invalid operation ${a} + ${b}")) a b

-- `operator -`. Strings have no operator of that name: they are converted into variants again, for
-- which the operator calls itself.
def sub : Nat → Variant → Variant → Except Error Variant
  | 0, _, _                      => .error .fuel
  | fuel + 1, array aa, array ba => arrays (sub fuel) (· - 1) aa ba fuel
  | fuel + 1, a, b               =>
    if a.isString ∨ b.isString then do
      let s ← converted (a.asString L)
      let t ← converted (b.asString L)
      sub fuel (.string s) (.string t)
    else numbers L D A.sub (fun x y => return x - y) (fun x y => return x - y)
      (.error (.assert "false: invalid operation ${a} + ${b}")) a b

-- `operator *`. The arrays come last.
def mul : Nat → Variant → Variant → Except Error Variant
  | 0, _, _        => .error .fuel
  | fuel + 1, a, b =>
    numbers L D A.mul (fun x y => return x * y) (fun x y => return x * y)
      (match a, b with
        | array aa, array ba => arrays (mul fuel) (· + 1) aa ba fuel
        | _, _               => .error (.assert "false: invalid operation ${a} * ${b}")) a b

def divInt64 (x y : Int64) : Except Error Int64 :=
  if y = 0 ∨ (x = Int64.minValue ∧ y = -1) then .error .divide else .ok (x / y)

def divUint64 (x y : UInt64) : Except Error UInt64 :=
  if y = 0 then .error .divide else .ok (x / y)

-- `operator /`.
def div : Nat → Variant → Variant → Except Error Variant
  | 0, _, _        => .error .fuel
  | fuel + 1, a, b =>
    numbers L D A.div divInt64 divUint64
      (match a, b with
        | array aa, array ba => arrays (div fuel) (· + 1) aa ba fuel
        | _, _               => .error (.assert "false: invalid operation ${a} / ${b}")) a b

inductive Operator
  | plus
  | minus
  | times
  | divide
deriving DecidableEq, Repr

def apply : Operator → Nat → Variant → Variant → Except Error Variant
  | .plus   => add L D A
  | .minus  => sub L D A
  | .times  => mul L D A
  | .divide => div L D A

def Operator.next : Operator → UInt32 → UInt32
  | .minus => (· - 1)
  | _      => (· + 1)

-- What is to be expected of the element `z` of the result at `i`.
def Combines (o : Operator) (aa ba : List Variant) (i : Nat) (z : Variant) : Prop :=
  match aa[i]?, ba[i]? with
  | some x, some y => ∃ fuel, apply L D A o fuel x y = .ok z
  | some x, none   => z = x
  | none, some y   => z = y
  | none, none     => False

-- What is to be expected of the operator on two arrays.
def Combined (o : Operator) (aa ba : List Variant) : Prop :=
  ∃ fuel r, apply L D A o fuel (array aa) (array ba) = .ok (array r) ∧ r.length = max aa.length ba.length ∧
    ∀ i z, r[i]? = some z → Combines L D A o aa ba i z

variable {L D A}

theorem apply_array (o : Operator) (fuel : Nat) (aa ba : List Variant) :
    apply L D A o (fuel + 1) (array aa) (array ba) = arrays (apply L D A o fuel) o.next aa ba fuel := by
  cases o
  case plus   => rw [apply, add]; rfl
  case minus  => rw [apply, sub]; rfl
  case times  => rw [apply, mul]; simp [numbers, isDouble, isInt64, isUint64]; rfl
  case divide => rw [apply, div]; simp [numbers, isDouble, isInt64, isUint64]; rfl

end Operators

section Rounds

variable {op : Variant → Variant → Except Error Variant} {next : UInt32 → UInt32}
    {aa ba result r : List Variant}
  {fuel : Nat}

-- There is no element to assign in a vector that memory was only reserved for.
theorem loop_reserved (h : 0 < max aa.length ba.length) : loop op next aa ba fuel 0 [] ≠ .ok r := by
  cases fuel
  case zero => intro h; cases h
  case succ fuel =>
    rw [loop, if_pos (by simpa using h)]
    cases element op aa ba (0 : UInt32).toNat
    case error e => intro h; cases h
    case ok x    => intro h; cases h

theorem loop_round {i : UInt32} {x : Variant} (hi : i.toNat < max aa.length ba.length)
    (hx : element op aa ba i.toNat = .ok x) (hl : result.length = max aa.length ba.length) :
    loop op next aa ba (fuel + 1) i result = loop op next aa ba fuel (next i) (result.set i.toNat x) := by
  rw [loop, if_pos hi, hx]
  change (assign result i.toNat x >>= fun result => loop op next aa ba fuel (next i) result) = _
  rw [assign, if_pos (hl ▸ hi)]
  rfl

theorem loop_end {i : UInt32} (hi : max aa.length ba.length ≤ i.toNat) :
    loop op next aa ba (fuel + 1) i result = .ok result := by
  rw [loop, if_neg (by omega)]
  rfl

-- A vector of the right size would be filled by the loop that counts up.
theorem loop_sized {n : Nat} {i : UInt32} (hmax : max aa.length ba.length < 2 ^ 32)
    (hn : i.toNat + n = max aa.length ba.length) (hl : result.length = max aa.length ba.length)
    (hr : r.length = max aa.length ba.length)
    (hop : ∀ i (hi : i < r.length), element op aa ba i = .ok r[i])
    (htake : result.take i.toNat = r.take i.toNat) :
    loop op (· + 1) aa ba (n + 1) i result = .ok r := by
  induction n generalizing i result
  case zero =>
    rw [loop_end (by omega)]
    rw [List.take_of_length_le (by omega), List.take_of_length_le (by omega)] at htake
    rw [htake]
  case succ n hi =>
    have hlt : i.toNat < r.length := by omega
    have hnext : (i + 1).toNat = i.toNat + 1 := by
      rw [UInt32.toNat_add]
      exact Nat.mod_eq_of_lt (show i.toNat + 1 < 2 ^ 32 by omega)
    rw [loop_round (by omega) (hop _ hlt) hl]
    refine hi (by omega) (by rw [List.length_set, hl]) ?_
    rw [hnext, List.take_add_one, List.take_add_one, List.take_set_of_le (Nat.le_refl _), htake,
      List.getElem?_set_self (by omega), List.getElem?_eq_getElem hlt]

-- The one that counts down ends after the first round, with nothing but the first element assigned.
theorem loop_down {x : Variant} (hpos : 0 < max aa.length ba.length)
    (hmax : max aa.length ba.length < 2 ^ 32)
    (hl : result.length = max aa.length ba.length) (hx : element op aa ba 0 = .ok x) :
    loop op (· - 1) aa ba (fuel + 2) 0 result = .ok (result.set 0 x) := by
  rw [loop_round (i := 0) hpos hx hl]
  exact loop_end (show max aa.length ba.length ≤ 2 ^ 32 - 1 by omega)

end Rounds

variable {L : LexicalCast} {D : Doubles} {A : DoubleOperators}

theorem not_combined {o : Operator} {aa ba : List Variant} (h : 0 < max aa.length ba.length) :
    ¬Combined L D A o aa ba := by
  intro ⟨fuel, r, hr, _, _⟩
  cases fuel
  case zero => cases o <;> simp [apply, add, sub, mul, div] at hr
  case succ fuel =>
    rw [apply_array, arrays] at hr
    cases hloop : loop (apply L D A o fuel) o.next aa ba fuel 0 []
    case error e => simp [hloop] at hr
    case ok r'   => exact loop_reserved h hloop

theorem combined_nil (o : Operator) : Combined L D A o [] [] := by
  refine ⟨2, [], ?_, rfl, ?_⟩
  case refine_1 => rw [apply_array]; rfl
  case refine_2 =>
    intro i z hz
    cases hz

-- The operators combine no arrays but two empty ones.
theorem combined_iff (o : Operator) (aa ba : List Variant) : Combined L D A o aa ba ↔ aa = [] ∧
    ba = [] := by
  constructor
  · intro hcombined
    by_contra h
    refine not_combined ?_ hcombined
    rw [lt_max_iff, List.length_pos_iff, List.length_pos_iff]
    exact Classical.not_and_iff_not_or_not.mp h
  · intro ⟨ha, hb⟩
    rw [ha, hb]
    exact combined_nil o

-- The difference of strings never ends.
theorem sub_string (s t : Bytes) (fuel : Nat) :
    sub L D A fuel (string s) (string t) = .error .fuel := by
  induction fuel
  case zero         => rfl
  case succ fuel hi => exact hi

-- One integer in each array: the integers have a sum, and the arrays do not.
theorem not_combined_integers :
    apply .decimal .unused .unused .plus 1 (int64 1) (int64 2) = .ok (int64 3) ∧
      ¬Combined .decimal .unused .unused .plus [int64 1] [int64 2] :=
  ⟨rfl, not_combined (by decide)⟩

end Variant.Arithmetic
