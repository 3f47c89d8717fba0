import Mathlib

-- `fc::uint128`: two halves of 64 bits.

@[ext]
structure Uint128 where
  hi : UInt64
  lo : UInt64
deriving DecidableEq, Repr

namespace Uint128

-- The conversions from integers. A negative one is extended by its sign.
def ofUInt64 (l : UInt64) : Uint128 :=
  ⟨0, l⟩

def ofInt64 (l : Int64) : Uint128 :=
  ⟨if l < 0 then -1 else 0, l.toUInt64⟩

def eq (a o : Uint128) : Bool :=
  a.hi == o.hi && a.lo == o.lo

def lt (a o : Uint128) : Bool :=
  if a.hi == o.hi then a.lo < o.lo else a.hi < o.hi

def gt (l r : Uint128) : Bool :=
  r.lt l

def ge (l r : Uint128) : Bool :=
  l.eq r || l.gt r

def le (l r : Uint128) : Bool :=
  l.eq r || l.lt r

-- The operators `++` and `--`.
def inc (a : Uint128) : Uint128 :=
  let lo := a.lo + 1
  ⟨a.hi + (if lo = 0 then 1 else 0), lo⟩

def dec (a : Uint128) : Uint128 :=
  ⟨a.hi - (if a.lo = 0 then 1 else 0), a.lo - 1⟩

def complement (a : Uint128) : Uint128 :=
  ⟨~~~a.hi, ~~~a.lo⟩

def neg (a : Uint128) : Uint128 :=
  inc ⟨~~~a.hi, ~~~a.lo⟩

-- `FC_ASSERT` throws.
def toInteger (a : Uint128) : Except Unit UInt32 :=
  if a.hi = 0 then
    if a.lo = a.lo.toUInt32.toUInt64 then .ok a.lo.toUInt32 else .error ()
  else .error ()

-- The compound assignments change an object while they read their operand, which is a reference to
-- an object, maybe the same, or a temporary.
inductive Operand (ν : Type)
  | object (x : ν)
  | value (v : Uint128)

abbrev Action (ν : Type) := EStateM Unit (ν → Uint128)

variable {ν : Type}

def Operand.read (s : ν → Uint128) : Operand ν → Uint128
  | object x => s x
  | value v  => v

section Assignments

variable [DecidableEq ν] (this : ν)

def load (u : Operand ν) : Action ν Uint128 := do
  return u.read (← get)

def setHi (hi : UInt64) : Action ν Unit :=
  modify fun s => Function.update s this { s this with hi }

def setLo (lo : UInt64) : Action ν Unit :=
  modify fun s => Function.update s this { s this with lo }

def orAssign (u : Operand ν) : Action ν Unit := do
  setHi this ((← load (.object this)).hi ||| (← load u).hi)
  setLo this ((← load (.object this)).lo ||| (← load u).lo)

def andAssign (u : Operand ν) : Action ν Unit := do
  setHi this ((← load (.object this)).hi &&& (← load u).hi)
  setLo this ((← load (.object this)).lo &&& (← load u).lo)

def xorAssign (u : Operand ν) : Action ν Unit := do
  setHi this ((← load (.object this)).hi ^^^ (← load u).hi)
  setLo this ((← load (.object this)).lo ^^^ (← load u).lo)

def addAssign (u : Operand ν) : Action ν Unit := do
  let old := (← load (.object this)).lo
  setLo this ((← load (.object this)).lo + (← load u).lo)
  let carry := if (← load (.object this)).lo < old then 1 else 0
  setHi this ((← load (.object this)).hi + ((← load u).hi + carry))

def subAssign (u : Operand ν) : Action ν Unit := do
  addAssign this (.value (neg (← load u)))

-- What both shifts do first: the amount, or nothing when all bits are shifted out.
def shiftAmount (rhs : Operand ν) : Action ν (Option UInt32) := do
  if ge (← load rhs) (ofInt64 128) then
    setHi this 0
    setLo this 0
    return none
  else
    match toInteger (← load rhs) with
    | .ok n    => return some n
    | .error e => throw e

-- The shift of both halves by less than the size of a half.
def shlHalves (n : UInt32) : Action ν Unit := do
  if n ≠ 0 then
    setHi this ((← load (.object this)).hi <<< n.toUInt64)
    let mask : UInt64 := ~~~((-1) >>> n.toUInt64)
    setHi this ((← load (.object this)).hi ||| ((← load (.object this)).lo &&& mask) >>> (64 - n).toUInt64)
    setLo this ((← load (.object this)).lo <<< n.toUInt64)

def shlAssign (rhs : Operand ν) : Action ν Unit := do
  match ← shiftAmount this rhs with
  | none   => return ()
  | some n =>
    let mut n := n
    if 64 ≤ n then
      n := n - 64
      setHi this (← load (.object this)).lo
      setLo this 0
    shlHalves this n

def shrHalves (n : UInt32) : Action ν Unit := do
  if n ≠ 0 then
    setLo this ((← load (.object this)).lo >>> n.toUInt64)
    let mask : UInt64 := ~~~((-1) <<< n.toUInt64)
    setLo this ((← load (.object this)).lo ||| ((← load (.object this)).hi &&& mask) <<< (64 - n).toUInt64)
    setHi this ((← load (.object this)).hi >>> n.toUInt64)

def shrAssign (rhs : Operand ν) : Action ν Unit := do
  match ← shiftAmount this rhs with
  | none   => return ()
  | some n =>
    let mut n := n
    if 64 ≤ n then
      n := n - 64
      setLo this (← load (.object this)).hi
      setHi this 0
    shrHalves this n

-- The four limbs of 32 bits.
structure Limbs where
  l0 : UInt64
  l1 : UInt64
  l2 : UInt64
  l3 : UInt64

def limbs (a : Uint128) : Limbs where
  l0 := a.lo.toUInt32.toUInt64
  l1 := (a.lo >>> 0x20).toUInt32.toUInt64
  l2 := a.hi.toUInt32.toUInt64
  l3 := (a.hi >>> 0x20).toUInt32.toUInt64

-- The products of limbs, where all other ones have no part in the result.
def mulLimbs (a b : Limbs) : Action ν Unit := do
  setHi this 0
  setLo this (a.l3 * b.l0)
  addAssign this (.value (ofUInt64 (a.l2 * b.l1)))
  addAssign this (.value (ofUInt64 (a.l1 * b.l2)))
  addAssign this (.value (ofUInt64 (a.l0 * b.l3)))
  shlAssign this (.value (ofInt64 0x20))
  addAssign this (.value (ofUInt64 (a.l2 * b.l0)))
  addAssign this (.value (ofUInt64 (a.l1 * b.l1)))
  addAssign this (.value (ofUInt64 (a.l0 * b.l2)))
  shlAssign this (.value (ofInt64 0x20))
  addAssign this (.value (ofUInt64 (a.l1 * b.l0)))
  addAssign this (.value (ofUInt64 (a.l0 * b.l1)))
  shlAssign this (.value (ofInt64 0x20))
  addAssign this (.value (ofUInt64 (a.l0 * b.l0)))

def mulAssign (b : Operand ν) : Action ν Unit := do
  let a := limbs (← load (.object this))
  let b := limbs (← load b)
  mulLimbs this a b

end Assignments

-- A compound assignment, for objects of any number.
abbrev Assignment := ∀ (ν : Type) [DecidableEq ν], ν → Operand ν → Action ν Unit

-- The operator of two operands copies the first one and assigns to the copy.
def binary (op : Assignment) (l r : Uint128) : Except Unit Uint128 :=
  match (op Unit () (.value r)).run fun _ => l with
  | .ok _ s    => .ok (s ())
  | .error e _ => .error e

end Uint128
