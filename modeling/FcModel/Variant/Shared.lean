import FcModel.Variant.Object
import FcModel.Lib.Machine

-- `fc::variant`, `fc::variant_object` and `fc::mutable_variant_object` in memory, where copies of
-- an object share a vector of entries.

namespace Shared

open MutableVariantObject

inductive Scalar
  | null
  | int64 (v : Int64)
  | uint64 (v : UInt64)
  | double (bits : UInt64)
  | bool (b : Bool)
  | string (s : Bytes)
  | blob (data : Bytes)
deriving DecidableEq

def Scalar.toVariant : Scalar → Variant
  | null       => .null
  | int64 v    => .int64 v
  | uint64 v   => .uint64 v
  | double v   => .double v
  | bool b     => .bool b
  | string s   => .string s
  | blob data  => .blob data

-- A variant as it is stored. A variant with an object has a `variant_object` of its own, and that
-- is a pointer to a vector.
inductive Cell
  | scalar (v : Scalar)
  | array (cs : List Cell)
  | object (keyValue : Nat)

inductive Var (ν : Type)
  | variant (name : ν)
  | object (name : ν)
  | mutable (name : ν)
deriving DecidableEq

namespace Var

variable {ν : Type}

-- What is stored in a variable. The pointer of an object can be null.
abbrev Content : Var ν → Type
  | variant _            => Cell
  | object _ | mutable _ => Option Nat

def cell : (x : Var ν) → x.Content → Cell
  | variant _, c            => c
  | object _, h | mutable _, h => h.elim (.scalar .null) .object

-- The content that points to a vector.
def pointer : (x : Var ν) → Nat → x.Content
  | variant _, l            => Cell.object l
  | object _, l | mutable _, l => some l

@[simp]
theorem cell_pointer (x : Var ν) (l : Nat) : x.cell (x.pointer l) = .object l := by
  cases x <;> rfl

end Var

-- The vectors at the addresses below `next` have been allocated.
structure Store (ν : Type) where
  heap : Nat → List (Bytes × Cell)
  next : Nat
  vars : (x : Var ν) → x.Content

-- A null pointer is followed, an assertion fails, a variant is no object, there is no entry with a
-- key.
inductive Error
  | access
  | assertion
  | badCast
  | keyNotFound
deriving DecidableEq, Repr

-- A `const variant_object&`: a variable, or `get_object` of a variant.
inductive ObjectRef (ν : Type)
  | object (x : ν)
  | variant (v : ν)

-- A `const variant&`: a variable, or the value of an entry.
inductive VariantRef (ν : Type)
  | variant (v : ν)
  | entry (o : ObjectRef ν) (key : Bytes)

-- What a parameter of type `variant` is made from.
inductive Argument (ν : Type)
  | copy (r : VariantRef ν)
  | move (v : ν)

namespace Store

variable {ν : Type} [DecidableEq ν] (s : Store ν)

abbrev cell (x : Var ν) : Cell :=
  x.cell (s.vars x)

def assign (x : Var ν) (c : x.Content) : Store ν :=
  { s with vars := Function.update s.vars x c }

def alloc (es : List (Bytes × Cell)) : Store ν :=
  { s with heap := Function.update s.heap s.next es, next := s.next + 1 }

def write (l : Nat) (es : List (Bytes × Cell)) : Store ν :=
  { s with heap := Function.update s.heap l es }

-- The variable points to a new vector.
def assignNew (x : Var ν) (es : List (Bytes × Cell)) : Store ν :=
  (s.alloc es).assign x (x.pointer s.next)

def keyValue : ObjectRef ν → Except Error (Option Nat)
  | .object x  => return s.vars (.object x)
  | .variant v =>
    match s.vars (.variant v) with
    | .object l => return some l
    | _         => throw .badCast

def follow (e : Error) : Option Nat → Except Error Nat
  | some l => return l
  | none   => throw e

def lookup : VariantRef ν → Except Error Cell
  | .variant v   => return s.vars (.variant v)
  | .entry o key => do
    let l ← follow .assertion (← s.keyValue o)
    match VariantObject.find (s.heap l) key with
    | some c => return c
    | none   => throw .keyNotFound

def argument : Argument ν → Except Error (Cell × Store ν)
  | .copy r => return (← s.lookup r, s)
  | .move v => return (s.vars (.variant v), s.assign (.variant v) (.scalar .null))

end Store

-- The constructors, the assignments and the operations that change an object. Where an assignment
-- does what the constructor does, there is one operation for both. The functions that change a
-- temporary object and return it are those that change a variable, followed by a move.
inductive Operation (ν : Type)
  | variantNew (x : ν) (v : Scalar)
  | variantOfObject (x : ν) (o : ObjectRef ν)
  | variantOfObjectMove (x y : ν)
  | variantOfMutable (x m : ν)
  | variantOfMutableMove (x m : ν)
  | variantOfVariants (x : ν) (ys : List ν)
  | variantCopy (x : ν) (r : VariantRef ν)
  | variantMove (x y : ν)
  | objectNew (x : ν)
  | objectOf (x : ν) (key : Bytes) (val : Argument ν)
  | objectCopy (x : ν) (o : ObjectRef ν)
  | objectMove (x y : ν)
  | objectOfMutable (x m : ν)
  | objectOfMutableMove (x m : ν)
  | objectAssign (x : ν) (o : ObjectRef ν)
  | objectAssignMove (x y : ν)
  | objectAssignMutable (x m : ν)
  | objectAssignMutableMove (x m : ν)
  | mutableNew (m : ν)
  | mutableOf (m : ν) (key : Bytes) (val : Argument ν)
  | mutableOfObject (m : ν) (o : ObjectRef ν)
  | mutableCopy (m n : ν)
  | mutableMove (m n : ν)
  | mutableAssignObject (m : ν) (o : ObjectRef ν)
  | mutableAssign (m n : ν)
  | set (m : ν) (key : Bytes) (var : Argument ν)
  | append (m : ν) (key : Bytes) (var : Argument ν)
  | assignAt (m : ν) (key : Bytes) (var : Argument ν)
  | merge (m : ν) (o : ObjectRef ν)
  | mergeMutable (m n : ν)
  | erase (m : ν) (key : Bytes)

-- The variables that are a destination of the operation or a source that is moved from.
def Operation.touched {ν : Type} : Operation ν → List (Var ν)
  | variantNew x _ | variantOfObject x _ | variantOfMutable x _ | variantOfVariants x _ | variantCopy x _ =>
    [.variant x]
  | variantOfObjectMove x y                                => [.variant x, .object y]
  | variantOfMutableMove x m                               => [.variant x, .mutable m]
  | variantMove x y                                        => [.variant x, .variant y]
  | objectNew x | objectCopy x _ | objectOfMutable x _ | objectAssign x _ | objectAssignMutable x _ =>
    [.object x]
  | objectOf x _ val                                       => .object x :: moved val
  | objectMove x y | objectAssignMove x y                  => [.object x, .object y]
  | objectOfMutableMove x m | objectAssignMutableMove x m  => [.object x, .mutable m]
  | mutableNew m | mutableOfObject m _ | mutableCopy m _ | mutableAssignObject m _ | mutableAssign m _
  | merge m _ | mergeMutable m _ | erase m _               => [.mutable m]
  | mutableMove m n                                        => [.mutable m, .mutable n]
  | mutableOf m _ var | set m _ var | append m _ var | assignAt m _ var => .mutable m :: moved var
where
  moved : Argument ν → List (Var ν)
    | .copy _ => []
    | .move v => [.variant v]

namespace Store

variable {ν : Type} [DecidableEq ν] (s : Store ν)

-- `mutable_variant_object` edits its own vector.
def edit (m : ν) (f : List (Bytes × Cell) → List (Bytes × Cell)) : Except Error (Store ν) := do
  let l ← follow .access (s.vars (.mutable m))
  return s.write l (f (s.heap l))

def swap (x y : ν) : Store ν :=
  (s.assign (.object x) (s.vars (.object y))).assign (.object y) (s.vars (.object x))

-- What an operation does if it succeeds. A parameter that is not a reference is a copy or has been
-- moved.
def update : Operation ν → Except Error (Store ν)
  | .variantNew x v           => return s.assign (.variant x) (.scalar v)
  | .variantOfObject x o      => do
    let l ← follow .assertion (← s.keyValue o)
    return s.assign (.variant x) (.object l)
  | .variantOfObjectMove x y  => do
    let l ← follow .assertion (s.vars (.object y))
    return (s.assignNew (.object y) []).assign (.variant x) (.object l)
  | .variantOfMutable x m     => do
    let l ← follow .access (s.vars (.mutable m))
    return s.assignNew (.variant x) (s.heap l)
  | .variantOfMutableMove x m => do
    let l ← follow .assertion (s.vars (.mutable m))
    return (s.assign (.mutable m) none).assign (.variant x) (.object l)
  | .variantOfVariants x ys   => return s.assign (.variant x) (.array (ys.map fun y => s.vars (.variant y)))
  | .variantCopy x r          => return s.assign (.variant x) (← s.lookup r)
  | .variantMove x y          =>
    return (s.assign (.variant y) (.scalar .null)).assign (.variant x) (s.vars (.variant y))
  | .objectNew x              => return s.assignNew (.object x) []
  | .objectOf x key val       => do
    let (c, s) ← s.argument val
    return s.assignNew (.object x) [(key, c)]
  | .objectCopy x o           => do
    let l ← follow .assertion (← s.keyValue o)
    return s.assign (.object x) (some l)
  | .objectMove x y           => do
    let l ← follow .assertion (s.vars (.object y))
    return (s.assignNew (.object y) []).assign (.object x) (some l)
  | .objectOfMutable x m      => do
    let l ← follow .access (s.vars (.mutable m))
    return s.assignNew (.object x) (s.heap l)
  | .objectOfMutableMove x m  => do
    let l ← follow .assertion (s.vars (.mutable m))
    return (s.assign (.mutable m) none).assign (.object x) (some l)
  | .objectAssign x o         => return s.assign (.object x) (← s.keyValue o)
  | .objectAssignMove x y     => do
    if x = y then return s
    else
      let _ ← follow .assertion (s.vars (.object y))
      return s.swap x y
  | .objectAssignMutable x m  => do
    let l ← follow .access (s.vars (.mutable m))
    let l' ← follow .access (s.vars (.object x))
    return s.write l' (s.heap l)
  | .objectAssignMutableMove x m =>
    return ((s.assign (.mutable m) none).assign (.object x) (s.vars (.mutable m))).assignNew (.mutable m) []
  | .mutableNew m             => return s.assignNew (.mutable m) []
  | .mutableOf m key val      => do
    let (c, s) ← s.argument val
    return s.assignNew (.mutable m) [(key, c)]
  | .mutableOfObject m o      => do
    let l ← follow .access (← s.keyValue o)
    return s.assignNew (.mutable m) (s.heap l)
  | .mutableCopy m n          => do
    let l ← follow .access (s.vars (.mutable n))
    return s.assignNew (.mutable m) (s.heap l)
  | .mutableMove m n          => return (s.assign (.mutable n) none).assign (.mutable m) (s.vars (.mutable n))
  | .mutableAssignObject m o  => do
    let l ← follow .access (← s.keyValue o)
    s.edit m fun _ => s.heap l
  | .mutableAssign m n        => do
    if m = n then return s
    else
      let l ← follow .access (s.vars (.mutable n))
      s.edit m fun _ => s.heap l
  | .set m key var            => do
    let (c, s) ← s.argument var
    s.edit m fun es => MutableVariantObject.set es key c
  | .append m key var         => do
    let (c, s) ← s.argument var
    s.edit m fun es => es ++ [(key, c)]
  | .assignAt m key var       => do
    let (c, s) ← s.argument var
    s.edit m fun es => MutableVariantObject.assignAt es key c
  | .merge m o                => do
    let l ← follow .assertion (← s.keyValue o)
    if s.heap l = [] then return s else s.edit m fun es => MutableVariantObject.merge es (s.heap l)
  | .mergeMutable m n         => do
    if m = n then return s
    else
      let l ← follow .access (s.vars (.mutable n))
      if s.heap l = [] then return s else s.edit m fun es => MutableVariantObject.merge es (s.heap l)
  | .erase m key              => s.edit m fun es => MutableVariantObject.erase es key

-- What is left by an operation that throws. Some assertions come after the pointers have been
-- moved.
def left : Operation ν → Store ν
  | .variantOfObjectMove _ y | .objectMove _ y => s.assignNew (.object y) []
  | .objectAssignMove x y                      => s.swap x y
  | _                                          => s

end Store

def step {ν : Type} [DecidableEq ν] (op : Operation ν) : EStateM Error (Store ν) Unit := fun s =>
  match s.update op with
  | .ok s'   => .ok () s'
  | .error e => .error e (s.left op)

-- Nothing has been constructed.
def init (ν : Type) : Store ν where
  heap := fun _ => []
  next := 0
  vars := fun
    | .variant _ => Cell.scalar .null
    | .object _ | .mutable _ => none

end Shared
