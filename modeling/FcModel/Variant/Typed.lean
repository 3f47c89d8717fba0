import FcModel.Lib.Traverse
import FcModel.Raw.Container
import FcModel.Variant.ByteVector
import FcModel.Variant.Object
import FcModel.Variant.StaticVariant

-- The overloads of `to_variant` and `from_variant`, one for each way to build a type.

namespace Typed

open Variant MutableVariantObject Raw

-- The types that are converted, indexed by the type of their values.
inductive Kind : Type → Type 1
  -- The integers of `n` bytes, which are given by their bits.
  | uint (n : Nat) (hn : n ≤ 8) : Kind (BitVec (8 * n))
  | int (n : Nat) (hn : n ≤ 8) : Kind (BitVec (8 * n))
  | bool : Kind Bool
  | string : Kind Bytes
  -- `std::vector<char>`.
  | bytes : Kind Bytes
  | vector {α : Type} (c : Kind α) : Kind (List α)
  | deque {α : Type} (c : Kind α) : Kind (List α)
  | set {α : Type} (l : Less α) (c : Kind α) : Kind (OrderedSet l)
  | map {κ α : Type} (l : Less κ) (k : Kind κ) (c : Kind α) :
      Kind (OrderedSet (l.fst : Less (κ × α)))
  | pair {α β : Type} (a : Kind α) (b : Kind β) : Kind (α × β)
  | array {α : Type} (n : Nat) (c : Kind α) : Kind (Fin n → α)
  | optional {α : Type} (c : Kind α) : Kind (Option α)
  -- `std::variant`. The template that selects an alternative counts them in an `int32_t`.
  | variant {n : Nat} (hn : n + 1 < 2 ^ 31) {δ : Fin (n + 1) → Type} (c : ∀ i, Kind (δ i)) :
      Kind (StaticVariant.StdVariant δ)
  -- A reflected struct: the names of its members, the members, the value its default constructor
  -- gives it, and its `reflector_init`, if it has one.
  | struct {n : Nat} {δ : Fin n → Type} (name : Fin n → Bytes) (c : ∀ i, Kind (δ i))
      (dflt : ∀ i, δ i) (init : Option ((∀ i, δ i) → Except Unit (∀ i, δ i))) : Kind (∀ i, δ i)

inductive Error
  | cast (e : CastError)
  -- `std::range_error( "too large" )`.
  | tooLarge
  -- `std::out_of_range`.
  | outOfRange
  | bytes (e : ByteVector.Error)
  -- The index of an alternative is out of range.
  | assert
  -- What `reflector_init` throws.
  | init

-- A value of the type that is default constructed.
def Kind.fresh : {α : Type} → Kind α → α
  | _, uint _ _         => 0
  | _, int _ _          => 0
  | _, bool             => false
  | _, string           => []
  | _, bytes            => []
  | _, vector _         => []
  | _, deque _          => []
  | _, set _ _          => .empty
  | _, map _ _ _        => .empty
  | _, pair a b         => (a.fresh, b.fresh)
  | _, array _ c        => fun _ => c.fresh
  | _, optional _       => none
  | _, variant _ c      => ⟨.first _, (c (.first _)).fresh⟩
  | _, struct _ _ dflt _ => dflt

def Kind.isOptional : {α : Type} → Kind α → Bool
  | _, optional _ => true
  | _, _          => false

-- An optional that has no value.
def Kind.isEmpty : {α : Type} → Kind α → α → Bool
  | _, optional _, none => true
  | _, _, _             => false

section ToVariant

variable {α : Type}

def elementsToVariant (f : α → Except Error Variant) (t : List α) : Except Error Variant :=
  if maxNumArrayElements < t.length then .error .tooLarge
  else do return .array (← t.mapM f)

def pairToVariant {β : Type} (f : α → Except Error Variant) (g : β → Except Error Variant)
    (t : α × β) : Except Error Variant := do
  let first ← f t.1
  let second ← g t.2
  return .array [first, second]

-- `to_variant_visitor::add`: nothing is added for an optional without a value.
def add (c : Kind α) (f : α → Except Error Variant) (vo : List Entry) (name : Bytes) (v : α) :
    Except Error (List Entry) :=
  if c.isEmpty v then .ok vo else do return set vo name (← f v)

end ToVariant

def toVariant : {α : Type} → Kind α → α → Except Error Variant
  | _, .uint _ _, v          => .ok (.uint64 (.ofBitVec (v.setWidth 64)))
  | _, .int _ _, v           => .ok (.int64 (.ofBitVec (v.signExtend 64)))
  | _, .bool, v              => .ok (.bool v)
  | _, .string, v            => .ok (.string v)
  | _, .bytes, v             => (ByteVector.stdToVariant v).mapError .bytes
  | _, .vector c, v          => elementsToVariant (toVariant c) v
  | _, .deque c, v           => elementsToVariant (toVariant c) v
  | _, .set _ c, v           => elementsToVariant (toVariant c) v.elems
  | _, .map _ k c, v         => elementsToVariant (pairToVariant (toVariant k) (toVariant c)) v.elems
  | _, .pair a b, v          => pairToVariant (toVariant a) (toVariant b) v
  | _, .array n c, v         => do return .array (← (List.ofFn v).mapM (toVariant c))
  | _, .optional _, none     => .ok .null
  | _, .optional c, some v   => toVariant c v
  | _, .variant _ c, v       => do return .array [.uint64 (.ofNat v.1), ← toVariant (c v.1) v.2]
  | _, .struct (n := n) name c _ _, v => do
    let vo ← (List.finRange n).foldlM
      (fun vo i => add (c i) (toVariant (c i)) vo (name i) (v i)) []
    return .object vo

section FromVariant

variable {α β ε : Type} (L : LexicalCast) (D : Doubles)

def liftCast : Except CastError α → Except Error α
  | .ok a    => .ok a
  | .error e => .error (.cast e)

def asBool : Variant → Except CastError Bool
  | .string s =>
    if s = ascii "true" then .ok true else if s = ascii "false" then .ok false else .error .badCast
  | .double d => .ok (!D.eq d D.zero)
  | .int64 v  => .ok (v ≠ 0)
  | .uint64 v => .ok (v ≠ 0)
  | .bool b   => .ok b
  | .null     => .ok false
  | _         => .error .badCast

def getObject : Variant → Except CastError (List Entry)
  | .object es => .ok es
  | _          => .error .badCast

-- What is left in the destination, if nothing is thrown.
def written : EStateM.Result ε α Unit → Except ε α
  | .ok _ d    => .ok d
  | .error e _ => .error e

def liftStatic : Except (StaticVariant.Error Error) α → Except Error α
  | .ok a                => .ok a
  | .error (.cast e)     => .error (.cast e)
  | .error .assert       => .error .assert
  | .error (.convert e)  => .error e

-- The elements are converted one after the other into new values.
def elementsFromVariant (f : Variant → Except Error α) (var : Variant) : Except Error (List α) := do
  let vars ← liftCast var.getArray
  if maxNumArrayElements < vars.length then .error .tooLarge else vars.mapM f

-- The components are converted where they are. Those that are missing stay as they were.
def pairFromVariant (f : α → Variant → Except Error α) (g : β → Variant → Except Error β)
    (p : α × β)
    (v : Variant) : Except Error (α × β) := do
  match ← liftCast v.getArray with
  | []          => return p
  | [x]         => return (← f p.1 x, p.2)
  | x :: y :: _ => do
    let first ← f p.1 x
    let second ← g p.2 y
    return (first, second)

def arrayFromVariant (n : Nat) (f : Variant → Except Error α) (var : Variant) :
    Except Error (Fin n → α) := do
  let vars ← liftCast var.getArray
  .pi fun i => match vars[i.val]? with
    | some v => f v
    | none   => .error .outOfRange

-- `from_variant_visitor`: a member that has no entry stays as it was.
def memberFromVariant (f : α → Variant → Except Error α) (vo : List Entry) (name : Bytes) (d : α) :
    Except Error α :=
  match VariantObject.find vo name with
  | some v => f d v
  | none   => .ok d

def runInit {n : Nat} {δ : Fin n → Type} (init : Option ((∀ i, δ i) → Except Unit (∀ i, δ i)))
    (v : ∀ i, δ i) : Except Error (∀ i, δ i) :=
  match init with
  | none   => .ok v
  | some f => (f v).mapError fun _ => .init

end FromVariant

-- `fromVariant L D c d var` converts `var` into a destination that holds `d`.
def fromVariant (L : LexicalCast) (D : Doubles) : {α : Type} → Kind α → α → Variant → Except Error α
  | _, .uint _ _, _, var  => do return (← liftCast (var.asUint64 L D)).toBitVec.setWidth _
  | _, .int _ _, _, var   => do return (← liftCast (var.asInt64 L D)).toBitVec.setWidth _
  | _, .bool, _, var      => liftCast (asBool D var)
  | _, .string, _, var    => liftCast (var.asString L)
  | _, .bytes, d, var     => (written ((ByteVector.stdFromVariant var).run d)).mapError .bytes
  | _, .vector c, _, var  => elementsFromVariant (fromVariant L D c c.fresh) var
  | _, .deque c, _, var   => elementsFromVariant (fromVariant L D c c.fresh) var
  | _, .set _ c, _, var   => do
    return (← elementsFromVariant (fromVariant L D c c.fresh) var).foldl OrderedSet.insert .empty
  | _, .map _ k c, _, var => do
    let es ← elementsFromVariant
      (pairFromVariant (fromVariant L D k) (fromVariant L D c) (k.fresh, c.fresh)) var
    return es.foldl OrderedSet.insert .empty
  | _, .pair a b, d, var  => pairFromVariant (fromVariant L D a) (fromVariant L D b) d var
  | _, .array n c, _, var => arrayFromVariant n (fromVariant L D c c.fresh) var
  | _, .optional c, _, var =>
    match var with
    | .null => .ok none
    | var   => do return some (← fromVariant L D c c.fresh var)
  | _, .variant _ c, d, var =>
    liftStatic (written ((StaticVariant.fromVariant L D (fun i => {
      initial     := (c i).fresh
      toVariant   := fun v => (toVariant (c i) v).toOption.getD .null
      fromVariant := fun x v => fromVariant L D (c i) v x }) var).run d))
  | _, .struct name c _ init, d, var => do
    let vo ← liftCast (getObject var)
    let v ← .pi fun i => memberFromVariant (fromVariant L D (c i)) vo (name i) (d i)
    runInit init v

section Lemmas

variable {L : LexicalCast} {D : Doubles} {α : Type} {c : Kind α}

theorem toVariant_optional {v : α} : toVariant (.optional c) (some v) = toVariant c v := by
  rw [toVariant]

theorem fromVariant_optional {d : Option α} {var : Variant} (h : var ≠ .null) :
    fromVariant L D (.optional c) d var = do return some (← fromVariant L D c c.fresh var) := by
  rw [fromVariant]
  exact h

theorem Kind.eq_of_isEmpty {c : Kind α} {v w : α} (hv : c.isEmpty v) (hw : c.isEmpty w) :
    v = w := by
  cases c
  case optional =>
    cases v
    case some => cases hv
    case none =>
      cases w
      case some => cases hw
      case none => rfl
  all_goals cases hv

theorem Kind.isOptional_of_isEmpty {v : α} (h : c.isEmpty v) : c.isOptional := by
  cases c
  case optional => rfl
  all_goals cases h

end Lemmas

-- `variant::as`.
def as {α : Type} (L : LexicalCast) (D : Doubles) (c : Kind α) (var : Variant) : Except Error α :=
  fromVariant L D c c.fresh var

end Typed
