import FcModel.Variant.Basic

-- The decoder of `utf8/core.h`, and the functions of `fc/utf8.hpp` that are built on it.

namespace Utf8

inductive UtfError
  | notEnoughRoom
  | invalidLead
  | incompleteSequence
  | overlongSequence
  | invalidCodePoint
deriving DecidableEq, Repr

def isTrail (oc : UInt8) : Bool :=
  oc >>> 6 = 0x2

def isSurrogate (cp : UInt32) : Bool :=
  0xd800 ≤ cp ∧ cp ≤ 0xdfff

def isCodePointValid (cp : UInt32) : Bool :=
  cp ≤ 0x0010ffff ∧ !isSurrogate cp

def sequenceLength (lead : UInt8) : Nat :=
  if lead < 0x80 then 1
  else if lead >>> 5 = 0x6 then 2
  else if lead >>> 4 = 0xe then 3
  else if lead >>> 3 = 0x1e then 4
  else 0

def isOverlongSequence (cp : UInt32) (length : Nat) : Bool :=
  if cp < 0x80 then length ≠ 1
  else if cp < 0x800 then length ≠ 2
  else if cp < 0x10000 then length ≠ 3
  else false

-- A string is given by the octets from the iterator on.
abbrev Decoded := Except UtfError (UInt32 × Bytes)

-- Moves on to the next octet, which has to be a trail octet.
def increaseSafely : Bytes → Except UtfError (UInt8 × Bytes)
  | []      => .error .notEnoughRoom
  | b :: it => if isTrail b then .ok (b, it) else .error .incompleteSequence

-- The bits of an octet, moved to where they belong in the code point.
def bits (oc : UInt8) (shift mask : UInt32) : UInt32 :=
  (oc.toUInt32 <<< shift) &&& mask

def getSequence2 (lead : UInt8) (it : Bytes) : Decoded := do
  let (b, it) ← increaseSafely it
  return (bits lead 6 0x7ff + bits b 0 0x3f, it)

def getSequence3 (lead : UInt8) (it : Bytes) : Decoded := do
  let (b, it) ← increaseSafely it
  let (c, it) ← increaseSafely it
  return (bits lead 12 0xffff + bits b 6 0xfff + bits c 0 0x3f, it)

def getSequence4 (lead : UInt8) (it : Bytes) : Decoded := do
  let (b, it) ← increaseSafely it
  let (c, it) ← increaseSafely it
  let (d, it) ← increaseSafely it
  return (bits lead 18 0x1fffff + bits b 12 0x3ffff + bits c 6 0xfff + bits d 0 0x3f, it)

def getSequence (length : Nat) (lead : UInt8) (it : Bytes) : Decoded :=
  match length with
  | 1 => .ok (lead.toUInt32, it)
  | 2 => getSequence2 lead it
  | 3 => getSequence3 lead it
  | 4 => getSequence4 lead it
  | _ => .error .invalidLead

-- When the sequence is not valid, the iterator stays where it was.
def validateNext : Bytes → Decoded
  | []         => .error .notEnoughRoom
  | lead :: it => do
    let length := sequenceLength lead
    let (cp, it) ← getSequence length lead it
    if isCodePointValid cp then
      if isOverlongSequence cp length then .error .overlongSequence else .ok (cp, it)
    else
      .error .invalidCodePoint

-- The octets from the first one on that is not valid, or from the first code point in the range on,
-- and that code point. Every round consumes an octet.
def findInvalid.go (first last : UInt32) : Nat → Bytes → Bytes × Option UInt32
  | 0, result        => (result, none)
  | fuel + 1, result =>
    if result = [] then (result, none)
    else
      match validateNext result with
      | .error _        => (result, none)
      | .ok (value, it) => if first ≤ value ∧ value ≤ last then (result, some value) else go first last fuel it

def findInvalid (start : Bytes) (first last : UInt32) : Bytes × Option UInt32 :=
  findInvalid.go first last start.length start

def isValidUtf8 (str : Bytes) : Bool :=
  (findInvalid str 0x80 0x9f).1 = []

def hexDigit (v : Nat) : UInt8 :=
  if v < 10 then .ofNat (0x30 + v) else .ofNat (0x61 + (v - 10))

-- `\u00` and two digits.
def escape (v : Nat) : Bytes :=
  [0x5c, 0x75, 0x30, 0x30, hexDigit (v / 16), hexDigit (v % 16)]

-- What precedes the iterator is kept, and the code point at it is escaped if it has a value.
def pruned (start itr : Bytes) (v : Option UInt32) : Bytes :=
  start.take (start.length - itr.length) ++ (v.map fun v => escape v.toNat).getD []

-- The loop skips a single octet whatever it has stopped at.
def pruneInvalidUtf8.go : Nat → (result itr : Bytes) → Bytes
  | 0, result, _          => result
  | fuel + 1, result, itr =>
    match itr with
    | []         => result
    | _ :: start =>
      let (itr, v) := findInvalid start 0x80 0x9f
      go fuel (result ++ pruned start itr v) itr

def pruneInvalidUtf8 (str : Bytes) : Bytes :=
  let (itr, v) := findInvalid str 0x80 0x9f
  if itr = [] then str else pruneInvalidUtf8.go (str.length + 1) (pruned str itr v) itr

end Utf8
