import FcModel.Raw.Container
import FcModel.Raw.Variant

-- The overloads of `fc::raw::pack` and `fc::raw::unpack`, one for each way to build a type.

namespace Raw

open MutableVariantObject

-- The types that can be packed, indexed by the type of their values. Integers, enumerations and
-- `signed_int` are given by their bits.
inductive Codec : Type → Type 1
  | int (n : Nat) : Codec (BitVec (8 * n))
  | bool : Codec Bool
  | unsignedInt : Codec UInt32
  | signedInt : Codec (BitVec 32)
  | string : Codec Bytes
  | bytes : Codec Bytes
  -- An enumeration whose underlying type has `n` bytes.
  | enum (n : Nat) (hn : n ≤ 8) (signed : Bool) : Codec (BitVec (8 * n))
  | vector {α : Type} (c : Codec α) : Codec (List α)
  | deque {α : Type} (c : Codec α) : Codec (List α)
  | list {α : Type} (c : Codec α) : Codec (List α)
  | set {α : Type} (l : Less α) (c : Codec α) : Codec (OrderedSet l)
  | map {κ α : Type} (l : Less κ) (k : Codec κ) (c : Codec α) : 
      Codec (OrderedSet (l.fst : Less (κ × α)))
  | unorderedSet {α : Type} (eq : DecidableEq α) (t : Traversal α) (c : Codec α) :
      Codec (HashSet (id : α → α))
  | unorderedMap {κ α : Type} (eq : DecidableEq κ) (t : Traversal (κ × α)) (k : Codec κ) (c : Codec α) :
      Codec (HashSet (Prod.fst : κ × α → κ))
  | pair {α β : Type} (a : Codec α) (b : Codec β) : Codec (α × β)
  -- `std::array` and `fc::array`, of scalars and of anything else.
  | scalarArray {α : Type} (n : Nat) (s : Scalar α) : Codec (Fin n → α)
  | array {α : Type} (n : Nat) (c : Codec α) : Codec (Fin n → α)
  -- `T[N]`.
  | cArray {α : Type} (n : Nat) (hn : n < 2 ^ 32) (c : Codec α) : Codec (Fin n → α)
  | optional {α : Type} (c : Codec α) : Codec (Option α)
  | sharedPtr {α : Type} (c : Codec α) : Codec (Option α)
  -- `std::variant`. The template that selects an alternative counts them in an `int32_t`.
  | variant {n : Nat} (hn : n < 2 ^ 31) {δ : Fin (n + 1) → Type} (c : ∀ i, Codec (δ i)) :
      Codec (Σ i, δ i)
  -- A reflected struct: its members, the value its default constructor gives it, and its
  -- `reflector_init`, if it has one.
  | struct {n : Nat} {δ : Fin n → Type} (c : ∀ i, Codec (δ i)) (dflt : ∀ i, δ i)
      (init : Option ((∀ i, δ i) → Except Unit (∀ i, δ i))) : Codec (∀ i, δ i)
  | fcVariant : Codec Variant
  | variantObject : Codec (List Entry)
  -- A `fixed_string` whose storage has `n + 1` bytes.
  | fixedString (n : Nat) : Codec (Vector UInt8 (n + 1))

namespace Codec

variable {α : Type}

-- A value of the type that is default constructed.
def fresh : {α : Type} → Codec α → α
  | _, int _            => 0
  | _, bool             => false
  | _, unsignedInt      => 0
  | _, signedInt        => 0
  | _, string           => []
  | _, bytes            => []
  | _, enum _ _ _       => 0
  | _, vector _         => []
  | _, deque _          => []
  | _, list _           => []
  | _, set _ _          => .empty
  | _, map _ _ _        => .empty
  | _, unorderedSet _ _ _ => .empty
  | _, unorderedMap _ _ _ _ => .empty
  | _, pair a b         => (a.fresh, b.fresh)
  | _, scalarArray _ s  => fun _ => s.zero
  | _, array _ c        => fun _ => c.fresh
  | _, cArray _ _ c     => fun _ => c.fresh
  | _, optional _       => none
  | _, sharedPtr _      => none
  | _, variant _ c      => ⟨.first _, (c (.first _)).fresh⟩
  | _, struct _ dflt _  => dflt
  | _, fcVariant        => .null
  | _, variantObject    => []
  | _, fixedString n    => .replicate (n + 1) 0

end Codec

-- The cast of an enumeration to `int64_t`, and back.
def enumToInt64 {n : Nat} (signed : Bool) (v : BitVec (8 * n)) : BitVec (8 * 8) :=
  if signed then v.signExtend _ else v.setWidth _

-- The containers write their size and then their elements.
def packSequence {α : Type} (f : α → Packer) (value : List α) : Packer :=
  .guard (value.length ≤ maxNumArrayElements) .assert ++
    (packUnsignedInt (.ofNat value.length) ++ .each f value)

def packOptional {α : Type} (f : α → Packer) : Option α → Packer
  | none   => packBool false
  | some v => packBool true ++ f v

-- `fixed_string::size`.
def fixedStringSize {n : Nat} (v : Vector UInt8 (n + 1)) : Nat :=
  if v.get (.last n) ≠ 0 then n + 1 else (v.toList.takeWhile (· ≠ 0)).length

def packFixedString {n : Nat} (v : Vector UInt8 (n + 1)) : Packer :=
  packUnsignedInt (.ofNat (fixedStringSize v)) ++
    .write (v.toList.take (UInt32.ofNat (fixedStringSize v)).toNat) .done

def pack : {α : Type} → Codec α → α → Packer
  | _, .int _, v              => packInt v
  | _, .bool, v               => packBool v
  | _, .unsignedInt, v        => packUnsignedInt v
  | _, .signedInt, v          => packSignedInt v
  | _, .string, v             => packBytes v
  | _, .bytes, v              => packBytes v
  | _, .enum _ _ signed, v    => packInt (enumToInt64 signed v)
  | _, .vector c, v           => packSequence (pack c) v
  | _, .deque c, v            => packSequence (pack c) v
  | _, .list c, v             => packSequence (pack c) v
  | _, .set _ c, v            => packSequence (pack c) v.elems
  | _, .map _ k c, v          => packSequence (fun e => pack k e.1 ++ pack c e.2) v.elems
  | _, .unorderedSet _ t c, v => packSequence (pack c) (t.toList v.elems)
  | _, .unorderedMap _ t k c, v =>
    packSequence (fun e => pack k e.1 ++ pack c e.2) (t.toList v.elems)
  | _, .pair a b, v           => pack a v.1 ++ pack b v.2
  | _, .scalarArray _ s, v    => .write (s.arrayToBytes v) .done
  | _, .array _ c, v          => .pi fun i => pack c (v i)
  | _, .cArray n _ c, v       => packUnsignedInt (.ofNat n) ++ .pi fun i => pack c (v i)
  | _, .optional c, v         => packOptional (pack c) v
  | _, .sharedPtr c, v        => packOptional (pack c) v
  | _, .variant _ c, v        => packUnsignedInt (.ofNat v.1) ++ pack (c v.1) v.2
  | _, .struct c _ _, v       => .pi fun i => pack (c i) (v i)
  | _, .fcVariant, v          => packVariant v
  | _, .variantObject, v      => packVariantObject v
  | _, .fixedString _, v      => packFixedString v

section Unpack

variable {α γ : Type}

-- The size of a container is checked before memory is reserved for it.
def unpackSize : Unpacker Nat := do
  let size ← unpackUnsignedInt
  check (size.toNat ≤ maxNumArrayElements)
  return size.toNat

-- `std::vector` and `std::deque` are resized, and the elements decoded where they are.
def unpackInPlace (f : α → Unpacker α) (fill : α) (value : List α) : Unpacker (List α) := do
  let size ← unpackSize
  .reserve .elements size <| .each f (resize value size fill)

-- The other containers decode new elements and add them.
def unpackInserting (x : Unpacker α) (insert : γ → α → γ) (value : γ) : Unpacker γ := do
  let size ← unpackSize
  .fold x insert size value

-- `std::unordered_set` and `std::unordered_map` also reserve buckets.
def unpackHashed (x : Unpacker α) (insert : γ → α → γ) (value : γ) : Unpacker γ := do
  let size ← unpackSize
  .reserve .elements size <| .fold x insert size value

def unpackPair {β : Type} (x : Unpacker α) (y : Unpacker β) : Unpacker (α × β) := do
  let a ← x
  let b ← y
  return (a, b)

-- `std::optional` and `std::shared_ptr` decode into a new value, and keep the one they have when
-- there is none in the stream.
def unpackOptional (x : Unpacker α) (value : Option α) : Unpacker (Option α) := do
  let b ← unpackBool
  if b then return some (← x) else return value

-- What `fixed_string` drops is read in blocks of 1024 bytes.
def skipBlocks : Nat → Nat → Unpacker Unit
  | 0, _           => .throw .fuel
  | fuel + 1, left =>
    if 1024 ≤ left then .read (.replicate 1024 0) fun _ => skipBlocks fuel (left - 1024)
    else .read (.replicate left 0) fun _ => return

-- Stores bytes at the start of a vector.
def storeFront {n : Nat} (v : Vector UInt8 n) (bs : Bytes) : Vector UInt8 n :=
  .ofFn fun i => bs.getD i.val v[i]

def unpackFixedString {n : Nat} (v : Vector UInt8 (n + 1)) : Unpacker (Vector UInt8 (n + 1)) := do
  let size ← unpackUnsignedInt
  if 0 < size.toNat then
    if n + 1 < size.toNat then
      .read v.toList fun bs => do
        skipBlocks (size.toNat + 1) (size.toNat - (n + 1))
        return storeFront v bs
    else
      .read (v.toList.take size.toNat) fun bs => return storeFront v bs
  else
    return v

-- `reflector_init` is called when all members are unpacked.
def runInit {n : Nat} {δ : Fin n → Type} (init : Option ((∀ i, δ i) → Except Unit (∀ i, δ i)))
    (v : ∀ i, δ i) : Unpacker (∀ i, δ i) :=
  match init with
  | none   => return v
  | some f =>
    match f v with
    | .ok v    => return v
    | .error _ => .throw .init

end Unpack

-- `unpack fuel c d` decodes into a destination that holds `d`.
def unpack (fuel : Nat) : {α : Type} → Codec α → α → Unpacker α
  | _, .int _, d              => unpackInt d
  | _, .bool, _               => unpackBool
  | _, .unsignedInt, _        => unpackUnsignedInt
  | _, .signedInt, _          => unpackSignedInt fuel
  | _, .string, _             => unpackString
  | _, .bytes, d              => unpackBytes d
  | _, .enum _ _ _, _         => do return (← unpackInt (n := 8) 0).setWidth _
  | _, .vector c, d           => unpackInPlace (unpack fuel c) c.fresh d
  | _, .deque c, d            => unpackInPlace (unpack fuel c) c.fresh d
  | _, .list c, d             => unpackInserting (unpack fuel c c.fresh) (fun l i => l ++ [i]) d
  | _, .set _ c, d            => unpackInserting (unpack fuel c c.fresh) OrderedSet.insert d
  | _, .map _ k c, _          =>
    unpackInserting (unpackPair (unpack fuel k k.fresh) (unpack fuel c c.fresh)) OrderedSet.insert .empty
  | _, .unorderedSet eq _ c, _ => unpackHashed (unpack fuel c c.fresh) (HashSet.insert eq) .empty
  | _, .unorderedMap eq _ k c, _ =>
    unpackHashed (unpackPair (unpack fuel k k.fresh) (unpack fuel c c.fresh)) (HashSet.insert eq) .empty
  | _, .pair a b, d           => unpackPair (unpack fuel a d.1) (unpack fuel b d.2)
  | _, .scalarArray _ s, d    => .read (s.arrayToBytes d) fun bs => return s.arrayOfBytes bs
  | _, .array _ c, d          => .pi fun i => unpack fuel c (d i)
  | _, .cArray n _ c, d       => do
    let size ← unpackUnsignedInt
    check (size.toNat = n)
    .pi fun i => unpack fuel c (d i)
  | _, .optional c, d         => unpackOptional (unpack fuel c c.fresh) d
  | _, .sharedPtr c, d        => unpackOptional (unpack fuel c c.fresh) d
  | _, .variant (n := n) _ c, _ => do
    let w ← unpackUnsignedInt
    if h : w.toNat < n + 1 then return ⟨⟨w.toNat, h⟩, ← unpack fuel (c ⟨w.toNat, h⟩) (c ⟨w.toNat, h⟩).fresh⟩
    else .throw .assert
  | _, .struct c _ init, d    => do
    let v ← .pi fun i => unpack fuel (c i) (d i)
    runInit init v
  | _, .fcVariant, d          => unpackVariant fuel d
  | _, .variantObject, _      => unpackVariantObject fuel
  | _, .fixedString _, d      => unpackFixedString d

end Raw
