import FcModel.Variant.Basic

-- `sha3_impl` and `sha3::encoder`, on a little-endian machine.

namespace Sha3

-- The words that are used; the array has more of them.
abbrev Words := Vector UInt64 25

def store (w : Words) (i : Fin 25) (v : UInt64) : Words :=
  w.set i v

def rotl64 (x y : UInt64) : UInt64 :=
  (x <<< y) ||| (x >>> (64 - y))

def roundConstants : List UInt64 :=
  [0x0000000000000001, 0x0000000000008082, 0x800000000000808a, 0x8000000080008000,
    0x000000000000808b, 0x0000000080000001, 0x8000000080008081, 0x8000000000008009,
    0x000000000000008a, 0x0000000000000088, 0x0000000080008009, 0x000000008000000a,
    0x000000008000808b, 0x800000000000008b, 0x8000000000008089, 0x8000000000008003,
    0x8000000000008002, 0x8000000000000080, 0x000000000000800a, 0x800000008000000a,
    0x8000000080008081, 0x8000000000008080, 0x0000000080000001, 0x8000000080008008]

def rotConstants : List UInt64 :=
  [1, 3, 6, 10, 15, 21, 28, 36, 45, 55, 2, 14, 27, 41, 56, 8, 25, 43, 62, 18, 39, 61, 20, 44]

def piLanes : List (Fin 25) :=
  [10, 7, 11, 17, 18, 3, 5, 16, 8, 21, 24, 4, 15, 23, 19, 13, 12, 2, 20, 14, 22, 9, 6, 1]

section UpdateStep

instance neZero_five : NeZero 5 :=
  ⟨by decide⟩

-- `words[k + j]`, where `k` goes through the multiples of five.
def lane (j k : Fin 5) : Fin 25 :=
  ⟨j + 5 * k, by omega⟩

def columns (w : Words) : Vector UInt64 5 :=
  .ofFn fun j => w.get (lane j 0) ^^^ w.get (lane j 1) ^^^ w.get (lane j 2) ^^^ w.get
    (lane j 3) ^^^ w.get (lane j 4)

def thetaColumn (w : Words) (j : Fin 5) (t : UInt64) : Words :=
  (List.finRange 5).foldl (fun w k => store w (lane j k) (w.get (lane j k) ^^^ t)) w

def theta (w : Words) : Words :=
  let bc := columns w
  (List.finRange 5).foldl
    (fun w j => thetaColumn w j (bc.get (j + 4) ^^^ rotl64 (bc.get (j + 1)) 1)) w

-- The words and `t`.
def rhoPiStep (s : Words × UInt64) (p : Fin 25 × UInt64) : Words × UInt64 :=
  (store s.1 p.1 (rotl64 s.2 p.2), s.1.get p.1)

def rhoPi (w : Words) : Words :=
  ((piLanes.zip rotConstants).foldl rhoPiStep (w, w.get 1)).1

def chiRow (w : Words) (j : Fin 5) : Words :=
  let bc : Vector UInt64 5 := .ofFn fun k => w.get (lane k j)
  (List.finRange 5).foldl
    (fun w k => store w (lane k j) (w.get (lane k j) ^^^ (~~~bc.get (k + 1) &&& bc.get (k + 2)))) w

def chi (w : Words) : Words :=
  (List.finRange 5).foldl chiRow w

def iota (w : Words) (roundConstant : UInt64) : Words :=
  store w 0 (w.get 0 ^^^ roundConstant)

def round (w : Words) (roundConstant : UInt64) : Words :=
  iota (chi (rhoPi (theta w))) roundConstant

def updateStep (w : Words) : Words :=
  roundConstants.foldl round w

end UpdateStep

-- `bytes[j]`. There are 200 of them.
def byteAt (w : Words) (j : Nat) : UInt8 :=
  if h : j / 8 < 25 then (w.get ⟨j / 8, h⟩ >>> (8 * .ofNat (j % 8))).toUInt8 else 0

-- `bytes[j] ^= b`.
def xorByte (w : Words) (j : Nat) (b : UInt8) : Words :=
  if h : j / 8 < 25 then
    store w ⟨j / 8, h⟩ (w.get ⟨j / 8, h⟩ ^^^ (b.toUInt64 <<< (8 * .ofNat (j % 8))))
  else w

def digestSize : Nat := 32

structure Sha3Impl where
  words  : Words := .replicate 25 0
  keccak : Bool := false
  point  : Nat := 0
  size   : Nat := 136

namespace Sha3Impl

-- A round of the loop of `update`: the words and `j`.
def updateByte (size : Nat) (s : Words × Nat) (b : UInt8) : Words × Nat :=
  let words := xorByte s.1 s.2 b
  let j := s.2 + 1
  if size ≤ j then (updateStep words, 0) else (words, j)

def update (h : Sha3Impl) (data : Bytes) : Sha3Impl :=
  let s := data.foldl (updateByte h.size) (h.words, h.point)
  { h with words := s.1, point := s.2 }

def finalize (h : Sha3Impl) : Sha3Impl × Bytes :=
  let words := xorByte h.words h.point (if h.keccak then 0x01 else 0x06)
  let words := updateStep (xorByte words (h.size - 1) 0x80)
  ({ h with words := words }, (List.range digestSize).map (byteAt words))

end Sha3Impl

-- What can be passed to `write`, whose second argument is a `uint32_t`.
structure Chunk where
  data  : Bytes
  bound : data.length < 2 ^ 32

structure Encoder where
  ctx : Sha3Impl := {}

namespace Encoder

def write (e : Encoder) (d : Chunk) : Encoder :=
  { ctx := e.ctx.update d.data }

def result (e : Encoder) (isNist : Bool) : Encoder × Bytes :=
  let (ctx, h) := { e.ctx with keccak := !isNist }.finalize
  ({ ctx := ctx }, h)

end Encoder

end Sha3
