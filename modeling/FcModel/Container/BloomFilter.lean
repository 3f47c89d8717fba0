import Mathlib
import FcModel.Lib.Except

-- `fc::bloom_filter`. The functions of the C library that give random numbers are a parameter:
-- what `rand` returns after `srand`, one call after the other.

structure BloomParameters where
  minimumSize           : UInt64 := 1
  maximumSize           : UInt64 := 0xffffffffffffffff
  minimumNumberOfHashes : UInt32 := 1
  maximumNumberOfHashes : UInt32 := 0xffffffff
  randomSeed            : UInt64 := 0xa5a5a5a55a5a5a5a

structure OptimalParameters where
  numberOfHashes : UInt32 := 0
  tableSize      : UInt64 := 0

namespace BloomParameters

-- The end of `compute_optimal_parameters`, from the number of hashes and of bits that the loop over
-- the logarithms has found.
def optimal (p : BloomParameters) (minK : UInt32) (minM : UInt64) : OptimalParameters :=
  let tableSize := minM + (if minM % 8 ≠ 0 then 8 - minM % 8 else 0)
  { numberOfHashes :=
      if minK < p.minimumNumberOfHashes then p.minimumNumberOfHashes
      else if p.maximumNumberOfHashes < minK then p.maximumNumberOfHashes
      else minK
    tableSize :=
      if tableSize < p.minimumSize then p.minimumSize
      else if p.maximumSize < tableSize then p.maximumSize
      else tableSize }

end BloomParameters

structure BloomFilter where
  salt                 : List UInt32 := []
  bitTable             : List UInt8 := []
  saltCount            : UInt32 := 0
  tableSize            : UInt64 := 0
  rawTableSize         : UInt64 := 0
  insertedElementCount : UInt32 := 0
  randomSeed           : UInt64 := 0

namespace BloomFilter

-- The constructor is `endless` where the random numbers never give enough salts.
inductive Error
  | outOfBounds
  | divisionByZero
  | endless
  deriving DecidableEq

def bitMask : List UInt8 := [0x01, 0x02, 0x04, 0x08, 0x10, 0x20, 0x40, 0x80]

def predefSalt : List UInt32 := [
  0xAAAAAAAA, 0x55555555, 0x33333333, 0xCCCCCCCC,
  0x66666666, 0x99999999, 0xB5B5B5B5, 0x4B4B4B4B,
  0xAA55AA55, 0x55335533, 0x33CC33CC, 0xCC66CC66,
  0x66996699, 0x99B599B5, 0xB54BB54B, 0x4BAA4BAA,
  0xAA33AA33, 0x55CC55CC, 0x33663366, 0xCC99CC99,
  0x66B566B5, 0x994B994B, 0xB5AAB5AA, 0xAAAAAA33,
  0x555555CC, 0x33333366, 0xCCCCCC99, 0x666666B5,
  0x9999994B, 0xB5B5B5AA, 0xFFFFFFFF, 0xFFFF0000,
  0xB823D5EB, 0xC1191CDF, 0xF623AEB3, 0xDB58499F,
  0xC8D42E70, 0xB173F616, 0xA91A5967, 0xDA427D63,
  0xB1E8A2EA, 0xF6C0D155, 0x4909FEA3, 0xA68CC6A7,
  0xC395E782, 0xA26057EB, 0x0CD5DA28, 0x467C5492,
  0xF15E6982, 0x61C6FAD3, 0x9615E352, 0x6E9E355A,
  0x689B563E, 0x0C9831A8, 0x6753C18B, 0xA622689B,
  0x8CA63C47, 0x42CC2884, 0x8E89919B, 0x6EDBD7D3,
  0x15B6796C, 0x1D6FDFE4, 0x63FF9092, 0xE7401432,
  0xEFFE9412, 0xAEAEDF79, 0x9F245A31, 0x83C136FC,
  0xC3DA4A8C, 0xA5112C8C, 0x5271F491, 0x9A948DAB,
  0xCEE59A8D, 0xB5F525AB, 0x59D13217, 0x24E7C331,
  0x697C2103, 0x84B0A460, 0x86156DA9, 0xAEF2AC68,
  0x23243DA5, 0x3F649643, 0x5FA495A8, 0x67710DF8,
  0x9A6C499E, 0xDCFB0227, 0x46A43433, 0x1832B07A,
  0xC46AFF3C, 0xB9C8FFF0, 0xC9500467, 0x34431BDF,
  0xB652432B, 0xE367F12B, 0x427F4C1B, 0x224C006E,
  0x2E7E5A89, 0x96F99AA5, 0x0BEB452A, 0x2FD87C39,
  0x74B2E1FB, 0x222EFD24, 0xF357F60C, 0x440FCB1E,
  0x8BBE030F, 0x6704DC29, 0x1144D12F, 0x948B1355,
  0x6D8FD7E9, 0x1C11A014, 0xADD1592F, 0xFB3C712E,
  0xFC77642F, 0xF9C4CE8C, 0x31312FB9, 0x08B0DD79,
  0x318FA6E7, 0xC040D23D, 0xC0589AA7, 0x0CA5C075,
  0xF874B172, 0x0CF914D5, 0x784D3280, 0x4E8CFEBC,
  0xC569F575, 0xCDB2A091, 0x2CC016B4, 0x5C5F4421]

-- The loop that gets further salts. It ends when there are enough; a salt that is 0 or there
-- already is dropped. `n` counts the rounds.
def drawSalts (rand : Nat → UInt32) (saltCount : Nat) : Nat → Nat → List UInt32 →
    Option (List UInt32)
  | 0, _, salt        => if salt.length < saltCount then none else some salt
  | fuel + 1, n, salt =>
    if salt.length < saltCount then
      let currentSalt := rand (2 * n) * rand (2 * n + 1)
      if currentSalt = 0 ∨ currentSalt ∈ salt then drawSalts rand saltCount fuel (n + 1) salt
      else drawSalts rand saltCount fuel (n + 1) (salt ++ [currentSalt])
    else some salt

def mixSalt (randomSeed : UInt64) (salt : List UInt32) (i : Nat) : List UInt32 :=
  salt.set i (salt[i]! * salt[(i + 3) % salt.length]! + randomSeed.toUInt32)

-- Salts that are not there after `fuel` rounds are never there.
def generateUniqueSalt (rand : UInt32 → Nat → UInt32) (fuel : Nat) (saltCount : UInt32)
    (randomSeed : UInt64) : Option (List UInt32) :=
  if saltCount ≤ 128 then
    let salt := predefSalt.take saltCount.toNat
    some ((List.range salt.length).foldl (mixSalt randomSeed) salt)
  else drawSalts (rand randomSeed.toUInt32) saltCount.toNat fuel 0 predefSalt

def construct (rand : UInt32 → Nat → UInt32) (fuel : Nat) (p : BloomParameters)
    (o : OptimalParameters) :
    Except Error BloomFilter :=
  let randomSeed := p.randomSeed * 0xA5A5A5A5 + 1
  match generateUniqueSalt rand fuel o.numberOfHashes randomSeed with
  | none      => throw .endless
  | some salt => return {
      salt, randomSeed
      bitTable     := List.replicate (o.tableSize / 8).toNat 0
      saltCount    := o.numberOfHashes
      tableSize    := o.tableSize
      rawTableSize := o.tableSize / 8 }

def word16 (b0 b1 : UInt8) : UInt32 :=
  b0.toUInt32 ||| b1.toUInt32 <<< 8

def word32 (b0 b1 b2 b3 : UInt8) : UInt32 :=
  b0.toUInt32 ||| b1.toUInt32 <<< 8 ||| b2.toUInt32 <<< 16 ||| b3.toUInt32 <<< 24

def mixOdd (hash i : UInt32) : UInt32 :=
  hash ^^^ ((hash <<< 7) ^^^ i * (hash >>> 3))

def mixEven (hash i : UInt32) : UInt32 :=
  hash ^^^ ~~~((hash <<< 11) + (i ^^^ (hash >>> 5)))

-- The bytes behind the last group of eight. `loop` counts the parts that were there.
def hashTail1 (hash loop : UInt32) : List UInt8 → UInt32
  | b :: _ => hash + ((b.toUInt32 ^^^ (hash * 0xA5A5A5A5)) + loop)
  | []     => hash

def hashTail2 (hash loop : UInt32) : List UInt8 → UInt32
  | b0 :: b1 :: bs =>
    let i := word16 b0 b1
    hashTail1 (if loop &&& 1 = 1 then mixOdd hash i else mixEven hash i) (loop + 1) bs
  | bs => hashTail1 hash loop bs

def hashTail4 (hash loop : UInt32) : List UInt8 → UInt32
  | b0 :: b1 :: b2 :: b3 :: bs =>
    let i := word32 b0 b1 b2 b3
    hashTail2 (if loop &&& 1 = 1 then mixOdd hash i else mixEven hash i) (loop + 1) bs
  | bs => hashTail2 hash loop bs

def hashAp (hash : UInt32) : List UInt8 → UInt32
  | b0 :: b1 :: b2 :: b3 :: b4 :: b5 :: b6 :: b7 :: bs =>
    let i1 := word32 b0 b1 b2 b3
    let i2 := word32 b4 b5 b6 b7
    hashAp (hash ^^^ ((hash <<< 7) ^^^ i1 * (hash >>> 3) ^^^
      ~~~((hash <<< 11) + (i2 ^^^ (hash >>> 5))))) bs
  | bs => hashTail4 hash 0 bs

-- The index of a bit of the table, and the one of that bit in its byte.
def computeIndices (f : BloomFilter) (hash : UInt32) : Except Error (Nat × Nat) := do
  if f.tableSize = 0 then throw .divisionByZero
  let bitIndex := hash.toNat % f.tableSize.toNat
  return (bitIndex, bitIndex % 8)

def setBit (table : List UInt8) (bitIndex bit : Nat) : Except Error (List UInt8) :=
  match table[bitIndex / 8]? with
  | none   => throw .outOfBounds
  | some c => return table.set (bitIndex / 8) (c ||| bitMask[bit]!)

def insertSalt (key : List UInt8) (f : BloomFilter) (s : UInt32) : Except Error BloomFilter := do
  let (bitIndex, bit) ← f.computeIndices (hashAp s key)
  let bitTable ← setBit f.bitTable bitIndex bit
  return { f with bitTable }

def insert (f : BloomFilter) (key : List UInt8) : Except Error BloomFilter := do
  let f ← f.salt.foldlM (insertSalt key) f
  return { f with insertedElementCount := f.insertedElementCount + 1 }

def containsSalts (f : BloomFilter) (key : List UInt8) : List UInt32 → Except Error Bool
  | []      => return true
  | s :: ss => do
    let (bitIndex, bit) ← f.computeIndices (hashAp s key)
    match f.bitTable[bitIndex / 8]? with
    | none   => throw .outOfBounds
    | some c =>
      if c &&& bitMask[bit]! ≠ bitMask[bit]! then return false
      else f.containsSalts key ss

def contains (f : BloomFilter) (key : List UInt8) : Except Error Bool :=
  f.containsSalts key f.salt

def clear (f : BloomFilter) : Except Error BloomFilter := do
  if f.bitTable.length < f.rawTableSize.toNat then throw .outOfBounds
  let bitTable := List.replicate f.rawTableSize.toNat 0 ++ f.bitTable.drop f.rawTableSize.toNat
  return { f with bitTable, insertedElementCount := 0 }

-- The assignment, of a filter to another one.
def assign (f : BloomFilter) : Except Error BloomFilter := do
  if f.bitTable.length < f.rawTableSize.toNat then throw .outOfBounds
  return { f with bitTable := f.bitTable.take f.rawTableSize.toNat }

def Compatible (a b : BloomFilter) : Prop :=
  a.saltCount = b.saltCount ∧ a.tableSize = b.tableSize ∧ a.randomSeed = b.randomSeed

instance (a b : BloomFilter) : Decidable (a.Compatible b) :=
  inferInstanceAs (Decidable (_ ∧ _ ∧ _))

def combineByte (op : UInt8 → UInt8 → UInt8) (other : List UInt8) (table : List UInt8) (i : Nat) :
    Except Error (List UInt8) :=
  match table[i]?, other[i]? with
  | some c, some d => return table.set i (op c d)
  | _, _           => throw .outOfBounds

-- Filters that do not belong together are left as they are.
def combine (op : UInt8 → UInt8 → UInt8) (a b : BloomFilter) : Except Error BloomFilter :=
  if a.Compatible b then do
    let bitTable ← (List.range a.rawTableSize.toNat).foldlM (combineByte op b.bitTable) a.bitTable
    return { a with bitTable }
  else return a

def andAssign : BloomFilter → BloomFilter → Except Error BloomFilter := combine (· &&& ·)

def orAssign : BloomFilter → BloomFilter → Except Error BloomFilter := combine (· ||| ·)

def xorAssign : BloomFilter → BloomFilter → Except Error BloomFilter := combine (· ^^^ ·)

end BloomFilter
