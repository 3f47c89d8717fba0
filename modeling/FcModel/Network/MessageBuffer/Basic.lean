import Mathlib

-- `fc::message_buffer<buffer_len>`: a byte buffer that spans a chain of physical buffers.

namespace MessageBuffer

-- A point in the chain of buffers: `first` is the buffer's index in the deque, `second` the byte in
-- that buffer. Both are `uint32_t`, so their arithmetic wraps.
structure Index where
  first  : UInt32
  second : UInt32
deriving DecidableEq, Repr

-- The order of `std::pair`.
def Index.Le (i j : Index) : Prop :=
  i.first < j.first ∨ (i.first = j.first ∧ i.second ≤ j.second)

instance {i j : Index} : Decidable (i.Le j) := by unfold Index.Le; infer_instance

abbrev Buffer (bufferLen : UInt32) := Vector UInt8 bufferLen.toNat

-- The ways in which an operation does not return: the exceptions it throws, the `exit(1)` of
-- `reset`, and an access outside of the deque or of a buffer.
inductive Halt
  | outOfRange (tried left : UInt32)
  | assert
  | exit
  | access
deriving DecidableEq, Repr

end MessageBuffer

structure MessageBuffer (bufferLen : UInt32) where
  buffers     : List (MessageBuffer.Buffer bufferLen)
  readInd     : MessageBuffer.Index
  writeInd    : MessageBuffer.Index
  sanityCheck : Nat
deriving DecidableEq, Repr

namespace MessageBuffer

variable {bufferLen : UInt32}

-- The pool does not clear what it hands out. The contents of a block that `malloc` returns are an
-- argument of every operation that allocates: `fresh k` is the `k`-th block of that operation.
abbrev Fresh (bufferLen : UInt32) := Nat → Buffer bufferLen

def init (fresh : Fresh bufferLen) : MessageBuffer bufferLen where
  buffers     := [fresh 0]
  readInd     := ⟨0, 0⟩
  writeInd    := ⟨0, 0⟩
  sanityCheck := 1

-- Operations on the buffer, which may throw. The buffer keeps what an operation did to it before it
-- threw.
abbrev Action (bufferLen : UInt32) := EStateM Halt (MessageBuffer bufferLen)

-- The buffer an index points into and the offset in it, if both exist.
def getPtr (m : MessageBuffer bufferLen) (ind : Index) : Except Halt (Buffer bufferLen × Nat) :=
  match m.buffers[ind.first.toNat]? with
  | none   => .error .access
  | some b => if ind.second < bufferLen then .ok (b, ind.second.toNat) else .error .access

def readPtr (m : MessageBuffer bufferLen) : Except Halt (Buffer bufferLen × Nat) :=
  m.getPtr m.readInd

def writePtr (m : MessageBuffer bufferLen) : Except Halt (Buffer bufferLen × Nat) :=
  m.getPtr m.writeInd

-- The bytes `memcpy` takes from a pointer into a buffer.
def memcpy (ptr : Buffer bufferLen × Nat) (size : UInt32) : List UInt8 :=
  (ptr.1.toList.drop ptr.2).take size.toNat

-- The loop that appends a buffer, run `k` times.
def pushBuffers (fresh : Fresh bufferLen) (m : MessageBuffer bufferLen) :
    Nat → MessageBuffer bufferLen
  | 0     => m
  | k + 1 =>
    let m' := m.pushBuffers fresh k
    { m' with sanityCheck := m'.sanityCheck + 1, buffers := m'.buffers ++ [fresh k] }

def addBufferToChain (fresh : Fresh bufferLen) : Action bufferLen Unit := do
  let m ← get
  set <| m.pushBuffers fresh 1

-- The number of buffers is computed as a `uint32_t` and then stored in an `int`: from `2 ^ 31` on
-- it is negative and the loop does not run.
def addSpace (bytes : UInt32) (fresh : Fresh bufferLen) : Action bufferLen Unit := do
  let m ← get
  let buffersToAdd := (bytes / bufferLen + 1).toInt32
  set <| m.pushBuffers fresh buffersToAdd.toInt.toNat

-- The loop that frees the back of the chain, run `k` times.
def popBack (m : MessageBuffer bufferLen) : Nat → MessageBuffer bufferLen
  | 0     => m
  | k + 1 => { m with sanityCheck := m.sanityCheck - 1, buffers := m.buffers.dropLast }.popBack k

def reset : Action bufferLen Unit := do
  let m ← get
  if m.buffers.length ≠ m.sanityCheck ∨ 1000000 < m.buffers.length then
    throw .exit
  else
    set { m.popBack (m.buffers.length - 1) with readInd := ⟨0, 0⟩, writeInd := ⟨0, 0⟩ }

def bytesToReadFromIndex (m : MessageBuffer bufferLen) (ind : Index) : UInt32 :=
  (m.writeInd.first - ind.first) * bufferLen + m.writeInd.second - ind.second

def bytesToRead (m : MessageBuffer bufferLen) : UInt32 :=
  m.bytesToReadFromIndex m.readInd

-- The product is computed in `size_t` and truncated by the return type.
def totalBytes (m : MessageBuffer bufferLen) : UInt32 :=
  .ofNat (bufferLen.toNat * m.buffers.length)

def bytesToWrite (m : MessageBuffer bufferLen) : UInt32 :=
  m.totalBytes - m.writeInd.first * bufferLen - m.writeInd.second

def advanceIndex (bufferLen : UInt32) (index : Index) (bytes : UInt32) : Index where
  first  := index.first + (bytes + index.second) / bufferLen
  second := (bytes + index.second) % bufferLen

-- The loop that frees the buffers the read index has moved beyond, run `k` times.
def popFront : Nat → Action bufferLen Unit
  | 0     => return
  | k + 1 => do
    let m ← get
    match m.buffers with
    | []      => throw .access
    | _ :: bs =>
      set { m with
        buffers     := bs
        sanityCheck := m.sanityCheck - 1
        readInd     := { m.readInd with first := m.readInd.first - 1 }
        writeInd    := { m.writeInd with first := m.writeInd.first - 1 } }
      popFront k

def advanceReadPtr (bytes : UInt32) : Action bufferLen Unit := do
  let m ← get
  let m := { m with readInd := advanceIndex bufferLen m.readInd bytes }
  set m
  if m.readInd = m.writeInd then reset else popFront m.readInd.first.toNat

def advanceWritePtr (bytes : UInt32) (fresh : Fresh bufferLen) : Action bufferLen Unit := do
  let m ← get
  let m := { m with writeInd := advanceIndex bufferLen m.writeInd bytes }
  set <| m.pushBuffers fresh (m.writeInd.first.toNat + 1 - m.buffers.length)

-- A `boost::asio::mutable_buffer`: `size` bytes from `offset` on in the buffer number `index`.
structure MutableBuffer where
  index  : Nat
  offset : Nat
  size   : Nat
deriving DecidableEq, Repr

def getBufferSequenceForBoostAsyncRead (m : MessageBuffer bufferLen) :
    Except Halt (List MutableBuffer) :=
  if m.writeInd.first.toNat < m.buffers.length then
    match m.writePtr with
    | .error e => .error e
    | .ok _    =>
      let first := m.writeInd.first.toNat
      .ok <| ⟨first, m.writeInd.second.toNat, (bufferLen - m.writeInd.second).toNat⟩ ::
        (List.range' (first + 1) (m.buffers.length - (first + 1))).map (⟨·, 0, bufferLen.toNat⟩)
  else
    .error .assert

-- Stores `bytes` in a buffer, from `offset` on.
def Buffer.store (b : Buffer bufferLen) (offset : Nat) (bytes : List UInt8) : Buffer bufferLen :=
  Vector.ofFn fun i =>
    if offset ≤ i.val ∧ i.val < offset + bytes.length then bytes.getD (i.val - offset) 0 else b[i]

-- Fills a sequence of mutable buffers with incoming bytes, as a scattering read does: each buffer
-- is filled before the next one is used.
def scatter (buffers : List (Buffer bufferLen)) :
    List MutableBuffer → List UInt8 → List (Buffer bufferLen)
  | [], _          => buffers
  | s :: seq, data =>
    scatter (buffers.modify s.index (·.store s.offset (data.take s.size))) seq (data.drop s.size)

-- A client stores incoming bytes through the buffer sequence. The indices do not move.
def storeSequence (data : List UInt8) : Action bufferLen Unit := do
  let m ← get
  match m.getBufferSequenceForBoostAsyncRead with
  | .error e => throw e
  | .ok seq  => set { m with buffers := scatter m.buffers seq data }

-- A client copies bytes to the write pointer.
def storeWritePtr (data : List UInt8) : Action bufferLen Unit := do
  let m ← get
  match m.writePtr with
  | .error e => throw e
  | .ok ptr  =>
    set { m with buffers := m.buffers.modify m.writeInd.first.toNat (·.store ptr.2 data) }

-- The recursion shortens `size` by what is left in the front buffer, which is at least one byte
-- where the read pointer is valid: `size + 1` rounds are enough.
def read.go : Nat → (size : UInt32) → Action bufferLen (List UInt8)
  | 0, _           => throw .access
  | fuel + 1, size => do
    let m ← get
    if m.bytesToRead < size then
      throw (.outOfRange size m.bytesToRead)
    else if m.readInd.second + size ≤ bufferLen then
      match m.readPtr with
      | .error e => throw e
      | .ok ptr  =>
        advanceReadPtr size
        return memcpy ptr size
    else
      let numInBuffer := bufferLen - m.readInd.second
      match m.readPtr with
      | .error e => throw e
      | .ok ptr  =>
        advanceReadPtr numInBuffer
        let rest ← read.go fuel (size - numInBuffer)
        return memcpy ptr numInBuffer ++ rest

def read (size : UInt32) : Action bufferLen (List UInt8) :=
  read.go (size.toNat + 1) size

-- Reads at an index of the client's, which is advanced. The buffer itself is not changed.
def peek.go (m : MessageBuffer bufferLen) : Nat → (size : UInt32) → EStateM Halt Index (List UInt8)
  | 0, _           => throw .access
  | fuel + 1, size => do
    let index ← get
    if m.bytesToReadFromIndex index < size then
      throw (.outOfRange size (m.bytesToReadFromIndex index))
    else if index.second + size ≤ bufferLen then
      match m.getPtr index with
      | .error e => throw e
      | .ok ptr  =>
        set <| advanceIndex bufferLen index size
        return memcpy ptr size
    else
      let numInBuffer := bufferLen - index.second
      match m.getPtr index with
      | .error e => throw e
      | .ok ptr  =>
        set <| advanceIndex bufferLen index numInBuffer
        let rest ← peek.go m fuel (size - numInBuffer)
        return memcpy ptr numInBuffer ++ rest

def peek (m : MessageBuffer bufferLen) (size : UInt32) : EStateM Halt Index (List UInt8) :=
  peek.go m (size.toNat + 1) size

end MessageBuffer
