import FcModel.Raw.Scalar
import FcModel.Network.MessageBuffer.Refinement

-- The streams that read from a message buffer.

namespace MessageBuffer

open Raw

def Halt.toFailure : Halt → Failure
  | outOfRange _ _ => .outOfRange
  | assert         => .assert
  | exit           => .exit
  | access         => .access

theorem toNat_ofNat_of_le {n : UInt32} {k : Nat} (h : k ≤ n.toNat) : (UInt32.ofNat k).toNat = k :=
  UInt32.toNat_ofNat_of_lt' (Nat.lt_of_le_of_lt h n.toNat_lt)

end MessageBuffer

-- `mb_datastream`. Its state is that of the buffer, which the stream holds a reference to.
namespace MbDatastream

open Raw

variable {bufferLen : UInt32} {m : MessageBuffer bufferLen} {q : List UInt8}

abbrev Action (bufferLen : UInt32) := EStateM Failure (MessageBuffer bufferLen)

-- A call of `message_buffer::read`.
def readBuffer (size : UInt32) : Action bufferLen Bytes := fun m =>
  match (MessageBuffer.read size).run m with
  | .ok bs m'   => .ok bs m'
  | .error e m' => .error e.toFailure m'

-- The size is compared as a `size_t`, and passed on as a `uint32_t`.
def read (old : Bytes) : Action bufferLen Bytes := do
  let m ← get
  if old.length ≤ m.bytesToRead.toNat then readBuffer (.ofNat old.length) else throw .outOfRange

def getChar : Action bufferLen UInt8 := do
  let bs ← readBuffer 1
  return bs.headD 0

def source : Source UInt8 Failure (MessageBuffer bufferLen) where
  read := read
  get  := getChar

theorem readBuffer_run (h : m.Represents q) (size : UInt32) (hl : size.toNat ≤ q.length) :
    ∃ m', (readBuffer size).run m = .ok (q.take size.toNat) m' ∧
    m'.Represents (q.drop size.toNat) := by
  have ⟨m', hm, h'⟩ := MessageBuffer.read_spec h hl
  exact ⟨m', by simp only [readBuffer, EStateM.run] at hm ⊢; rw [hm], h'⟩

theorem readBuffer_run_error {size : UInt32} {e : MessageBuffer.Halt} {m' : MessageBuffer bufferLen}
    (h : (MessageBuffer.read size).run m = .error e m') :
    (readBuffer size).run m = .error e.toFailure m' := by
  simp only [readBuffer, EStateM.run] at h ⊢
  rw [h]

theorem readBuffer_run_short (h : m.Represents q) (size : UInt32) (hl : q.length < size.toNat) :
    (readBuffer size).run m = .error .outOfRange m :=
  readBuffer_run_error (MessageBuffer.read_error h hl)

theorem checked : source.Checked .outOfRange (@MessageBuffer.Represents bufferLen) := by
  constructor
  case read =>
    intro m q old h hl
    have hs := MessageBuffer.toNat_ofNat_of_le (h.bytesToRead_toNat ▸ hl)
    have ⟨m', hm, h'⟩ := readBuffer_run h (.ofNat old.length) (by rwa [hs])
    rw [hs] at hm h'
    refine ⟨m', ?_, h'⟩
    simp only [source, read, EStateM.run_bind, EStateM.run_get, h.bytesToRead_toNat, if_pos hl, hm]
  case readShort =>
    intro m q old h hl
    refine ⟨m, ?_⟩
    simp only [source, read, EStateM.run_bind, EStateM.run_get, h.bytesToRead_toNat,
      if_neg (Nat.not_le_of_lt hl)]
    rfl
  case get =>
    intro m b q h
    have ⟨m', hm, h'⟩ := readBuffer_run h 1 (by simp)
    refine ⟨m', ?_, h'⟩
    simp only [source, getChar, EStateM.run_bind, hm]
    rfl
  case getShort =>
    intro m h
    refine ⟨m, ?_⟩
    simp only [source, getChar, EStateM.run_bind, readBuffer_run_short h 1 (by simp)]

end MbDatastream

-- `mb_peek_datastream`: a reference to the buffer, and an index into it.
structure MbPeekDatastream (bufferLen : UInt32) where
  mb    : MessageBuffer bufferLen
  index : MessageBuffer.Index
deriving DecidableEq, Repr

namespace MbPeekDatastream

open Raw

variable {bufferLen : UInt32} {m : MessageBuffer bufferLen} {q : List UInt8}

abbrev Action (bufferLen : UInt32) := EStateM Failure (MbPeekDatastream bufferLen)

-- The stream that `create_peek_datastream` returns.
def create (m : MessageBuffer bufferLen) : MbPeekDatastream bufferLen :=
  ⟨m, m.readInd⟩

-- A call of `message_buffer::peek`, which advances the index.
def peekBuffer (size : UInt32) : Action bufferLen Bytes := fun s =>
  match (s.mb.peek size).run s.index with
  | .ok bs index   => .ok bs { s with index := index }
  | .error e index => .error e.toFailure { s with index := index }

def read (old : Bytes) : Action bufferLen Bytes := do
  let s ← get
  if old.length ≤ (s.mb.bytesToReadFromIndex s.index).toNat then peekBuffer (.ofNat old.length)
  else throw .outOfRange

def getChar : Action bufferLen UInt8 := do
  let bs ← peekBuffer 1
  return bs.headD 0

def source : Source UInt8 Failure (MbPeekDatastream bufferLen) where
  read := read
  get  := getChar

-- The index points to the last bytes `q` of those that are to be read.
structure Unread (s : MbPeekDatastream bufferLen) (q : List UInt8) : Prop where
  represents : s.mb.Represents s.mb.content
  second     : s.index.second < bufferLen
  read       : s.mb.readInd.pos bufferLen ≤ s.index.pos bufferLen
  write      : s.index.pos bufferLen ≤ s.mb.writeInd.pos bufferLen
  unread     : s.mb.content.drop (s.index.pos bufferLen - s.mb.readInd.pos bufferLen) = q

theorem Unread.create (h : m.Represents q) : (create m).Unread q where
  represents  := h.content ▸ h
  second      := h.inv.readSecond
  read        := Nat.le_refl _
  write       := h.inv.pos_le
  unread      := by rw [MbPeekDatastream.create, Nat.sub_self, List.drop_zero, h.content]

variable {s : MbPeekDatastream bufferLen}

theorem Unread.length (h : s.Unread q) :
    q.length = s.mb.writeInd.pos bufferLen - s.index.pos bufferLen := by
  have := h.read
  rw [← h.unread, List.length_drop, h.represents.length_eq]
  omega

theorem Unread.bytesToRead_toNat (h : s.Unread q) :
    (s.mb.bytesToReadFromIndex s.index).toNat = q.length := by
  rw [h.length]
  exact MessageBuffer.bytesToReadFromIndex_toNat h.write h.represents.write_pos_lt_two_pow

theorem peekBuffer_run (h : s.Unread q) (size : UInt32) (hl : size.toNat ≤ q.length) :
    ∃ s', (peekBuffer size).run s = .ok (q.take size.toNat) s' ∧ s'.Unread (q.drop size.toNat) := by
  have hw := h.write
  have hr := h.read
  have hlen := h.length
  have ⟨ind, hi, hs, hp⟩ := @MessageBuffer.peek_spec _ _ _ s.index size h.represents h.second h.read (by omega)
  refine ⟨{ s with index := ind }, ?_, h.represents, hs, by simp; omega, by simp; omega, ?_⟩
  case refine_1 =>
    rw [h.unread] at hi
    simp only [peekBuffer, EStateM.run] at hi ⊢
    rw [hi]
  case refine_2 =>
    simp only [hp]
    rw [Nat.sub_add_comm hr, ← List.drop_drop, h.unread]

theorem peekBuffer_run_short (h : s.Unread q) (size : UInt32) (hl : q.length < size.toNat) :
    (peekBuffer size).run s = .error .outOfRange s := by
  have hw := h.write
  have hlen := h.length
  have hi := @MessageBuffer.peek_error _ _ _ s.index size h.represents h.write (by omega)
  simp only [peekBuffer, EStateM.run] at hi ⊢
  rw [hi]
  rfl

theorem checked : source.Checked .outOfRange (@Unread bufferLen) := by
  constructor
  case read =>
    intro s q old h hl
    have hs := MessageBuffer.toNat_ofNat_of_le (h.bytesToRead_toNat ▸ hl)
    have ⟨s', hm, h'⟩ := peekBuffer_run h (.ofNat old.length) (by rwa [hs])
    rw [hs] at hm h'
    refine ⟨s', ?_, h'⟩
    simp only [source, read, EStateM.run_bind, EStateM.run_get, h.bytesToRead_toNat, if_pos hl, hm]
  case readShort =>
    intro s q old h hl
    refine ⟨s, ?_⟩
    simp only [source, read, EStateM.run_bind, EStateM.run_get, h.bytesToRead_toNat,
      if_neg (Nat.not_le_of_lt hl)]
    rfl
  case get =>
    intro s b q h
    have ⟨s', hm, h'⟩ := peekBuffer_run h 1 (by simp)
    refine ⟨s', ?_, h'⟩
    simp only [source, getChar, EStateM.run_bind, hm]
    rfl
  case getShort =>
    intro s h
    refine ⟨s, ?_⟩
    simp only [source, getChar, EStateM.run_bind, peekBuffer_run_short h 1 (by simp)]

-- Nothing that is read through the stream changes the buffer, in bounds or not.
theorem peekBuffer_mb (size : UInt32) (s : MbPeekDatastream bufferLen) :
    (Machine.state ((peekBuffer size).run s)).mb = s.mb := by
  simp only [peekBuffer, EStateM.run]
  split <;> rfl

theorem read_mb (old : Bytes) (s : MbPeekDatastream bufferLen) :
    (Machine.state ((read old).run s)).mb = s.mb := by
  simp only [read, EStateM.run_bind, EStateM.run_get]
  split
  case isTrue  => exact peekBuffer_mb _ s
  case isFalse => rfl

theorem getChar_mb (s : MbPeekDatastream bufferLen) :
    (Machine.state (getChar.run s)).mb = s.mb := by
  have h := peekBuffer_mb 1 s
  simp only [getChar, EStateM.run_bind]
  cases hp : (peekBuffer 1).run s
  case ok    => rw [hp] at h; exact h
  case error => rw [hp] at h; exact h

theorem run_mb {α : Type} (x : Unpacker α) (s : MbPeekDatastream bufferLen) :
    (Machine.state ((x.run source).run s)).mb = s.mb :=
  @Decoder.run_invariant _ _ _ _ source (·.mb = s.mb) (fun old s' h => (read_mb old s').trans h)
    (fun s' h => (getChar_mb s').trans h) x _ rfl

end MbPeekDatastream
