import FcModel.Raw.Scalar

-- The streams of `fc/io/datastream.hpp`.

open Raw

-- `datastream<char*>` and `datastream<const char*>`: the bytes from `_start` to `_end`, and the
-- offset of `_pos`.
structure Datastream where
  bytes : Bytes
  pos   : Nat
deriving DecidableEq, Repr

namespace Datastream

abbrev Action := EStateM Failure Datastream

-- The difference of `_end` and `_pos`, which wraps when `_pos` is beyond the end.
def remaining (ds : Datastream) : Nat :=
  if ds.pos ≤ ds.bytes.length then ds.bytes.length - ds.pos else 2 ^ 64 - (ds.pos - ds.bytes.length)

def unread (ds : Datastream) : Bytes :=
  ds.bytes.drop ds.pos

def read (old : Bytes) : Action Bytes := do
  let ds ← get
  if old.length ≤ ds.remaining then
    if old.length = 0 ∨ ds.pos + old.length ≤ ds.bytes.length then
      set { ds with pos := ds.pos + old.length }
      return ds.unread.take old.length
    else
      throw .access
  else
    throw .outOfRange

def getChar : Action UInt8 := do
  let ds ← get
  match ds.bytes[ds.pos]? with
  | some b => set { ds with pos := ds.pos + 1 }; return b
  | none   => throw .outOfRange

def source : Source UInt8 Failure Datastream where
  read := read
  get  := getChar

def write : Sink UInt8 Failure Datastream := fun bs => do
  let ds ← get
  if bs.length ≤ ds.remaining then
    if bs.length = 0 ∨ ds.pos + bs.length ≤ ds.bytes.length then
      set (⟨ds.bytes.take ds.pos ++ bs ++ ds.bytes.drop (ds.pos + bs.length), ds.pos + bs.length⟩ :
        Datastream)
    else
      throw .access
  else
    throw .outOfRange

-- What is left to read, as long as the position is not beyond the end.
structure Unread (ds : Datastream) (q : Bytes) : Prop where
  pos    : ds.pos ≤ ds.bytes.length
  unread : ds.unread = q

theorem Unread.start (b : Bytes) : Unread ⟨b, 0⟩ b :=
  ⟨Nat.zero_le _, rfl⟩

theorem Unread.remaining {ds : Datastream} {q : Bytes} (h : ds.Unread q) :
    ds.remaining = q.length := by
  rw [Datastream.remaining, if_pos h.pos, ← h.unread, Datastream.unread, List.length_drop]

theorem checked : source.Checked .outOfRange Unread := by
  constructor
  case read =>
    intro ds q old h hl
    have hp := h.pos
    have hlen := h.remaining
    rw [Datastream.remaining, if_pos hp] at hlen
    refine ⟨{ ds with pos := ds.pos + old.length }, ?_, by simp; omega, ?_⟩
    case refine_1 =>
      simp only [source, read, EStateM.run_bind, EStateM.run_get, h.remaining, if_pos hl,
        if_pos (show old.length = 0 ∨ ds.pos + old.length ≤ ds.bytes.length by omega), h.unread]
      rfl
    case refine_2 => rw [← h.unread, unread, unread, List.drop_drop]
  case readShort =>
    intro ds q old h hl
    refine ⟨ds, ?_⟩
    simp only [source, read, EStateM.run_bind, EStateM.run_get, h.remaining,
      if_neg (Nat.not_le_of_lt hl)]
    rfl
  case get =>
    intro ds b q h
    have hb : ds.bytes[ds.pos]? = some b := by
      rw [← List.head?_drop]
      exact congrArg List.head? h.unread
    have hlt := (List.getElem?_eq_some_iff.mp hb).1
    refine ⟨{ ds with pos := ds.pos + 1 }, ?_, hlt, ?_⟩
    case refine_1 =>
      simp only [source, getChar, EStateM.run_bind, EStateM.run_get, hb]
      rfl
    case refine_2 =>
      have := congrArg List.tail h.unread
      rwa [unread, List.tail_drop] at this
  case getShort =>
    intro ds h
    have hb : ds.bytes[ds.pos]? = none := by
      rw [← List.head?_drop]
      exact congrArg List.head? h.unread
    refine ⟨ds, ?_⟩
    simp only [source, getChar, EStateM.run_bind, EStateM.run_get, hb]
    rfl

-- Reading does not change the bytes the stream is over.
theorem run_bytes {α : Type} (x : Unpacker α) (ds : Datastream) :
    (Machine.state ((x.run source).run ds)).bytes = ds.bytes := by
  refine @Decoder.run_invariant _ _ _ _ source (·.bytes = ds.bytes) (fun old ds' h => ?_)
    (fun ds' h => ?_) x _ rfl
  case refine_1 =>
    simp only [source, read, EStateM.run_bind, EStateM.run_get]
    split
    case isTrue =>
      split
      case isTrue  => exact h
      case isFalse => exact h
    case isFalse => exact h
  case refine_2 =>
    simp only [source, getChar, EStateM.run_bind, EStateM.run_get]
    split
    case h_1 => exact h
    case h_2 => exact h

-- What was written from the start on, into a buffer of `n` bytes.
structure Written (n : Nat) (ds : Datastream) (b : Bytes) : Prop where
  length : ds.bytes.length = n
  pos    : ds.pos = b.length
  bytes  : ds.bytes.take ds.pos = b

theorem faithful (n : Nat) : Sink.Faithful write (· ≤ n) (Written n) := by
  refine ⟨Nat.le_trans, fun {ds b} bs h hroom => ?_⟩
  have hlen := h.length
  have hpos := h.pos
  rw [List.length_append] at hroom
  have hrem : ds.remaining = n - b.length := by
    rw [remaining, if_pos (by omega), hlen, hpos]
  refine ⟨⟨ds.bytes.take ds.pos ++ bs ++ ds.bytes.drop (ds.pos + bs.length),
    ds.pos + bs.length⟩, ?_, ?_⟩
  case refine_1 =>
    simp only [write, EStateM.run_bind, EStateM.run_get, hrem,
      if_pos (show bs.length ≤ n - b.length by omega),
      if_pos (show bs.length = 0 ∨ ds.pos + bs.length ≤ ds.bytes.length by omega)]
    rfl
  case refine_2 =>
    rw [h.bytes, hpos]
    constructor
    case length => simp only [List.length_append, List.length_drop]; omega
    case pos    => rw [List.length_append]
    case bytes  => rw [List.take_left' (List.length_append ..)]

-- When as much was written as there was room for, there is nothing else in the buffer.
theorem Written.eq {ds : Datastream} {b : Bytes} (h : Written b.length ds b) :
    ds = ⟨b, b.length⟩ := by
  have hb := h.bytes
  rw [h.pos, List.take_of_length_le (Nat.le_of_eq h.length)] at hb
  have hp := h.pos
  cases ds
  simp_all

end Datastream

-- `datastream<std::vector<char>>` and `datastream<std::deque<char>>`.
structure ContainerStream where
  container : Bytes
  cur       : Nat
deriving DecidableEq, Repr

namespace ContainerStream

abbrev Action := EStateM Failure ContainerStream

def read (old : Bytes) : Action Bytes := do
  let s ← get
  if s.container.length < s.cur + old.length then
    throw .outOfRange
  else
    set { s with cur := s.cur + old.length }
    return (s.container.drop s.cur).take old.length

-- `get` is a `read` of one byte into the character.
def getChar : Action UInt8 := do
  let bs ← read [0]
  return bs.headD 0

def source : Source UInt8 Failure ContainerStream where
  read := read
  get  := getChar

def write : Sink UInt8 Failure ContainerStream := fun bs => do
  let s ← get
  let container := resize s.container (max (s.cur + bs.length) s.container.length) 0
  set (⟨container.take s.cur ++ bs ++ container.drop (s.cur + bs.length), s.cur + bs.length⟩ :
    ContainerStream)

structure Unread (s : ContainerStream) (q : Bytes) : Prop where
  cur    : s.cur ≤ s.container.length
  unread : s.container.drop s.cur = q

theorem Unread.start (b : Bytes) : Unread ⟨b, 0⟩ b :=
  ⟨Nat.zero_le _, rfl⟩

theorem Unread.length {s : ContainerStream} {q : Bytes} (h : s.Unread q) :
    s.container.length = s.cur + q.length := by
  have := h.cur
  rw [← h.unread, List.length_drop]
  omega

theorem read_run {s : ContainerStream} {q : Bytes} (old : Bytes) (h : s.Unread q)
    (hl : old.length ≤ q.length) :
    ∃ s', (read old).run s = .ok (q.take old.length) s' ∧ s'.Unread (q.drop old.length) := by
  have hlen := h.length
  refine ⟨{ s with cur := s.cur + old.length }, ?_, by simp; omega, ?_⟩
  case refine_1 =>
    simp only [read, EStateM.run_bind, EStateM.run_get, h.unread,
      if_neg (show ¬s.container.length < s.cur + old.length by omega)]
    rfl
  case refine_2 => rw [← h.unread, List.drop_drop]

theorem read_run_short {s : ContainerStream} {q : Bytes} (old : Bytes) (h : s.Unread q)
    (hl : q.length < old.length) : (read old).run s = .error .outOfRange s := by
  have hlen := h.length
  simp only [read, EStateM.run_bind, EStateM.run_get,
    if_pos (show s.container.length < s.cur + old.length by omega)]
  rfl

theorem checked : source.Checked .outOfRange Unread where
  read h hl := read_run _ h hl
  readShort old h hl := ⟨_, read_run_short old h hl⟩
  get {s b q} h := by
    have ⟨s', hs, h'⟩ := read_run [0] h (by simp)
    exact ⟨s', by simp only [source, getChar, EStateM.run_bind, hs]; rfl, h'⟩
  getShort h := ⟨_, by
    simp only [source, getChar, EStateM.run_bind, read_run_short [0] h (by simp)]; rfl⟩

theorem read_container (old : Bytes) (s : ContainerStream) :
    (Machine.state ((read old).run s)).container = s.container := by
  simp only [read, EStateM.run_bind, EStateM.run_get]
  split
  case isTrue  => rfl
  case isFalse => rfl

theorem run_container {α : Type} (x : Unpacker α) (s : ContainerStream) :
    (Machine.state ((x.run source).run s)).container = s.container := by
  refine @Decoder.run_invariant _ _ _ _ source (·.container = s.container) (fun old s' h => ?_)
    (fun s' h => ?_) x _ rfl
  case refine_1 => exact (read_container old s').trans h
  case refine_2 =>
    have hr := read_container [0] s'
    simp only [source, getChar, EStateM.run_bind]
    cases hp : (read [0]).run s'
    case ok    => rw [hp] at hr; exact hr.trans h
    case error => rw [hp] at hr; exact hr.trans h

-- What was written to a stream that was empty.
def Written (s : ContainerStream) (b : Bytes) : Prop :=
  s = ⟨b, b.length⟩

theorem faithful : Sink.Faithful write (fun _ => True) Written := by
  refine ⟨fun _ => id, fun {s b} bs h _ => ⟨⟨b ++ bs, (b ++ bs).length⟩, ?_, rfl⟩⟩
  have hr : resize b (max (b.length + bs.length) b.length) 0 = b ++ .replicate bs.length 0 := by
    rw [resize, Nat.max_eq_left (Nat.le_add_right ..), List.take_of_length_le (Nat.le_add_right ..),
      Nat.add_sub_cancel_left]
  rw [h]
  simp only [write, EStateM.run_bind, EStateM.run_get, hr, List.take_left, List.length_append]
  rw [List.drop_of_length_le (by simp), List.append_nil]
  rfl

end ContainerStream

-- `datastream<Streambuf>` over a buffer that holds all of its input. The results of `sgetn` and
-- `sbumpc` are not looked at: what is missing keeps its old value, and a character beyond the end
-- is the `EOF` of the library, cast to `char`.
namespace StreambufStream

def read (old : Bytes) : EStateM Failure Bytes Bytes := do
  let unread ← get
  set (unread.drop old.length)
  return unread.take old.length ++ old.drop unread.length

def getChar : EStateM Failure Bytes UInt8 := do
  match ← get with
  | []     => return 0xff
  | b :: q => set q; return b

def source : Source UInt8 Failure Bytes where
  read := read
  get  := getChar

def write : Sink UInt8 Failure Bytes := fun bs => do
  set ((← get) ++ bs)

theorem faithful (b₀ : Bytes) : Sink.Faithful write (fun _ => True) fun s b => s = b₀ ++ b := by
  refine ⟨fun _ => id, fun {s b} bs h _ => ⟨s ++ bs, rfl, ?_⟩⟩
  rw [h, List.append_assoc]

end StreambufStream

-- `datastream<size_t>`, which only counts.
namespace SizeStream

def write : Sink UInt8 Failure Nat := fun bs => do
  set ((← get) + bs.length)

theorem faithful : Sink.Faithful write (fun _ => True) fun n b => n = b.length := by
  refine ⟨fun _ => id, fun {n b} bs h _ => ⟨n + bs.length, rfl, ?_⟩⟩
  rw [h, List.length_append]

end SizeStream
