import FcModel.Network.MessageBuffer.Atomic
import FcModel.Network.MessageBuffer.Datastream

-- The function `skip` of the two streams, which hands its argument on to arithmetic of indices.

open Raw

theorem MessageBuffer.Halt.isException_toFailure (e : Halt) : e.toFailure.IsException ↔
    e.IsException := by
  cases e <;> exact Iff.rfl

namespace MbDatastream

open MessageBuffer

variable {bufferLen : UInt32} {m m' : MessageBuffer bufferLen} {q : List UInt8}

-- The `size_t` becomes a `uint32_t`.
def skip (s : UInt64) : Action bufferLen Unit := fun m =>
  match (advanceReadPtr s.toUInt32).run m with
  | .ok _ m'    => .ok () m'
  | .error e m' => .error e.toFailure m'

-- What is to be expected of `skip`: it moves the read position by `s`, at most to the write
-- position, and throws where there are fewer bytes.
structure SkipsInside (m : MessageBuffer bufferLen) (s : UInt64) : Prop where
  inside : s.toNat ≤ m.bytesToRead.toNat →
    ∃ m', (skip s).run m = .ok () m' ∧ m'.Inv ∧ m'.bytesToRead.toNat = m.bytesToRead.toNat - s.toNat
  beyond : m.bytesToRead.toNat < s.toNat → ∃ e, (skip s).run m = .error e m ∧ e.IsException

-- What is done to a buffer that a stream reads from: calls of its own functions, and skips.
inductive Step (bufferLen : UInt32)
  | buffer (op : Op bufferLen)
  | skip (s : UInt64)

namespace Step

def exec : Step bufferLen → Action bufferLen Unit
  | buffer op => fun m =>
    match op.exec.run m with
    | .ok _ m'    => .ok () m'
    | .error e m' => .error e.toFailure m'
  | skip s    => MbDatastream.skip s

-- The discipline of `message_buffer`, and no skip beyond the bytes that are there.
def Adm (m : MessageBuffer bufferLen) : Step bufferLen → Prop
  | buffer op => op.Adm m
  | skip s    => s.toNat ≤ m.bytesToRead.toNat

instance {step : Step bufferLen} : Decidable (Adm m step) := by
  cases step <;> unfold Adm <;> infer_instance

end Step

theorem toUInt32_toNat {s : UInt64} {n : UInt32} (h : s.toNat ≤ n.toNat) :
    s.toUInt32.toNat = s.toNat := by
  have := n.toNat_lt
  rw [UInt64.toNat_toUInt32]
  omega

theorem skip_run {s : UInt64} (h : m.Represents q) (hs : s.toNat ≤ m.bytesToRead.toNat) :
    ∃ m', (skip s).run m = .ok () m' ∧ m'.Represents (q.drop s.toNat) := by
  have hn := toUInt32_toNat hs
  obtain ⟨m', hrun, h'⟩ := @advanceReadPtr_spec _ _ _ s.toUInt32 h (by rw [hn, ← h.bytesToRead_toNat]; exact hs)
  rw [hn] at h'
  exact ⟨m', by simp only [skip, EStateM.run] at hrun ⊢; rw [hrun], h'⟩

theorem skip_not_exception {s : UInt64} {e : Failure} (h : (skip s).run m = .error e m') :
    ¬e.IsException := by
  simp only [skip, EStateM.run] at h
  split at h
  case h_1         => cases h
  case h_2 e' m'' hadv =>
    cases h
    exact mt e'.isException_toFailure.mp (advanceReadPtr_not_exception hadv)

theorem represents_of_step {fresh : Fresh bufferLen} (hn : 0 < bufferLen)
    (h : Machine.Reachable Step.exec Step.Adm (init fresh) m) : ∃ q, m.Represents q := by
  apply h.invariant ⟨[], Represents.init hn⟩
  intro m step hm ha
  obtain ⟨q, hq⟩ := hm
  cases step
  case skip s =>
    obtain ⟨m', hrun, h'⟩ := skip_run hq ha
    exact ⟨_, by rw [Step.exec, hrun]; exact h'⟩
  case buffer op =>
    have ho := Op.exec_outcome hq op ha
    simp only [Step.exec, EStateM.run] at ho ⊢
    generalize op.exec m = r at ho
    cases ho
    case ok h'      => exact ⟨_, h'⟩
    case outOfRange => exact ⟨q, hq⟩
    case badIndex   => exact ⟨q, hq⟩

theorem skipsInside_iff (h : m.Represents q) (s : UInt64) : SkipsInside m s ↔
    s.toNat ≤ m.bytesToRead.toNat := by
  constructor
  case mp =>
    intro hs
    by_contra hlt
    obtain ⟨e, he, hx⟩ := hs.beyond (Nat.lt_of_not_le hlt)
    exact skip_not_exception he hx
  case mpr =>
    intro hs
    refine ⟨fun _ => ?_, fun hlt => absurd hs (Nat.not_le_of_lt hlt)⟩
    obtain ⟨m', hrun, h'⟩ := skip_run h hs
    refine ⟨m', hrun, h'.inv, ?_⟩
    rw [h'.bytesToRead_toNat, h.bytesToRead_toNat, List.length_drop]

end MbDatastream

namespace MbPeekDatastream

open MessageBuffer

variable {bufferLen : UInt32} {st : MbPeekDatastream bufferLen} {q : List UInt8}

def remaining (st : MbPeekDatastream bufferLen) : UInt32 :=
  st.mb.bytesToReadFromIndex st.index

def skip (s : UInt64) : Action bufferLen Unit :=
  modify fun st => { st with index := advanceIndex bufferLen st.index s.toUInt32 }

structure SkipsInside (st : MbPeekDatastream bufferLen) (s : UInt64) : Prop where
  inside : s.toNat ≤ st.remaining.toNat → ∃ st', (skip s).run st = .ok () st' ∧ st'.mb = st.mb ∧
    st'.mb.Valid st'.index ∧ st'.remaining.toNat = st.remaining.toNat - s.toNat
  beyond : st.remaining.toNat < s.toNat → ∃ e, (skip s).run st = .error e st ∧ e.IsException

inductive Step
  | read (old : Bytes)
  | get
  | skip (s : UInt64)

namespace Step

def exec : Step → Action bufferLen Unit
  | read old => do let _ ← MbPeekDatastream.read old
  | get      => do let _ ← getChar
  | skip s   => MbPeekDatastream.skip s

def Adm (st : MbPeekDatastream bufferLen) : Step → Prop
  | read _ | get => True
  | skip s       => s.toNat ≤ st.remaining.toNat

end Step

theorem skip_run {s : UInt64} (h : st.Unread q) (hs : s.toNat ≤ st.remaining.toNat) :
    ∃ st', (skip s).run st = .ok () st' ∧ st'.mb = st.mb ∧ st'.Unread (q.drop s.toNat) := by
  have hn := MbDatastream.toUInt32_toNat hs
  have hlen := h.length
  have hw := h.write
  have hr := h.read
  rw [remaining, h.bytesToRead_toNat] at hs
  have hlt := h.represents.write_pos_lt_two_pow
  have hlp := h.represents.inv.len_pos
  have hpos := advanceIndex_pos hlp st.index s.toUInt32 (by omega)
  rw [hn] at hpos
  refine ⟨{ st with index := advanceIndex bufferLen st.index s.toUInt32 }, rfl, rfl, h.represents,
    advanceIndex_second_lt hlp .., by simp; omega, by simp; omega, ?_⟩
  simp only [hpos]
  rw [Nat.sub_add_comm hr, ← List.drop_drop, h.unread]

theorem Unread.valid (h : st.Unread q) : st.mb.Valid st.index where
  second := h.second
  read   := (Index.le_iff_pos_le _ _ h.represents.inv.readSecond h.second).mpr h.read
  write  := (Index.le_iff_pos_le _ _ h.second h.represents.inv.writeSecond).mpr h.write

-- A call of `message_buffer::peek` that throws leaves the stream as it was.
theorem peekBuffer_unread (size : UInt32) (h : st.Unread q) :
    ∃ q', (Machine.state ((peekBuffer size).run st)).Unread q' := by
  by_cases hl : size.toNat ≤ q.length
  case pos =>
    obtain ⟨st', hrun, h'⟩ := peekBuffer_run h size hl
    exact ⟨_, by rw [hrun]; exact h'⟩
  case neg =>
    rw [peekBuffer_run_short h size (Nat.lt_of_not_le hl)]
    exact ⟨q, h⟩

theorem exec_unread (step : Step) (h : st.Unread q) (ha : step.Adm st) :
    ∃ q', (Machine.state (step.exec.run st)).Unread q' := by
  cases step
  case skip s =>
    obtain ⟨st', hrun, _, h'⟩ := skip_run h ha
    exact ⟨_, by rw [Step.exec, hrun]; exact h'⟩
  case read old =>
    have hp := peekBuffer_unread (.ofNat old.length) h
    simp only [Step.exec, MbPeekDatastream.read, EStateM.run_bind, EStateM.run_get]
    by_cases hl : old.length ≤ (st.mb.bytesToReadFromIndex st.index).toNat
    case pos =>
      simp only [if_pos hl]
      cases hr : (peekBuffer (.ofNat old.length)).run st
      case ok    => rw [hr] at hp; exact hp
      case error => rw [hr] at hp; exact hp
    case neg =>
      simp only [if_neg hl]
      exact ⟨q, h⟩
  case get =>
    have hp := peekBuffer_unread 1 h
    simp only [Step.exec, getChar, EStateM.run_bind]
    cases hr : (peekBuffer 1).run st
    case ok    => rw [hr] at hp; exact hp
    case error => rw [hr] at hp; exact hp

theorem unread_of_reachable {m : MessageBuffer bufferLen} (h : m.Represents q)
    (hr : Machine.Reachable Step.exec Step.Adm (create m) st) : ∃ q', st.Unread q' := by
  apply hr.invariant ⟨q, Unread.create h⟩
  intro st step hst ha
  obtain ⟨q', h'⟩ := hst
  exact exec_unread step h' ha

theorem skipsInside_iff (h : st.Unread q) (s : UInt64) : st.SkipsInside s ↔
    s.toNat ≤ st.remaining.toNat := by
  constructor
  case mp =>
    intro hs
    by_contra hlt
    obtain ⟨e, he, _⟩ := hs.beyond (Nat.lt_of_not_le hlt)
    cases he
  case mpr =>
    intro hs
    refine ⟨fun _ => ?_, fun hlt => absurd hs (Nat.not_le_of_lt hlt)⟩
    obtain ⟨st', hrun, hmb, h'⟩ := skip_run h hs
    refine ⟨st', hrun, hmb, h'.valid, ?_⟩
    rw [remaining, remaining, h'.bytesToRead_toNat, h.bytesToRead_toNat, List.length_drop]

end MbPeekDatastream

namespace MessageBuffer

variable {bufferLen : UInt32} {m : MessageBuffer bufferLen}

-- Neither `skip` looks at how much there is to read. As long as no step skips beyond it, the buffer
-- stays consistent, and in every state that is reached a skip does what is expected of it exactly
-- when it does not go beyond what is left either.
theorem skips_inside_iff (hn : 0 < bufferLen) {fresh : Fresh bufferLen}
    (h : Machine.Reachable MbDatastream.Step.exec MbDatastream.Step.Adm (init fresh) m) :
    m.Inv ∧
    (∀ s, MbDatastream.SkipsInside m s ↔ s.toNat ≤ m.bytesToRead.toNat) ∧
    ∀ st,
    Machine.Reachable MbPeekDatastream.Step.exec MbPeekDatastream.Step.Adm (MbPeekDatastream.create m) st →
      ∀ s, st.SkipsInside s ↔ s.toNat ≤ st.remaining.toNat := by
  obtain ⟨q, hq⟩ := MbDatastream.represents_of_step hn h
  refine ⟨hq.inv, MbDatastream.skipsInside_iff hq, fun st hst => ?_⟩
  obtain ⟨q', h'⟩ := MbPeekDatastream.unread_of_reachable hq hst
  exact MbPeekDatastream.skipsInside_iff h'

-- Seven bytes are written to buffers of two, and three of them are skipped.
theorem skips_inside_iff_three : MbDatastream.SkipsInside
    (Machine.state <| (MbDatastream.Step.skip 3).exec.run <| Machine.state <|
      (MbDatastream.Step.buffer (.advanceWritePtr 7 fun _ => #v[0, 0])).exec.run <|
      (init fun _ => #v[0, 0] : MessageBuffer 2)) 4 ↔ (4 : UInt32).toNat ≤ 4 :=
  (skips_inside_iff (by decide) (.step (.step .init (by decide)) (by decide))).2.1 4

-- One byte is skipped in a buffer that has none, and almost all of the numbers are left to read.
theorem not_skipsInside_empty :
    ¬MbDatastream.SkipsInside (init fun _ => #v[0, 0] : MessageBuffer 2) 1 ∧
    ¬(MbPeekDatastream.create (init fun _ => #v[0, 0] : MessageBuffer 2)).SkipsInside 1 ∧
    (Machine.state ((MbDatastream.skip 1).run (init fun _ => #v[0, 0] : MessageBuffer 2))).bytesToRead = 4294967295 := by
  refine ⟨fun h => ?_, fun h => ?_, by decide⟩
  case refine_1 =>
    obtain ⟨e, he, _⟩ := h.beyond (by decide)
    cases he
  case refine_2 =>
    obtain ⟨e, he, _⟩ := h.beyond (by decide)
    cases he

end MessageBuffer
