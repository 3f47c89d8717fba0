import FcModel.Network.MessageBuffer.Refinement

-- What is left of a buffer, or of an index, when `read` or `peek` throws.

namespace MessageBuffer

-- An exception is thrown. The process that exits and the access outside of the chain throw none.
def Halt.IsException : Halt → Prop
  | outOfRange _ _ | assert => True
  | exit | access           => False

instance : DecidablePred Halt.IsException
  | .outOfRange _ _ | .assert => isTrue trivial
  | .exit | .access           => isFalse id

variable {bufferLen : UInt32} {m m' : MessageBuffer bufferLen} {ind : Index} {size : UInt32}
    {fuel : Nat}

-- The offsets of both indices lie in a buffer. Nothing is said of the buffers they point into.
structure Offsets (m : MessageBuffer bufferLen) : Prop where
  read  : m.readInd.second < bufferLen
  write : m.writeInd.second < bufferLen

section Offsets

open Machine

theorem keeps_reset : Keeps Offsets (reset : Action bufferLen Unit) := by
  refine .get_bind fun m h => ?_
  have hn : 0 < bufferLen := UInt32.lt_of_le_of_lt UInt32.zero_le h.read
  split
  case isTrue  => exact h
  case isFalse => exact ⟨hn, hn⟩

theorem keeps_popFront (k : Nat) : Keeps Offsets (popFront k : Action bufferLen Unit) := by
  induction k
  case zero => exact .pure ()
  case succ k hi =>
    refine .get_bind fun m h => ?_
    split
    case h_1 => exact h
    case h_2 => exact hi _ ⟨h.read, h.write⟩

theorem keeps_advanceReadPtr (bytes : UInt32) :
    Keeps Offsets (advanceReadPtr bytes : Action bufferLen Unit) := by
  refine .get_bind fun m h => ?_
  have hn : 0 < bufferLen := UInt32.lt_of_le_of_lt UInt32.zero_le h.read
  have h' : Offsets { m with readInd := advanceIndex bufferLen m.readInd bytes } :=
    ⟨advanceIndex_second_lt hn .., h.write⟩
  rw [EStateM.run_bind, EStateM.run_set]
  simp only
  split
  case isTrue  => exact keeps_reset _ h'
  case isFalse => exact keeps_popFront _ _ h'

theorem offsets_pushBuffers (fresh : Fresh bufferLen) (k : Nat) (h : m.Offsets) :
    (m.pushBuffers fresh k).Offsets := by
  rw [pushBuffers_eq]
  exact ⟨h.read, h.write⟩

theorem keeps_read_go (fuel : Nat) (size : UInt32) :
    Keeps Offsets (read.go fuel size : Action bufferLen (List UInt8)) := by
  induction fuel generalizing size
  case zero => exact .throw _
  case succ fuel hi =>
    refine .get_bind fun m h => ?_
    split
    case isTrue => exact h
    case isFalse =>
      split
      case isTrue =>
        split
        case h_1 => exact h
        case h_2 => exact (keeps_advanceReadPtr _).bind (fun _ => .pure _) m h
      case isFalse =>
        split
        case h_1 => exact h
        case h_2 => exact (keeps_advanceReadPtr _).bind (fun _ => (hi _).bind fun _ => .pure _) m h

theorem keeps_exec (op : Op bufferLen) : Keeps Offsets op.exec := by
  cases op
  case addBufferToChain fresh => exact fun m h => offsets_pushBuffers fresh 1 h
  case addSpace bytes fresh   => exact fun m h => offsets_pushBuffers fresh _ h
  case advanceWritePtr bytes fresh =>
    intro m h
    have hn : 0 < bufferLen := UInt32.lt_of_le_of_lt UInt32.zero_le h.read
    exact offsets_pushBuffers fresh _ ⟨h.read, advanceIndex_second_lt hn ..⟩
  case read size => exact keeps_read_go _ size
  case peek size index =>
    refine .get_bind fun m h => ?_
    split
    case h_1 => exact h
    case h_2 => exact h
  case advanceReadPtr bytes => exact (keeps_advanceReadPtr bytes).bind fun _ => .pure _
  case reset                => exact keeps_reset.bind fun _ => .pure _

-- Whatever the clients of a buffer do.
theorem offsets_of_reachable (hn : 0 < bufferLen) {fresh : Fresh bufferLen}
    (h : Reachable Op.exec (fun _ _ => True) (init fresh) m) : m.Offsets :=
  h.invariant ⟨hn, hn⟩ fun h _ => keeps_exec _ _ h

end Offsets

section Boundary

-- The step to the next buffer, in the arithmetic of `uint32_t`, which is exact here whatever the
-- indices are.

theorem advanceIndex_boundary (h : ind.second < bufferLen) :
    advanceIndex bufferLen ind (bufferLen - ind.second) = ⟨ind.first + 1, 0⟩ := by
  have hsum : bufferLen - ind.second + ind.second = bufferLen := by grind
  have hlen : 0 < bufferLen.toNat := UInt32.lt_iff_toNat_lt.mp (UInt32.lt_of_le_of_lt UInt32.zero_le h)
  have hdiv : bufferLen / bufferLen = 1 := UInt32.toNat_inj.mp (by rw [UInt32.toNat_div]; exact Nat.div_self hlen)
  have hmod : bufferLen % bufferLen = 0 := UInt32.toNat_inj.mp (by rw [UInt32.toNat_mod]; exact Nat.mod_self _)
  rw [advanceIndex, hsum, hdiv, hmod]

theorem bytesToReadFromIndex_boundary (m : MessageBuffer bufferLen) (ind : Index) :
    m.bytesToReadFromIndex ⟨ind.first + 1, 0⟩ = m.bytesToReadFromIndex ind - (bufferLen - ind.second) := by
  simp only [bytesToReadFromIndex]
  grind

-- A request that does not end in the current buffer is for more than the rest of it.
theorem numInBuffer_lt (h : ind.second < bufferLen) (hs : ¬ind.second + size ≤ bufferLen) :
    bufferLen - ind.second < size := by
  have h' := UInt32.lt_iff_toNat_lt.mp h
  have := size.toNat_lt
  have := bufferLen.toNat_lt
  rw [UInt32.le_iff_toNat_le, UInt32.toNat_add] at hs
  rw [UInt32.lt_iff_toNat_lt, UInt32.toNat_sub_of_le _ _ (UInt32.le_of_lt h)]
  omega

-- What was enough for the whole request is enough for the rest of it.
theorem not_lt_sub {left k : UInt32} (hk : k < size) (h : ¬left < size) : ¬left - k < size - k := by
  rw [UInt32.lt_iff_toNat_lt] at h hk
  have hl : k.toNat ≤ left.toNat := by omega
  rw [UInt32.lt_iff_toNat_lt, UInt32.toNat_sub_of_le _ _ (UInt32.le_iff_toNat_le.mpr hl),
    UInt32.toNat_sub_of_le _ _ (UInt32.le_iff_toNat_le.mpr (Nat.le_of_lt hk))]
  omega

theorem popFront_short {k : Nat} (h : m.buffers.length < k) : ∃ m',
    (popFront k).run m = .error .access m' := by
  induction k generalizing m
  case zero => cases h
  case succ k hi =>
    cases hb : m.buffers
    case nil         => exact ⟨m, by simp only [popFront, EStateM.run_bind, EStateM.run_get, hb]; rfl⟩
    case cons b bs =>
      rw [hb] at h
      simp only [popFront, EStateM.run_bind, EStateM.run_get, hb, EStateM.run_set]
      exact hi (Nat.lt_of_succ_lt_succ h)

-- Freeing buffers moves both indices by the same amount.
theorem popFront_bytesToRead {k : Nat} (h : (popFront k).run m = .ok () m') :
    m'.bytesToRead = m.bytesToRead := by
  by_cases hk : k ≤ m.buffers.length
  case pos =>
    rw [popFront_run hk] at h
    cases h
    simp only [bytesToRead, bytesToReadFromIndex]
    grind
  case neg =>
    obtain ⟨m'', he⟩ := popFront_short (Nat.lt_of_not_le hk)
    rw [he] at h
    cases h

theorem popFront_not_exception {k : Nat} {e : Halt} (h : (popFront k).run m = .error e m') :
    ¬e.IsException := by
  by_cases hk : k ≤ m.buffers.length
  case pos => rw [popFront_run hk] at h; cases h
  case neg =>
    obtain ⟨m'', he⟩ := popFront_short (Nat.lt_of_not_le hk)
    rw [he] at h
    cases h
    exact id

theorem reset_not_exception {e : Halt} (h : reset.run m = .error e m') : ¬e.IsException := by
  simp only [reset, EStateM.run_bind, EStateM.run_get] at h
  split at h
  case isTrue  => cases h; exact id
  case isFalse => cases h

-- Moving the read index may free what is not there or end the process, but it throws nothing.
theorem advanceReadPtr_not_exception {bytes : UInt32} {e : Halt}
    (h : (advanceReadPtr bytes).run m = .error e m') :
    ¬e.IsException := by
  simp only [advanceReadPtr, EStateM.run_bind, EStateM.run_get, EStateM.run_set] at h
  split at h
  case isTrue  => exact reset_not_exception h
  case isFalse => exact popFront_not_exception h

theorem getPtr_not_exception {e : Halt} (h : m.getPtr ind = .error e) : ¬e.IsException := by
  unfold getPtr at h
  split at h
  case h_1 => cases h; exact id
  case h_2 =>
    split at h
    case isTrue  => cases h
    case isFalse => cases h; exact id

-- The step to the next buffer takes what was left of this one off the bytes to read.
theorem advanceReadPtr_boundary (h : m.readInd.second < bufferLen)
    (hl : bufferLen - m.readInd.second < m.bytesToRead)
    (hrun : (advanceReadPtr (bufferLen - m.readInd.second)).run m = .ok () m') :
    m'.bytesToRead = m.bytesToRead - (bufferLen - m.readInd.second) := by
  simp only [advanceReadPtr, EStateM.run_bind, EStateM.run_get, EStateM.run_set,
    advanceIndex_boundary h] at hrun
  have hb := bytesToReadFromIndex_boundary m m.readInd
  split at hrun
  case isTrue he =>
    -- Then nothing would be left.
    rw [he] at hb
    have hz : m.bytesToReadFromIndex m.writeInd = 0 := by
      simp only [bytesToReadFromIndex]
      grind
    rw [hz] at hb
    exact absurd (show bufferLen - m.readInd.second = m.bytesToRead by rw [bytesToRead]; grind) (UInt32.ne_of_lt hl)
  case isFalse =>
    have hp := popFront_bytesToRead hrun
    rw [hp]
    exact hb

end Boundary

-- Once the first check is passed, no call throws, however many of them follow.
theorem read_go_not_exception {e : Halt} (ho : m.Offsets) (hs : ¬m.bytesToRead < size)
    (h : (read.go fuel size).run m = .error e m') : ¬e.IsException := by
  induction fuel generalizing m size
  case zero => cases h; exact id
  case succ fuel hi =>
    simp only [read.go, EStateM.run_bind, EStateM.run_get, if_neg hs] at h
    split at h
    case isTrue =>
      split at h
      case h_1 hp => cases h; exact getPtr_not_exception hp
      case h_2    =>
        rw [EStateM.run_bind] at h
        split at h
        case h_1      => cases h
        case h_2 hadv => cases h; exact advanceReadPtr_not_exception hadv
    case isFalse hl =>
      split at h
      case h_1 hp => cases h; exact getPtr_not_exception hp
      case h_2    =>
        rw [EStateM.run_bind] at h
        split at h
        case h_2 hadv      => cases h; exact advanceReadPtr_not_exception hadv
        case h_1 m₁ hadv =>
          have hk := numInBuffer_lt ho.read hl
          have hleft := advanceReadPtr_boundary ho.read (UInt32.lt_of_lt_of_le hk (UInt32.not_lt.mp hs)) hadv
          have ho' := keeps_advanceReadPtr (bufferLen - m.readInd.second) m ho
          rw [hadv] at ho'
          rw [EStateM.run_bind] at h
          split at h
          case h_1     => cases h
          case h_2 hgo => cases h; exact hi ho' (hleft ▸ not_lt_sub hk hs) hgo

theorem peek_go_not_exception {ind' : Index} {e : Halt} (hi : ind.second < bufferLen)
    (hs : ¬m.bytesToReadFromIndex ind < size) (h : (peek.go m fuel size).run ind = .error e ind') :
    ¬e.IsException := by
  induction fuel generalizing ind size
  case zero => cases h; exact id
  case succ fuel ih =>
    simp only [peek.go, EStateM.run_bind, EStateM.run_get, if_neg hs] at h
    split at h
    case isTrue =>
      split at h
      case h_1 hp => cases h; exact getPtr_not_exception hp
      case h_2    => cases h
    case isFalse hl =>
      split at h
      case h_1 hp => cases h; exact getPtr_not_exception hp
      case h_2    =>
        simp only [EStateM.run_bind, EStateM.run_set, advanceIndex_boundary hi] at h
        split at h
        case h_1     => cases h
        case h_2 hgo =>
          cases h
          have hk := numInBuffer_lt hi hl
          refine ih (UInt32.lt_of_le_of_lt UInt32.zero_le hi) ?_ hgo
          rw [bytesToReadFromIndex_boundary]
          exact not_lt_sub hk hs

-- `read` and `peek` throw where there are too few bytes, there only, and before they change
-- anything.
structure FailsIntact (m : MessageBuffer bufferLen) : Prop where
  read       : ∀ size, (∃ e m', (read size).run m = .error e m' ∧ e.IsException) ↔ m.bytesToRead < size
  readIntact : ∀ size e m', (MessageBuffer.read size).run m = .error e m' → e.IsException → m' = m
  peek       : ∀ size ind, ind.second < bufferLen →
    ((∃ e ind', (m.peek size).run ind = .error e ind' ∧ e.IsException) ↔ m.bytesToReadFromIndex ind < size)
  peekIntact : ∀ size ind, ind.second < bufferLen →
    ∀ e ind', (m.peek size).run ind = .error e ind' → e.IsException → ind' = ind

theorem Offsets.failsIntact (h : m.Offsets) : m.FailsIntact := by
  have hread : ∀ size e m', (MessageBuffer.read size).run m = .error e m' → e.IsException → m.bytesToRead < size :=
    fun size e m' he hx => by_contra fun hs => read_go_not_exception h hs he hx
  have hpeek : ∀ size ind, ind.second < bufferLen → ∀ e ind', (m.peek size).run ind = .error e ind' →
      e.IsException → m.bytesToReadFromIndex ind < size :=
    fun size ind hi e ind' he hx => by_contra fun hs => peek_go_not_exception hi hs he hx
  constructor
  case read       => exact fun size => ⟨fun ⟨e, m', he, hx⟩ => hread size e m' he hx, fun hs => ⟨_, _, read_short hs, trivial⟩⟩
  case readIntact =>
    intro size e m' he hx
    rw [read_short (hread size e m' he hx)] at he
    cases he
    rfl
  case peek =>
    exact fun size ind hi => ⟨fun ⟨e, ind', he, hx⟩ => hpeek size ind hi e ind' he hx, fun hs => ⟨_, _, peek_short hs, trivial⟩⟩
  case peekIntact =>
    intro size ind hi e ind' he hx
    rw [peek_short (hpeek size ind hi e ind' he hx)] at he
    cases he
    rfl

-- What there is can be read and peeked at.
structure ReadsComplete (m : MessageBuffer bufferLen) : Prop where
  read : ∀ size, size ≤ m.bytesToRead → ∃ m', (read size).run m = .ok (m.content.take size.toNat) m'
  peek : ∀ size ind, m.Valid ind → size ≤ m.bytesToReadFromIndex ind →
    ∃ out ind', (m.peek size).run ind = .ok out ind' ∧ out.length = size.toNat

theorem Represents.readsComplete {q : List UInt8} (h : m.Represents q) : m.ReadsComplete := by
  constructor
  case read =>
    intro size hs
    obtain ⟨m', hrun, _⟩ := read_spec h (h.le_bytesToRead hs)
    exact ⟨m', h.content ▸ hrun⟩
  case peek =>
    intro size ind hv hs
    obtain ⟨hr, hw⟩ := Valid.pos_le h hv
    have hlen := h.length_eq
    rw [UInt32.le_iff_toNat_le, bytesToReadFromIndex_toNat hw h.write_pos_lt_two_pow] at hs
    obtain ⟨ind', hrun, _⟩ := @peek_spec _ _ _ ind size h hv.second hr (by omega)
    exact ⟨_, ind', hrun, by rw [List.length_take, List.length_drop]; omega⟩

-- Whatever the clients of a buffer do, a failed `read` or `peek` leaves all as it was. Where they
-- keep to the sizes the class is made for, both return when they do not throw.
theorem failed_reads_intact (hn : 0 < bufferLen) {fresh : Fresh bufferLen}
    (h : Machine.Reachable Op.exec (fun _ _ => True) (init fresh) m) :
    m.FailsIntact ∧ (Machine.Reachable Op.exec Op.Adm (init fresh) m → m.ReadsComplete) := by
  refine ⟨(offsets_of_reachable hn h).failsIntact, fun ha => ?_⟩
  obtain ⟨q, hq⟩ := represents_of_reachable hn ha
  exact hq.readsComplete

-- Seven bytes are written to buffers of two, and three of them are read.
theorem failed_reads_intact_after_read :
    (Machine.state <| (Op.read 3).exec.run <| Machine.state <|
      (Op.advanceWritePtr 7 fun _ => #v[0, 0]).exec.run <|
      (init fun _ => #v[0, 0] : MessageBuffer 2)).FailsIntact :=
  (failed_reads_intact (by decide) (.step (.step .init trivial) trivial)).left

end MessageBuffer
