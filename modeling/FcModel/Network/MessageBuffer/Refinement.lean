import FcModel.Lib.Fifo
import FcModel.Network.MessageBuffer.Operations

namespace MessageBuffer

variable {bufferLen : UInt32} {m : MessageBuffer bufferLen} {q : List UInt8}

-- A chain of `k` buffers is within the sizes the class is made for.
def Fits (bufferLen : UInt32) (k : Nat) : Prop :=
  k ≤ 1000000 ∧ bufferLen.toNat * k < 2 ^ 32

instance {k : Nat} : Decidable (Fits bufferLen k) := inferInstanceAs (Decidable (_ ∧ _))

-- An index that a client may peek at: it lies between the read index and the write index.
structure Valid (m : MessageBuffer bufferLen) (ind : Index) : Prop where
  second : ind.second < bufferLen
  read   : m.readInd.Le ind
  write  : ind.Le m.writeInd

instance {ind : Index} : Decidable (m.Valid ind) :=
  decidable_of_iff (ind.second < bufferLen ∧ m.readInd.Le ind ∧ ind.Le m.writeInd)
    ⟨fun ⟨s, r, w⟩ => ⟨s, r, w⟩, fun ⟨s, r, w⟩ => ⟨s, r, w⟩⟩

-- The member functions that change the buffer or read from it.
inductive Op (bufferLen : UInt32)
  | addBufferToChain (fresh : Fresh bufferLen)
  | addSpace (bytes : UInt32) (fresh : Fresh bufferLen)
  | advanceWritePtr (bytes : UInt32) (fresh : Fresh bufferLen)
  | read (size : UInt32)
  | peek (size : UInt32) (index : Index)
  | advanceReadPtr (bytes : UInt32)
  | reset

namespace Op

def exec : Op bufferLen → Action bufferLen (List UInt8)
  | addBufferToChain fresh      => do MessageBuffer.addBufferToChain fresh; return []
  | addSpace bytes fresh        => do MessageBuffer.addSpace bytes fresh; return []
  | advanceWritePtr bytes fresh => do MessageBuffer.advanceWritePtr bytes fresh; return []
  | read size                   => MessageBuffer.read size
  | peek size index             => do
    let m ← get
    match (m.peek size).run index with
    | .ok out _   => return out
    | .error e _  => throw e
  | advanceReadPtr bytes        => do MessageBuffer.advanceReadPtr bytes; return []
  | reset                       => do MessageBuffer.reset; return []

-- The discipline of the clients: the sizes stay within their bounds, computed as unbounded numbers,
-- and no more is skipped than there is to read.
def Adm (m : MessageBuffer bufferLen) : Op bufferLen → Prop
  | addBufferToChain _      => Fits bufferLen (m.buffers.length + 1)
  | addSpace bytes _        => Fits bufferLen (m.buffers.length + (bytes.toNat / bufferLen.toNat + 1))
  | advanceWritePtr bytes _ =>
    m.writeInd.pos bufferLen + bytes.toNat < 2 ^ 32 ∧
    Fits bufferLen (m.grown (m.writeInd.pos bufferLen + bytes.toNat))
  | advanceReadPtr bytes    => bytes ≤ m.bytesToRead
  | read _ | peek _ _       => True
  | reset                   => True

instance {op : Op bufferLen} : Decidable (Adm m op) := by
  cases op <;> unfold Adm <;> infer_instance

-- A peek is the only operation that takes an index from its client.
def InRange (m : MessageBuffer bufferLen) : Op bufferLen → Prop
  | peek _ index => m.Valid index
  | _            => True

end Op

theorem Valid.pos_le {ind : Index} (h : m.Represents q) (hv : m.Valid ind) :
    m.readInd.pos bufferLen ≤ ind.pos bufferLen ∧ ind.pos bufferLen ≤ m.writeInd.pos bufferLen :=
  ⟨(Index.le_iff_pos_le _ _ h.inv.readSecond hv.second).mp hv.read,
   (Index.le_iff_pos_le _ _ hv.second h.inv.writeSecond).mp hv.write⟩

-- What an operation can do in a consistent state: it returns and leaves a consistent state, or it
-- throws an out-of-range exception and leaves the buffer as it was. A peek at an index outside of
-- the unread bytes may fail in other ways, but it does not change the buffer either.
inductive Op.Outcome (m : MessageBuffer bufferLen) (op : Op bufferLen) :
    EStateM.Result Halt (MessageBuffer bufferLen) (List UInt8) → Prop
  | ok {out m' q'} (h : m'.Represents q') : Outcome m op (.ok out m')
  | outOfRange {tried left} : Outcome m op (.error (.outOfRange tried left) m)
  | badIndex {e} (h : ¬op.InRange m) : Outcome m op (.error e m)

theorem Op.exec_peek_outcome (h : m.Represents q) (size : UInt32) (index : Index) :
    Op.Outcome m (.peek size index) ((Op.peek size index).exec.run m) := by
  by_cases hv : m.Valid index
  case pos =>
    have ⟨hr, hw⟩ := Valid.pos_le h hv
    by_cases hl : index.pos bufferLen + size.toNat ≤ m.writeInd.pos bufferLen
    case pos =>
      have ⟨ind', hrun, _⟩ := peek_spec h hv.second hr hl
      simp only [exec, EStateM.run_bind, EStateM.run_get, hrun]
      exact .ok h
    case neg =>
      simp only [exec, EStateM.run_bind, EStateM.run_get, peek_error h hw (Nat.lt_of_not_le hl)]
      exact .outOfRange
  case neg =>
    simp only [exec, EStateM.run_bind, EStateM.run_get]
    cases (m.peek size).run index
    case ok    => exact .ok h
    case error => exact .badIndex hv

theorem Op.exec_outcome (h : m.Represents q) (op : Op bufferLen) (ha : op.Adm m) :
    Op.Outcome m op (op.exec.run m) := by
  cases op
  case addBufferToChain fresh =>
    have ⟨m', hrun, h'⟩ := addBufferToChain_spec fresh h ha.left ha.right
    simp only [exec, EStateM.run_bind, hrun]
    exact .ok h'
  case addSpace bytes fresh =>
    have ⟨m', hrun, h'⟩ := addSpace_spec bytes fresh h ha.left ha.right
    simp only [exec, EStateM.run_bind, hrun]
    exact .ok h'
  case advanceWritePtr bytes fresh =>
    have ⟨m', _, hrun, h'⟩ := advanceWritePtr_spec bytes fresh h ha.right.left ha.right.right
    simp only [exec, EStateM.run_bind, hrun]
    exact .ok h'
  case read size =>
    by_cases hl : size.toNat ≤ q.length
    case pos =>
      have ⟨m', hrun, h'⟩ := read_spec h hl
      simp only [exec, hrun]
      exact .ok h'
    case neg =>
      simp only [exec, read_error h (Nat.lt_of_not_le hl)]
      exact .outOfRange
  case peek size index => exact exec_peek_outcome h size index
  case advanceReadPtr bytes =>
    have hb : bytes.toNat ≤ q.length := h.bytesToRead_toNat ▸ UInt32.le_iff_toNat_le.mp ha
    have ⟨m', hrun, h'⟩ := advanceReadPtr_spec h hb
    simp only [exec, EStateM.run_bind, hrun]
    exact .ok h'
  case reset =>
    have ⟨m', hrun, h'⟩ := reset_spec h.inv.len_pos h.inv.sanity h.inv.nonempty h.bounded
    simp only [exec, EStateM.run_bind, hrun]
    exact .ok h'

theorem represents_of_reachable (hn : 0 < bufferLen) {fresh : Fresh bufferLen}
    (h : Machine.Reachable Op.exec Op.Adm (init fresh) m) : ∃ q, m.Represents q := by
  apply h.invariant ⟨[], Represents.init hn⟩
  intro m op hm ha
  have ⟨q, hq⟩ := hm
  have ho := Op.exec_outcome hq op ha
  generalize op.exec.run m = r at ho
  cases ho
  case ok h'      => exact ⟨_, h'⟩
  case outOfRange => exact ⟨q, hq⟩
  case badIndex   => exact ⟨q, hq⟩

-- In every state the clients can bring about, the representation is consistent, pointers between
-- the two ends are valid, and operations fail by running out of bytes only: no access leaves the
-- chain and `reset` does not exit.
theorem reachable_consistent (hn : 0 < bufferLen) {fresh : Fresh bufferLen}
    (h : Machine.Reachable Op.exec Op.Adm (init fresh) m) :
    m.Inv ∧
    (∃ ptr, m.readPtr = .ok ptr) ∧
    (∃ ptr, m.writePtr = .ok ptr) ∧
    (∀ ind, m.Valid ind → ∃ ptr, m.getPtr ind = .ok ptr) ∧
    (∀ op : Op bufferLen, op.Adm m → op.InRange m → ∀ e m', op.exec.run m = .error e m' →
      m' = m ∧ ∃ tried left, e = .outOfRange tried left) := by
  have ⟨q, hq⟩ := represents_of_reachable hn h
  have ⟨_, _, hr⟩ := hq.inv.getPtr_ok hq.inv.readSecond hq.inv.pos_le
  have ⟨_, _, hw⟩ := hq.writePtr_ok
  refine ⟨hq.inv, ⟨_, hr⟩, ⟨_, hw⟩, ?_, ?_⟩
  case refine_1 =>
    intro ind hv
    have ⟨_, _, hp⟩ := hq.inv.getPtr_ok hv.second (Valid.pos_le hq hv).right
    exact ⟨_, hp⟩
  case refine_2 =>
    intro op ha hi e m' he
    cases he ▸ Op.exec_outcome hq op ha
    case outOfRange    => exact ⟨rfl, _, _, rfl⟩
    case badIndex hbad => exact absurd hi hbad

-- Seven bytes are written to buffers of two, and three of them are read.
theorem reachable_consistent_after_read :
    (Machine.state <| (Op.read 3).exec.run <| Machine.state <|
      (Op.advanceWritePtr 7 fun _ => #v[0, 0]).exec.run <|
      (init fun _ => #v[0, 0] : MessageBuffer 2)).Inv :=
  (reachable_consistent (by decide) (.step (.step .init (by decide)) (by decide))).left

-- The commands of a client that uses the buffer as a queue.
inductive Cmd (bufferLen : UInt32)
  | writeSequence (data : List UInt8) (fresh : Fresh bufferLen)
  | writePtr (data : List UInt8) (fresh : Fresh bufferLen)
  | addBufferToChain (fresh : Fresh bufferLen)
  | addSpace (bytes : UInt32) (fresh : Fresh bufferLen)
  | read (size : UInt32)
  | peek (offset size : UInt32)
  | advanceReadPtr (bytes : UInt32)
  | reset

namespace Cmd

-- A write stores its bytes, through the buffer sequence or through the write pointer, and then
-- advances the write pointer. A peek starts `offset` bytes after the read index; the client sees
-- nothing when it throws.
def exec : Cmd bufferLen → Action bufferLen (List UInt8)
  | writeSequence data fresh => do
    storeSequence data
    advanceWritePtr (.ofNat data.length) fresh
    return []
  | writePtr data fresh      => do
    storeWritePtr data
    advanceWritePtr (.ofNat data.length) fresh
    return []
  | addBufferToChain fresh   => (Op.addBufferToChain fresh).exec
  | addSpace bytes fresh     => (Op.addSpace bytes fresh).exec
  | read size                => (Op.read size).exec
  | peek offset size         => do
    let m ← get
    match (m.peek size).run (advanceIndex bufferLen m.readInd offset) with
    | .ok out _  => return out
    | .error _ _ => return []
  | advanceReadPtr bytes     => (Op.advanceReadPtr bytes).exec
  | reset                    => Op.reset.exec

def Adm (m : MessageBuffer bufferLen) : Cmd bufferLen → Prop
  | writeSequence data _  =>
    data.length ≤ m.bytesToWrite.toNat ∧
    Fits bufferLen (m.grown (m.writeInd.pos bufferLen + data.length))
  | writePtr data _       =>
    m.writeInd.second.toNat + data.length ≤ bufferLen.toNat ∧
    Fits bufferLen (m.grown (m.writeInd.pos bufferLen + data.length))
  | addBufferToChain _    => Fits bufferLen (m.buffers.length + 1)
  | addSpace bytes _      => Fits bufferLen (m.buffers.length + (bytes.toNat / bufferLen.toNat + 1))
  | read size             => size ≤ m.bytesToRead
  | peek offset _         => offset ≤ m.bytesToRead
  | advanceReadPtr bytes  => bytes ≤ m.bytesToRead
  | reset                 => True

instance {cmd : Cmd bufferLen} : Decidable (cmd.Adm m) := by
  cases cmd <;> unfold Adm <;> infer_instance

-- What a command means for the queue.
def toFifo : Cmd bufferLen → Fifo.Op UInt8
  | writeSequence data _ | writePtr data _  => .write data
  | addBufferToChain _ | addSpace _ _       => .idle
  | read size                               => .read size.toNat
  | peek offset size                        => .peek offset.toNat size.toNat
  | advanceReadPtr bytes                    => .skip bytes.toNat
  | reset                                   => .reset

end Cmd

theorem Represents.le_bytesToRead (h : m.Represents q) {size : UInt32} (hs : size ≤ m.bytesToRead) :
    size.toNat ≤ q.length :=
  h.bytesToRead_toNat ▸ UInt32.le_iff_toNat_le.mp hs

-- A peek that starts among the unread bytes, at the end included, shows what the queue shows.
theorem exec_peek (h : m.Represents q) {offset size : UInt32} (ho : offset.toNat ≤ q.length) :
    (Cmd.peek offset size).exec.run m =
      .ok (if offset.toNat + size.toNat ≤ q.length
        then (q.drop offset.toNat).take size.toNat else []) m := by
  have hn := h.inv.len_pos
  have hlen := h.length_eq
  have hle := h.inv.pos_le
  have hlt := h.write_pos_lt_two_pow
  have hpos := advanceIndex_pos hn m.readInd offset (by omega)
  have hsec := advanceIndex_second_lt hn m.readInd offset
  simp only [Cmd.exec, EStateM.run_bind, EStateM.run_get]
  generalize advanceIndex bufferLen m.readInd offset = ind at *
  by_cases hs : offset.toNat + size.toNat ≤ q.length
  case pos =>
    have ⟨ind', hrun, _⟩ := peek_spec h hsec (by omega) (show ind.pos bufferLen + size.toNat ≤ _ by omega)
    simp only [hrun, hpos, Nat.add_sub_cancel_left, if_pos hs]
    rfl
  case neg =>
    simp only [if_neg hs, peek_error h (show ind.pos bufferLen ≤ _ by omega)
      (show _ < ind.pos bufferLen + size.toNat by omega)]
    rfl

-- The buffer behaves as the queue of the bytes it represents.
theorem refines_fifo : Machine.Simulation (σ := MessageBuffer bufferLen) Cmd.exec Cmd.Adm
    (fun q cmd => Fifo.step q cmd.toFifo) Represents := by
  constructor
  intro m q cmd h ha
  cases cmd
  case writeSequence data fresh =>
    have hd : m.writeInd.pos bufferLen + data.length ≤ bufferLen.toNat * m.buffers.length := by
      have := h.inv.write_pos_lt
      have := h.bytesToWrite_toNat ▸ ha.left
      omega
    have ⟨m₁, hs, hst⟩ := storeSequence_spec h hd
    have ⟨m₂, hw, h₂⟩ := hst.advanceWritePtr fresh h ha.right.left ha.right.right
    exact ⟨m₂, by simp only [Cmd.exec, EStateM.run_bind, hs, hw]; rfl, h₂⟩
  case writePtr data fresh =>
    have ⟨m₁, hs, hst⟩ := storeWritePtr_spec h ha.left
    have ⟨m₂, hw, h₂⟩ := hst.advanceWritePtr fresh h ha.right.left ha.right.right
    exact ⟨m₂, by simp only [Cmd.exec, EStateM.run_bind, hs, hw]; rfl, h₂⟩
  case addBufferToChain fresh =>
    have ⟨m', hrun, h'⟩ := addBufferToChain_spec fresh h ha.left ha.right
    exact ⟨m', by simp only [Cmd.exec, Op.exec, EStateM.run_bind, hrun]; rfl, h'⟩
  case addSpace bytes fresh =>
    have ⟨m', hrun, h'⟩ := addSpace_spec bytes fresh h ha.left ha.right
    exact ⟨m', by simp only [Cmd.exec, Op.exec, EStateM.run_bind, hrun]; rfl, h'⟩
  case read size              => exact read_spec h (h.le_bytesToRead ha)
  case peek offset size       => exact ⟨m, exec_peek h (h.le_bytesToRead ha), h⟩
  case advanceReadPtr bytes =>
    have ⟨m', hrun, h'⟩ := advanceReadPtr_spec h (h.le_bytesToRead ha)
    exact ⟨m', by simp only [Cmd.exec, Op.exec, EStateM.run_bind, hrun]; rfl, h'⟩
  case reset =>
    have ⟨m', hrun, h'⟩ := reset_spec h.inv.len_pos h.inv.sanity h.inv.nonempty h.bounded
    exact ⟨m', by simp only [Cmd.exec, Op.exec, EStateM.run_bind, hrun]; rfl, h'⟩

-- Over every admissible run no command throws, every output is that of the queue, and the bytes
-- that were written are those that were taken off its front followed by the ones still to be read.
theorem run_is_fifo (hn : 0 < bufferLen) (fresh : Fresh bufferLen) (cmds : List (Cmd bufferLen))
    (ha : Machine.Admissible Cmd.exec Cmd.Adm (init fresh) cmds) :
    ∃ m, (Machine.run Cmd.exec cmds).run (init fresh) =
        .ok (Machine.specRun Fifo.step [] (cmds.map Cmd.toFifo)).1 m ∧
      Fifo.written (cmds.map Cmd.toFifo) = Fifo.taken [] (cmds.map Cmd.toFifo) ++ m.content ∧
      m.bytesToRead.toNat + (Fifo.taken [] (cmds.map Cmd.toFifo)).length =
        (Fifo.written (cmds.map Cmd.toFifo)).length := by
  have ⟨m, hrun, h⟩ := refines_fifo.run (Represents.init hn) ha
  have hc := Fifo.run_conserves [] (cmds.map Cmd.toFifo)
  rw [Machine.specRun_map Fifo.step] at hrun h
  rw [List.nil_append] at hc
  refine ⟨m, hrun, ?_, ?_⟩
  case refine_1 => rw [h.content, hc]
  case refine_2 => rw [h.bytesToRead_toNat, hc, List.length_append, Nat.add_comm]

-- Five bytes go through buffers of two, across their boundaries and with a byte skipped.
theorem run_is_fifo_five : ∃ m : MessageBuffer 2, (Machine.run Cmd.exec
    [.addSpace 4 fun _ => #v[0, 0], .writeSequence [1, 2, 3, 4, 5] fun _ => #v[0, 0], .read 3,
      .advanceReadPtr 1, .peek 0 1, .writePtr [6] fun _ => #v[0, 0]]).run (init fun _ => #v[0, 0]) =
        .ok [[], [], [1, 2, 3], [], [5], []] m ∧ m.content = [5, 6] := by
  have ⟨m, hrun, hc, _⟩ := @run_is_fifo 2 (by decide) (fun _ => #v[0, 0])
    [.addSpace 4 fun _ => #v[0, 0], .writeSequence [1, 2, 3, 4, 5] fun _ => #v[0, 0], .read 3,
      .advanceReadPtr 1, .peek 0 1, .writePtr [6] fun _ => #v[0, 0]] (by decide +kernel)
  exact ⟨m, hrun, List.append_cancel_left (show [1, 2, 3, 4] ++ m.content = _ from hc.symm)⟩

end MessageBuffer
