import FcModel.Network.MessageBuffer.Datastream
import FcModel.Raw.Codec.RoundTrip

-- Decoding from the different streams, over the same bytes.

namespace Raw

open MessageBuffer (Cmd Fresh)

variable {α σ : Type} {bufferLen : UInt32}

-- The message buffers that can carry the bytes `b`: those that any commands of a client within the
-- sizes of the class have brought about, and in which `b` was written and not yet consumed. The
-- writes can split `b` in any way.
inductive Carries : MessageBuffer bufferLen → Bytes → Prop
  | run (hn : 0 < bufferLen) (fresh : Fresh bufferLen) (cmds : List (Cmd bufferLen))
      (ha : Machine.Admissible Cmd.exec Cmd.Adm (.init fresh) cmds) :
      Carries (Machine.state <| (Machine.run Cmd.exec cmds).run (.init fresh))
        (Machine.specRun Fifo.step [] (cmds.map Cmd.toFifo)).2

theorem Carries.represents {m : MessageBuffer bufferLen} {b : Bytes} (h : Carries m b) :
    m.Represents b := by
  cases h
  case run hn fresh cmds ha =>
    have ⟨m, hrun, h⟩ := MessageBuffer.refines_fifo.run (MessageBuffer.Represents.init hn) ha
    rw [Machine.specRun_map Fifo.step] at h
    rw [hrun]
    exact h

-- The results of decoding `b` from the four streams that check their bounds: they return the same
-- value after the same number of bytes, or all of them throw.
inductive StreamsAgree (b : Bytes) : EStateM.Result Failure Datastream α →
    EStateM.Result Failure ContainerStream α → EStateM.Result Failure (MessageBuffer bufferLen) α →
    EStateM.Result Failure (MbPeekDatastream bufferLen) α → Prop
  | ok {a ds cs m s} (k : Nat) (hds : ds.pos = k) (hcs : cs.cur = k)
      (hm : m.bytesToRead.toNat + k = b.length)
      (hs : (s.mb.bytesToReadFromIndex s.index).toNat + k = b.length) :
      StreamsAgree b (.ok a ds) (.ok a cs) (.ok a m) (.ok a s)
  | error {e₁ e₂ e₃ e₄ ds cs m s} (h₁ : e₁.IsException) (h₂ : e₂.IsException) (h₃ : e₃.IsException)
      (h₄ : e₄.IsException) : StreamsAgree b (.error e₁ ds) (.error e₂ cs) (.error e₃ m) (.error e₄ s)

theorem Carries.agree {m : MessageBuffer bufferLen} {b : Bytes} (h : Carries m b) (c : Codec α)
    (d : α) :
    StreamsAgree b (unpackFrom c d b)
      (unpackOn ContainerStream.source ⟨b, 0⟩ b.length c d)
      (unpackOn MbDatastream.source m b.length c d)
      (unpackOn MbPeekDatastream.source (.create m) b.length c d) := by
  have hr := h.represents
  have hds := unpackFrom_agree c d b
  have hcs : Source.Agree _ _ (unpackOn ContainerStream.source ⟨b, 0⟩ b.length c d) :=
    ContainerStream.checked.run _ (ContainerStream.Unread.start b)
  have hm : Source.Agree _ _ (unpackOn MbDatastream.source m b.length c d) :=
    MbDatastream.checked.run _ hr
  have hs : Source.Agree _ _ (unpackOn MbPeekDatastream.source (.create m) b.length c d) :=
    MbPeekDatastream.checked.run _ (.create hr)
  have hb := Datastream.run_bytes (unpack (b.length + 1) c d) ⟨b, 0⟩
  have hc := ContainerStream.run_container (unpack (b.length + 1) c d) ⟨b, 0⟩
  have hf := @fuelled_unpack _ (b.length + 1) c d b (Nat.lt_succ_self _) _ (Nat.lt_succ_self _)
  generalize (unpack (b.length + 1) c d).parse .outOfRange b = r at hds hcs hm hs hf
  rw [← unpackOn] at hb hc
  rw [← unpackFrom] at hb
  generalize unpackFrom c d b = rds at hds hb
  generalize unpackOn ContainerStream.source ⟨b, 0⟩ b.length c d = rcs at hcs hc
  generalize unpackOn MbDatastream.source m b.length c d = rm at hm
  generalize unpackOn MbPeekDatastream.source (.create m) b.length c d = rs at hs
  cases hds
  case error =>
    cases hcs
    cases hm
    cases hs
    exact .error (hf _ rfl) (hf _ rfl) (hf _ rfl) (hf _ rfl)
  case ok a q ds hds =>
    cases hcs
    cases hm
    cases hs
    case ok.ok.ok cs hcs m' hm s hs =>
      have hl := hds.remaining
      rw [Datastream.remaining, if_pos hds.pos] at hl
      have hp := hds.pos
      have hlc := hcs.length
      have hlm := hm.bytesToRead_toNat
      have hls := hs.bytesToRead_toNat
      simp only [Machine.state] at hb hc
      rw [hb] at hl hp
      rw [hc] at hlc
      exact .ok ds.pos rfl (by omega) (by omega) (by omega)

-- Any decoder does the same on all of the streams, wherever the buffers end and wherever the bytes
-- run out, and a peeking stream leaves the buffer as it was.
theorem streams_agree {m : MessageBuffer bufferLen} {b : Bytes} (h : Carries m b) (c : Codec α)
    (d : α) :
    StreamsAgree b (unpackFrom c d b)
      (unpackOn ContainerStream.source ⟨b, 0⟩ b.length c d)
      (unpackOn MbDatastream.source m b.length c d)
      (unpackOn MbPeekDatastream.source (.create m) b.length c d) ∧
    (Machine.state (unpackOn MbPeekDatastream.source (.create m) b.length c d)).mb = m :=
  ⟨h.agree c d, MbPeekDatastream.run_mb ..⟩

-- A string is written in two parts, the second of which ends three buffers later.
theorem streams_agree_string : ∃ m : MessageBuffer 2, m.content = [2, 97, 98, 9] ∧
    StreamsAgree [2, 97, 98, 9] (unpackFrom .string [] [2, 97, 98, 9])
      (unpackOn ContainerStream.source ⟨[2, 97, 98, 9], 0⟩ 4 .string [])
      (unpackOn MbDatastream.source m 4 .string [])
      (unpackOn MbPeekDatastream.source (.create m) 4 .string []) := by
  have h : Carries _ [2, 97, 98, 9] := .run (show (0 : UInt32) < 2 by decide) (fun _ => #v[0, 0])
    [.writePtr [2] fun _ => #v[0, 0], .addSpace 4 fun _ => #v[0, 0],
      .writeSequence [97, 98, 9] fun _ => #v[0, 0]] (by decide +kernel)
  exact ⟨_, h.represents.content, (streams_agree h .string []).left⟩

section Unbounded

open MessageBuffer

variable {m : MessageBuffer bufferLen}

-- What a write does to the indices and to the length of the chain, in bounds or not.
theorem writeSequence_run (hf : m.writeInd.first.toNat < m.buffers.length)
    (hs : m.writeInd.second < bufferLen)
    (data : Bytes) (fresh : Fresh bufferLen) :
    ∃ m', (Cmd.writeSequence data fresh).exec.run m = .ok [] m' ∧ m'.readInd = m.readInd ∧
      m'.writeInd = advanceIndex bufferLen m.writeInd (.ofNat data.length) ∧
      m.buffers.length ≤ m'.buffers.length ∧ m'.writeInd.first.toNat < m'.buffers.length := by
  have hp : m.writePtr = .ok (m.buffers[m.writeInd.first.toNat], m.writeInd.second.toNat) := by
    simp only [writePtr, getPtr, List.getElem?_eq_getElem hf, if_pos hs]
  obtain ⟨seq, hseq⟩ : ∃ seq, m.getBufferSequenceForBoostAsyncRead = .ok seq := by
    simp only [getBufferSequenceForBoostAsyncRead, if_pos hf, hp]
    exact ⟨_, rfl⟩
  let m₁ : MessageBuffer bufferLen := { m with
    buffers  := scatter m.buffers seq data
    writeInd := advanceIndex bufferLen m.writeInd (.ofNat data.length) }
  refine ⟨m₁.pushBuffers fresh (m₁.writeInd.first.toNat + 1 - m₁.buffers.length), ?_, ?_⟩
  case refine_1 =>
    simp only [Cmd.exec, storeSequence, advanceWritePtr, EStateM.run_bind, EStateM.run_get, hseq]
    rfl
  case refine_2 =>
    rw [pushBuffers_eq]
    refine ⟨rfl, rfl, ?_, ?_⟩
    case refine_1 => simp [m₁, length_scatter]
    case refine_2 => simp; omega

theorem advanceIndex_full (h : bufferLen = 0x80000000) (k : UInt32) :
    advanceIndex bufferLen ⟨k, 0⟩ (.ofNat 0x80000000) = ⟨k + 1, 0⟩ := by
  subst h
  simp only [advanceIndex, Index.mk.injEq, UInt32.add_right_inj]
  decide

-- With two buffers of `2 ^ 31` bytes that are full, the number of bytes to read wraps to zero.
theorem bytesToRead_wraps (h : bufferLen = 0x80000000) {data data' : Bytes}
    (hl : data.length = 0x80000000)
    (hl' : data'.length = 0x80000000) (fresh : Fresh bufferLen) :
    ∃ m,
    (Machine.run Cmd.exec [.writeSequence data fresh, .writeSequence data' fresh]).run (init fresh) =
        .ok [[], []] m ∧ m.bytesToRead = 0 := by
  have ⟨m₁, hrun₁, hr₁, hw₁, _, hf₁⟩ :=
    @writeSequence_run _ (init fresh) (show 0 < 1 by decide) (show 0 < bufferLen by rw [h]; decide) data fresh
  rw [hl, init, advanceIndex_full h] at hw₁
  obtain ⟨m₂, hrun₂, hr₂, hw₂, _, _⟩ := writeSequence_run hf₁ (by rw [hw₁, h]; decide) data' fresh
  rw [hl', hw₁, advanceIndex_full h] at hw₂
  refine ⟨m₂, ?_, ?_⟩
  case refine_1 =>
    simp only [Machine.run, EStateM.run_bind, hrun₁, hrun₂]
    rfl
  case refine_2 =>
    rw [bytesToRead, bytesToReadFromIndex, hw₂, hr₂, hr₁]
    change (0 + 1 + 1 - 0) * bufferLen + 0 - 0 = 0
    rw [h]
    decide

theorem unpackOn_empty (h : m.bytesToRead = 0) (n : Nat) :
    unpackOn MbDatastream.source m n (.int 1) 0 = .error .outOfRange m := by
  have hn : ¬[(0 : UInt8)].length ≤ m.bytesToRead.toNat := by rw [h]; decide
  change (MbDatastream.read [0] >>= _).run m = _
  simp only [MbDatastream.read, EStateM.run_bind, EStateM.run_get, if_neg hn]
  rfl

-- A chain of more than `1000000` buffers of one byte, one of which was written.
theorem addSpace_run (h : bufferLen = 1) (data : UInt8) (fresh : Fresh bufferLen) :
    ∃ m,
    (Machine.run Cmd.exec [.addSpace 1000000 fresh, .writeSequence [data] fresh]).run (init fresh) =
        .ok [[], []] m ∧ m.readInd = ⟨0, 0⟩ ∧ m.writeInd = ⟨1, 0⟩ ∧ 1000000 < m.buffers.length := by
  have hk : ((1000000 : UInt32) / bufferLen + 1).toInt32.toInt.toNat = 1000001 := by rw [h]; decide
  obtain ⟨m₁, hrun₁, hr₁, hw₁, hl₁⟩ : ∃ m₁, (Cmd.addSpace 1000000 fresh).exec.run (init fresh) = .ok [] m₁ ∧
      m₁.readInd = ⟨0, 0⟩ ∧ m₁.writeInd = ⟨0, 0⟩ ∧ m₁.buffers.length = 1000001 + 1 := by
    refine ⟨(init fresh).pushBuffers fresh (1000000 / bufferLen + 1).toInt32.toInt.toNat, rfl, ?_⟩
    -- The number is kept out of sight, or the buffers would be appended one by one.
    generalize (1000000 / bufferLen + 1).toInt32.toInt.toNat = k at hk ⊢
    rw [pushBuffers_eq, ← hk]
    exact ⟨rfl, rfl, by simp [init]⟩
  obtain ⟨m₂, hrun₂, hr₂, hw₂, hl₂, _⟩ := @writeSequence_run _ m₁ (by rw [hw₁, hl₁]; decide)
    (by rw [hw₁, h]; decide) [data] fresh
  refine ⟨m₂, ?_, hr₂.trans hr₁, ?_, by omega⟩
  case refine_1 =>
    simp only [Machine.run, EStateM.run_bind, hrun₁, hrun₂]
    rfl
  case refine_2 =>
    have ha : advanceIndex bufferLen ⟨0, 0⟩ (.ofNat 1) = ⟨1, 0⟩ := by rw [h]; decide
    rw [hw₂, hw₁]
    exact ha

-- Reading the byte empties the buffer, and `reset` exits when it finds the chain too long.
theorem unpackOn_exit (h : bufferLen = 1) (hr : m.readInd = ⟨0, 0⟩) (hw : m.writeInd = ⟨1, 0⟩)
    (hl : 1000000 < m.buffers.length) (n : Nat) :
    ∃ m', unpackOn MbDatastream.source m n (.int 1) 0 = .error .exit m' := by
  have hb : m.bytesToRead = 1 := by
    rw [bytesToRead, bytesToReadFromIndex, hr, hw, h]
    decide
  have hptr : m.readPtr = .ok (m.buffers[0], 0) := by
    simp only [readPtr, hr, getPtr, UInt32.toNat_zero,
      List.getElem?_eq_getElem (show 0 < m.buffers.length by omega),
      if_pos (show 0 < bufferLen by rw [h]; decide)]
  have hadv : (advanceReadPtr 1).run m = .error .exit { m with readInd := ⟨1, 0⟩ } := by
    have ha : advanceIndex bufferLen ⟨0, 0⟩ 1 = ⟨1, 0⟩ := by rw [h]; decide
    simp only [advanceReadPtr, EStateM.run_bind, EStateM.run_get, EStateM.run_set, hr, hw, ha,
      reset, if_true]
    simp only [if_pos (show m.buffers.length ≠ m.sanityCheck ∨ 1000000 < m.buffers.length from .inr hl)]
    rfl
  have hread : (MessageBuffer.read 1).run m = .error .exit { m with readInd := ⟨1, 0⟩ } := by
    have hnlt : ¬m.bytesToRead < 1 := by rw [hb]; decide
    have hle : m.readInd.second + 1 ≤ bufferLen := by rw [hr, h]; decide
    change (read.go (1 + 1) 1).run m = _
    simp only [read.go, EStateM.run_bind, EStateM.run_get, if_neg hnlt, if_pos hle, hptr, hadv]
  have hle : [(0 : UInt8)].length ≤ m.bytesToRead.toNat := by rw [hb]; decide
  refine ⟨{ m with readInd := ⟨1, 0⟩ }, ?_⟩
  change (MbDatastream.read [0] >>= _).run m = _
  have hb' : (MbDatastream.readBuffer (.ofNat [(0 : UInt8)].length)).run m = _ :=
    MbDatastream.readBuffer_run_error hread
  simp only [MbDatastream.read, EStateM.run_bind, EStateM.run_get, if_pos hle, hb']
  rfl

theorem unpackFrom_cons (x : UInt8) (t : Bytes) : ∃ ds,
    unpackFrom (.int 1) 0 (x :: t) = .ok (.ofNat _ x.toNat) ds := by
  have hx : toLE 1 (BitVec.ofNat (8 * 1) x.toNat).toNat = [x] := by
    have := x.toNat_lt
    simp [toLE]
  have hb : (packInt (BitVec.ofNat (8 * 1) x.toNat)).bytes = .ok [x] := by rw [packInt, hx]; rfl
  obtain ⟨ds, hds, _⟩ := @unpackFrom_of_reads _ (.int 1) 0 _ _ _ (reads_int 0 (.ofNat _ x.toNat)) hb t
  exact ⟨ds, hds⟩

theorem not_agree_of_error {x : UInt8} {t : Bytes} {e : Failure}
    {m m' : MessageBuffer bufferLen} {rcs rs}
    (h : unpackOn MbDatastream.source m (x :: t).length (.int 1) 0 = .error e m') :
    ¬StreamsAgree (x :: t) (unpackFrom (.int 1) 0 (x :: t)) rcs
      (unpackOn MbDatastream.source m (x :: t).length (.int 1) 0) rs := by
  have ⟨ds, hds⟩ := unpackFrom_cons x t
  rw [h, hds]
  nofun

theorem full_disagree (h : bufferLen = 0x80000000) {x : UInt8} {t : Bytes}
    (hl : (x :: t).length = 0x80000000)
    (fresh : Fresh bufferLen) :
    ∃ m, (Machine.run Cmd.exec [.writeSequence (x :: t) fresh, .writeSequence (x :: t) fresh]).run
        (init fresh) = .ok [[], []] m ∧
      ∀ rcs rs,
      ¬StreamsAgree ((x :: t) ++ (x :: t)) (unpackFrom (.int 1) 0 ((x :: t) ++ (x :: t))) rcs
        (unpackOn MbDatastream.source m ((x :: t) ++ (x :: t)).length (.int 1) 0) rs := by
  have ⟨m, hrun, hb⟩ := bytesToRead_wraps h hl hl fresh
  exact ⟨m, hrun, fun _ _ => not_agree_of_error (unpackOn_empty hb _)⟩

theorem chain_disagree (h : bufferLen = 1) (x : UInt8) (fresh : Fresh bufferLen) :
    ∃ m,
    (Machine.run Cmd.exec [.addSpace 1000000 fresh, .writeSequence [x] fresh]).run (init fresh) =
        .ok [[], []] m ∧
      ∀ rcs rs, ¬StreamsAgree [x] (unpackFrom (.int 1) 0 [x]) rcs
        (unpackOn MbDatastream.source m 1 (.int 1) 0) rs := by
  have ⟨m, hrun, hr, hw, hl⟩ := addSpace_run h x fresh
  have ⟨m', he⟩ := unpackOn_exit h hr hw hl 1
  exact ⟨m, hrun, fun _ _ => not_agree_of_error (t := []) he⟩

end Unbounded

-- Beyond the sizes of the class the streams do not agree: a buffer of `2 ^ 32` bytes looks empty,
-- and one that has more than `1000000` buffers ends the program when its last byte is read.
theorem streams_disagree :
    (∃ m : MessageBuffer 0x80000000,
      (Machine.run Cmd.exec [.writeSequence (0 :: .replicate 0x7fffffff 0) fun _ => .replicate _ 0,
        .writeSequence (0 :: .replicate 0x7fffffff 0) fun _ => .replicate _ 0]).run
          (.init fun _ => .replicate _ 0) = .ok [[], []] m ∧
      ∀ rcs rs, ¬StreamsAgree ((0 :: .replicate 0x7fffffff 0) ++ (0 :: .replicate 0x7fffffff 0))
        (unpackFrom (.int 1) 0 ((0 :: .replicate 0x7fffffff 0) ++ (0 :: .replicate 0x7fffffff 0))) rcs
        (unpackOn MbDatastream.source m
          ((0 :: List.replicate 0x7fffffff (0 : UInt8)) ++ (0 :: .replicate 0x7fffffff 0)).length (.int 1) 0) rs) ∧
    (∃ m : MessageBuffer 1,
      (Machine.run Cmd.exec [.addSpace 1000000 fun _ => #v[0], .writeSequence [7] fun _ => #v[0]]).run
        (.init fun _ => #v[0]) = .ok [[], []] m ∧
      ∀ rcs rs, ¬StreamsAgree [7] (unpackFrom (.int 1) 0 [7]) rcs
        (unpackOn MbDatastream.source m 1 (.int 1) 0) rs) :=
  ⟨full_disagree rfl (by rw [List.length_cons, List.length_replicate]) _, chain_disagree rfl 7 _⟩

-- A strict prefix of what was packed is not enough for any stream that checks its bounds.
theorem parse_truncated {c : Codec α} {v : α} (hs : SizedIn c v) {b p : Bytes}
    (hb : packVector [⟨α, c, v⟩] = .ok b) (hp : p <+: b) (hne : p ≠ b) (d : α) :
    ∃ e, (unpack (p.length + 1) c d).parse .outOfRange p = .error e ∧ e.IsException := by
  rw [packVector_singleton] at hb
  have ⟨e, he⟩ := (exhausts_unpack (p.length + 1) c d v hs).truncated hb hp hne
  exact ⟨e, he, @fuelled_unpack _ (p.length + 1) c d p (Nat.lt_succ_self _) _ (Nat.lt_succ_self _) e he⟩

-- An exception is thrown.
def Throws (r : EStateM.Result Failure σ α) : Prop :=
  ∃ e s, r = .error e s ∧ e.IsException

theorem Throws.of_agree {rel : σ → Bytes → Prop} {r : EStateM.Result Failure σ α} {e : Failure}
    (h : Source.Agree rel (.error e) r) (he : e.IsException) : Throws r := by
  cases h
  exact ⟨e, _, rfl, he⟩

inductive StreamKind
  | constChar
  | vectorChar
  | messageBuffer
  | messageBufferPeek
  | streambuf
deriving DecidableEq, Repr

-- Decoding from a stream of a kind that carries `p` throws.
def StreamKind.Rejects (c : Codec α) (d : α) (p : Bytes) : StreamKind → Prop
  | constChar         => Throws (unpackFrom c d p)
  | vectorChar        => Throws (unpackOn ContainerStream.source ⟨p, 0⟩ p.length c d)
  | messageBuffer     => ∀ bufferLen (m : MessageBuffer bufferLen), Carries m p →
    Throws (unpackOn MbDatastream.source m p.length c d)
  | messageBufferPeek => ∀ bufferLen (m : MessageBuffer bufferLen), Carries m p →
    Throws (unpackOn MbPeekDatastream.source (.create m) p.length c d)
  | streambuf         => Throws (unpackOn StreambufStream.source p p.length c d)

theorem rejects_truncated {c : Codec α} {v : α} (hs : SizedIn c v) {b p : Bytes}
    (hb : packVector [⟨α, c, v⟩] = .ok b) (hp : p <+: b) (hne : p ≠ b) (d : α) {k : StreamKind}
    (hk : k ≠ .streambuf) : k.Rejects c d p := by
  have ⟨e, hpe, he⟩ := parse_truncated hs hb hp hne d
  cases k
  case constChar =>
    have h := unpackFrom_agree c d p
    rw [hpe] at h
    exact .of_agree h he
  case vectorChar =>
    have h := ContainerStream.checked.run (unpack (p.length + 1) c d) (.start p)
    rw [hpe] at h
    exact .of_agree h he
  case messageBuffer =>
    intro _ m hm
    have h := MbDatastream.checked.run (unpack (p.length + 1) c d) hm.represents
    rw [hpe] at h
    exact .of_agree h he
  case messageBufferPeek =>
    intro _ m hm
    have h := MbPeekDatastream.checked.run (unpack (p.length + 1) c d) (.create hm.represents)
    rw [hpe] at h
    exact .of_agree h he
  case streambuf => exact absurd rfl hk

-- The stream does not say that it had one byte less than the string, which is padded with a zero.
theorem unpackOn_streambuf_short :
    unpackOn StreambufStream.source [2, 97] 2 .string [] = .ok [97, 0] [] := by
  rfl

theorem not_rejects_streambuf : ¬StreamKind.streambuf.Rejects .string [] [2, 97] := by
  rintro ⟨e, s, h, _⟩
  cases unpackOn_streambuf_short.symm.trans h

-- All truncations of what was packed are detected on every kind of stream but one.
theorem truncation_detected_iff (k : StreamKind) :
    (∀ (α : Type) (c : Codec α) (v d : α) (b p : Bytes), SizedIn c v →
      packVector [⟨α, c, v⟩] = .ok b → p <+: b → p ≠ b → k.Rejects c d p) ↔ k ≠ .streambuf := by
  constructor
  case mpr => exact fun hk _ _ _ d _ _ hs hb hp hne => rejects_truncated hs hb hp hne d hk
  case mp =>
    intro h hk
    have h := h Bytes .string [97, 98] [] [2, 97, 98] [2, 97] trivial (by decide +kernel) ⟨[98], rfl⟩ (by decide)
    exact not_rejects_streambuf (hk ▸ h)

theorem string_truncation_detected : StreamKind.constChar.Rejects .string [] [2, 97] :=
  (truncation_detected_iff .constChar).mpr nofun Bytes .string [97, 98] [] [2, 97, 98] [2, 97] trivial
    (by decide +kernel) ⟨[98], rfl⟩ (by decide)

-- The string of two characters is packed as its size and the characters. Without the last one it
-- is decoded all the same.
theorem streambuf_accepts_truncated :
    packVector [⟨Bytes, .string, [97, 98]⟩] = .ok [2, 97, 98] ∧ [2, 97] <+: [2, 97, 98] ∧
    unpackOn StreambufStream.source [2, 97] 2 .string [] = .ok [97, 0] [] ∧
    ¬StreamKind.streambuf.Rejects .string [] [2, 97] :=
  ⟨by decide +kernel, ⟨[98], rfl⟩, unpackOn_streambuf_short, not_rejects_streambuf⟩

end Raw
