import FcModel.Network.MessageBuffer.Invariant

open Blocks

namespace MessageBuffer

variable {bufferLen : UInt32} {m : MessageBuffer bufferLen} {q : List UInt8} {ind : Index}
variable {bytes size : UInt32} {fresh : Fresh bufferLen}

-- What each operation does to the bytes a buffer represents. Later proofs use these lemmas and
-- never look into an operation again.

namespace Represents

theorem init (hn : 0 < bufferLen) : (init fresh).Represents [] where
  inv := {
    sanity      := rfl
    nonempty    := Nat.le_refl _
    readFirst   := rfl
    le          := .inr ⟨rfl, UInt32.le_refl _⟩
    readSecond  := hn
    writeSecond := hn
    writeFirst  := Nat.one_pos
  }
  bounded := ⟨by simp [MessageBuffer.init], by simpa [MessageBuffer.init] using bufferLen.toNat_lt⟩
  content := by simp [MessageBuffer.content, MessageBuffer.init]

theorem write_pos_lt_two_pow (h : m.Represents q) : m.writeInd.pos bufferLen < 2 ^ 32 :=
  Nat.lt_trans h.inv.write_pos_lt h.bounded.total

theorem length_eq (h : m.Represents q) :
    q.length = m.writeInd.pos bufferLen - m.readInd.pos bufferLen := by
  rw [← h.content, h.inv.length_content]

theorem bytesToRead_toNat (h : m.Represents q) : m.bytesToRead.toNat = q.length := by
  rw [h.length_eq]
  exact bytesToReadFromIndex_toNat h.inv.pos_le h.write_pos_lt_two_pow

theorem bytesToWrite_toNat (h : m.Represents q) :
    m.bytesToWrite.toNat = bufferLen.toNat * m.buffers.length - m.writeInd.pos bufferLen :=
  MessageBuffer.bytesToWrite_toNat (Nat.le_of_lt h.inv.write_pos_lt) h.bounded.total

end Represents

theorem reset_run (hs : m.sanityCheck = m.buffers.length) (hc : m.buffers.length ≤ 1000000) :
    reset.run m = .ok ()
      { buffers     := m.buffers.take (m.buffers.length - (m.buffers.length - 1))
        readInd     := ⟨0, 0⟩
        writeInd    := ⟨0, 0⟩
        sanityCheck := m.buffers.length - (m.buffers.length - 1) } := by
  have : ¬(m.buffers.length ≠ m.sanityCheck ∨ 1000000 < m.buffers.length) := by omega
  simp only [reset, EStateM.run_bind, EStateM.run_get, if_neg this, EStateM.run_set, popBack_eq]
  rw [hs]

-- `reset` asks for less than the invariant: `advance_read_ptr` calls it while the read index may
-- still point beyond the front buffer.
theorem reset_spec (hn : 0 < bufferLen) (hs : m.sanityCheck = m.buffers.length)
    (he : 1 ≤ m.buffers.length) (hb : m.Bounded) :
    ∃ m', reset.run m = .ok () m' ∧ m'.Represents [] := by
  refine ⟨_, reset_run hs hb.chain, ?_⟩
  have hl : m.buffers.length - (m.buffers.length - 1) = 1 := by omega
  have hl' : (m.buffers.take 1).length = 1 := by simp; omega
  simp only [hl]
  exact {
    inv := {
      sanity      := hl'.symm
      nonempty    := Nat.le_of_eq hl'.symm
      readFirst   := rfl
      le          := .inr ⟨rfl, UInt32.le_refl _⟩
      readSecond  := hn
      writeSecond := hn
      writeFirst  := by simp [hl']
    }
    bounded := ⟨by simp [hl'], by simpa [hl'] using bufferLen.toNat_lt⟩
    content := by simp [content]
  }

theorem Index.pos_sub_first (bufferLen : UInt32) {k : Nat} (h : k ≤ ind.first.toNat) :
    Index.pos bufferLen { ind with first := ind.first - .ofNat k } =
      ind.pos bufferLen - k * bufferLen.toNat := by
  have hk : (UInt32.ofNat k).toNat = k :=
    UInt32.toNat_ofNat_of_lt' (Nat.lt_of_le_of_lt h ind.first.toNat_lt)
  have hs := UInt32.toNat_sub_of_le ind.first (.ofNat k) (by rw [UInt32.le_iff_toNat_le, hk]; exact h)
  have := Nat.mul_le_mul_right bufferLen.toNat h
  simp only [Index.pos, hs, hk, Nat.sub_mul]
  omega

theorem advanceReadPtr_spec (h : m.Represents q) (hb : bytes.toNat ≤ q.length) :
    ∃ m', (advanceReadPtr bytes).run m = .ok () m' ∧ m'.Represents (q.drop bytes.toNat) := by
  have hn := h.inv.len_pos
  have hlen := h.length_eq
  have hle := h.inv.pos_le
  have hlt := h.write_pos_lt_two_pow
  have hpos := advanceIndex_pos hn m.readInd bytes (by omega)
  have hsec := advanceIndex_second_lt hn m.readInd bytes
  simp only [advanceReadPtr, EStateM.run_bind, EStateM.run_get, EStateM.run_set]
  generalize hr : advanceIndex bufferLen m.readInd bytes = r at hpos hsec
  split
  case isTrue he =>
    have hq : q.drop bytes.toNat = [] := by
      rw [List.drop_eq_nil_iff, hlen, ← he, hpos]
      omega
    rw [hq]
    exact reset_spec hn h.inv.sanity h.inv.nonempty ⟨h.bounded.chain, h.bounded.total⟩
  case isFalse he =>
    have hf : r.first.toNat ≤ m.writeInd.first.toNat := by
      rw [Index.first_toNat hsec, Index.first_toNat h.inv.writeSecond]
      exact Nat.div_le_div_right (by omega)
    have hwf := h.inv.writeFirst
    have hrp := Index.pos_sub_first bufferLen (Nat.le_refl r.first.toNat)
    have hwp := Index.pos_sub_first bufferLen hf
    have hrm : r.first.toNat * bufferLen.toNat ≤ r.pos bufferLen := by simp [Index.pos]
    have hwf' : (m.writeInd.first - .ofNat r.first.toNat).toNat =
        m.writeInd.first.toNat - r.first.toNat := by
      rw [UInt32.ofNat_toNat, UInt32.toNat_sub_of_le _ _ (UInt32.le_iff_toNat_le.mpr hf)]
    have hle' := Index.le_iff_pos_le ⟨r.first - .ofNat r.first.toNat, r.second⟩
      ⟨m.writeInd.first - .ofNat r.first.toNat, m.writeInd.second⟩ hsec h.inv.writeSecond
    rw [hrp, hwp] at hle'
    refine ⟨_, popFront_run (m := { m with readInd := r }) (by simp; omega), ?_⟩
    constructor
    case inv => exact {
      sanity      := by simp [h.inv.sanity]
      nonempty    := by simp; omega
      readFirst   := by simp
      le          := hle'.mpr (by omega)
      readSecond  := hsec
      writeSecond := h.inv.writeSecond
      writeFirst  := by simp only [hwf', List.length_drop]; omega
    }
    case bounded => exact {
      chain := by have := h.bounded.chain; simp; omega
      total := Nat.lt_of_le_of_lt (Nat.mul_le_mul_left _ (by simp)) h.bounded.total
    }
    case content =>
      rw [← h.content]
      simp only [content, hrp, hwp, ← drop_flat, List.drop_drop, List.drop_take]
      congr 1
      · omega
      · congr 1; omega

-- `memcpy` from a pointer takes a slice of the chain, as long as it stays in one buffer.
theorem memcpy_getPtr (size : UInt32) (hi : m.Inv) (hs : ind.second < bufferLen)
    (hw : ind.pos bufferLen ≤ m.writeInd.pos bufferLen)
    (hl : ind.second.toNat + size.toNat ≤ bufferLen.toNat) :
    ∃ ptr, m.getPtr ind = .ok ptr ∧
      memcpy ptr size = ((flat m.buffers).drop (ind.pos bufferLen)).take size.toNat := by
  have ⟨b, hb, hp⟩ := hi.getPtr_ok hs hw
  exact ⟨_, hp, (slice_flat hb hl).symm⟩

theorem add_le_iff {a b : UInt32} (h : a.toNat + b.toNat < 2 ^ 32) :
    a + b ≤ bufferLen ↔ a.toNat + b.toNat ≤ bufferLen.toNat := by
  rw [UInt32.le_iff_toNat_le, UInt32.toNat_add, Nat.mod_eq_of_lt h]

theorem Index.second_le_pos (bufferLen : UInt32) (ind : Index) :
    ind.second.toNat ≤ ind.pos bufferLen :=
  Nat.le_add_left ..

-- What is left of a request after the rest of the current buffer is taken.
theorem sub_numInBuffer_toNat (size : UInt32) (hs : ind.second < bufferLen)
    (hl : bufferLen.toNat < ind.second.toNat + size.toNat) :
    (bufferLen - ind.second).toNat = bufferLen.toNat - ind.second.toNat ∧
    (size - (bufferLen - ind.second)).toNat =
      size.toNat - (bufferLen.toNat - ind.second.toNat) := by
  have hk := UInt32.toNat_sub_of_le _ _ (UInt32.le_of_lt hs)
  have hr := UInt32.toNat_sub_of_le size (bufferLen - ind.second)
    (by rw [UInt32.le_iff_toNat_le]; omega)
  exact ⟨hk, hr.trans (by rw [hk])⟩

-- Each round ends at a buffer boundary, so the remaining size decreases and `size + 1` rounds are
-- enough to collect the whole slice.
theorem peek_go_spec (h : m.Represents q) {fuel : Nat} (hf : size.toNat < fuel)
    (hs : ind.second < bufferLen) (hw : ind.pos bufferLen + size.toNat ≤ m.writeInd.pos bufferLen) :
    ∃ ind', (peek.go m fuel size).run ind =
        .ok (((flat m.buffers).drop (ind.pos bufferLen)).take size.toNat) ind' ∧
      ind'.second < bufferLen ∧ ind'.pos bufferLen = ind.pos bufferLen + size.toNat := by
  have hn := h.inv.len_pos
  have hlt := h.write_pos_lt_two_pow
  induction fuel generalizing size ind
  case zero => omega
  case succ fuel hi =>
    have hle := ind.second_le_pos bufferLen
    have hs' := UInt32.lt_iff_toNat_lt.mp hs
    have hc : ¬(m.bytesToReadFromIndex ind < size) := by
      rw [UInt32.lt_iff_toNat_lt, bytesToReadFromIndex_toNat (by omega) hlt]
      omega
    have hfit : ind.second + size ≤ bufferLen ↔ _ := add_le_iff (by omega)
    simp only [peek.go, EStateM.run_bind, EStateM.run_get, if_neg hc]
    by_cases hl : ind.second.toNat + size.toNat ≤ bufferLen.toNat
    case pos =>
      have ⟨ptr, hp, hm⟩ := memcpy_getPtr size h.inv hs (by omega) hl
      refine ⟨advanceIndex bufferLen ind size, ?_, advanceIndex_second_lt hn .., ?_⟩
      · simp only [if_pos (hfit.mpr hl), hp, EStateM.run_bind, EStateM.run_set, EStateM.run_pure,
          hm]
      · exact advanceIndex_pos hn _ _ (by omega)
    case neg =>
      have ⟨hk, hr⟩ := sub_numInBuffer_toNat size hs (by omega)
      generalize bufferLen - ind.second = k at *
      have hpos := advanceIndex_pos hn ind k (by omega)
      have ⟨ptr, hp, hm⟩ := memcpy_getPtr k h.inv hs (by omega) (by omega)
      have ⟨ind', hrun, hs'', hpos'⟩ := @hi _ (size - k) (by omega)
        (advanceIndex_second_lt hn ind k) (by omega)
      refine ⟨ind', ?_, hs'', by omega⟩
      have hadd : size.toNat = k.toNat + (size - k).toNat := by omega
      simp only [if_neg (mt hfit.mp hl), hp, EStateM.run_bind, EStateM.run_set, hrun,
        EStateM.run_pure, hm, hpos]
      rw [hadd, List.take_add, List.drop_drop]

-- A slice of the chain that starts at or after the read index and ends before the write index is a
-- slice of the unread bytes.
theorem Represents.slice_eq (h : m.Represents q) {p k : Nat} (hp : m.readInd.pos bufferLen ≤ p)
    (hk : p + k ≤ m.writeInd.pos bufferLen) :
    ((flat m.buffers).drop p).take k = (q.drop (p - m.readInd.pos bufferLen)).take k := by
  have hd : m.readInd.pos bufferLen + (p - m.readInd.pos bufferLen) = p := by omega
  rw [← h.content, MessageBuffer.content, List.drop_take, List.take_take, List.drop_drop, hd,
    Nat.min_eq_left (by omega)]

theorem peek_spec (h : m.Represents q) (hs : ind.second < bufferLen)
    (hr : m.readInd.pos bufferLen ≤ ind.pos bufferLen)
    (hw : ind.pos bufferLen + size.toNat ≤ m.writeInd.pos bufferLen) :
    ∃ ind', (m.peek size).run ind =
        .ok ((q.drop (ind.pos bufferLen - m.readInd.pos bufferLen)).take size.toNat) ind' ∧
      ind'.second < bufferLen ∧ ind'.pos bufferLen = ind.pos bufferLen + size.toNat := by
  rw [← h.slice_eq hr hw]
  exact peek_go_spec h (Nat.lt_succ_self _) hs hw

theorem read_go_spec (h : m.Represents q) {fuel : Nat} (hf : size.toNat < fuel)
    (hl : size.toNat ≤ q.length) :
    ∃ m', (read.go fuel size).run m = .ok (q.take size.toNat) m' ∧
      m'.Represents (q.drop size.toNat) := by
  induction fuel generalizing size m q
  case zero => omega
  case succ fuel hi =>
    have hlen := h.length_eq
    have hlt := h.write_pos_lt_two_pow
    have hle := m.readInd.second_le_pos bufferLen
    have hle' := h.inv.pos_le
    have hs := h.inv.readSecond
    have hs' := UInt32.lt_iff_toNat_lt.mp hs
    have hc : ¬(m.bytesToRead < size) := by
      rw [UInt32.lt_iff_toNat_lt, h.bytesToRead_toNat]
      omega
    have hfit : m.readInd.second + size ≤ bufferLen ↔ _ := add_le_iff (by omega)
    simp only [read.go, EStateM.run_bind, EStateM.run_get, if_neg hc, readPtr]
    by_cases hl' : m.readInd.second.toNat + size.toNat ≤ bufferLen.toNat
    case pos =>
      have ⟨ptr, hp, hm⟩ := memcpy_getPtr size h.inv hs hle' hl'
      have ⟨m', hadv, hm'⟩ := advanceReadPtr_spec h hl
      refine ⟨m', ?_, hm'⟩
      rw [h.slice_eq (Nat.le_refl _) (by omega), Nat.sub_self, List.drop_zero] at hm
      simp only [if_pos (hfit.mpr hl'), hp, EStateM.run_bind, hadv, EStateM.run_pure, hm]
    case neg =>
      have ⟨hk, hr⟩ := sub_numInBuffer_toNat size hs (by omega)
      generalize bufferLen - m.readInd.second = k at *
      have ⟨ptr, hp, hm⟩ := memcpy_getPtr k h.inv hs hle' (by omega)
      have ⟨m', hadv, hm'⟩ := advanceReadPtr_spec h (show k.toNat ≤ q.length by omega)
      have ⟨m'', hrun, hm''⟩ := @hi _ _ (size - k) hm' (by omega) (by simp; omega)
      have hadd : size.toNat = k.toNat + (size - k).toNat := by omega
      refine ⟨m'', ?_, ?_⟩
      · rw [h.slice_eq (Nat.le_refl _) (by omega), Nat.sub_self, List.drop_zero] at hm
        simp only [if_neg (mt hfit.mp hl'), hp, EStateM.run_bind, hadv, hrun, EStateM.run_pure, hm]
        rw [hadd, List.take_add]
      · rw [hadd, ← List.drop_drop]
        exact hm''

theorem read_spec (h : m.Represents q) (hl : size.toNat ≤ q.length) :
    ∃ m', (read size).run m = .ok (q.take size.toNat) m' ∧ m'.Represents (q.drop size.toNat) :=
  read_go_spec h (Nat.lt_succ_self _) hl

-- A request for more than there is fails before anything is touched.
theorem read_short (h : m.bytesToRead < size) :
    (read size).run m = .error (.outOfRange size m.bytesToRead) m := by
  simp only [read, read.go, EStateM.run_bind, EStateM.run_get, if_pos h]
  rfl

theorem peek_short (h : m.bytesToReadFromIndex ind < size) :
    (m.peek size).run ind = .error (.outOfRange size (m.bytesToReadFromIndex ind)) ind := by
  simp only [peek, peek.go, EStateM.run_bind, EStateM.run_get, if_pos h]
  rfl

theorem read_error (h : m.Represents q) (hl : q.length < size.toNat) :
    (read size).run m = .error (.outOfRange size m.bytesToRead) m := by
  refine read_short ?_
  rwa [UInt32.lt_iff_toNat_lt, h.bytesToRead_toNat]

theorem peek_error (h : m.Represents q) (hp : ind.pos bufferLen ≤ m.writeInd.pos bufferLen)
    (hl : m.writeInd.pos bufferLen < ind.pos bufferLen + size.toNat) :
    (m.peek size).run ind = .error (.outOfRange size (m.bytesToReadFromIndex ind)) ind := by
  refine peek_short ?_
  rw [UInt32.lt_iff_toNat_lt, bytesToReadFromIndex_toNat hp h.write_pos_lt_two_pow]
  omega

-- Buffers that are appended to the chain hold none of the unread bytes.
theorem pushBuffers_spec (h : m.Represents q) {k : Nat} (hc : m.buffers.length + k ≤ 1000000)
    (ht : bufferLen.toNat * (m.buffers.length + k) < 2 ^ 32) :
    (m.pushBuffers fresh k).Represents q := by
  have := h.inv.write_pos_lt_length_flat
  have hle := h.inv.pos_le
  rw [pushBuffers_eq]
  constructor
  case inv => exact {
    sanity      := by simp [h.inv.sanity]
    nonempty    := by have := h.inv.nonempty; simp; omega
    readFirst   := h.inv.readFirst
    le          := h.inv.le
    readSecond  := h.inv.readSecond
    writeSecond := h.inv.writeSecond
    writeFirst  := by have := h.inv.writeFirst; simp; omega
  }
  case bounded => exact ⟨by simpa using hc, by simpa using ht⟩
  case content =>
    rw [← h.content]
    simp only [content, flat_append]
    rw [List.drop_append_of_le_length (by omega),
      List.take_append_of_le_length (by rw [List.length_drop]; omega)]

theorem addBufferToChain_spec (fresh : Fresh bufferLen) (h : m.Represents q)
    (hc : m.buffers.length + 1 ≤ 1000000)
    (ht : bufferLen.toNat * (m.buffers.length + 1) < 2 ^ 32) :
    ∃ m', (addBufferToChain fresh).run m = .ok () m' ∧ m'.Represents q :=
  ⟨_, rfl, pushBuffers_spec h hc ht⟩

-- The number of buffers `add_space` appends does not reach the sign bit of its `int` when the chain
-- stays within its bound.
theorem buffersToAdd_toNat (h : bytes.toNat / bufferLen.toNat + 1 ≤ 1000000) :
    (bytes / bufferLen + 1).toInt32.toInt.toNat = bytes.toNat / bufferLen.toNat + 1 := by
  have hk : (bytes / bufferLen + 1).toNat = bytes.toNat / bufferLen.toNat + 1 := by
    rw [UInt32.toNat_add, UInt32.toNat_div]
    exact Nat.mod_eq_of_lt (by simp; omega)
  have hi : (bytes / bufferLen + 1).toInt32.toInt = ((bytes / bufferLen + 1).toNat : Int) :=
    BitVec.toInt_eq_toNat_of_lt (by simp; omega)
  rw [hi, hk, Int.toNat_natCast]

theorem addSpace_spec (bytes : UInt32) (fresh : Fresh bufferLen) (h : m.Represents q)
    (hc : m.buffers.length + (bytes.toNat / bufferLen.toNat + 1) ≤ 1000000)
    (ht : bufferLen.toNat * (m.buffers.length + (bytes.toNat / bufferLen.toNat + 1)) < 2 ^ 32) :
    ∃ m', (addSpace bytes fresh).run m = .ok () m' ∧ m'.Represents q := by
  have hk : (bytes / bufferLen + 1).toInt32.toInt.toNat = _ :=
    buffersToAdd_toNat (by omega)
  exact ⟨_, rfl, by rw [hk]; exact pushBuffers_spec h hc ht⟩

-- The length of the chain after the write index has moved to position `p`.
def grown (m : MessageBuffer bufferLen) (p : Nat) : Nat :=
  max m.buffers.length (p / bufferLen.toNat + 1)

theorem lt_mul_grown (hn : 0 < bufferLen) (p : Nat) : p < bufferLen.toNat * m.grown p := by
  have hn' : 0 < bufferLen.toNat := UInt32.lt_iff_toNat_lt.mp hn
  calc p < bufferLen.toNat * (p / bufferLen.toNat + 1) := Nat.lt_mul_div_succ p hn'
       _ ≤ _ := Nat.mul_le_mul_left _ (Nat.le_max_right ..)

-- Moving the write index makes the bytes it passes over readable, whatever they are.
theorem advanceWritePtr_spec (bytes : UInt32) (fresh : Fresh bufferLen) (h : m.Represents q)
    (hc : m.grown (m.writeInd.pos bufferLen + bytes.toNat) ≤ 1000000)
    (ht : bufferLen.toNat * m.grown (m.writeInd.pos bufferLen + bytes.toNat) < 2 ^ 32) :
    ∃ m' more, (advanceWritePtr bytes fresh).run m = .ok () m' ∧
      m'.Represents (q ++ ((flat m.buffers ++ more).drop (m.writeInd.pos bufferLen)).take bytes.toNat)
    := by
  have hn := h.inv.len_pos
  have hle := h.inv.pos_le
  have hlt := lt_mul_grown (m := m) hn (m.writeInd.pos bufferLen + bytes.toNat)
  have hpos := advanceIndex_pos hn m.writeInd bytes (by omega)
  have hsec := advanceIndex_second_lt hn m.writeInd bytes
  refine ⟨_, flat ((List.range
    ((advanceIndex bufferLen m.writeInd bytes).first.toNat + 1 - m.buffers.length)).map fresh), rfl, ?_⟩
  simp only
  generalize advanceIndex bufferLen m.writeInd bytes = w at *
  have hlen : m.buffers.length + (w.first.toNat + 1 - m.buffers.length) =
      m.grown (m.writeInd.pos bufferLen + bytes.toNat) := by
    rw [Index.first_toNat hsec, hpos, grown]
    omega
  rw [pushBuffers_eq]
  constructor
  case inv => exact {
    sanity      := by simp [h.inv.sanity]
    nonempty    := by have := h.inv.nonempty; simp; omega
    readFirst   := h.inv.readFirst
    le          := (Index.le_iff_pos_le _ _ h.inv.readSecond hsec).mpr (by omega)
    readSecond  := h.inv.readSecond
    writeSecond := hsec
    writeFirst  := by simp; omega
  }
  case bounded => exact ⟨by simp only [List.length_append, List.length_map, List.length_range]; omega,
    by simp only [List.length_append, List.length_map, List.length_range, hlen]; omega⟩
  case content =>
    have hfl := h.inv.write_pos_lt_length_flat
    have hsub : w.pos bufferLen - m.readInd.pos bufferLen =
        m.writeInd.pos bufferLen - m.readInd.pos bufferLen + bytes.toNat := by omega
    have hadd : m.readInd.pos bufferLen + (m.writeInd.pos bufferLen - m.readInd.pos bufferLen) =
        m.writeInd.pos bufferLen := by omega
    rw [← h.content]
    simp only [content, flat_append, hsub, List.take_add, List.drop_drop, hadd]
    rw [List.drop_append_of_le_length (i := m.readInd.pos bufferLen) (by omega),
      List.take_append_of_le_length (by rw [List.length_drop]; omega)]

theorem Buffer.store_toList {b : Buffer bufferLen} {offset : Nat} {data : List UInt8}
    (h : offset + data.length ≤ bufferLen.toNat) :
    (b.store offset data).toList = b.toList.overlay offset data := by
  apply List.ext_getElem
  case hl => simp [List.length_overlay, h]
  case h =>
    intro i h₁ h₂
    simp only [List.overlay, store, Vector.getElem_toList, Vector.getElem_ofFn, List.getElem_append]
    grind

@[simp]
theorem length_scatter {bs : List (Buffer bufferLen)} {seq : List MutableBuffer}
    {data : List UInt8} : (scatter bs seq data).length = bs.length := by
  induction seq generalizing bs data
  case nil          => rfl
  case cons _ _ hi  => simp [scatter, hi]

-- Filling one whole buffer after the other overwrites the chain from the first of them on.
theorem flat_scatter_range (bs : List (Buffer bufferLen)) (data : List UInt8) {i k : Nat}
    (hk : i + k = bs.length) (hd : data.length ≤ k * bufferLen.toNat) :
    flat (scatter bs ((List.range' i k).map (⟨·, 0, bufferLen.toNat⟩)) data) =
      (flat bs).overlay (i * bufferLen.toNat) data := by
  induction k generalizing bs data i
  case zero =>
    have : data = [] := by simpa using hd
    simp [scatter, this, List.overlay_nil]
  case succ k hi =>
    have hlt : i < bs.length := by omega
    have hfit : 0 + (data.take bufferLen.toNat).length ≤ bufferLen.toNat := by
      rw [Nat.zero_add]
      exact List.length_take_le ..
    have hfst : flat (bs.modify i (·.store 0 (data.take bufferLen.toNat))) =
        (flat bs).overlay (i * bufferLen.toNat) (data.take bufferLen.toNat) := by
      simpa using flat_modify hlt (Buffer.store_toList hfit) hfit
    simp only [List.range'_succ, List.map_cons, scatter]
    rw [hi _ _ (by simp; omega) (by rw [Nat.add_mul] at hd; simp; omega), hfst]
    have hle : (i + (k + 1)) * bufferLen.toNat = bs.length * bufferLen.toNat := by rw [hk]
    rw [Nat.add_mul i 1, Nat.one_mul]
    exact List.overlay_take_drop _ _ _ (by rw [length_flat]; rw [Nat.add_mul] at hle; omega)

-- Bytes that are stored beyond the write index do not change what is unread.
theorem Represents.store (h : m.Represents q) {bs : List (Buffer bufferLen)} {data : List UInt8}
    (hl : bs.length = m.buffers.length)
    (hf : flat bs = (flat m.buffers).overlay (m.writeInd.pos bufferLen) data) :
    { m with buffers := bs }.Represents q := by
  have hfl := h.inv.write_pos_lt_length_flat
  have hle := h.inv.pos_le
  constructor
  case inv => exact {
    sanity      := by simp [h.inv.sanity, hl]
    nonempty    := by simp [hl, h.inv.nonempty]
    readFirst   := h.inv.readFirst
    le          := h.inv.le
    readSecond  := h.inv.readSecond
    writeSecond := h.inv.writeSecond
    writeFirst  := by simp [hl, h.inv.writeFirst]
  }
  case bounded => exact ⟨by simp [hl, h.bounded.chain], by simp only [hl, h.bounded.total]⟩
  case content =>
    rw [← h.content]
    simp only [MessageBuffer.content, hf, ← List.drop_take]
    rw [List.take_overlay_of_le (Nat.le_refl _) (Nat.le_of_lt hfl)]

-- What a store leaves behind: the same unread bytes, and `data` from the write index on.
structure Stored (m : MessageBuffer bufferLen) (q data : List UInt8)
    (m' : MessageBuffer bufferLen) : Prop where
  represents : m'.Represents q
  writeInd   : m'.writeInd = m.writeInd
  length     : m'.buffers.length = m.buffers.length
  flat       : Blocks.flat m'.buffers = (flat m.buffers).overlay (m.writeInd.pos bufferLen) data

variable {data : List UInt8}

theorem Represents.writePtr_ok (h : m.Represents q) :
    ∃ b, m.buffers[m.writeInd.first.toNat]? = some b ∧
      m.writePtr = .ok (b, m.writeInd.second.toNat) :=
  h.inv.getPtr_ok h.inv.writeSecond (Nat.le_refl _)

-- The buffer the write index points to is filled first.
theorem flat_modify_writeInd (h : m.Represents q)
    (hd : m.writeInd.second.toNat + data.length ≤ bufferLen.toNat) :
    flat (m.buffers.modify m.writeInd.first.toNat (·.store m.writeInd.second.toNat data)) =
      (flat m.buffers).overlay (m.writeInd.pos bufferLen) data :=
  flat_modify h.inv.writeFirst (Buffer.store_toList hd) hd

theorem storeWritePtr_spec (h : m.Represents q)
    (hd : m.writeInd.second.toNat + data.length ≤ bufferLen.toNat) :
    ∃ m', (storeWritePtr data).run m = .ok () m' ∧ m.Stored q data m' := by
  have ⟨b, _, hp⟩ := h.writePtr_ok
  have hf := flat_modify_writeInd h hd
  refine ⟨{ m with buffers := _ }, ?_, h.store (by simp) hf, rfl, by simp, hf⟩
  simp only [storeWritePtr, EStateM.run_bind, EStateM.run_get, hp, EStateM.run_set]

theorem storeSequence_spec (h : m.Represents q)
    (hd : m.writeInd.pos bufferLen + data.length ≤ bufferLen.toNat * m.buffers.length) :
    ∃ m', (storeSequence data).run m = .ok () m' ∧ m.Stored q data m' := by
  have ⟨b, _, hp⟩ := h.writePtr_ok
  have hw := h.inv.writeFirst
  have hs := UInt32.lt_iff_toNat_lt.mp h.inv.writeSecond
  have hk : (bufferLen - m.writeInd.second).toNat = bufferLen.toNat - m.writeInd.second.toNat :=
    UInt32.toNat_sub_of_le _ _ (UInt32.le_of_lt h.inv.writeSecond)
  simp only [storeSequence, EStateM.run_bind, EStateM.run_get, getBufferSequenceForBoostAsyncRead,
    if_pos hw, hp, EStateM.run_set, scatter, hk]
  have hd' : m.writeInd.pos bufferLen + data.length ≤ m.buffers.length * bufferLen.toNat := by
    rwa [Nat.mul_comm m.buffers.length]
  have hsplit : m.buffers.length * bufferLen.toNat = m.writeInd.first.toNat * bufferLen.toNat +
      bufferLen.toNat + (m.buffers.length - (m.writeInd.first.toNat + 1)) * bufferLen.toNat := by
    rw [← Nat.succ_mul, ← Nat.add_mul]
    congr 1
    omega
  have hfst : m.writeInd.second.toNat +
      (data.take (bufferLen.toNat - m.writeInd.second.toNat)).length ≤ bufferLen.toNat := by
    simp
    omega
  have hf := flat_modify_writeInd h hfst
  have hpos : (m.writeInd.first.toNat + 1) * bufferLen.toNat =
      m.writeInd.pos bufferLen + (bufferLen.toNat - m.writeInd.second.toNat) := by
    rw [Nat.succ_mul, Index.pos]
    omega
  have hall := flat_scatter_range
    (m.buffers.modify m.writeInd.first.toNat
      (·.store m.writeInd.second.toNat (data.take (bufferLen.toNat - m.writeInd.second.toNat))))
    (data.drop (bufferLen.toNat - m.writeInd.second.toNat)) (i := m.writeInd.first.toNat + 1)
    (k := m.buffers.length - (m.writeInd.first.toNat + 1)) (by simp; omega)
    (by rw [Index.pos] at hd'; rw [List.length_drop]; omega)
  rw [hf, hpos, List.overlay_take_drop _ _ _ (by rwa [length_flat])] at hall
  exact ⟨_, rfl, h.store (by simp) hall, rfl, by simp, hall⟩

-- Advancing the write index over bytes that were just stored appends them to the unread bytes.
theorem Stored.advanceWritePtr {m' : MessageBuffer bufferLen} (fresh : Fresh bufferLen)
    (h : m.Represents q)
    (hst : m.Stored q data m')
    (hc : m.grown (m.writeInd.pos bufferLen + data.length) ≤ 1000000)
    (ht : bufferLen.toNat * m.grown (m.writeInd.pos bufferLen + data.length) < 2 ^ 32) :
    ∃ m'', (advanceWritePtr (.ofNat data.length) fresh).run m' = .ok () m'' ∧
      m''.Represents (q ++ data) := by
  have hlt := lt_mul_grown (m := m) h.inv.len_pos (m.writeInd.pos bufferLen + data.length)
  have hdl : (UInt32.ofNat data.length).toNat = data.length :=
    UInt32.toNat_ofNat_of_lt' (show data.length < 2 ^ 32 by omega)
  have hg : m'.grown (m'.writeInd.pos bufferLen + (UInt32.ofNat data.length).toNat) =
      m.grown (m.writeInd.pos bufferLen + data.length) := by
    rw [grown, grown, hst.length, hst.writeInd, hdl]
  have ⟨m'', more, hrun, hr⟩ := advanceWritePtr_spec (.ofNat data.length) fresh
    hst.represents (by rwa [hg]) (by rwa [hg])
  have hfl := h.inv.write_pos_lt_length_flat
  refine ⟨m'', hrun, ?_⟩
  have hle : m.writeInd.pos bufferLen ≤
      ((Blocks.flat m.buffers).overlay (m.writeInd.pos bufferLen) data).length := by
    rw [List.overlay, List.length_append, List.length_append, List.length_take]
    omega
  rw [hst.flat, hst.writeInd, hdl, List.drop_append_of_le_length hle,
    List.drop_overlay (Nat.le_of_lt hfl), List.append_assoc, List.take_left] at hr
  exact hr

end MessageBuffer
