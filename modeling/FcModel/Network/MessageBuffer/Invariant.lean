import FcModel.Lib.Machine
import FcModel.Lib.Blocks
import FcModel.Network.MessageBuffer.Basic

open Blocks

namespace MessageBuffer

variable {bufferLen : UInt32} {m : MessageBuffer bufferLen} {ind : Index} {bytes size : UInt32}

namespace Index

-- The distance of an index from the start of the chain, as an unbounded number.
def pos (bufferLen : UInt32) (ind : Index) : Nat :=
  ind.first.toNat * bufferLen.toNat + ind.second.toNat

theorem ofNat_pos (ind : Index) :
    UInt32.ofNat (ind.pos bufferLen) = ind.first * bufferLen + ind.second := by
  simp [pos, UInt32.ofNat_add, UInt32.ofNat_mul]

@[simp]
theorem pos_zero : pos bufferLen ⟨0, 0⟩ = 0 := by
  simp [pos]

theorem first_toNat (h : ind.second < bufferLen) :
    ind.first.toNat = ind.pos bufferLen / bufferLen.toNat := by
  have h' := UInt32.lt_iff_toNat_lt.mp h
  rw [pos, Nat.mul_comm, Nat.mul_add_div (by omega), Nat.div_eq_of_lt h', Nat.add_zero]

theorem second_toNat (h : ind.second < bufferLen) :
    ind.second.toNat = ind.pos bufferLen % bufferLen.toNat := by
  have h' := UInt32.lt_iff_toNat_lt.mp h
  rw [pos, Nat.mul_comm, Nat.mul_add_mod, Nat.mod_eq_of_lt h']

theorem eq_of_pos_eq {i j : Index} (hi : i.second < bufferLen) (hj : j.second < bufferLen)
    (h : i.pos bufferLen = j.pos bufferLen) : i = j := by
  have h₁ : i.first = j.first := UInt32.toNat_inj.mp (by rw [first_toNat hi, first_toNat hj, h])
  have h₂ : i.second = j.second := UInt32.toNat_inj.mp (by rw [second_toNat hi, second_toNat hj, h])
  cases i; cases j
  simp_all

-- On indices whose offset lies in a buffer, the order of pairs is the order of positions.
theorem le_iff_pos_le (i j : Index) (hi : i.second < bufferLen) (hj : j.second < bufferLen) :
    i.Le j ↔ i.pos bufferLen ≤ j.pos bufferLen := by
  simp only [Le, UInt32.lt_iff_toNat_lt, UInt32.le_iff_toNat_le, ← UInt32.toNat_inj]
  simp only [UInt32.lt_iff_toNat_lt] at hi hj
  constructor
  case mp =>
    intro h
    cases h
    case inl h =>
      have := Nat.mul_le_mul_right bufferLen.toNat (Nat.succ_le_of_lt h)
      simp only [Nat.succ_eq_add_one, Nat.add_mul, pos] at *
      omega
    case inr h => simp only [pos, h.left]; omega
  case mpr =>
    intro h
    by_contra hc
    have hlt : j.first.toNat < i.first.toNat ∨
        (i.first.toNat = j.first.toNat ∧ j.second.toNat < i.second.toNat) := by omega
    cases hlt
    case inl hlt =>
      have := Nat.mul_le_mul_right bufferLen.toNat (Nat.succ_le_of_lt hlt)
      simp only [Nat.succ_eq_add_one, Nat.add_mul, pos] at *
      omega
    case inr hlt => simp only [pos, hlt.left] at h; omega

end Index

section Arithmetic

variable (hn : 0 < bufferLen)
include hn

-- As long as the position stays below `2 ^ 32`, none of the operations on `uint32_t` wraps.
theorem advanceIndex_pos (ind : Index) (bytes : UInt32)
    (h : ind.pos bufferLen + bytes.toNat < 2 ^ 32) :
    (advanceIndex bufferLen ind bytes).pos bufferLen = ind.pos bufferLen + bytes.toNat := by
  have hn' : 0 < bufferLen.toNat := UInt32.lt_iff_toNat_lt.mp hn
  simp only [Index.pos] at h
  have hs : (bytes + ind.second).toNat = bytes.toNat + ind.second.toNat := by
    rw [UInt32.toNat_add]
    exact Nat.mod_eq_of_lt (by omega)
  have hf : (advanceIndex bufferLen ind bytes).first.toNat =
      ind.first.toNat + (bytes.toNat + ind.second.toNat) / bufferLen.toNat := by
    simp only [advanceIndex, UInt32.toNat_add ind.first, UInt32.toNat_div, hs]
    have := Nat.div_le_self (bytes.toNat + ind.second.toNat) bufferLen.toNat
    have := Nat.le_mul_of_pos_right ind.first.toNat hn'
    exact Nat.mod_eq_of_lt (by omega)
  have hdm := Nat.div_add_mod' (bytes.toNat + ind.second.toNat) bufferLen.toNat
  simp only [Index.pos, hf, Nat.add_mul]
  simp only [advanceIndex, UInt32.toNat_mod, hs]
  omega

theorem advanceIndex_second_lt (ind : Index) (bytes : UInt32) :
    (advanceIndex bufferLen ind bytes).second < bufferLen := by
  simp only [advanceIndex, UInt32.lt_iff_toNat_lt, UInt32.toNat_mod]
  exact Nat.mod_lt _ (UInt32.lt_iff_toNat_lt.mp hn)

end Arithmetic

theorem bytesToReadFromIndex_toNat (h : ind.pos bufferLen ≤ m.writeInd.pos bufferLen)
    (hw : m.writeInd.pos bufferLen < 2 ^ 32) :
    (m.bytesToReadFromIndex ind).toNat = m.writeInd.pos bufferLen - ind.pos bufferLen := by
  have he : m.bytesToReadFromIndex ind =
      UInt32.ofNat (m.writeInd.pos bufferLen) - UInt32.ofNat (ind.pos bufferLen) := by
    simp only [Index.ofNat_pos, bytesToReadFromIndex]
    grind
  rw [he, ← UInt32.ofNat_sub h]
  exact UInt32.toNat_ofNat_of_lt' (Nat.lt_of_le_of_lt (Nat.sub_le ..) hw)

theorem bytesToWrite_toNat (h : m.writeInd.pos bufferLen ≤ bufferLen.toNat * m.buffers.length)
    (ht : bufferLen.toNat * m.buffers.length < 2 ^ 32) :
    m.bytesToWrite.toNat = bufferLen.toNat * m.buffers.length - m.writeInd.pos bufferLen := by
  have he : m.bytesToWrite =
      UInt32.ofNat (bufferLen.toNat * m.buffers.length) - UInt32.ofNat (m.writeInd.pos bufferLen) := by
    simp only [Index.ofNat_pos, bytesToWrite, totalBytes]
    grind
  rw [he, ← UInt32.ofNat_sub h]
  exact UInt32.toNat_ofNat_of_lt' (Nat.lt_of_le_of_lt (Nat.sub_le ..) ht)

-- The loops over the chain in closed form.

theorem pushBuffers_eq (fresh : Fresh bufferLen) (k : Nat) : m.pushBuffers fresh k =
    { m with
      buffers     := m.buffers ++ (List.range k).map fresh
      sanityCheck := m.sanityCheck + k } := by
  induction k
  case zero      => simp [pushBuffers]
  case succ _ hi => simp [pushBuffers, hi, List.range_succ, Nat.add_assoc]

theorem popBack_eq (k : Nat) : m.popBack k =
    { m with
      buffers     := m.buffers.take (m.buffers.length - k)
      sanityCheck := m.sanityCheck - k } := by
  induction k generalizing m
  case zero => simp [popBack]
  case succ k hi =>
    have : m.buffers.dropLast.take (m.buffers.dropLast.length - k) =
        m.buffers.take (m.buffers.length - (k + 1)) := by
      rw [List.dropLast_eq_take, List.take_take, List.length_take]
      congr 1
      omega
    simp only [popBack, hi, this, Nat.sub_sub, Nat.add_comm 1 k]

theorem popFront_run {k : Nat} (h : k ≤ m.buffers.length) : (popFront k).run m = .ok ()
    { buffers     := m.buffers.drop k
      sanityCheck := m.sanityCheck - k
      readInd     := { m.readInd with first := m.readInd.first - .ofNat k }
      writeInd    := { m.writeInd with first := m.writeInd.first - .ofNat k } } := by
  induction k generalizing m
  case zero => simp [popFront]
  case succ k hi =>
    cases hb : m.buffers
    case nil => simp [hb] at h
    case cons b bs =>
      simp only [hb, List.length_cons, Nat.add_le_add_iff_right] at h
      simp only [popFront, EStateM.run_bind, EStateM.run_get, hb, EStateM.run_set]
      rw [hi (by exact h)]
      simp only [List.drop_succ_cons, Nat.sub_sub, Nat.add_comm 1 k, UInt32.ofNat_add]
      congr 3 <;> grind

-- The representation invariant.
structure Inv (m : MessageBuffer bufferLen) : Prop where
  sanity      : m.sanityCheck = m.buffers.length
  nonempty    : 1 ≤ m.buffers.length
  readFirst   : m.readInd.first = 0
  le          : m.readInd.Le m.writeInd
  readSecond  : m.readInd.second < bufferLen
  writeSecond : m.writeInd.second < bufferLen
  writeFirst  : m.writeInd.first.toNat < m.buffers.length

-- The sizes the class is made for: beyond them its `uint32_t` arithmetic wraps and `reset` exits.
structure Bounded (m : MessageBuffer bufferLen) : Prop where
  chain : m.buffers.length ≤ 1000000
  total : bufferLen.toNat * m.buffers.length < 2 ^ 32

-- The bytes between the read index and the write index.
def content (m : MessageBuffer bufferLen) : List UInt8 :=
  ((flat m.buffers).drop (m.readInd.pos bufferLen)).take
    (m.writeInd.pos bufferLen - m.readInd.pos bufferLen)

-- `m` is in a consistent state in which `q` are the bytes that were written but not consumed.
structure Represents (m : MessageBuffer bufferLen) (q : List UInt8) : Prop where
  inv     : m.Inv
  bounded : m.Bounded
  content : m.content = q

namespace Inv

theorem len_pos (hi : m.Inv) : 0 < bufferLen :=
  UInt32.lt_of_le_of_lt UInt32.zero_le hi.readSecond

theorem pos_le (hi : m.Inv) : m.readInd.pos bufferLen ≤ m.writeInd.pos bufferLen :=
  Index.le_iff_pos_le _ _ hi.readSecond hi.writeSecond |>.mp hi.le

theorem write_pos_lt (hi : m.Inv) :
    m.writeInd.pos bufferLen < bufferLen.toNat * m.buffers.length := by
  have := Nat.mul_le_mul_right bufferLen.toNat (Nat.succ_le_of_lt hi.writeFirst)
  have := UInt32.lt_iff_toNat_lt.mp hi.writeSecond
  rw [Nat.mul_comm]
  simp only [Nat.succ_eq_add_one, Nat.add_mul, Index.pos] at *
  omega

theorem write_pos_lt_length_flat (hi : m.Inv) :
    m.writeInd.pos bufferLen < (flat m.buffers).length := by
  rw [length_flat, Nat.mul_comm]
  exact hi.write_pos_lt

theorem length_content (hi : m.Inv) :
    m.content.length = m.writeInd.pos bufferLen - m.readInd.pos bufferLen := by
  have := hi.write_pos_lt_length_flat
  simp only [MessageBuffer.content, List.length_take, List.length_drop]
  omega

-- Every index up to the write index points into the chain.
theorem getPtr_ok (hi : m.Inv) (hs : ind.second < bufferLen)
    (hw : ind.pos bufferLen ≤ m.writeInd.pos bufferLen) :
    ∃ b, m.buffers[ind.first.toNat]? = some b ∧ m.getPtr ind = .ok (b, ind.second.toNat) := by
  have hf : ind.first.toNat < m.buffers.length := by
    have := Nat.div_le_div_right hw (c := bufferLen.toNat)
    rw [← Index.first_toNat hs, ← Index.first_toNat hi.writeSecond] at this
    exact Nat.lt_of_le_of_lt this hi.writeFirst
  refine ⟨m.buffers[ind.first.toNat], List.getElem?_eq_getElem hf, ?_⟩
  simp [getPtr, List.getElem?_eq_getElem hf, hs]

end Inv

end MessageBuffer
