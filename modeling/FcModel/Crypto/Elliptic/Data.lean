import FcModel.Crypto.Keys
import FcModel.Crypto.ModularArithmetic

-- The arrays of bytes that keys and signatures are stored in.

namespace Elliptic

open Raw Keys
open ModularArithmetic (padded)

variable {n : Nat}

def data (n : Nat) (bs : Bytes) : Data n :=
  fun i => (bs.getD i.val 0).toBitVec

def byte (d : Data n) (i : Nat) : BitVec (8 * 1) :=
  (List.ofFn d).getD i 0

theorem byte_eq (d : Data n) (i : Fin n) : byte d i = d i := by
  rw [byte, List.getD_eq_getElem _ _ (by simp)]
  simp

-- The bytes of an array from `i` on.
def bytes (d : Data n) (i k : Nat) : Bytes :=
  (((List.ofFn d).drop i).take k).map .ofBitVec

theorem bytes_data {bs : Bytes} (h : bs.length = n) (i k : Nat) :
    bytes (data n bs) i k = (bs.drop i).take k := by
  subst h
  rw [bytes, List.map_take, List.map_drop, List.map_ofFn]
  congr
  refine List.ext_getElem (by simp) fun i _ hi => ?_
  simp [data, hi]

theorem memory_eq (d : Data n) : memory d = (List.ofFn d).map .ofBitVec := by
  rw [memory]
  induction n
  case zero => simp [Scalar.arrayToBytes]
  case succ n hi =>
    have hb : (Scalar.int 1).toBytes (d 0) = [.ofBitVec (d 0)] := by
      simp [Scalar.toBytes, toLE, UInt8.ofNat]
    rw [Scalar.arrayToBytes, List.ofFn_succ, List.map_cons, ← hi fun i => d i.succ]
    exact congrArg (· ++ _) hb

theorem memory_data {bs : Bytes} (h : bs.length = n) : memory (data n bs) = bs := by
  have hb := bytes_data h 0 n
  rwa [bytes, List.drop_zero, List.drop_zero, List.take_of_length_le (by rw [List.length_ofFn]),
    List.take_of_length_le h.le, ← memory_eq] at hb

theorem data_inj {bs cs : Bytes} (hb : bs.length = n) (hc : cs.length = n)
    (h : data n bs = data n cs) : bs = cs := by
  rw [← memory_data hb, h, memory_data hc]

theorem padded_ofBytes {bs : Bytes} (h : bs.length = 32) : padded 32 (Bigint.ofBytes bs) = bs := by
  obtain ⟨z, hz⟩ := Bigint.exists_data bs
  have hl := Bigint.length_data z (Bigint.ofBytes bs)
  rw [← hz, h] at hl
  rw [padded, hl, Nat.add_sub_cancel, ← hz]

theorem data_memory (d : Data n) : data n (memory d) = d :=
  Function.LeftInverse.injective (Scalar.arrayOfBytes_arrayToBytes (.int 1))
    (memory_data (length_memory d))

end Elliptic
