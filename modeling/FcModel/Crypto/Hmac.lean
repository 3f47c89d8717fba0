import FcModel.Raw.Scalar
import FcModel.Text.Basic

-- `fc::hmac`, over any of the hash functions.

namespace Hmac

open Raw

-- A type of digests, and its encoder. How a hash is computed is not part of the repository. A
-- digest fits in the block of its hash.
structure HashType where
  Encoder           : Type
  reset             : Encoder → Encoder
  write             : Encoder → Bytes → Encoder
  result            : Encoder → Bytes
  -- The memory of an encoder before it is constructed.
  initial           : Encoder
  dataSize          : Nat
  internalBlockSize : Nat
  length_result     : ∀ e, (result e).length = dataSize
  dataSize_le       : dataSize ≤ internalBlockSize

namespace HashType

variable (T : HashType)

def put (e : T.Encoder) (c : UInt8) : T.Encoder :=
  T.write e [c]

def hash (d : Bytes) : Bytes :=
  T.result (T.write (T.reset T.initial) d)

-- The encoder hashes what is written to it since it was reset.
def Hashes (H : Bytes → Bytes) : Prop :=
  ∀ e ws, T.result (List.foldl T.write (T.reset e) ws) = H ws.flatten

-- The loop of `add_key`, which has `n` bytes of the block left.
def putKey (cLen : Nat) (pad : UInt8) : (n i : Nat) → T.Encoder → Bytes → T.Encoder
  | 0, _, e, _     => e
  | n + 1, i, e, c =>
    if i < cLen then putKey cLen pad n (i + 1) (T.put e (pad ^^^ c.headD 0)) c.tail
    else putKey cLen pad n (i + 1) (T.put e (pad ^^^ 0)) c

def addKey (e : T.Encoder) (c : Bytes) (pad : UInt8) : T.Encoder :=
  if T.internalBlockSize < c.length then addKey e (T.hash c) pad
  else T.putKey c.length pad T.internalBlockSize 0 e c
termination_by c.length
decreasing_by
  rw [hash, T.length_result]
  exact Nat.lt_of_le_of_lt T.dataSize_le (by assumption)

-- The encoder is a member, so that it is left over from the last digest.
def digest (e : T.Encoder) (c d : Bytes) : T.Encoder × Bytes :=
  let e := T.write (T.addKey (T.reset e) c 0x36) d
  let intermediate := T.result e
  let e := T.write (T.addKey (T.reset e) c 0x5c) intermediate
  (e, T.result e)

end HashType

-- HMAC over a hash function with blocks of `B` bytes.
section Rfc2104

variable (H : Bytes → Bytes) (B : Nat)

def ipad : UInt8 := 0x36

def opad : UInt8 := 0x5c

-- A key that is longer than a block is hashed, and then filled up with zeros.
def blockKey (key : Bytes) : Bytes :=
  let key := if B < key.length then H key else key
  key ++ List.replicate (B - key.length) 0

def xor (key : Bytes) (pad : UInt8) : Bytes :=
  key.zipWith (· ^^^ ·) (List.replicate B pad)

def hmac (key text : Bytes) : Bytes :=
  H (xor B (blockKey H B key) opad ++ H (xor B (blockKey H B key) ipad ++ text))

end Rfc2104

section AddKey

variable {T : HashType} {H : Bytes → Bytes} {e : T.Encoder} {c : Bytes} {pad : UInt8} {i n : Nat}

theorem xor_replicate {key : Bytes} {B : Nat} (h : key.length = B) :
    xor B key pad = key.map (pad ^^^ ·) := by
  subst h
  rw [xor]
  induction key
  case nil           => rfl
  case cons b key hi =>
    rw [List.length_cons, List.replicate_succ, List.zipWith_cons_cons, hi, List.map_cons,
      UInt8.xor_comm]

-- What is left of the key is put first, and then zeros.
theorem putKey_eq {cLen : Nat} (hc : c.length = cLen - i) (hn : c.length ≤ n) :
    T.putKey cLen pad n i e c =
      List.foldl T.put e ((c ++ List.replicate (n - c.length) 0).map (pad ^^^ ·)) := by
  induction n generalizing i e c
  case zero =>
    rw [List.eq_nil_of_length_eq_zero (Nat.le_zero.mp hn)]
    rfl
  case succ n hi =>
    cases c
    case nil =>
      have hend : ¬i < cLen := Nat.not_lt.mpr (Nat.le_of_sub_eq_zero hc.symm)
      rw [HashType.putKey, if_neg hend, @hi _ [] _ (by rw [List.length_nil]; omega) (Nat.zero_le n)]
      rfl
    case cons b c =>
      rw [List.length_cons] at hc hn
      rw [HashType.putKey, if_pos (by omega), List.headD_cons, List.tail_cons,
        hi (by omega) (by omega), List.length_cons, Nat.add_sub_add_right]
      rfl

theorem hash_eq (hT : T.Hashes H) (d : Bytes) : T.hash d = H d := by
  have h := hT T.initial [d]
  rwa [List.flatten_singleton] at h

theorem length_blockKey (hT : T.Hashes H) :
    (blockKey H T.internalBlockSize c).length = T.internalBlockSize := by
  rw [blockKey, List.length_append, List.length_replicate]
  have hlength : (if T.internalBlockSize < c.length then H c else c).length ≤
      T.internalBlockSize := by
    split
    case isTrue =>
      rw [← hash_eq hT, HashType.hash, T.length_result]
      exact T.dataSize_le
    case isFalse h => exact Nat.not_lt.mp h
  exact Nat.add_sub_cancel' hlength

-- A key that fits in the block is written byte by byte.
theorem addKey_of_le (h : c.length ≤ T.internalBlockSize) :
    T.addKey e c pad =
      List.foldl T.write e
        (((c ++ List.replicate (T.internalBlockSize - c.length) 0).map (pad ^^^ ·)).map ([·])) := by
  rw [HashType.addKey, if_neg (Nat.not_lt.mpr h), putKey_eq (Nat.sub_zero _).symm h]
  generalize (c ++ List.replicate (T.internalBlockSize - c.length) 0).map (pad ^^^ ·) = key
  rw [List.foldl_map]
  rfl

theorem addKey_eq (hT : T.Hashes H) :
    T.addKey e c pad =
      List.foldl T.write e
        ((xor T.internalBlockSize (blockKey H T.internalBlockSize c) pad).map ([·])) := by
  rw [xor_replicate (length_blockKey hT), blockKey]
  by_cases h : T.internalBlockSize < c.length
  case pos =>
    have hlength : (T.hash c).length ≤ T.internalBlockSize := by
      rw [HashType.hash, T.length_result]
      exact T.dataSize_le
    rw [HashType.addKey, if_pos h, if_pos h, addKey_of_le hlength, hash_eq hT]
  case neg => rw [addKey_of_le (Nat.not_lt.mp h), if_neg h]

-- The hash of the padded key and of a text that is written after it.
theorem result_addKey (hT : T.Hashes H) (d : Bytes) :
    T.result (T.write (T.addKey (T.reset e) c pad) d) =
      H (xor T.internalBlockSize (blockKey H T.internalBlockSize c) pad ++ d) := by
  generalize hkey : xor T.internalBlockSize (blockKey H T.internalBlockSize c) pad = key
  have h := hT e (key.map ([·]) ++ [d])
  rw [List.foldl_append, List.flatten_append, List.flatten_singleton, ← List.flatMap_def,
    List.flatMap_singleton'] at h
  rw [addKey_eq hT, hkey]
  exact h

end AddKey

-- What is computed is the HMAC of the key and the message, whatever the encoder was used for
-- before.
theorem digest_eq_hmac {T : HashType} {H : Bytes → Bytes} (hT : T.Hashes H) (e : T.Encoder)
    (c d : Bytes) : (T.digest e c d).2 = hmac H T.internalBlockSize c d := by
  rw [HashType.digest]
  dsimp only
  rw [result_addKey hT, result_addKey hT]
  rfl

section Sample

-- SHA-256 of two messages, as far as the key of twenty bytes and the text below need it.
def sampleKey : Bytes :=
  List.replicate 20 0x0b

def sampleInner : Bytes :=
  (toLE 32 0x92ab4d9a1f3b6152bca9dd9e69af43f4ce99e42fd4e30ff972c48025b9f9cfef).reverse

def sampleOuter : Bytes :=
  (toLE 32 0xb0344c61d8db38535ca8afceaf0bf12b881dc200c9833da726e9376c2e32cff7).reverse

def sampleHash (m : Bytes) : Bytes :=
  if m = List.replicate 20 0x3d ++ List.replicate 44 0x36 ++ ascii "Hi There" then sampleInner
  else if m = List.replicate 20 0x57 ++ List.replicate 44 0x5c ++ sampleInner then sampleOuter
  else List.replicate 32 0

def sampleType : HashType where
  Encoder           := Bytes
  reset _           := []
  write e d         := e ++ d
  result            := sampleHash
  initial           := []
  dataSize          := 32
  internalBlockSize := 64
  length_result m   := by
    rw [sampleHash]
    split
    case isTrue => rfl
    case isFalse =>
      split
      case isTrue  => rfl
      case isFalse => rfl
  dataSize_le       := by decide

theorem hashes_sampleType : sampleType.Hashes sampleHash := by
  intro e ws
  have h : ∀ (ws : List Bytes) (b : Bytes), List.foldl sampleType.write b ws = b ++ ws.flatten := by
    intro ws
    induction ws
    case nil          => exact fun b => (List.append_nil b).symm
    case cons w ws hi => exact fun b => (hi (b ++ w)).trans (List.append_assoc ..)
  exact congrArg sampleHash (h ws [])

theorem digest_eq_hmac_sample :
    (sampleType.digest [] sampleKey (ascii "Hi There")).2 = sampleOuter :=
  (digest_eq_hmac hashes_sampleType [] sampleKey (ascii "Hi There")).trans (by decide +kernel)

end Sample

end Hmac
