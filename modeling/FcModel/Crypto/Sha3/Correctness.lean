import FcModel.Crypto.Sha3.Permutation

-- The encoder computes the hash functions of the standard, however the message is split.

namespace Sha3

section StateBits

-- The bits of the words, in the order of the bytes.
def bitAt (w : Words) (i : Nat) : Bool :=
  if h : i / 64 < 25 then (w.get ⟨i / 64, h⟩).toBitVec.getLsbD (i % 64) else false

-- The string that the state of the standard is.
def stateBits (w : Words) : List Bool :=
  Keccak.toString (lanes w)

@[simp]
theorem length_stateBits (w : Words) : (stateBits w).length = 1600 := by
  rw [stateBits, Keccak.toString, List.length_ofFn]

theorem getElem_stateBits (w : Words) {i : Nat} (hi : i < (stateBits w).length) :
    (stateBits w)[i] = bitAt w i := by
  rw [length_stateBits] at hi
  have hlane : lane (.ofNat 5 (i / 64)) (.ofNat 5 (i / 64 / 5)) = ⟨i / 64, by omega⟩ :=
    Fin.ext (show i / 64 % 5 + 5 * (i / 64 / 5 % 5) = i / 64 by omega)
  simp only [stateBits, Keccak.toString, List.getElem_ofFn]
  rw [lanes, hlane, bitAt, dif_pos (show i / 64 < 25 by omega)]
  rfl

theorem stateBits_updateStep (w : Words) :
    stateBits (updateStep w) = Keccak.keccakP (stateBits w) := by
  rw [stateBits, lanes_updateStep, ← Keccak.keccakP_toString, stateBits]

theorem toNat_shift {j : Nat} : (8 * .ofNat (j % 8) : UInt64).toNat = 8 * (j % 8) := by
  have h8 : (8 : UInt64).toNat = 8 := rfl
  rw [UInt64.toNat_mul, UInt64.toNat_ofNat', h8]
  omega

-- The byte, shifted to its place in the word.
theorem getLsbD_shifted (b : UInt8) {i j : Nat} (h : i / 64 = j / 8) :
    (b.toUInt64 <<< (8 * .ofNat (j % 8))).toBitVec.getLsbD (i % 64) =
      (decide (i / 8 = j) && b.toBitVec.getLsbD (i % 8)) := by
  rw [toBitVec_shiftLeft_of_lt _ (by rw [toNat_shift]; omega), toNat_shift,
    BitVec.getLsbD_shiftLeft,
    UInt8.toBitVec_toUInt64, BitVec.getLsbD_setWidth]
  by_cases hij : i / 8 = j
  case pos =>
    have hlt : i % 64 < 64 := by omega
    have hle : ¬i % 64 < 8 * (j % 8) := by omega
    have hlt' : i % 64 - 8 * (j % 8) < 64 := by omega
    have hk : i % 64 - 8 * (j % 8) = i % 8 := by omega
    simp [hij, hlt, hle, hk]
    omega
  case neg =>
    by_cases hle : i % 64 < 8 * (j % 8)
    case pos => simp [hij, hle]
    case neg =>
      have hhigh : b.toBitVec.getLsbD (i % 64 - 8 * (j % 8)) = false :=
        BitVec.getLsbD_of_ge _ _ (by omega)
      simp [hij, hhigh]

-- A byte is added to eight bits of the state.
theorem bitAt_xorByte (w : Words) {j : Nat} (hj : j < 200) (b : UInt8) (i : Nat) :
    bitAt (xorByte w j b) i =
        (bitAt w i ^^ (decide (i / 8 = j) && b.toBitVec.getLsbD (i % 8))) := by
  rw [xorByte, dif_pos (show j / 8 < 25 by omega), bitAt, bitAt]
  by_cases hi : i / 64 < 25
  case neg =>
    have hij : i / 8 ≠ j := by omega
    simp [hi, hij]
  case pos =>
    rw [dif_pos hi, dif_pos hi, get_store]
    by_cases h : i / 64 = j / 8
    case pos =>
      rw [if_pos (Fin.ext h), UInt64.toBitVec_xor, BitVec.getLsbD_xor, getLsbD_shifted b h]
      simp only [h]
    case neg =>
      have hij : i / 8 ≠ j := by omega
      rw [if_neg fun he => h (Fin.val_eq_of_eq he)]
      simp [hij]

end StateBits

section Bits

theorem length_bits (bs : Bytes) : (Keccak.bits bs).length = 8 * bs.length := by
  induction bs
  case nil => rfl
  case cons b bs hi =>
    rw [Keccak.bits, List.flatMap_cons, List.length_append, ← Keccak.bits, hi, List.length_ofFn,
      List.length_cons]
    omega

theorem bits_append (as bs : Bytes) : Keccak.bits (as ++ bs) = Keccak.bits as ++ Keccak.bits bs :=
  List.flatMap_append

-- The bit with index `k` of the bits of some bytes.
theorem getD_bits_cons (b : UInt8) (bs : Bytes) (k : Nat) :
    (Keccak.bits (b :: bs)).getD k false =
      if k < 8 then b.toBitVec.getLsbD k else (Keccak.bits bs).getD (k - 8) false := by
  rw [Keccak.bits, List.flatMap_cons, ← Keccak.bits]
  by_cases hk : k < 8
  case pos =>
    rw [if_pos hk, List.getD_append _ _ _ _ (by simpa using hk),
      List.getD_eq_getElem _ _ (by simpa using hk),
      List.getElem_ofFn]
  case neg => rw [if_neg hk, List.getD_append_right _ _ _ _ (by simpa using hk), List.length_ofFn]

end Bits

section Update

-- Bytes are added to the state, from position `p` on.
def xorBytes (w : Words) (p : Nat) : Bytes → Words
  | []      => w
  | b :: bs => xorBytes (xorByte w p b) (p + 1) bs

theorem bitAt_xorBytes {p : Nat} {bs : Bytes} (h : p + bs.length ≤ 200) (w : Words) (i : Nat) :
    bitAt (xorBytes w p bs) i =
      (bitAt w i ^^ (decide (8 * p ≤ i) && (Keccak.bits bs).getD (i - 8 * p) false)) := by
  induction bs generalizing w p
  case nil => simp [xorBytes, Keccak.bits]
  case cons b bs hi =>
    rw [List.length_cons] at h
    rw [xorBytes, hi (by omega), bitAt_xorByte w (by omega), getD_bits_cons]
    by_cases hlt : i / 8 < p
    case pos =>
      have h₁ : i / 8 ≠ p := by omega
      have h₂ : ¬8 * (p + 1) ≤ i := by omega
      have h₃ : ¬8 * p ≤ i := by omega
      simp [h₁, h₂, h₃]
    case neg =>
      by_cases heq : i / 8 = p
      case pos =>
        have h₂ : ¬8 * (p + 1) ≤ i := by omega
        have h₃ : 8 * p ≤ i := by omega
        have h₄ : i - 8 * p < 8 := by omega
        have h₅ : i % 8 = i - 8 * p := by omega
        simp [heq, h₂, h₃, h₄, h₅]
      case neg =>
        have h₂ : 8 * (p + 1) ≤ i := by omega
        have h₃ : 8 * p ≤ i := by omega
        have h₄ : ¬i - 8 * p < 8 := by omega
        have h₅ : i - 8 * p - 8 = i - 8 * (p + 1) := by omega
        simp [heq, h₂, h₃, h₄, h₅]

open Sha3Impl in
theorem foldl_updateByte_of_lt {p : Nat} {bs : Bytes} (h : p + bs.length < 136) (w : Words) :
    bs.foldl (updateByte 136) (w, p) = (xorBytes w p bs, p + bs.length) := by
  induction bs generalizing w p
  case nil => rfl
  case cons b bs hi =>
    rw [List.length_cons] at h
    have hstep : updateByte 136 (w, p) b = (xorByte w p b, p + 1) :=
      if_neg (show ¬136 ≤ p + 1 by omega)
    rw [List.foldl_cons, hstep, hi (by omega), xorBytes, List.length_cons]
    congr 1
    omega

open Sha3Impl in
-- The byte that completes a block.
theorem foldl_updateByte_of_eq {p : Nat} {bs : Bytes} (hbs : bs ≠ []) (h : p + bs.length = 136)
    (w : Words) :
    bs.foldl (updateByte 136) (w, p) = (updateStep (xorBytes w p bs), 0) := by
  induction bs generalizing w p
  case nil => exact absurd rfl hbs
  case cons b bs hi =>
    rw [List.length_cons] at h
    rw [List.foldl_cons, xorBytes]
    by_cases hnil : bs = []
    case pos =>
      have hp : 136 ≤ p + 1 := by rw [hnil, List.length_nil] at h; omega
      rw [hnil]
      exact if_pos hp
    case neg =>
      have hpos : 0 < bs.length := List.length_pos_iff.mpr hnil
      have hstep : updateByte 136 (w, p) b = (xorByte w p b, p + 1) :=
        if_neg (show ¬136 ≤ p + 1 by omega)
      rw [hstep, hi hnil (by omega)]

end Update

section Sponge

theorem zipWith_stateBits {w w' : Words} {P : List Bool} (hP : P.length ≤ 1600)
    (h : ∀ i < 1600, bitAt w' i = (bitAt w i ^^ P.getD i false)) :
    List.zipWith xor (stateBits w) (P ++ List.replicate (1600 - P.length) false) =
        stateBits w' := by
  apply List.ext_getElem
  · simp
    omega
  · intro i hi hi'
    have hlt : i < 1600 := by simpa using hi'
    have hget : (P ++ List.replicate (1600 - P.length) false).getD i false = P.getD i false := by
      by_cases hiP : i < P.length
      case pos => rw [List.getD_append _ _ _ _ hiP]
      case neg =>
        rw [List.getD_append_right _ _ _ _ (Nat.not_lt.mp hiP),
          List.getD_eq_default _ _ (Nat.not_lt.mp hiP)]
        rw [List.getD_replicate _ (by omega)]
    rw [List.getElem_zipWith, getElem_stateBits, getElem_stateBits, h i hlt, ← hget,
      List.getD_eq_getElem]

-- A full block is absorbed.
theorem stateBits_block {B : Bytes} (hB : B.length = 136) (w : Words) :
    stateBits (updateStep (xorBytes w 0 B)) =
        Keccak.absorbBlock Keccak.keccakP 512 (stateBits w) (Keccak.bits B) := by
  have hlen : (Keccak.bits B).length = 1088 := by rw [length_bits, hB]
  have hzip := @zipWith_stateBits w (xorBytes w 0 B) (Keccak.bits B) (by omega) fun i _ => by
    rw [bitAt_xorBytes (by omega)]
    simp
  rw [stateBits_updateStep, Keccak.absorbBlock, ← hzip, hlen]

-- What is appended to a message: `t` are the bits of the suffix and the first bit of the padding.
structure Suffix (t : List Bool) (b : UInt8) : Prop where
  length : t.length ≤ 6
  bits   : ∀ k < 8, t.getD k false = b.toBitVec.getLsbD k

theorem getD_replicate_concat (j k : Nat) :
    (List.replicate j false ++ [true]).getD k false = decide (k = j) := by
  by_cases hlt : k < j
  case pos =>
    rw [List.getD_append _ _ _ _ (by simpa using hlt), List.getD_replicate _ hlt]
    simp
    omega
  case neg =>
    rw [List.getD_append_right _ _ _ _ (by simpa using hlt), List.length_replicate]
    by_cases heq : k = j
    case pos => simp [heq]
    case neg =>
      rw [List.getD_eq_default _ _ (by simp; omega)]
      simp [heq]

-- The bit that ends the padding.
theorem getLsbD_last (i : Nat) :
    (decide (i / 8 = 135) && (0x80 : UInt8).toBitVec.getLsbD (i % 8)) = decide (i = 1087) := by
  have hall : ∀ k : Fin 8, (0x80 : UInt8).toBitVec.getLsbD k = decide (k.val = 7) := by decide
  have hk := hall ⟨i % 8, by omega⟩
  rw [hk]
  by_cases h : i = 1087
  case pos => simp [h]
  case neg =>
    simp [h]
    omega

-- The bits of the last block after those of the message.
theorem Suffix.getD {t : List Bool} {b : UInt8} (ht : Suffix t b) {p k : Nat} (hp : p < 136) :
    (t ++ (List.replicate (1087 - 8 * p - t.length) false ++ [true])).getD k false =
      ((decide (k / 8 = 0) && b.toBitVec.getLsbD (k % 8)) ^^ decide (k = 1087 - 8 * p)) := by
  have hlen := ht.length
  by_cases hk : k < t.length
  case pos =>
    have h8 : k % 8 = k := by omega
    have h0 : k / 8 = 0 := by omega
    have hne : k ≠ 1087 - 8 * p := by omega
    rw [List.getD_append _ _ _ _ hk, ht.bits k (by omega), h8]
    simp [h0, hne]
  case neg =>
    have hzero : (decide (k / 8 = 0) && b.toBitVec.getLsbD (k % 8)) = false := by
      by_cases h8 : k < 8
      case pos =>
        have hb := ht.bits k h8
        rw [List.getD_eq_default _ _ (Nat.not_lt.mp hk)] at hb
        rw [Nat.mod_eq_of_lt h8, ← hb, Bool.and_false]
      case neg =>
        have h0 : k / 8 ≠ 0 := by omega
        simp [h0]
    rw [List.getD_append_right _ _ _ _ (Nat.not_lt.mp hk), getD_replicate_concat, hzero,
      Bool.false_xor]
    exact decide_eq_decide.mpr (by omega)

-- The last block is absorbed, with what is appended to the message.
theorem stateBits_last {t : List Bool} {b : UInt8} (ht : Suffix t b) {m : Bytes}
    (hm : m.length < 136) (w : Words) :
    stateBits (updateStep (xorByte (xorByte (xorBytes w 0 m) m.length b) 135 0x80)) =
      Keccak.absorbBlock Keccak.keccakP 512 (stateBits w)
        (Keccak.bits m ++ (t ++
            (List.replicate (1087 - 8 * m.length - t.length) false ++ [true]))) := by
  generalize hP : Keccak.bits m ++
    (t ++ (List.replicate (1087 - 8 * m.length - t.length) false ++ [true])) = P
  have hlen : P.length = 1088 := by
    have := ht.length
    rw [← hP]
    simp only [List.length_append, length_bits, List.length_replicate, List.length_singleton]
    omega
  have hzip := @zipWith_stateBits w (xorByte (xorByte (xorBytes w 0 m) m.length b) 135 0x80) P
    (by omega) fun i _ => by
    rw [← hP]
    rw [bitAt_xorByte _ (by omega), bitAt_xorByte _ (by omega), bitAt_xorBytes (by omega),
      getLsbD_last]
    by_cases hi : i < 8 * m.length
    case pos =>
      have h₁ : i / 8 ≠ m.length := by omega
      have h₂ : i ≠ 1087 := by omega
      rw [List.getD_append _ _ _ _ (by rw [length_bits]; exact hi)]
      simp [h₁, h₂]
    case neg =>
      have h₁ : (i - 8 * m.length) / 8 = 0 ↔ i / 8 = m.length := by omega
      have h₂ : (i - 8 * m.length) % 8 = i % 8 := by omega
      have h₃ : i - 8 * m.length = 1087 - 8 * m.length ↔ i = 1087 := by omega
      rw [List.getD_append_right _ _ _ _ (by rw [length_bits]; omega), length_bits, ht.getD hm,
        List.getD_eq_default _ _ (by rw [length_bits]; omega), h₂]
      simp only [h₁, h₃, Bool.and_false, Bool.xor_false, Bool.xor_assoc]
  rw [stateBits_updateStep, Keccak.absorbBlock, ← hzip, hlen]

theorem pad_add (x m : Nat) : Keccak.pad x (x + m) = Keccak.pad x m := by
  rw [Keccak.pad, Keccak.pad, Nat.add_assoc, Nat.add_mod_left]

theorem pad_of_lt {n : Nat} (hn : n + 2 < 1088) :
    Keccak.pad 1088 n = [true] ++ (List.replicate (1087 - n - 1) false ++ [true]) := by
  have hcount : (1088 - (n + 2) % 1088) % 1088 = 1087 - n - 1 := by omega
  rw [Keccak.pad, hcount, List.cons_append, List.singleton_append]

-- The state after the padding is what the sponge makes of the message.
theorem stateBits_message {suffix : List Bool} {b : UInt8} (hs : Suffix (suffix ++ [true]) b)
    (m : Bytes) (w : Words) :
    let s := m.foldl (Sha3Impl.updateByte 136) (w, 0)
    stateBits (updateStep (xorByte (xorByte s.1 s.2 b) 135 0x80)) =
      Keccak.absorb Keccak.keccakP 1088 512 (stateBits w)
        (Keccak.bits m ++ suffix ++ Keccak.pad 1088 (Keccak.bits m ++ suffix).length) := by
  have hsuffix : suffix.length ≤ 5 := by
    have := hs.length
    rw [List.length_append, List.length_singleton] at this
    omega
  induction hn : m.length using Nat.strong_induction_on generalizing m w
  case h n hi =>
    by_cases hlt : m.length < 136
    case pos =>
      have hlen : (Keccak.bits m ++ suffix).length = 8 * m.length + suffix.length := by
        rw [List.length_append, length_bits]
      have hcount : 1087 - (8 * m.length + suffix.length) - 1 =
          1087 - 8 * m.length - (suffix ++ [true]).length := by
        rw [List.length_append, List.length_singleton]
        omega
      have hP : Keccak.bits m ++ suffix ++ Keccak.pad 1088 (8 * m.length + suffix.length) =
          Keccak.bits m ++ ((suffix ++ [true]) ++
            (List.replicate (1087 - 8 * m.length - (suffix ++ [true]).length) false ++
              [true])) := by
        rw [pad_of_lt (by omega), hcount]
        simp only [List.append_assoc]
      simp only [foldl_updateByte_of_lt (show 0 + m.length < 136 by omega), Nat.zero_add]
      have hQ : (Keccak.bits m ++ ((suffix ++ [true]) ++
          (List.replicate (1087 - 8 * m.length - (suffix ++ [true]).length) false ++
            [true]))).length = 1088 := by
        rw [← hcount]
        simp only [List.length_append, length_bits, List.length_replicate, List.length_singleton]
        omega
      rw [hlen, hP, stateBits_last hs hlt]
      generalize Keccak.bits m ++ ((suffix ++ [true]) ++
          (List.replicate (1087 - 8 * m.length - (suffix ++ [true]).length) false ++
            [true])) = Q at hQ
      rw [← List.append_nil Q, Keccak.absorb_append hQ (by decide), Keccak.absorb_nil,
        List.append_nil]
    case neg =>
      have hB : (m.take 136).length = 136 := by
        rw [List.length_take]
        omega
      have hne : m.take 136 ≠ [] := List.ne_nil_of_length_pos (by omega)
      have hbits : Keccak.bits m = Keccak.bits (m.take 136) ++ Keccak.bits (m.drop 136) := by
        rw [← bits_append, List.take_append_drop]
      have hlen : (Keccak.bits m ++ suffix).length =
          1088 + (Keccak.bits (m.drop 136) ++ suffix).length := by
        rw [hbits, List.append_assoc, List.length_append, length_bits, hB]
      have hfold : m.foldl (Sha3Impl.updateByte 136) (w, 0) =
          (m.drop 136).foldl (Sha3Impl.updateByte 136)
            (updateStep (xorBytes w 0 (m.take 136)), 0) := by
        rw [← foldl_updateByte_of_eq hne (by omega) w, ← List.foldl_append, List.take_append_drop]
      have hrest : (m.drop 136).length < n := by
        rw [List.length_drop]
        omega
      rw [hfold, hlen, pad_add, hbits, List.append_assoc, List.append_assoc,
        Keccak.absorb_append (by rw [length_bits, hB]) (by decide), ← stateBits_block hB,
          ← List.append_assoc]
      exact hi _ hrest _ _ rfl

end Sponge

section Result

theorem getLsbD_byteAt (w : Words) {j k : Nat} (hj : j < 200) (hk : k < 8) :
    (byteAt w j).toBitVec.getLsbD k = bitAt w (8 * j + k) := by
  have hword : (8 * j + k) / 64 = j / 8 := by omega
  have hbit : (8 * j + k) % 64 = 8 * (j % 8) + k := by omega
  rw [byteAt, dif_pos (show j / 8 < 25 by omega), bitAt,
    dif_pos (show (8 * j + k) / 64 < 25 by omega),
    UInt64.toBitVec_toUInt8, BitVec.getLsbD_setWidth,
      toBitVec_shiftRight_of_lt _ (by rw [toNat_shift]; omega),
    toNat_shift, BitVec.getLsbD_ushiftRight, hbit]
  simp [hk, hword]

theorem bits_map_byteAt (w : Words) {n : Nat} (hn : n ≤ 200) :
    Keccak.bits ((List.range n).map (byteAt w)) = (stateBits w).take (8 * n) := by
  induction n
  case zero => rfl
  case succ n hi =>
    have hbyte : Keccak.bits [byteAt w n] = ((stateBits w).drop (8 * n)).take 8 := by
      apply List.ext_getElem
      · rw [length_bits, List.length_take, List.length_drop, length_stateBits,
          List.length_singleton]
        omega
      · intro k hk hk'
        have hk8 : k < 8 := by rwa [length_bits] at hk
        rw [List.getElem_take, List.getElem_drop, getElem_stateBits,
          ← getLsbD_byteAt w (by omega) hk8,
          ← List.getD_eq_getElem _ false hk, getD_bits_cons, if_pos hk8]
    rw [List.range_succ, List.map_append, bits_append, hi (by omega), List.map_singleton, hbyte,
      ← List.take_add]
    rfl

-- What `finalize` returns, when the suffix is that of the function.
theorem bits_finalize {suffix : List Bool} {b : UInt8} (hs : Suffix (suffix ++ [true]) b)
    (m : Bytes) :
    let s := m.foldl (Sha3Impl.updateByte 136) (.replicate 25 0, 0)
    Keccak.bits ((List.range digestSize).map
        (byteAt (updateStep (xorByte (xorByte s.1 s.2 b) 135 0x80)))) =
      Keccak.keccak 512 (Keccak.bits m ++ suffix) 256 := by
  have hzero : stateBits (.replicate 25 0) = List.replicate 1600 false := by
    apply List.ext_getElem
    · rw [length_stateBits, List.length_replicate]
    · intro i hi hi'
      rw [getElem_stateBits, bitAt, List.getElem_replicate]
      simp [Vector.get_eq_getElem]
  intro s
  rw [bits_map_byteAt _ (by decide), stateBits_message hs m, hzero, Keccak.keccak, Keccak.sponge,
    Keccak.squeeze_of_lt (by decide)]
  rfl

end Result

-- The message that is written in chunks.
def message (chunks : List Chunk) : Bytes :=
  chunks.flatMap Chunk.data

-- The encoder after the chunks were written to it.
def written (chunks : List Chunk) : Encoder :=
  chunks.foldl Encoder.write {}

theorem foldl_write (chunks : List Chunk) (e : Encoder) :
    chunks.foldl Encoder.write e = { ctx := e.ctx.update (message chunks) } := by
  induction chunks generalizing e
  case nil => rfl
  case cons c chunks hi =>
    have hmessage : message (c :: chunks) = c.data ++ message chunks := List.flatMap_cons
    rw [List.foldl_cons, hi, hmessage]
    simp only [Encoder.write, Sha3Impl.update, List.foldl_append]

theorem suffix_nist : Suffix ([false, true] ++ [true]) 0x06 :=
  ⟨by decide, by decide⟩

theorem suffix_keccak : Suffix ([] ++ [true]) 0x01 :=
  ⟨by decide, by decide⟩

-- The result is SHA3-256 or Keccak-256 of the message, and does not depend on the chunks.
theorem result_correct (chunks : List Chunk) :
    Keccak.bits ((written chunks).result true).2 = Keccak.sha3_256 (Keccak.bits (message chunks)) ∧
      Keccak.bits ((written chunks).result false).2 =
          Keccak.keccak256 (Keccak.bits (message chunks)) ∧
      ∀ chunks' : List Chunk, message chunks' = message chunks →
        ∀ isNist, ((written chunks').result isNist).2 = ((written chunks).result isNist).2 := by
  refine ⟨?_, ?_, fun chunks' h isNist => ?_⟩
  · rw [written, foldl_write]
    exact bits_finalize suffix_nist (message chunks)
  · rw [written, foldl_write, ← List.append_nil (Keccak.bits (message chunks))]
    exact bits_finalize suffix_keccak (message chunks)
  · rw [written, foldl_write, h, written, foldl_write]

end Sha3
