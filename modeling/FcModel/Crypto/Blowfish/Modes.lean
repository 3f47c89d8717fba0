import Mathlib
import FcModel.Crypto.Blowfish
import FcModel.Lib.Except

-- The modes of the cipher, as loops over the bytes of a memory.

open BlockCipher

namespace Blowfish

abbrev Memory := Nat → UInt8

def wordOfBytes (y0 y1 y2 y3 : UInt8) : UInt32 :=
  (0 : UInt32) ||| y0.toUInt32 <<< 24 ||| y1.toUInt32 <<< 16 ||| y2.toUInt32 <<< 8 ||| y3.toUInt32

def bytesToBlock (mem : Memory) (p : Nat) : SBlock :=
  ⟨wordOfBytes (mem p) (mem (p + 1)) (mem (p + 2)) (mem (p + 3)),
    wordOfBytes (mem (p + 4)) (mem (p + 5)) (mem (p + 6)) (mem (p + 7))⟩

-- The bytes are written backwards, the last one in front of `p`.
def blockToBytes (b : SBlock) (p : Nat) (mem : Memory) : Memory :=
  let mem := Function.update mem (p - 1) (byte b.uir)
  let mem := Function.update mem (p - 2) (byte (b.uir >>> 8))
  let mem := Function.update mem (p - 3) (byte (b.uir >>> 16))
  let mem := Function.update mem (p - 4) (byte (b.uir >>> 24))
  let mem := Function.update mem (p - 5) (byte b.uil)
  let mem := Function.update mem (p - 6) (byte (b.uil >>> 8))
  let mem := Function.update mem (p - 7) (byte (b.uil >>> 16))
  Function.update mem (p - 8) (byte (b.uil >>> 24))

-- The loop `for(; n >= 8; n -= 8, in += 8)` runs `n / 8` times. What it does to a block and to the
-- chain is its parameter.
def modeLoop (step : Mode SBlock SBlock) : Nat → Nat → Nat → SBlock → Memory → Memory
  | 0, _, _, _, mem              => mem
  | n + 1, input, out, chain, mem =>
    let r := step chain (bytesToBlock mem input)
    modeLoop step n (input + 8) (out + 8) r.1 (blockToBytes r.2 (out + 8) mem)

section Steps

variable (c : Blowfish) (chain work : SBlock)

def encryptCBC : SBlock × SBlock :=
  let work := work ^^^ chain
  let work := c.encryptBlock work
  (work, work)

def encryptCFB : SBlock × SBlock :=
  let chain := c.encryptBlock chain
  let work := work ^^^ chain
  (work, work)

def encryptECB : SBlock × SBlock :=
  (chain, c.encryptBlock work)

def decryptCBC : SBlock × SBlock :=
  let crypt := work
  let work := c.decryptBlock work
  (crypt, work ^^^ chain)

-- Does not use the decryption of blocks.
def decryptCFB : SBlock × SBlock :=
  let chain := c.encryptBlock chain
  let crypt := work
  (crypt, work ^^^ chain)

def decryptECB : SBlock × SBlock :=
  (chain, c.decryptBlock work)

end Steps

def CBC : Int := 1

def CFB : Int := 2

-- Any other number is taken for `ECB`.
def encryptStep (c : Blowfish) (iMode : Int) : Mode SBlock SBlock :=
  if iMode = CBC then c.encryptCBC else if iMode = CFB then c.encryptCFB else c.encryptECB

def decryptStep (c : Blowfish) (iMode : Int) : Mode SBlock SBlock :=
  if iMode = CBC then c.decryptCBC else if iMode = CFB then c.decryptCFB else c.decryptECB

def overBuffers (c : Blowfish) (step : Mode SBlock SBlock) (input out n : Nat) (mem : Memory) :
    Except Error Memory :=
  if n = 0 ∨ n % 8 ≠ 0 then .error (.invalidBufferLength n)
  else .ok (modeLoop step (n / 8) input out c.oChain mem)

-- From an input buffer to an output buffer.
def encryptTo (c : Blowfish) (input out n : Nat) (iMode : Int) (mem : Memory) :
    Except Error Memory :=
  c.overBuffers (c.encryptStep iMode) input out n mem

def decryptTo (c : Blowfish) (input out n : Nat) (iMode : Int) (mem : Memory) :
    Except Error Memory :=
  c.overBuffers (c.decryptStep iMode) input out n mem

-- In place, each block is read before it is overwritten.
def encrypt (c : Blowfish) (buf n : Nat) (iMode : Int) (mem : Memory) : Except Error Memory :=
  c.overBuffers (c.encryptStep iMode) buf buf n mem

def decrypt (c : Blowfish) (buf n : Nat) (iMode : Int) (mem : Memory) : Except Error Memory :=
  c.overBuffers (c.decryptStep iMode) buf buf n mem

section Steps

variable (c : Blowfish) (m : Int)

theorem decryptStep_inverts : (c.decryptStep m).Inverts (c.encryptStep m) := by
  unfold decryptStep encryptStep
  split
  case isTrue => exact cbcInverse_inverts c.decryptBlock_encryptBlock
  case isFalse =>
    split
    case isTrue   => exact cfbInverse_inverts
    case isFalse  => exact ecb_inverts c.decryptBlock_encryptBlock

theorem encryptStep_inverts : (c.encryptStep m).Inverts (c.decryptStep m) := by
  unfold decryptStep encryptStep
  split
  case isTrue => exact cbc_inverts c.encryptBlock_decryptBlock
  case isFalse =>
    split
    case isTrue   => exact cfb_inverts
    case isFalse  => exact ecb_inverts c.encryptBlock_decryptBlock

end Steps

section Bytes

theorem toNat_wordOfBytes (y0 y1 y2 y3 : UInt8) : (wordOfBytes y0 y1 y2 y3).toNat =
    2 ^ 8 * (2 ^ 8 * (2 ^ 8 * y0.toNat + y1.toNat) + y2.toNat) + y3.toNat := by
  have h0 := y0.toNat_lt
  have h1 := y1.toNat_lt
  have h2 := y2.toNat_lt
  have h3 := y3.toNat_lt
  have e0 : y0.toNat <<< 24 % 2 ^ 32 = 2 ^ 24 * y0.toNat := by rw [Nat.shiftLeft_eq]; omega
  have e1 : y1.toNat <<< 16 % 2 ^ 32 = 2 ^ 16 * y1.toNat := by rw [Nat.shiftLeft_eq]; omega
  have e2 : y2.toNat <<< 8 % 2 ^ 32 = 2 ^ 8 * y2.toNat := by rw [Nat.shiftLeft_eq]; omega
  -- Each byte is added below the ones in front of it.
  have h01 : 2 ^ 24 * y0.toNat ||| 2 ^ 16 * y1.toNat = 2 ^ 16 * (2 ^ 8 * y0.toNat + y1.toNat) := by
    rw [← Nat.two_pow_add_eq_or_of_lt (by omega)]
    omega
  have h02 : 2 ^ 16 * (2 ^ 8 * y0.toNat + y1.toNat) ||| 2 ^ 8 * y2.toNat =
      2 ^ 8 * (2 ^ 8 * (2 ^ 8 * y0.toNat + y1.toNat) + y2.toNat) := by
    rw [← Nat.two_pow_add_eq_or_of_lt (by omega)]
    omega
  simp only [wordOfBytes, UInt32.toNat_or, UInt32.toNat_shiftLeft, UInt8.toNat_toUInt32,
    UInt32.toNat_ofNat, Nat.zero_mod, Nat.zero_or, e0, e1, e2, h01, h02]
  rw [← Nat.two_pow_add_eq_or_of_lt h3]

theorem toNat_byte (w : UInt32) : (byte w).toNat = w.toNat % 2 ^ 8 := by
  rw [byte, UInt32.toNat_toUInt8, UInt32.toNat_and]
  exact (congrArg (· % 2 ^ 8) (Nat.and_two_pow_sub_one_eq_mod w.toNat 8)).trans (Nat.mod_mod ..)

theorem toNat_byte_shiftRight (w : UInt32) {k : Nat} (h : k < 32) :
    (byte (w >>> .ofNat k)).toNat = w.toNat / 2 ^ k % 2 ^ 8 := by
  rw [toNat_byte, UInt32.toNat_shiftRight, UInt32.toNat_ofNat_of_lt' (show k < 2 ^ 32 by omega),
    Nat.shiftRight_eq_div_pow, Nat.mod_eq_of_lt h]

theorem wordOfBytes_byte (w : UInt32) :
    wordOfBytes (byte (w >>> 24)) (byte (w >>> 16)) (byte (w >>> 8)) (byte w) = w := by
  have := w.toNat_lt
  have h24 : (byte (w >>> 24)).toNat = w.toNat / 2 ^ 24 % 2 ^ 8 :=
    toNat_byte_shiftRight w (k := 24) (by omega)
  have h16 : (byte (w >>> 16)).toNat = w.toNat / 2 ^ 16 % 2 ^ 8 :=
    toNat_byte_shiftRight w (k := 16) (by omega)
  have h8 : (byte (w >>> 8)).toNat = w.toNat / 2 ^ 8 % 2 ^ 8 :=
    toNat_byte_shiftRight w (k := 8) (by omega)
  apply UInt32.toNat.inj
  rw [toNat_wordOfBytes, h24, h16, h8, toNat_byte]
  omega

theorem wordOfBytes_inj {x0 x1 x2 x3 y0 y1 y2 y3 : UInt8}
    (h : wordOfBytes x0 x1 x2 x3 = wordOfBytes y0 y1 y2 y3) :
    x0 = y0 ∧ x1 = y1 ∧ x2 = y2 ∧ x3 = y3 := by
  have he := congrArg UInt32.toNat h
  have := x0.toNat_lt; have := x1.toNat_lt; have := x2.toNat_lt; have := x3.toNat_lt
  have := y0.toNat_lt; have := y1.toNat_lt; have := y2.toNat_lt; have := y3.toNat_lt
  rw [toNat_wordOfBytes, toNat_wordOfBytes] at he
  refine ⟨?_, ?_, ?_, ?_⟩ <;> (apply UInt8.toNat.inj; omega)

variable {b : SBlock} {mem mem' : Memory} {p q a : Nat}

theorem blockToBytes_of_outside (h : a < p ∨ p + 8 ≤ a) : blockToBytes b (p + 8) mem a = mem a := by
  simp only [blockToBytes]
  repeat rw [Function.update_of_ne (by omega)]

theorem bytesToBlock_blockToBytes : bytesToBlock (blockToBytes b (p + 8) mem) p = b := by
  have h8 : p + 8 - 8 = p := by omega
  have h7 : p + 8 - 7 = p + 1 := by omega
  have h6 : p + 8 - 6 = p + 2 := by omega
  have h5 : p + 8 - 5 = p + 3 := by omega
  have h4 : p + 8 - 4 = p + 4 := by omega
  have h3 : p + 8 - 3 = p + 5 := by omega
  have h2 : p + 8 - 2 = p + 6 := by omega
  have h1 : p + 8 - 1 = p + 7 := by omega
  simp [bytesToBlock, blockToBytes, h1, h2, h3, h4, h5, h6, h7, h8, wordOfBytes_byte]

theorem bytesToBlock_congr (h : ∀ j < 8, mem (p + j) = mem' (p + j)) :
    bytesToBlock mem p = bytesToBlock mem' p := by
  simp only [bytesToBlock, h 1, h 2, h 3, h 4, h 5, h 6, h 7, Nat.reduceLT]
  rw [show mem p = mem' p from h 0 (by omega)]

theorem eq_of_bytesToBlock (h : bytesToBlock mem p = bytesToBlock mem' q) :
    ∀ j < 8, mem (p + j) = mem' (q + j) := by
  obtain ⟨h0, h1, h2, h3⟩ := wordOfBytes_inj (congrArg SBlock.uil h)
  obtain ⟨h4, h5, h6, h7⟩ := wordOfBytes_inj (congrArg SBlock.uir h)
  intro j hj
  interval_cases j <;> assumption

end Bytes

-- The blocks of a region.
def readBlocks (mem : Memory) : Nat → Nat → List SBlock
  | _, 0     => []
  | p, n + 1 => bytesToBlock mem p :: readBlocks mem (p + 8) n

section Regions

variable {mem mem' : Memory} {p q n a : Nat} {step : Mode SBlock SBlock} {chain : SBlock}

theorem readBlocks_congr (h : ∀ a, p ≤ a → a < p + 8 * n → mem a = mem' a) :
    readBlocks mem p n = readBlocks mem' p n := by
  induction n generalizing p
  case zero => rfl
  case succ n hi =>
    rw [readBlocks, readBlocks, hi fun a ha ha' => h a (by omega) (by omega),
      bytesToBlock_congr fun j hj => h (p + j) (by omega) (by omega)]

theorem eq_of_readBlocks (h : readBlocks mem p n = readBlocks mem' q n) :
    ∀ j < 8 * n, mem (p + j) = mem' (q + j) := by
  induction n generalizing p q
  case zero => omega
  case succ n hi =>
    obtain ⟨hb, hr⟩ := List.cons_eq_cons.mp h
    intro j hj
    by_cases hj8 : j < 8
    case pos => exact eq_of_bytesToBlock hb j hj8
    case neg =>
      have := hi hr (j - 8) (by omega)
      rwa [show p + 8 + (j - 8) = p + j by omega, show q + 8 + (j - 8) = q + j by omega] at this

-- No block is overwritten before it is read.
def Forward (input out n : Nat) : Prop :=
  out ≤ input ∨ input + n ≤ out

-- The bytes around the output stay as they are.
theorem modeLoop_of_outside (h : a < q ∨ q + 8 * n ≤ a) :
    modeLoop step n p q chain mem a = mem a := by
  induction n generalizing p q chain mem
  case zero => rfl
  case succ n hi =>
    rw [modeLoop, hi (by omega), blockToBytes_of_outside (by omega)]

-- The loop turns the blocks of the input, as they are before it, into those of the output.
theorem readBlocks_modeLoop (h : Forward p q (8 * n)) :
    readBlocks (modeLoop step n p q chain mem) q n = step.run chain (readBlocks mem p n) := by
  induction n generalizing p q chain mem
  case zero => rfl
  case succ n hi =>
    unfold Forward at *
    have hb : bytesToBlock (modeLoop step n (p + 8) (q + 8) (step chain (bytesToBlock mem p)).1
        (blockToBytes (step chain (bytesToBlock mem p)).2 (q + 8) mem)) q =
          (step chain (bytesToBlock mem p)).2 := by
      rw [bytesToBlock_congr fun j hj => modeLoop_of_outside (by omega), bytesToBlock_blockToBytes]
    have hr : readBlocks (blockToBytes (step chain (bytesToBlock mem p)).2 (q + 8) mem) (p + 8) n =
        readBlocks mem (p + 8) n :=
      readBlocks_congr fun a ha ha' => blockToBytes_of_outside (by omega)
    rw [modeLoop, readBlocks, hb, hi (by omega), hr]
    rfl

theorem Forward.refl : Forward p p n := .inl le_rfl

-- What one mode does in place, the one that inverts it takes back.
theorem modeLoop_modeLoop {step' : Mode SBlock SBlock} (h : step'.Inverts step) :
    modeLoop step' n p p chain (modeLoop step n p p chain mem) = mem := by
  funext a
  by_cases ha : p ≤ a ∧ a < p + 8 * n
  case pos =>
    have hb : readBlocks (modeLoop step' n p p chain (modeLoop step n p p chain mem)) p n =
        readBlocks mem p n := by
      rw [readBlocks_modeLoop .refl, readBlocks_modeLoop .refl, h.run]
    have := eq_of_readBlocks hb (a - p) (by omega)
    rwa [Nat.add_sub_cancel' ha.1] at this
  case neg => rw [modeLoop_of_outside (by omega), modeLoop_of_outside (by omega)]

-- From one region to another one, the loop writes what it would write in place.
theorem modeLoop_apply (h : Forward p q (8 * n)) :
    modeLoop step n p q chain mem a =
      if q ≤ a ∧ a < q + 8 * n then modeLoop step n p p chain mem (p + (a - q)) else mem a := by
  split
  case isTrue ha =>
    have hb : readBlocks (modeLoop step n p q chain mem) q n =
        readBlocks (modeLoop step n p p chain mem) p n := by
      rw [readBlocks_modeLoop h, readBlocks_modeLoop .refl]
    have := eq_of_readBlocks hb (a - q) (by omega)
    rwa [Nat.add_sub_cancel' ha.1] at this
  case isFalse => exact modeLoop_of_outside (by omega)

-- The loop can be stopped and taken up again with the chain it has come to.
theorem modeLoop_add {n' : Nat} (h : Forward p q (8 * n)) :
    modeLoop step (n + n') p q chain mem =
      modeLoop step n' (p + 8 * n) (q + 8 * n) (step.final chain (readBlocks mem p n))
        (modeLoop step n p q chain mem) := by
  induction n generalizing p q chain mem
  case zero => simp [modeLoop, readBlocks, Mode.final]
  case succ n hi =>
    unfold Forward at *
    have hr : readBlocks (blockToBytes (step chain (bytesToBlock mem p)).2 (q + 8) mem) (p + 8) n =
        readBlocks mem (p + 8) n :=
      readBlocks_congr fun a ha ha' => blockToBytes_of_outside (by omega)
    rw [show n + 1 + n' = n + n' + 1 by omega, modeLoop, hi (by omega), hr,
      show p + 8 + 8 * n = p + 8 * (n + 1) by omega, show q + 8 + 8 * n = q + 8 * (n + 1) by omega]
    rfl

-- The last block of a region.
variable (mem) in
theorem getLast_readBlocks : (readBlocks mem p (n + 1)).getLast? =
    some (bytesToBlock mem (p + 8 * n)) := by
  induction n generalizing p
  case zero => rfl
  case succ n hi =>
    rw [readBlocks, readBlocks, List.getLast?_cons_cons, ← readBlocks, hi,
      show p + 8 + 8 * n = p + 8 * (n + 1) by omega]

end Regions

section Buffers

variable (c : Blowfish) (iMode : Int) (mem : Memory)

theorem overBuffers_eq {step : Mode SBlock SBlock} {input out n : Nat} (hn : 0 < n)
    (h8 : n % 8 = 0) :
    c.overBuffers step input out n mem = .ok (modeLoop step (n / 8) input out c.oChain mem) :=
  if_neg (by omega)

-- In each mode, both directions restore a buffer that the other one has changed, and they change
-- nothing else.
theorem decrypt_encrypt (buf n : Nat) (hn : 0 < n) (h8 : n % 8 = 0) :
    ∃ e d, c.encrypt buf n iMode mem = .ok e ∧ c.decrypt buf n iMode e = .ok mem ∧
      c.decrypt buf n iMode mem = .ok d ∧ c.encrypt buf n iMode d = .ok mem ∧
      ∀ a, a < buf ∨ buf + n ≤ a → e a = mem a ∧ d a = mem a := by
  refine ⟨_, _, c.overBuffers_eq mem hn h8, ?_, c.overBuffers_eq mem hn h8, ?_, ?_⟩
  case refine_1 =>
    rw [decrypt, c.overBuffers_eq _ hn h8, modeLoop_modeLoop (c.decryptStep_inverts iMode)]
  case refine_2 =>
    rw [encrypt, c.overBuffers_eq _ hn h8, modeLoop_modeLoop (c.encryptStep_inverts iMode)]
  case refine_3 =>
    intro a ha
    exact ⟨modeLoop_of_outside (by omega), modeLoop_of_outside (by omega)⟩

theorem decrypt_encrypt_block :
    ∃ e d, (started [1] ⟨0, 0⟩).encrypt 0 8 CFB (fun _ => 0) = .ok e ∧
      (started [1] ⟨0, 0⟩).decrypt 0 8 CFB e = .ok (fun _ => 0) ∧
      (started [1] ⟨0, 0⟩).decrypt 0 8 CFB (fun _ => 0) = .ok d ∧
      (started [1] ⟨0, 0⟩).encrypt 0 8 CFB d = .ok (fun _ => 0) ∧
      ∀ a, a < 0 ∨ 0 + 8 ≤ a → e a = 0 ∧ d a = 0 :=
  decrypt_encrypt (started [1] ⟨0, 0⟩) CFB (fun _ => 0) 0 8 (by decide) (by decide)

-- The functions with two buffers agree with those in place, as long as no block of the input is
-- overwritten before it is read: the buffers may overlap.
theorem encryptTo_decryptTo (input out n : Nat) (hn : 0 < n) (h8 : n % 8 = 0)
    (h : Forward input out n) :
    ∃ e d e' d', c.encrypt input n iMode mem = .ok e ∧ c.decrypt input n iMode mem = .ok d ∧
      c.encryptTo input out n iMode mem = .ok e' ∧ c.decryptTo input out n iMode mem = .ok d' ∧
      ∀ a, e' a = (if out ≤ a ∧ a < out + n then e (input + (a - out)) else mem a) ∧
        d' a = if out ≤ a ∧ a < out + n then d (input + (a - out)) else mem a := by
  have hf : Forward input out (8 * (n / 8)) := by rwa [show 8 * (n / 8) = n by omega]
  refine ⟨_, _, _, _, c.overBuffers_eq mem hn h8, c.overBuffers_eq mem hn h8,
    c.overBuffers_eq mem hn h8, c.overBuffers_eq mem hn h8, fun a => ?_⟩
  rw [modeLoop_apply hf, modeLoop_apply hf, show 8 * (n / 8) = n by omega]
  exact ⟨rfl, rfl⟩

theorem encryptTo_decryptTo_overlap :
    ∃ e d e' d', (started [1] ⟨0, 0⟩).encrypt 4 16 CBC (fun _ => 0) = .ok e ∧
      (started [1] ⟨0, 0⟩).decrypt 4 16 CBC (fun _ => 0) = .ok d ∧
      (started [1] ⟨0, 0⟩).encryptTo 4 0 16 CBC (fun _ => 0) = .ok e' ∧
      (started [1] ⟨0, 0⟩).decryptTo 4 0 16 CBC (fun _ => 0) = .ok d' ∧
      ∀ a, e' a = (if 0 ≤ a ∧ a < 0 + 16 then e (4 + (a - 0)) else 0) ∧
        d' a = if 0 ≤ a ∧ a < 0 + 16 then d (4 + (a - 0)) else 0 :=
  encryptTo_decryptTo (started [1] ⟨0, 0⟩) CBC (fun _ => 0) 4 0 16 (by decide) (by decide)
    (.inl (by decide))

-- The chain that a mode comes to, from the bytes it has written.
def nextChain (c : Blowfish) (iMode : Int) (written : SBlock) : SBlock :=
  if iMode = CBC ∨ iMode = CFB then written else c.oChain

theorem final_encryptStep (chain : SBlock) (bs : List SBlock) (h : iMode = CBC ∨ iMode = CFB) :
    (c.encryptStep iMode).final chain bs =
      ((c.encryptStep iMode).run chain bs).getLast?.getD chain := by
  have he (s b) : (c.encryptStep iMode s b).1 = (c.encryptStep iMode s b).2 := by
    rcases h with h | h
    case inl => simp [encryptStep, h, encryptCBC]
    case inr => simp [encryptStep, h, encryptCFB, CFB, CBC]
  induction bs generalizing chain
  case nil          => rfl
  case cons b bs hi =>
    rw [Mode.final, hi, Mode.run, he]
    cases (c.encryptStep iMode).run (c.encryptStep iMode chain b).2 bs <;> simp [List.getLast?_cons]

theorem final_encryptECB (chain : SBlock) (bs : List SBlock) :
    Mode.final c.encryptECB chain bs = chain := by
  induction bs
  case nil      => rfl
  case cons hi  => exact hi

theorem twoRounds_oChain (chain b : SBlock) (i j : Nat) :
    ({ c with oChain := chain } : Blowfish).twoRounds i j b = c.twoRounds i j b := rfl

-- The chain plays no part in the encryption of a block.
theorem encryptBlock_oChain (chain : SBlock) :
    ({ c with oChain := chain } : Blowfish).encryptBlock = c.encryptBlock := by
  funext b
  simp only [encryptBlock, twoRounds_oChain]

theorem encryptStep_oChain (chain : SBlock) :
    ({ c with oChain := chain } : Blowfish).encryptStep iMode = c.encryptStep iMode := by
  have hc := c.encryptBlock_oChain chain
  have hCBC : ({ c with oChain := chain } : Blowfish).encryptCBC = c.encryptCBC := by
    funext s b
    rw [encryptCBC, encryptCBC, hc]
  have hCFB : ({ c with oChain := chain } : Blowfish).encryptCFB = c.encryptCFB := by
    funext s b
    rw [encryptCFB, encryptCFB, hc]
  have hECB : ({ c with oChain := chain } : Blowfish).encryptECB = c.encryptECB := by
    funext s b
    rw [encryptECB, encryptECB, hc]
  rw [encryptStep, encryptStep, hCBC, hCFB, hECB]

-- A buffer can be encrypted in two calls, if the second one gets the last block the first one has
-- written for its chain: the calls do not keep it.
theorem encrypt_append (buf n₁ n₂ : Nat) (h₁ : 0 < n₁) (h₂ : 0 < n₂) (h8₁ : n₁ % 8 = 0)
    (h8₂ : n₂ % 8 = 0) :
    c.encrypt buf (n₁ + n₂) iMode mem = (do
      let mem₁ ← c.encrypt buf n₁ iMode mem
      let last := bytesToBlock mem₁ (buf + n₁ - 8)
      encrypt { c with oChain := c.nextChain iMode last } (buf + n₁) n₂ iMode mem₁) := by
  have hadd : (n₁ + n₂) / 8 = n₁ / 8 + n₂ / 8 := by omega
  have hfin : (c.encryptStep iMode).final c.oChain (readBlocks mem buf (n₁ / 8)) =
      c.nextChain iMode (bytesToBlock
        (modeLoop (c.encryptStep iMode) (n₁ / 8) buf buf c.oChain mem) (buf + n₁ - 8)) := by
    unfold nextChain
    split
    case isTrue h =>
      have hlast := getLast_readBlocks (p := buf) (n := n₁ / 8 - 1)
        (modeLoop (c.encryptStep iMode) (n₁ / 8) buf buf c.oChain mem)
      rw [show n₁ / 8 - 1 + 1 = n₁ / 8 by omega, readBlocks_modeLoop .refl] at hlast
      rw [final_encryptStep c iMode _ _ h, hlast, Option.getD_some,
        show buf + 8 * (n₁ / 8 - 1) = buf + n₁ - 8 by omega]
    case isFalse h =>
      have : c.encryptStep iMode = c.encryptECB := by
        rw [encryptStep, if_neg (h ∘ .inl), if_neg (h ∘ .inr)]
      rw [this, final_encryptECB]
  rw [encrypt, encrypt, c.overBuffers_eq mem (by omega) (by omega), c.overBuffers_eq mem h₁ h8₁,
    hadd,
    modeLoop_add .refl, hfin, show 8 * (n₁ / 8) = n₁ by omega]
  rw [Except.ok_bind]
  simp only [encrypt, overBuffers_eq _ _ h₂ h8₂, encryptStep_oChain]

theorem encrypt_append_two : (started [1] ⟨0, 0⟩).encrypt 0 (8 + 16) CBC (fun _ => 0) = (do
    let mem₁ ← (started [1] ⟨0, 0⟩).encrypt 0 8 CBC (fun _ => 0)
    let last := bytesToBlock mem₁ (0 + 8 - 8)
    encrypt { started [1] ⟨0, 0⟩ with oChain := (started [1] ⟨0, 0⟩).nextChain CBC last } (0 + 8) 16 CBC
      mem₁) :=
  encrypt_append (started [1] ⟨0, 0⟩) CBC (fun _ => 0) 0 8 16 (by decide) (by decide) (by decide)
    (by decide)

end Buffers

end Blowfish
