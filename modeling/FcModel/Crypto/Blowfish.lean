import Mathlib
import FcModel.Lib.BlockCipher
import FcModel.Crypto.Blowfish.Tables

-- The cipher of `blowfish.cpp`: its blocks and its key schedule.

open BlockCipher

instance : Cancels UInt32 where
  xor_cancel a b := by rw [UInt32.xor_assoc, UInt32.xor_self, UInt32.xor_zero]

structure SBlock where
  uil : UInt32
  uir : UInt32
  deriving DecidableEq, Inhabited

namespace SBlock

@[ext]
theorem ext {a b : SBlock} (hl : a.uil = b.uil) (hr : a.uir = b.uir) : a = b := by
  cases a
  cases b
  simp_all

instance : XorOp SBlock where
  xor a b := ⟨a.uil ^^^ b.uil, a.uir ^^^ b.uir⟩

theorem xor_eq (a b : SBlock) : a ^^^ b = ⟨a.uil ^^^ b.uil, a.uir ^^^ b.uir⟩ := rfl

instance : Cancels SBlock where
  xor_cancel a b := SBlock.ext (xor_cancel a.uil b.uil) (xor_cancel a.uir b.uir)

def halves (b : SBlock) : UInt32 × UInt32 := (b.uil, b.uir)

def ofHalves (h : UInt32 × UInt32) : SBlock := ⟨h.1, h.2⟩

@[simp]
theorem halves_ofHalves (h : UInt32 × UInt32) : (ofHalves h).halves = h := rfl

@[simp]
theorem ofHalves_halves (b : SBlock) : ofHalves b.halves = b := rfl

end SBlock

structure Blowfish where
  oChain0 : SBlock
  oChain  : SBlock
  auiP    : Vector UInt32 18
  auiS    : Vector (Vector UInt32 256) 4

namespace Blowfish

-- Extracts the low order byte.
def byte (ui : UInt32) : UInt8 :=
  (ui &&& 0xff).toUInt8

def F (c : Blowfish) (ui : UInt32) : UInt32 :=
  (((c.auiS[0]!)[(byte (ui >>> 24)).toNat]! + (c.auiS[1]!)[(byte (ui >>> 16)).toNat]!) ^^^
    (c.auiS[2]!)[(byte (ui >>> 8)).toNat]!) + (c.auiS[3]!)[(byte ui).toNat]!

-- The line `uiRight ^= F(uiLeft)^m_auiP[i]; uiLeft ^= F(uiRight)^m_auiP[j];`.
def twoRounds (c : Blowfish) (i j : Nat) (b : SBlock) : SBlock :=
  let uiRight := b.uir ^^^ (c.F b.uil ^^^ c.auiP[i]!)
  let uiLeft  := b.uil ^^^ (c.F uiRight ^^^ c.auiP[j]!)
  ⟨uiLeft, uiRight⟩

-- The halves are exchanged where they are stored.
def encryptBlock (c : Blowfish) (b : SBlock) : SBlock :=
  let w : SBlock := ⟨b.uil ^^^ c.auiP[0]!, b.uir⟩
  let w := c.twoRounds 1 2 w
  let w := c.twoRounds 3 4 w
  let w := c.twoRounds 5 6 w
  let w := c.twoRounds 7 8 w
  let w := c.twoRounds 9 10 w
  let w := c.twoRounds 11 12 w
  let w := c.twoRounds 13 14 w
  let w := c.twoRounds 15 16 w
  ⟨w.uir ^^^ c.auiP[17]!, w.uil⟩

def decryptBlock (c : Blowfish) (b : SBlock) : SBlock :=
  let w : SBlock := ⟨b.uil ^^^ c.auiP[17]!, b.uir⟩
  let w := c.twoRounds 16 15 w
  let w := c.twoRounds 14 13 w
  let w := c.twoRounds 12 11 w
  let w := c.twoRounds 10 9 w
  let w := c.twoRounds 8 7 w
  let w := c.twoRounds 6 5 w
  let w := c.twoRounds 4 3 w
  let w := c.twoRounds 2 1 w
  ⟨w.uir ^^^ c.auiP[0]!, w.uil⟩

-- The keys of the sixteen rounds.
def roundKeys (c : Blowfish) : List UInt32 :=
  [c.auiP[1]!, c.auiP[2]!, c.auiP[3]!, c.auiP[4]!, c.auiP[5]!, c.auiP[6]!, c.auiP[7]!, c.auiP[8]!,
    c.auiP[9]!, c.auiP[10]!, c.auiP[11]!, c.auiP[12]!, c.auiP[13]!, c.auiP[14]!, c.auiP[15]!,
    c.auiP[16]!]

theorem twoRounds_eq (c : Blowfish) (i j : Nat) (b : SBlock) :
    c.twoRounds i j b = .ofHalves (round c.F (round c.F b.halves c.auiP[i]!) c.auiP[j]!) := rfl

theorem encryptBlock_eq (c : Blowfish) (b : SBlock) :
    c.encryptBlock b =
      .ofHalves (network c.F c.auiP[0]! c.roundKeys c.auiP[17]! b.halves) := by
  simp only [encryptBlock, twoRounds_eq, SBlock.halves_ofHalves]
  rfl

theorem decryptBlock_eq (c : Blowfish) (b : SBlock) :
    c.decryptBlock b =
      .ofHalves (network c.F c.auiP[17]! c.roundKeys.reverse c.auiP[0]! b.halves) := by
  simp only [decryptBlock, twoRounds_eq, SBlock.halves_ofHalves]
  rfl

theorem decryptBlock_encryptBlock (c : Blowfish) (b : SBlock) :
    c.decryptBlock (c.encryptBlock b) = b := by
  rw [decryptBlock_eq, encryptBlock_eq, SBlock.halves_ofHalves, network_network,
    SBlock.ofHalves_halves]

theorem encryptBlock_decryptBlock (c : Blowfish) (b : SBlock) :
    c.encryptBlock (c.decryptBlock b) = b := by
  have := @network_network _ _ c.F c.roundKeys.reverse b.halves _ c.auiP[17]! c.auiP[0]!
  rw [List.reverse_reverse] at this
  rw [decryptBlock_eq, encryptBlock_eq, SBlock.halves_ofHalves, this, SBlock.ofHalves_halves]

inductive Error
  | invalidKeyLength
  | invalidBufferLength (n : Nat)
  deriving DecidableEq

-- Where the key is read next: `p` as an offset in the local copy of the key.
structure Cursor where
  p      : Nat
  iCount : Nat
  deriving DecidableEq

-- Reads one byte of the key. Behind the last one, the bytes are recycled.
def shiftIn (aucLocalKey : List UInt8) (s : UInt32 × Cursor) : UInt32 × Cursor :=
  let x := (s.1 <<< 8) ||| aucLocalKey[s.2.p]!.toUInt32
  let c : Cursor := ⟨s.2.p + 1, s.2.iCount + 1⟩
  if c.iCount = aucLocalKey.length then (x, ⟨0, 0⟩) else (x, c)

def loadWord (aucLocalKey : List UInt8) (s : Vector UInt32 18 × Cursor) (i : Nat) :
    Vector UInt32 18 × Cursor :=
  let (x, c) := (shiftIn aucLocalKey)^[4] (0, s.2)
  (s.1.setIfInBounds i (s.1[i]! ^^^ x), c)

def loadKey (aucLocalKey : List UInt8) (p : Vector UInt32 18) : Vector UInt32 18 :=
  ((List.range 18).foldl (loadWord aucLocalKey) (p, ⟨0, 0⟩)).1

def fillP (s : Blowfish × SBlock) (i : Nat) : Blowfish × SBlock :=
  let (c, block) := s
  let block := c.encryptBlock block
  let p := c.auiP.setIfInBounds i block.uil
  ({ c with auiP := p.setIfInBounds (i + 1) block.uir }, block)

def fillS (j : Nat) (s : Blowfish × SBlock) (k : Nat) : Blowfish × SBlock :=
  let (c, block) := s
  let block := c.encryptBlock block
  let t := c.auiS[j]!.setIfInBounds k block.uil
  ({ c with auiS := c.auiS.setIfInBounds j (t.setIfInBounds (k + 1) block.uir) }, block)

-- Reflects P and S boxes through the evolving cipher.
def reflect (c : Blowfish) : Blowfish :=
  let s := ((List.range 9).map (2 * ·)).foldl fillP (c, ⟨0, 0⟩)
  let s := (List.range 4).foldl (fun s j => ((List.range 128).map (2 * ·)).foldl (fillS j) s) s
  s.1

-- The chaining blocks are stored before the length of the key is checked.
def start (ucKey : List UInt8) (roChain : SBlock) : EStateM Error Blowfish Unit := do
  modify fun c => { c with oChain0 := roChain, oChain := roChain }
  if ucKey.length < 1 then throw .invalidKeyLength
  let aucLocalKey := ucKey.take 56
  modify fun c => { c with auiP := auiInitP, auiS := auiInitS }
  modify fun c => { c with auiP := loadKey aucLocalKey c.auiP }
  modify reflect

def resetChain (c : Blowfish) : Blowfish := { c with oChain := c.oChain0 }

section KeySchedule

-- The bytes the key schedule takes from a key, and the words they make.
def cycled (k : List UInt8) (m : Nat) : UInt8 := k[m % k.length]!

def wordAt (g : Nat → UInt8) (m : Nat) : UInt32 :=
  (List.range 4).foldl (fun x j => (x <<< 8) ||| (g (m + j)).toUInt32) 0

def Cursor.at (k : List UInt8) (m : Nat) : Cursor := ⟨m % k.length, m % k.length⟩

variable {k : List UInt8} {p : Vector UInt32 18} {n : Nat}

theorem shiftIn_at (hk : k ≠ []) (x : UInt32) (m : Nat) :
    shiftIn k (x, .at k m) = ((x <<< 8) ||| (cycled k m).toUInt32, .at k (m + 1)) := by
  have hl : 0 < k.length := List.length_pos_iff.mpr hk
  have hm := Nat.mod_lt m hl
  by_cases he : m % k.length + 1 = k.length
  case pos =>
    have : (m + 1) % k.length = 0 := by rw [← Nat.mod_add_mod, he, Nat.mod_self]
    simp [shiftIn, Cursor.at, cycled, he, this]
  case neg =>
    have : (m + 1) % k.length = m % k.length + 1 := by
      rw [← Nat.mod_add_mod, Nat.mod_eq_of_lt (by omega)]
    simp [shiftIn, Cursor.at, cycled, he, this]

theorem loadWord_at (hk : k ≠ []) (i m : Nat) :
    loadWord k (p, .at k m) i =
      (p.setIfInBounds i (p[i]! ^^^ wordAt (cycled k) m), .at k (m + 4)) := by
  have h : (shiftIn k)^[4] (0, .at k m) = (wordAt (cycled k) m, .at k (m + 4)) := by
    simp only [Function.iterate_succ, Function.iterate_zero, Function.comp_apply, id,
      shiftIn_at hk]
    rfl
  simp only [loadWord, h]

theorem foldl_loadWord (hk : k ≠ []) (n : Nat) :
    (List.range n).foldl (loadWord k) (p, .at k 0) =
      ((List.range n).foldl
        (fun p i => p.setIfInBounds i (p[i]! ^^^ wordAt (cycled k) (4 * i))) p, .at k (4 * n)) := by
  induction n
  case zero       => rfl
  case succ n hi  =>
    simp only [List.range_succ, List.foldl_append, hi, List.foldl_cons, List.foldl_nil,
      loadWord_at hk, Nat.mul_succ]

theorem wordAt_congr {g g' : Nat → UInt8} {m : Nat} (h : ∀ j < 4, g (m + j) = g' (m + j)) :
    wordAt g m = wordAt g' m := by
  refine List.foldl_ext _ _ _ fun x j hj => ?_
  rw [h j (List.mem_range.mp hj)]

theorem toNat_push (x : UInt32) (y : UInt8) :
    ((x <<< 8) ||| y.toUInt32).toNat = (x.toNat * 2 ^ 8 + y.toNat) % 2 ^ 32 := by
  have hy := y.toNat_lt
  have hx : x.toNat <<< 8 % 2 ^ 32 = 2 ^ 8 * (x.toNat % 2 ^ 24) := by
    rw [Nat.shiftLeft_eq]
    omega
  rw [UInt32.toNat_or, UInt32.toNat_shiftLeft, UInt8.toNat_toUInt32]
  change x.toNat <<< 8 % 2 ^ 32 ||| y.toNat = _
  rw [hx, ← Nat.two_pow_add_eq_or_of_lt hy]
  omega

theorem wordAt_inj {g g' : Nat → UInt8} {m : Nat} (h : wordAt g m = wordAt g' m) :
    ∀ j < 4, g (m + j) = g' (m + j) := by
  have ht (g : Nat → UInt8) : (wordAt g m).toNat =
      2 ^ 24 * (g m).toNat + 2 ^ 16 * (g (m + 1)).toNat + 2 ^ 8 * (g (m + 2)).toNat +
        (g (m + 3)).toNat := by
    have := (g m).toNat_lt
    have := (g (m + 1)).toNat_lt
    have := (g (m + 2)).toNat_lt
    have := (g (m + 3)).toNat_lt
    simp only [wordAt, List.range, List.range.loop, List.foldl_cons, List.foldl_nil, toNat_push,
      UInt32.toNat_zero, Nat.add_zero]
    omega
  have he := congrArg UInt32.toNat h
  have hb (j : Nat) := (g (m + j)).toNat_lt
  have hb' (j : Nat) := (g' (m + j)).toNat_lt
  have := hb 0; have := hb 1; have := hb 2; have := hb 3
  have := hb' 0; have := hb' 1; have := hb' 2; have := hb' 3
  rw [ht, ht] at he
  intro j hj
  apply UInt8.toNat.inj
  interval_cases j <;> simp only [Nat.add_zero] at * <;> omega

-- The word of the array at `i`, for any words that are added to it.
theorem getElem!_foldl (w : Nat → UInt32) (i : Nat) (hi : i < 18) :
    ((List.range n).foldl (fun p i => p.setIfInBounds i (p[i]! ^^^ w i)) p)[i]! =
      if i < n then p[i]! ^^^ w i else p[i]! := by
  induction n
  case zero       => simp
  case succ n hn  =>
    rw [List.range_succ, List.foldl_append, List.foldl_cons, List.foldl_nil]
    by_cases h : i = n
    case pos =>
      subst h
      simp [hi] at hn ⊢
      simp [hn]
    case neg =>
      simp only [hi, getElem!_pos] at hn ⊢
      rw [Vector.getElem_setIfInBounds_ne _ (Ne.symm h), hn]
      simp only [show i < n + 1 ↔ i < n by omega]

-- Only the first 72 bytes of the repeated key matter, and all of them do.
theorem loadKey_eq_iff {k' : List UInt8} (hk : k ≠ []) (hk' : k' ≠ []) :
    loadKey k p = loadKey k' p ↔ ∀ m < 72, cycled k m = cycled k' m := by
  have h0 (k : List UInt8) : (⟨0, 0⟩ : Cursor) = .at k 0 := by simp [Cursor.at]
  have hl {k : List UInt8} (hk : k ≠ []) : loadKey k p = (List.range 18).foldl
      (fun p i => p.setIfInBounds i (p[i]! ^^^ wordAt (cycled k) (4 * i))) p := by
    rw [loadKey, h0 k, foldl_loadWord hk]
  rw [hl hk, hl hk']
  constructor
  case mp =>
    intro h m hm
    have hi : m / 4 < 18 := by omega
    have he := congrArg (fun p : Vector UInt32 18 => p[m / 4]!) h
    simp only [getElem!_foldl _ _ hi, if_pos hi] at he
    have hw : wordAt (cycled k) (4 * (m / 4)) = wordAt (cycled k') (4 * (m / 4)) := by
      have := congrArg (p[m / 4]! ^^^ ·) he
      simpa [← UInt32.xor_assoc] using this
    have := wordAt_inj hw (m % 4) (by omega)
    rwa [Nat.div_add_mod] at this
  case mpr =>
    intro h
    refine List.foldl_ext _ _ _ fun p i hi => ?_
    have hi := List.mem_range.mp hi
    rw [wordAt_congr fun j hj => h (4 * i + j) (by omega)]

-- The state a start with this key ends in, whatever it was before.
def started (k : List UInt8) (chain : SBlock) : Blowfish :=
  reflect ⟨chain, chain, loadKey (k.take 56) auiInitP, auiInitS⟩

theorem run_start (hk : k ≠ []) (c : Blowfish) (chain : SBlock) :
    (start k chain).run c = .ok () (started k chain) := by
  have : ¬k.length < 1 := by have := List.length_pos_iff.mpr hk; omega
  simp only [start, if_neg this]
  rfl

theorem run_start_nil (c : Blowfish) (chain : SBlock) :
    (start [] chain).run c = .error .invalidKeyLength { c with oChain0 := chain, oChain := chain } :=
  rfl

-- Keys are told apart by the 72 bytes they give when they are cut to 56 bytes and repeated, and by
-- nothing else: where these agree, the ciphers are the same, whatever they were before.
theorem start_recycles (k k' : List UInt8) (hk : k ≠ []) (hk' : k' ≠ []) (chain : SBlock) :
    (loadKey (k.take 56) auiInitP = loadKey (k'.take 56) auiInitP ↔
      ∀ m < 72, cycled (k.take 56) m = cycled (k'.take 56) m) ∧
    ((∀ m < 72, cycled (k.take 56) m = cycled (k'.take 56) m) →
      ∃ d, ∀ c, (start k chain).run c = .ok () d ∧ (start k' chain).run c = .ok () d) := by
  have ht {k : List UInt8} (hk : k ≠ []) : k.take 56 ≠ [] := by simp [hk]
  have hiff := loadKey_eq_iff (p := auiInitP) (ht hk) (ht hk')
  refine ⟨hiff, fun h => ⟨started k chain, fun c => ⟨run_start hk c chain, ?_⟩⟩⟩
  rw [run_start hk', started, started, hiff.mpr h]

theorem start_recycles_twice :
    (loadKey ([1].take 56) auiInitP = loadKey ([1, 1].take 56) auiInitP ↔
      ∀ m < 72, cycled ([1].take 56) m = cycled ([1, 1].take 56) m) ∧
    ∃ d, ∀ c, (start [1] ⟨0, 0⟩).run c = .ok () d ∧ (start [1, 1] ⟨0, 0⟩).run c = .ok () d :=
  have h := start_recycles [1] [1, 1] (by decide) (by decide) ⟨0, 0⟩
  ⟨h.1, h.2 (by decide)⟩

end KeySchedule

end Blowfish
