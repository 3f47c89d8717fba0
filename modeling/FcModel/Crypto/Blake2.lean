import FcModel.Lib.Blake2
import FcModel.Raw.Scalar

-- `fc::blake2b`, on a little-endian machine.

namespace Blake2b

open Raw
open scoped Blake2

def blake2bIV : Vector UInt64 8 :=
  #v[0x6a09e667f3bcc908, 0xbb67ae8584caa73b, 0x3c6ef372fe94f82b, 0xa54ff53a5f1d36f1,
    0x510e527fade682d1, 0x9b05688c2b3e6c1f, 0x1f83d9abfb41bd6b, 0x5be0cd19137e2179]

-- The first two rows are repeated at the end.
def blake2bSigma : Vector (Vector (Fin 16) 16) 12 :=
  #v[#v[0, 1, 2, 3, 4, 5, 6, 7, 8, 9, 10, 11, 12, 13, 14, 15],
    #v[14, 10, 4, 8, 9, 15, 13, 6, 1, 12, 0, 2, 11, 7, 5, 3],
    #v[11, 8, 12, 0, 5, 2, 15, 13, 10, 14, 3, 6, 7, 1, 9, 4],
    #v[7, 9, 3, 1, 13, 12, 11, 14, 2, 6, 5, 10, 4, 0, 15, 8],
    #v[9, 0, 5, 7, 2, 4, 10, 15, 14, 1, 11, 12, 6, 8, 3, 13],
    #v[2, 12, 6, 10, 0, 11, 8, 3, 4, 13, 7, 5, 15, 14, 1, 9],
    #v[12, 5, 1, 15, 14, 13, 4, 10, 0, 7, 6, 3, 9, 2, 8, 11],
    #v[13, 11, 7, 14, 12, 1, 3, 9, 5, 0, 15, 4, 8, 6, 2, 10],
    #v[6, 15, 14, 9, 11, 3, 0, 8, 12, 2, 13, 7, 1, 4, 10, 5],
    #v[10, 2, 8, 4, 7, 6, 1, 5, 15, 11, 9, 14, 3, 12, 13, 0],
    #v[0, 1, 2, 3, 4, 5, 6, 7, 8, 9, 10, 11, 12, 13, 14, 15],
    #v[14, 10, 4, 8, 9, 15, 13, 6, 1, 12, 0, 2, 11, 7, 5, 3]]

inductive Blake2bError
  | inputLenError
deriving DecidableEq, Repr

structure State where
  h : Vector UInt64 8
  t : Vector UInt64 2
  f : Vector UInt64 1

-- `blake2b_wrapper`.
structure Wrapper where
  m : Vector UInt64 16
  v : Vector UInt64 16

def load64 (src : Bytes) : UInt64 :=
  .ofNat (ofLE (src.take 8))

def rotr64 (w c : UInt64) : UInt64 :=
  (w >>> c) ||| (w <<< (64 - c))

-- The words at a pointer.
def loadWords (n : Nat) (src : Bytes) : Vector UInt64 n :=
  .ofFn fun i => load64 (src.drop (8 * i))

namespace Wrapper

-- An assignment to an element of `v`.
def assign (w : Wrapper) (i : Fin 16) (x : UInt64) : Wrapper :=
  { w with v := w.v.set i x }

-- `G`, on the elements `a` to `d` of `v`.
def g (r : Fin 12) (i : Fin 8) (a b c d : Fin 16) (w : Wrapper) : Wrapper :=
  let w := w.assign a (w.v.get a + w.v.get b + w.m.get ((blake2bSigma.get r).get ⟨2 * i + 0, Blake2.two_mul_lt i⟩))
  let w := w.assign d (rotr64 (w.v.get d ^^^ w.v.get a) 32)
  let w := w.assign c (w.v.get c + w.v.get d)
  let w := w.assign b (rotr64 (w.v.get b ^^^ w.v.get c) 24)
  let w := w.assign a (w.v.get a + w.v.get b + w.m.get ((blake2bSigma.get r).get ⟨2 * i + 1, Blake2.two_mul_succ_lt i⟩))
  let w := w.assign d (rotr64 (w.v.get d ^^^ w.v.get a) 16)
  let w := w.assign c (w.v.get c + w.v.get d)
  w.assign b (rotr64 (w.v.get b ^^^ w.v.get c) 63)

-- `ROUND`.
def round (r : Fin 12) (w : Wrapper) : Wrapper :=
  let w := w.g r 0 0 4 8 12
  let w := w.g r 1 1 5 9 13
  let w := w.g r 2 2 6 10 14
  let w := w.g r 3 3 7 11 15
  let w := w.g r 4 0 5 10 15
  let w := w.g r 5 1 6 11 12
  let w := w.g r 6 2 7 8 13
  w.g r 7 3 4 9 14

-- `blake2b_compress_init`.
def compressInit (s : State) (block : Bytes) : Wrapper where
  m := loadWords 16 block
  v := s.h ++ #v[
    blake2bIV.get 0,
    blake2bIV.get 1,
    blake2bIV.get 2,
    blake2bIV.get 3,
    blake2bIV.get 4 ^^^ s.t[0],
    blake2bIV.get 5 ^^^ s.t[1],
    blake2bIV.get 6 ^^^ s.f[0],
    blake2bIV.get 7]

-- `blake2b_compress_end`.
def compressEnd (w : Wrapper) (s : State) : State :=
  { s with h := .ofFn fun i => s.h.get i ^^^ w.v.get ⟨i, Blake2.lt_sixteen i⟩ ^^^
    w.v.get ⟨i + 8, Blake2.add_eight_lt i⟩ }

end Wrapper

section Yield

variable {ε σ : Type} (yield : EStateM ε σ Unit)

-- The loop, with `n` rounds left after `i` ones.
def rounds : (n i : Nat) → Wrapper → EStateM ε σ Wrapper
  | 0, _, w     => return w
  | n + 1, i, w => do
    let w := w.round ⟨i % 10, by omega⟩
    if i % 100 ≠ 0 then yield
    rounds n (i + 1) w

def blake2bCompress (s : State) (block : Bytes) (r : Nat) : EStateM ε σ State := do
  let w ← rounds yield r 0 (Wrapper.compressInit s block)
  return w.compressEnd s

def blake2b (rounds : UInt32) (h m t0Offset t1Offset : Bytes) (f : Bool) :
    EStateM ε σ (Blake2bError ⊕ Bytes) := do
  if h.length ≠ 64 ∨ m.length ≠ 128 ∨ t0Offset.length ≠ 8 ∨ t1Offset.length ≠ 8 then
    return .inl .inputLenError
  else
    let state : State := {
      h := loadWords 8 h
      t := #v[load64 t0Offset, load64 t1Offset]
      f := #v[if f then 0xffffffffffffffff else 0]
    }
    let state ← blake2bCompress yield state m rounds.toNat
    return .inr (state.h.toList.flatMap fun x => toLE 8 x.toNat)

end Yield

section Words

variable {n : Nat}

def words (v : Vector UInt64 n) : Fin n → BitVec 64 :=
  fun i => (v.get i).toBitVec

-- The little-endian words of a memory.
def wordsOf (n : Nat) (src : Bytes) : Fin n → BitVec 64 :=
  fun i => .ofNat 64 (ofLE ((src.drop (8 * i)).take 8))

theorem words_set (v : Vector UInt64 n) (i : Fin n) (x : UInt64) :
    words (v.set i.val x i.isLt) = Function.update (words v) i x.toBitVec := by
  funext j
  rw [words, Vector.get_eq_getElem, Vector.getElem_set, Function.update_apply]
  by_cases h : i = j
  case pos => rw [if_pos (congrArg Fin.val h), if_pos h.symm]
  case neg =>
    rw [if_neg fun he => h (Fin.ext he), if_neg (Ne.symm h)]
    rfl

theorem words_loadWords (n : Nat) (src : Bytes) : words (loadWords n src) = wordsOf n src := by
  funext i
  rw [words, loadWords, Vector.get_eq_getElem, Vector.getElem_ofFn]
  rfl

@[simp]
theorem toBitVec_get (v : Vector UInt64 n) (i : Fin n) : (v.get i).toBitVec = words v i := rfl

-- The four rotations.
@[simp]
theorem rotr64_r1 (x : UInt64) :
    (rotr64 x 32).toBitVec = x.toBitVec.rotateRight Blake2.blake2b.r1 := rfl

@[simp]
theorem rotr64_r2 (x : UInt64) :
    (rotr64 x 24).toBitVec = x.toBitVec.rotateRight Blake2.blake2b.r2 := rfl

@[simp]
theorem rotr64_r3 (x : UInt64) :
    (rotr64 x 16).toBitVec = x.toBitVec.rotateRight Blake2.blake2b.r3 := rfl

@[simp]
theorem rotr64_r4 (x : UInt64) :
    (rotr64 x 63).toBitVec = x.toBitVec.rotateRight Blake2.blake2b.r4 := rfl

end Words

section Rounds

open Blake2 (mix sigma)

variable {w : Wrapper}

@[simp]
theorem words_assign (i : Fin 16) (x : UInt64) :
    words (w.assign i x).v = Function.update (words w.v) i x.toBitVec :=
  words_set ..

@[simp]
theorem m_assign (i : Fin 16) (x : UInt64) : (w.assign i x).m = w.m := rfl

@[simp]
theorem m_g (r : Fin 12) (i : Fin 8) (a b c d : Fin 16) : (w.g r i a b c d).m = w.m := rfl

@[simp]
theorem words_g (r : Fin 12) (i : Fin 8) (a b c d : Fin 16) :
    words (w.g r i a b c d).v =
      mix Blake2.blake2b (words w.v) a b c d
          (words w.m ((blake2bSigma.get r).get ⟨2 * i, by omega⟩))
        (words w.m ((blake2bSigma.get r).get ⟨2 * i + 1, by omega⟩)) := by
  simp [Wrapper.g, mix]

-- The rows of the table that are used are those of the RFC.
theorem get_blake2bSigma (i : Nat) (k : Fin 16) :
    (blake2bSigma.get ⟨i % 10, by omega⟩).get k = sigma (.ofNat 10 i) k := by
  have h : ∀ (r : Fin 10) (k : Fin 16),
      (blake2bSigma.get (r.castLE (by decide))).get k = sigma r k := by
    decide
  exact h (.ofNat 10 i) k

-- A call of `G` on a column or a diagonal.
def step (r : Fin 12) (w : Wrapper) (i : Fin 8) : Wrapper :=
  let q := Blake2.quarters i
  w.g r i q.1 q.2.1 q.2.2.1 q.2.2.2

theorem round_eq (r : Fin 12) : w.round r = (List.finRange 8).foldl (step r) w := by
  have h : List.finRange 8 = [0, 1, 2, 3, 4, 5, 6, 7] := rfl
  rw [h]
  rfl

theorem m_foldl_step (r : Fin 12) (is : List (Fin 8)) (w : Wrapper) :
    (is.foldl (step r) w).m = w.m := by
  induction is generalizing w
  case nil          => rfl
  case cons i is hi => rw [List.foldl_cons, hi, step, m_g]

theorem words_round (i : Nat) :
    words (w.round ⟨i % 10, by omega⟩).v =
      Blake2.round Blake2.blake2b (words w.m) (sigma (.ofNat 10 i)) (words w.v) := by
  rw [round_eq, Blake2.round]
  generalize List.finRange 8 = is
  induction is generalizing w
  case nil          => rfl
  case cons j is hi =>
    rw [List.foldl_cons, hi, List.foldl_cons, step, m_g, words_g, get_blake2bSigma,
      get_blake2bSigma]

theorem m_round (r : Fin 12) : (w.round r).m = w.m := by
  rw [round_eq, m_foldl_step]

end Rounds

section Yield

variable {ε σ : Type} {yield : EStateM ε σ Unit}

def NeverThrows (yield : EStateM ε σ Unit) : Prop :=
  ∀ s, ∃ s', yield.run s = .ok () s'

-- After a yield the program goes on in another state.
theorem run_yield {α : Type} (hy : NeverThrows yield) (p : Prop) [Decidable p] (s : σ) :
    ∃ s', ∀ f : Unit → EStateM ε σ α, (if p then yield >>= f else f ()).run s = (f ()).run s' := by
  by_cases hp : p
  case pos =>
    obtain ⟨s', hs⟩ := hy s
    refine ⟨s', fun f => ?_⟩
    rw [if_pos hp, EStateM.run_bind, hs]
  case neg => exact ⟨s, fun f => by rw [if_neg hp]⟩

-- The loop returns what the rounds from `i` on make of the work vector.
theorem run_rounds (hy : NeverThrows yield) (n i : Nat) (w : Wrapper) (s : σ) :
    ∃ w' s', (rounds yield n i w).run s = .ok w' s' ∧
      words w'.v = Blake2.rounds Blake2.blake2b (words w.m) (List.range' i n) (words w.v) := by
  induction n generalizing i w s
  case zero => exact ⟨w, s, rfl, rfl⟩
  case succ n hi =>
    obtain ⟨s', hs⟩ := run_yield hy (i % 100 ≠ 0) s
    obtain ⟨w', s'', hrun, hw⟩ := hi (i + 1) (w.round ⟨i % 10, by omega⟩) s'
    refine ⟨w', s'', ?_, ?_⟩
    case refine_1 =>
      rw [rounds]
      exact (hs _).trans hrun
    case refine_2 =>
      rw [hw, m_round, words_round, List.range'_succ]
      rfl

theorem words_append (a b : Vector UInt64 8) (i : Fin 16) :
    words (a ++ b) i =
      if h : i.val < 8 then words a ⟨i, h⟩ else words b ⟨i - 8, Blake2.sub_eight_lt h⟩ := by
  rw [words, Vector.get_eq_getElem, Vector.getElem_append]
  split <;> rfl

theorem words_blake2bIV : words blake2bIV = Blake2.blake2b.iv := by
  funext i
  fin_cases i <;> rfl

-- The second half of the work vector.
theorem words_tail (t0 t1 f0 : UInt64) (j : Fin 8) :
    words #v[blake2bIV.get 0, blake2bIV.get 1, blake2bIV.get 2, blake2bIV.get 3,
      blake2bIV.get 4 ^^^ t0, blake2bIV.get 5 ^^^ t1, blake2bIV.get 6 ^^^ f0, blake2bIV.get 7] j =
      if j = 4 then words blake2bIV j ^^^ t0.toBitVec
      else if j = 5 then words blake2bIV j ^^^ t1.toBitVec
      else if j = 6 then words blake2bIV j ^^^ f0.toBitVec
      else words blake2bIV j := by
  fin_cases j <;> rfl

theorem words_compressInit (s : State) (block : Bytes) (f : Bool)
    (hf : s.f.get 0 = if f then 0xffffffffffffffff else 0) :
    words (Wrapper.compressInit s block).v =
      Blake2.initial Blake2.blake2b (words s.h) (words s.t 0) (words s.t 1) f := by
  funext i
  rw [Wrapper.compressInit, words_append, Blake2.initial]
  split
  case isTrue => rfl
  case isFalse hi =>
    have hindex : ∀ k : Fin 8, ((⟨i - 8, by omega⟩ : Fin 8) = k) = (i = ⟨k + 8, by omega⟩) := by
      intro k
      rw [Fin.ext_iff, Fin.ext_iff, eq_iff_iff]
      dsimp only
      omega
    have hones : ((if f then 0xffffffffffffffff else 0 : UInt64)).toBitVec =
        if f then BitVec.allOnes 64 else 0 := by
      cases f <;> rfl
    have hf0 : s.f[0] = if f then 0xffffffffffffffff else 0 := hf
    have ht0 : s.t[0].toBitVec = words s.t 0 := rfl
    have ht1 : s.t[1].toBitVec = words s.t 1 := rfl
    simp only [words_tail, words_blake2bIV, hf0, ht0, ht1, hones, hindex]
    cases f
    case false => simp
    case true  => simp

end Yield

-- The memory of little-endian words.
def bytesOf {n : Nat} (h : Fin n → BitVec 64) : Bytes :=
  (List.finRange n).flatMap fun i => toLE 8 (h i).toNat

-- `F` on the bytes that the function is given.
def compressed (rounds : UInt32) (h m t0 t1 : Bytes) (f : Bool) : Bytes :=
  bytesOf (Blake2.compress Blake2.blake2b rounds.toNat (wordsOf 8 h) (wordsOf 16 m) (wordsOf 1 t0 0)
    (wordsOf 1 t1 0) f)

-- What a caller has to provide.
structure Lengths (h m t0 t1 : Bytes) : Prop where
  state   : h.length = 64
  block   : m.length = 128
  offset0 : t0.length = 8
  offset1 : t1.length = 8

section Result

variable {ε σ : Type} {yield : EStateM ε σ Unit} {rounds : UInt32} {h m t0 t1 : Bytes} {f : Bool}

theorem length_bytesOf {n : Nat} (h : Fin n → BitVec 64) : (bytesOf h).length = 8 * n := by
  simp [bytesOf, List.length_flatMap, Nat.mul_comm]

theorem toList_flatMap {n : Nat} (v : Vector UInt64 n) :
    (v.toList.flatMap fun x => toLE 8 x.toNat) = bytesOf (words v) := by
  have hlist : v.toList = (List.finRange n).map v.get := by
    refine List.ext_getElem (by simp) fun i _ _ => ?_
    simp [Vector.get_eq_getElem]
  rw [hlist, List.flatMap_map]
  rfl

theorem words_compressEnd (w : Wrapper) (s : State) :
    words (w.compressEnd s).h = fun i =>
      words s.h i ^^^ words w.v ⟨i, by omega⟩ ^^^ words w.v ⟨i + 8, by omega⟩ := by
  funext i
  rw [words, Wrapper.compressEnd, Vector.get_eq_getElem, Vector.getElem_ofFn]
  rfl

theorem run_blake2bCompress (hy : NeverThrows yield) (state : State) (block : Bytes) (r : Nat)
    (hf : state.f.get 0 = if f then 0xffffffffffffffff else 0) (s : σ) :
    ∃ state' s', (blake2bCompress yield state block r).run s = .ok state' s' ∧
      words state'.h = Blake2.compress Blake2.blake2b r (words state.h) (wordsOf 16 block)
        (words state.t 0) (words state.t 1) f := by
  obtain ⟨w, s', hrun, hw⟩ := run_rounds hy r 0 (Wrapper.compressInit state block) s
  refine ⟨w.compressEnd state, s', ?_, ?_⟩
  case refine_1 => rw [blake2bCompress, EStateM.run_bind, hrun]; rfl
  case refine_2 =>
    rw [words_compressInit state block f hf, ← List.range_eq_range'] at hw
    have hm : words (Wrapper.compressInit state block).m = wordsOf 16 block := words_loadWords ..
    rw [words_compressEnd, hw, hm]
    rfl

theorem run_blake2b (hy : NeverThrows yield) (hl : Lengths h m t0 t1) (s : σ) :
    ∃ s',
    (blake2b yield rounds h m t0 t1 f).run s = .ok (.inr (compressed rounds h m t0 t1 f)) s' := by
  have hlengths : ¬(h.length ≠ 64 ∨ m.length ≠ 128 ∨ t0.length ≠ 8 ∨ t1.length ≠ 8) := by
    simp [hl.state, hl.block, hl.offset0, hl.offset1]
  have hrun := @run_blake2bCompress _ _ _ f hy
    ⟨loadWords 8 h, #v[load64 t0, load64 t1],
      #v[if f then 0xffffffffffffffff else 0]⟩ m rounds.toNat
    rfl s
  obtain ⟨state, s', hrun, hstate⟩ := hrun
  refine ⟨s', ?_⟩
  rw [blake2b, if_neg hlengths, EStateM.run_bind, hrun]
  dsimp only
  rw [toList_flatMap, hstate, words_loadWords]
  rfl

end Result

-- The function returns what `F` does, and nothing is computed from data of another length.
theorem blake2b_eq_compressed {ε σ : Type} (yield : EStateM ε σ Unit) (rounds : UInt32)
    (h m t0 t1 : Bytes) (f : Bool) :
    (NeverThrows yield → Lengths h m t0 t1 → ∀ s, ∃ s', (blake2b yield rounds h m t0 t1 f).run s =
      .ok (.inr (compressed rounds h m t0 t1 f)) s') ∧
    (compressed rounds h m t0 t1 f).length = 64 ∧
    (¬Lengths h m t0 t1 → ∀ s,
      (blake2b yield rounds h m t0 t1 f).run s = .ok (.inl .inputLenError) s) := by
  refine ⟨run_blake2b, length_bytesOf _, fun hl s => ?_⟩
  have hlengths : h.length ≠ 64 ∨ m.length ≠ 128 ∨ t0.length ≠ 8 ∨ t1.length ≠ 8 := by
    by_contra hall
    simp only [not_or, not_not] at hall
    exact hl ⟨hall.1, hall.2.1, hall.2.2.1, hall.2.2.2⟩
  rw [blake2b, if_pos hlengths]
  rfl

section Vector

-- The test vector that has no rounds, and one of its arguments with a wrong length.

def bigEndian (n v : Nat) : Bytes :=
  (toLE n v).reverse

def vectorState : Bytes :=
  bigEndian 64 0x48c9bdf267e6096a3ba7ca8485ae67bb2bf894fe72f36e3cf1361d5f3af54fa5d182e6ad7f520e511f6c3e2b8c68059b6bbd41fbabd9831f79217e1319cde05b

def vectorBlock : Bytes :=
  [0x61, 0x62, 0x63] ++ List.replicate 125 0

def vectorOffset : Bytes :=
  [3, 0, 0, 0, 0, 0, 0, 0]

def vectorResult : Bytes :=
  bigEndian 64 0x08c9bcf367e6096a3ba7ca8485ae67bb2bf894fe72f36e3cf1361d5f3af54fa5d282e6ad7f520e511f6c3e2b8c68059b9442be0454267ce079217e1319cde05b

def vectorRun (h : Bytes) : EStateM.Result Empty Unit (Blake2bError ⊕ Bytes) :=
  (blake2b (pure ()) 0 h vectorBlock vectorOffset (List.replicate 8 0) true).run ()

theorem blake2b_eq_compressed_vector :
    vectorRun vectorState = .ok (.inr vectorResult) () ∧
    vectorRun [] = .ok (.inl .inputLenError) () := by
  have hspec := blake2b_eq_compressed (pure () : EStateM Empty Unit Unit) 0
  have hresult : compressed 0 vectorState vectorBlock vectorOffset (List.replicate 8 0) true =
      vectorResult := by
    decide +kernel
  constructor
  case left =>
    obtain ⟨_, h⟩ := (hspec vectorState vectorBlock vectorOffset (List.replicate 8 0) true).left
      (fun s => ⟨s, rfl⟩) ⟨by decide +kernel, by decide +kernel, by decide, by decide⟩ ()
    rw [vectorRun, h, hresult]
  case right =>
    exact (hspec [] vectorBlock vectorOffset (List.replicate 8 0) true).right.right
      (fun hl => absurd hl.state (by decide)) ()

end Vector

end Blake2b
