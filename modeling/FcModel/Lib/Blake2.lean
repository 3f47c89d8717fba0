import Mathlib.Data.BitVec
import Mathlib.Data.Fin.VecNotation
import Mathlib.Logic.Function.Basic

-- The compression function of BLAKE2, as RFC 7693 defines it, with any number of rounds.

namespace Blake2

-- Numerals are indices of the work vector and of the words of a block.
scoped instance neZeroSixteen : NeZero 16 := ⟨by decide⟩

theorem two_mul_lt (i : Fin 8) : 2 * i.val < 16 := by omega

theorem two_mul_succ_lt (i : Fin 8) : 2 * i.val + 1 < 16 := by omega

theorem lt_sixteen (i : Fin 8) : i.val < 16 := by omega

theorem sub_eight_lt {i : Fin 16} (h : ¬i.val < 8) : i.val - 8 < 8 := by omega

theorem add_eight_lt (i : Fin 8) : i.val + 8 < 16 := by omega

-- The words of a variant have `w` bits. The constants of rotation are named as in the RFC.
structure Parameters (w : Nat) where
  r1 : Nat
  r2 : Nat
  r3 : Nat
  r4 : Nat
  iv : Fin 8 → BitVec w

def sigma : Fin 10 → Fin 16 → Fin 16 :=
  ![![0, 1, 2, 3, 4, 5, 6, 7, 8, 9, 10, 11, 12, 13, 14, 15],
    ![14, 10, 4, 8, 9, 15, 13, 6, 1, 12, 0, 2, 11, 7, 5, 3],
    ![11, 8, 12, 0, 5, 2, 15, 13, 10, 14, 3, 6, 7, 1, 9, 4],
    ![7, 9, 3, 1, 13, 12, 11, 14, 2, 6, 5, 10, 4, 0, 15, 8],
    ![9, 0, 5, 7, 2, 4, 10, 15, 14, 1, 11, 12, 6, 8, 3, 13],
    ![2, 12, 6, 10, 0, 11, 8, 3, 4, 13, 7, 5, 15, 14, 1, 9],
    ![12, 5, 1, 15, 14, 13, 4, 10, 0, 7, 6, 3, 9, 2, 8, 11],
    ![13, 11, 7, 14, 12, 1, 3, 9, 5, 0, 15, 4, 8, 6, 2, 10],
    ![6, 15, 14, 9, 11, 3, 0, 8, 12, 2, 13, 7, 1, 4, 10, 5],
    ![10, 2, 8, 4, 7, 6, 1, 5, 15, 11, 9, 14, 3, 12, 13, 0]]

-- Each column and each diagonal of the four by four work vector.
def quarters : Fin 8 → Fin 16 × Fin 16 × Fin 16 × Fin 16 :=
  ![(0, 4, 8, 12), (1, 5, 9, 13), (2, 6, 10, 14), (3, 7, 11, 15),
    (0, 5, 10, 15), (1, 6, 11, 12), (2, 7, 8, 13), (3, 4, 9, 14)]

section Compression

variable {w : Nat} (P : Parameters w)

abbrev WorkVector (w : Nat) := Fin 16 → BitVec w

-- The mixing function `G`.
def mix (v : WorkVector w) (a b c d : Fin 16) (x y : BitVec w) : WorkVector w :=
  let v := Function.update v a (v a + v b + x)
  let v := Function.update v d ((v d ^^^ v a).rotateRight P.r1)
  let v := Function.update v c (v c + v d)
  let v := Function.update v b ((v b ^^^ v c).rotateRight P.r2)
  let v := Function.update v a (v a + v b + y)
  let v := Function.update v d ((v d ^^^ v a).rotateRight P.r3)
  let v := Function.update v c (v c + v d)
  Function.update v b ((v b ^^^ v c).rotateRight P.r4)

-- A round mixes the columns and then the diagonals, with the words of the message in the order `s`.
def round (m : Fin 16 → BitVec w) (s : Fin 16 → Fin 16) (v : WorkVector w) : WorkVector w :=
  (List.finRange 8).foldl
    (fun v i =>
      let (a, b, c, d) := quarters i
      mix P v a b c d (m (s ⟨2 * i, two_mul_lt i⟩)) (m (s ⟨2 * i + 1, two_mul_succ_lt i⟩))) v

def rounds (m : Fin 16 → BitVec w) (is : List Nat) (v : WorkVector w) : WorkVector w :=
  is.foldl (fun v i => round P m (sigma (.ofNat 10 i)) v) v

def initial (h : Fin 8 → BitVec w) (t0 t1 : BitVec w) (f : Bool) : WorkVector w := fun i =>
  if hi : i.val < 8 then h ⟨i, hi⟩
  else
    let k := P.iv ⟨i - 8, sub_eight_lt hi⟩
    if i = 12 then k ^^^ t0
    else if i = 13 then k ^^^ t1
    else if i = 14 ∧ f then k ^^^ BitVec.allOnes w
    else k

-- The function `F`. The offset counter is given by its low and its high word.
def compress (n : Nat) (h : Fin 8 → BitVec w) (m : Fin 16 → BitVec w) (t0 t1 : BitVec w)
    (f : Bool) :
    Fin 8 → BitVec w :=
  let v := rounds P m (List.range n) (initial P h t0 t1 f)
  fun i => h i ^^^ v ⟨i, lt_sixteen i⟩ ^^^ v ⟨i + 8, add_eight_lt i⟩

end Compression

def blake2b : Parameters 64 where
  r1 := 32
  r2 := 24
  r3 := 16
  r4 := 63
  iv := ![0x6a09e667f3bcc908, 0xbb67ae8584caa73b, 0x3c6ef372fe94f82b, 0xa54ff53a5f1d36f1,
    0x510e527fade682d1, 0x9b05688c2b3e6c1f, 0x1f83d9abfb41bd6b, 0x5be0cd19137e2179]

end Blake2
