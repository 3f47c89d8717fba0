import Mathlib

-- The hash functions of FIPS 202, as the standard defines them: on strings of bits.

namespace Keccak

-- The state array: `A x y z` is the bit at column `x`, row `y` and depth `z`. Indices wrap.
abbrev State := Fin 5 → Fin 5 → Fin 64 → Bool

section StepMappings

def theta (A : State) : State := fun x y z =>
  A x y z ^^ (parity (x - 1) z ^^ parity (x + 1) (z - 1))
where
  parity (x : Fin 5) (z : Fin 64) : Bool :=
    A x 0 z ^^ A x 1 z ^^ A x 2 z ^^ A x 3 z ^^ A x 4 z

-- The position at which the rotation with index `t` takes place.
def position : Nat → Fin 5 × Fin 5
  | 0     => (1, 0)
  | t + 1 => ((position t).2, 2 * (position t).1 + 3 * (position t).2)

def rotate (A A' : State) (t : Nat) : State := fun x y z =>
  if (x, y) = position t then A x y (z - .ofNat 64 ((t + 1) * (t + 2) / 2)) else A' x y z

def rho (A : State) : State :=
  (List.range 24).foldl (rotate A) A

-- How far a lane is rotated in the end.
def offset (x y : Fin 5) : Fin 64 :=
  ((List.range 24).find? fun t => (x, y) = position t).elim 0 fun t => .ofNat 64 ((t + 1) * (t + 2) / 2)

theorem rho_eq (A : State) (x y : Fin 5) (z : Fin 64) : rho A x y z = A x y (z - offset x y) := by
  by_cases h0 : x = 0 ∧ y = 0
  case pos =>
    obtain ⟨rfl, rfl⟩ := h0
    have hoffset : offset 0 0 = 0 := by decide
    rw [hoffset, sub_zero]
    rfl
  case neg =>
    fin_cases x <;> fin_cases y
    case «0».«0» => exact absurd ⟨rfl, rfl⟩ h0
    all_goals rfl

def pi (A : State) : State := fun x y z =>
  A (x + 3 * y) x z

def chi (A : State) : State := fun x y z =>
  A x y z ^^ (!A (x + 1) y z && A (x + 2) y z)

-- A step of the linear feedback shift register.
def shift (R : List Bool) : List Bool :=
  let R := false :: R
  (List.range 8).map fun i => if i ∈ [0, 4, 5, 6] then R.getD i false ^^ R.getD 8 false else R.getD i false

def rc (t : Nat) : Bool :=
  (shift^[t % 255] (true :: List.replicate 7 false)).getD 0 false

def roundConstant (i : Nat) (z : Fin 64) : Bool :=
  (List.range 7).any fun j => z.val = 2 ^ j - 1 ∧ rc (j + 7 * i)

def iota (i : Nat) (A : State) : State := fun x y z =>
  if x = 0 ∧ y = 0 then A x y z ^^ roundConstant i z else A x y z

def round (A : State) (i : Nat) : State :=
  iota i (chi (pi (rho (theta A))))

-- `KECCAK-p[1600, 24]` on state arrays.
def permute (A : State) : State :=
  (List.range 24).foldl round A

end StepMappings

section Strings

def ofString (S : List Bool) : State := fun x y z =>
  S.getD (64 * (5 * y + x) + z) false

def toString (A : State) : List Bool :=
  List.ofFn fun i : Fin 1600 => A (.ofNat 5 (i / 64)) (.ofNat 5 (i / 64 / 5)) (.ofNat 64 i)

def keccakP (S : List Bool) : List Bool :=
  toString (permute (ofString S))

theorem ofString_toString (A : State) : ofString (toString A) = A := by
  funext x y z
  have hlt : 64 * (5 * y.val + x.val) + z.val < 1600 := by omega
  have hx : Fin.ofNat 5 ((64 * (5 * y.val + x.val) + z.val) / 64) = x :=
    Fin.ext (show (64 * (5 * y.val + x.val) + z.val) / 64 % 5 = x.val by omega)
  have hy : Fin.ofNat 5 ((64 * (5 * y.val + x.val) + z.val) / 64 / 5) = y :=
    Fin.ext (show (64 * (5 * y.val + x.val) + z.val) / 64 / 5 % 5 = y.val by omega)
  have hz : Fin.ofNat 64 (64 * (5 * y.val + x.val) + z.val) = z :=
    Fin.ext (show (64 * (5 * y.val + x.val) + z.val) % 64 = z.val by omega)
  rw [ofString, toString, List.getD_eq_getElem _ _ (by rw [List.length_ofFn]; exact hlt),
    List.getElem_ofFn, hx, hy, hz]

theorem keccakP_toString (A : State) : keccakP (toString A) = toString (permute A) := by
  rw [keccakP, ofString_toString]

end Strings

section Sponge

variable (f : List Bool → List Bool) (r c : Nat)

-- `pad10*1`.
def pad (x m : Nat) : List Bool :=
  true :: List.replicate ((x - (m + 2) % x) % x) false ++ [true]

-- The block `B` is added to the state.
def absorbBlock (S B : List Bool) : List Bool :=
  f (List.zipWith xor S (B ++ List.replicate c false))

def absorb (S P : List Bool) : List Bool :=
  (List.range (P.length / r)).foldl (fun S i => absorbBlock f c S ((P.drop (i * r)).take r)) S

def squeeze (S : List Bool) (d : Nat) : List Bool :=
  ((List.range (d / r + 1)).flatMap fun i => (f^[i] S).take r).take d

def sponge (N : List Bool) (d : Nat) : List Bool :=
  squeeze f r (absorb f r c (List.replicate (r + c) false) (N ++ pad r N.length)) d

variable {f r c} {S : List Bool}

theorem absorb_nil : absorb f r c S [] = S := by
  simp [absorb]

-- The first block is absorbed before the rest.
theorem absorb_append {B P : List Bool} (hB : B.length = r) (hr : 0 < r) :
    absorb f r c S (B ++ P) = absorb f r c (absorbBlock f c S B) P := by
  have hcount : (B ++ P).length / r = P.length / r + 1 := by
    rw [List.length_append, hB, Nat.add_comm, Nat.add_div_right _ hr]
  rw [absorb, hcount, List.range_succ_eq_map, List.foldl_cons, List.foldl_map, Nat.zero_mul,
    List.drop_zero,
    List.take_left' hB, absorb]
  congr 1
  funext S i
  rw [Nat.succ_mul, Nat.add_comm, ← List.drop_drop, List.drop_left' hB]

theorem squeeze_of_lt {d : Nat} (h : d < r) : squeeze f r S d = S.take d := by
  have : d / r = 0 := Nat.div_eq_of_lt h
  simp [squeeze, this, List.take_take, Nat.min_eq_left (Nat.le_of_lt h)]

end Sponge

-- `KECCAK[c]` with an output of `d` bits.
def keccak (c : Nat) (N : List Bool) (d : Nat) : List Bool :=
  sponge keccakP (1600 - c) c N d

def sha3_256 (M : List Bool) : List Bool :=
  keccak 512 (M ++ [false, true]) 256

-- The function before it was standardised, which does not separate domains.
def keccak256 (M : List Bool) : List Bool :=
  keccak 512 M 256

-- The bits of a byte come with the least significant one first.
def bits (bs : List UInt8) : List Bool :=
  bs.flatMap fun b => List.ofFn fun i : Fin 8 => b.toBitVec.getLsbD i

end Keccak
