import FcModel.Crypto.Sha3.Basic
import FcModel.Lib.Keccak
import FcModel.Lib.Loop

-- `update_step` is the permutation of the standard.

namespace Sha3

variable {w : Words}

@[simp]
theorem get_store (w : Words) (i k : Fin 25) (v : UInt64) :
    (store w i v).get k = if k = i then v else w.get k := by
  rw [store, Vector.get_eq_getElem, Vector.getElem_set, Vector.get_eq_getElem]
  simp only [Fin.ext_iff, eq_comm]

section Lanes

-- The column and the row of a lane.
def column (i : Fin 25) : Fin 5 :=
  .ofNat 5 i

def row (i : Fin 25) : Fin 5 :=
  ⟨i / 5, by omega⟩

theorem lane_column_row (i : Fin 25) : lane (column i) (row i) = i := by
  revert i
  decide

@[simp]
theorem column_lane (x y : Fin 5) : column (lane x y) = x := by
  revert x y
  decide

@[simp]
theorem row_lane (x y : Fin 5) : row (lane x y) = y := by
  revert x y
  decide

theorem eq_lane_iff {i : Fin 25} {x y : Fin 5} : i = lane x y ↔ column i = x ∧ row i = y := by
  constructor
  case mp  => rintro rfl; exact ⟨column_lane x y, row_lane x y⟩
  case mpr => rintro ⟨rfl, rfl⟩; exact (lane_column_row i).symm

end Lanes

section WordLevel

theorem get_thetaColumn (w : Words) (j : Fin 5) (t : UInt64) (i : Fin 25) :
    (thetaColumn w j t).get i = if column i = j then w.get i ^^^ t else w.get i := by
  refine Loop.get_foldl_finRange Vector.get _ row
    (fun _ i w => if column i = j then w.get i ^^^ t else w.get i) ?_ ?_ w i
  case refine_1 =>
    intro w k i
    simp only [get_store, eq_lane_iff]
    by_cases hj : column i = j
    case neg => simp [hj]
    case pos =>
      by_cases hk : row i = k
      case neg => simp [hk]
      case pos => simp [hj, hk, ← eq_lane_iff.mpr ⟨hj, hk⟩]
  case refine_2 =>
    intro w w' k i hk h
    rw [h i hk]

theorem get_theta (w : Words) (x y : Fin 5) :
    (theta w).get (lane x y) =
      w.get (lane x y) ^^^ ((columns w).get (x + 4) ^^^ rotl64 ((columns w).get (x + 1)) 1) := by
  have h := Loop.get_foldl_finRange Vector.get
    (fun v j => thetaColumn v j
      ((columns w).get (j + 4) ^^^ rotl64 ((columns w).get (j + 1)) 1)) column
    (fun j i v => v.get i ^^^ ((columns w).get (j + 4) ^^^ rotl64 ((columns w).get (j + 1)) 1))
    (fun v j i => get_thetaColumn v j _ i) (fun v v' j i hi hv => by rw [hv i hi]) w (lane x y)
  rwa [column_lane] at h

theorem get_chiRow (w : Words) (j : Fin 5) (i : Fin 25) :
    (chiRow w j).get i =
      if row i = j then w.get i ^^^ (~~~w.get (lane (column i + 1) j) &&& w.get (lane (column i + 2) j))
      else w.get i := by
  refine Loop.get_foldl_finRange Vector.get _ column
    (fun k i v => if row i = j then v.get i ^^^ (~~~w.get (lane (k + 1) j) &&& w.get (lane (k + 2) j))
      else v.get i) ?_ ?_ w i
  case refine_1 =>
    intro v k i
    simp only [get_store, eq_lane_iff]
    by_cases hj : row i = j
    case neg => simp [hj]
    case pos =>
      by_cases hk : column i = k
      case neg => simp [hk]
      case pos => simp [hj, hk, ← eq_lane_iff.mpr ⟨hk, hj⟩, Vector.get_eq_getElem]
  case refine_2 =>
    intro w w' k i hk h
    rw [h i hk]

theorem get_chi (w : Words) (x y : Fin 5) :
    (chi w).get (lane x y) =
      w.get (lane x y) ^^^ (~~~w.get (lane (x + 1) y) &&& w.get (lane (x + 2) y)) := by
  have h := Loop.get_foldl_finRange Vector.get chiRow row
    (fun j i v => v.get i ^^^ (~~~v.get (lane (column i + 1) j) &&& v.get (lane (column i + 2) j)))
    get_chiRow (fun v v' j i hi hv => by
      rw [hv i hi, hv _ (row_lane _ j), hv _ (row_lane _ j)]) w (lane x y)
  rwa [row_lane, column_lane] at h

-- What a lane gets from a sequence of moves, when `t` is what was overwritten last.
def moved (w : Words) : (t : UInt64) → List (Fin 25 × UInt64) → Fin 25 → UInt64
  | _, [], i           => w.get i
  | t, (p, r) :: ps, i => if i = p then rotl64 t r else moved w (w.get p) ps i

theorem moved_store {ps : List (Fin 25 × UInt64)} {p : Fin 25} (hp : p ∉ ps.map Prod.fst)
    (w : Words) (v t : UInt64)
    {i : Fin 25} (hi : i ≠ p) : moved (store w p v) t ps i = moved w t ps i := by
  induction ps generalizing t
  case nil => simp [moved, hi]
  case cons q ps ih =>
    rw [List.map_cons, List.mem_cons, not_or] at hp
    rw [moved, moved, get_store, if_neg (Ne.symm hp.1), ih hp.2]

theorem moved_of_not_mem {ps : List (Fin 25 × UInt64)} {i : Fin 25} (hi : i ∉ ps.map Prod.fst)
    (w : Words)
    (t : UInt64) : moved w t ps i = w.get i := by
  induction ps generalizing t
  case nil => rfl
  case cons p ps ih =>
    rw [List.map_cons, List.mem_cons, not_or] at hi
    rw [moved, if_neg hi.1, ih hi.2]

theorem get_foldl_rhoPiStep {ps : List (Fin 25 × UInt64)} (hps : (ps.map Prod.fst).Nodup)
    (w : Words) (t : UInt64)
    (i : Fin 25) : (ps.foldl rhoPiStep (w, t)).1.get i = moved w t ps i := by
  induction ps generalizing w t
  case nil => rfl
  case cons p ps ih =>
    rw [List.map_cons, List.nodup_cons] at hps
    rw [List.foldl_cons, rhoPiStep, ih hps.2, moved]
    by_cases hi : i = p.1
    case neg => rw [if_neg hi, moved_store hps.1 w _ _ hi]
    case pos => rw [if_pos hi, hi, moved_of_not_mem hps.1, get_store, if_pos rfl]

-- The lane that is moved to `lane x y`, and how far it is rotated.
def amount (x y : Fin 5) : UInt64 :=
  ((piLanes.zip rotConstants).lookup (lane x y)).getD 0

theorem get_rhoPi (w : Words) (x y : Fin 5) :
    (rhoPi w).get (lane x y) =
      if x = 0 ∧ y = 0 then w.get 0 else rotl64 (w.get (lane (x + 3 * y) x)) (amount x y) := by
  rw [rhoPi, get_foldl_rhoPiStep (by decide)]
  fin_cases x <;> fin_cases y <;> rfl

end WordLevel

section BitLevel

-- The state array that the words hold.
def lanes (w : Words) : Keccak.State := fun x y z =>
  (w.get (lane x y)).toBitVec.getLsbD z

theorem toBitVec_shiftLeft_of_lt (v : UInt64) {c : UInt64} (hc : c.toNat < 64) :
    (v <<< c).toBitVec = v.toBitVec <<< c.toNat := by
  rw [UInt64.toBitVec_shiftLeft, BitVec.shiftLeft_eq', BitVec.toNat_umod]
  exact congrArg _ (Nat.mod_eq_of_lt hc)

theorem toBitVec_shiftRight_of_lt (v : UInt64) {c : UInt64} (hc : c.toNat < 64) :
    (v >>> c).toBitVec = v.toBitVec >>> c.toNat := by
  rw [UInt64.toBitVec_shiftRight, BitVec.ushiftRight_eq', BitVec.toNat_umod]
  exact congrArg _ (Nat.mod_eq_of_lt hc)

theorem getLsbD_rotl64 (v : UInt64) {c : UInt64} (h0 : 0 < c.toNat) (hc : c.toNat < 64)
    (z : Fin 64) :
    (rotl64 v c).toBitVec.getLsbD z = v.toBitVec.getLsbD (z - Fin.ofNat 64 c.toNat : Fin 64) := by
  have hsub : (64 - c).toNat = 64 - c.toNat :=
    UInt64.toNat_sub_of_le _ _ (UInt64.le_iff_toNat_le.mpr (Nat.le_of_lt hc))
  have hz : (z - Fin.ofNat 64 c.toNat : Fin 64).val = (64 - c.toNat + z.val) % 64 := by
    rw [Fin.sub_def]
    simp [Nat.mod_eq_of_lt hc]
  rw [rotl64, UInt64.toBitVec_or, BitVec.getLsbD_or, toBitVec_shiftLeft_of_lt v hc,
    toBitVec_shiftRight_of_lt v (by omega), hsub, hz, BitVec.getLsbD_shiftLeft,
      BitVec.getLsbD_ushiftRight]
  by_cases hlt : z.val < c.toNat
  case pos =>
    have hmod : (64 - c.toNat + z.val) % 64 = 64 - c.toNat + z.val := Nat.mod_eq_of_lt (by omega)
    simp [hlt, hmod]
  case neg =>
    have hmod : (64 - c.toNat + z.val) % 64 = z.val - c.toNat := by omega
    have hhigh : v.toBitVec.getLsbD (64 - c.toNat + z.val) = false :=
      BitVec.getLsbD_of_ge _ _ (by omega)
    simp [hlt, hmod, hhigh]

theorem lanes_theta (w : Words) : lanes (theta w) = Keccak.theta (lanes w) := by
  funext x y z
  have hx : x + 4 = x - 1 := by revert x; decide
  have hcolumn (x : Fin 5) (z : Fin 64) :
      ((columns w).get x).toBitVec.getLsbD z = Keccak.theta.parity (lanes w) x z := by
    simp [columns, Vector.get_eq_getElem, Keccak.theta.parity, lanes]
  have hrot := getLsbD_rotl64 ((columns w).get (x + 1)) (c := 1) (by decide) (by decide) z
  rw [hcolumn] at hrot
  rw [lanes, get_theta, UInt64.toBitVec_xor, UInt64.toBitVec_xor, BitVec.getLsbD_xor,
    BitVec.getLsbD_xor, hx, hcolumn,
    hrot]
  rfl

theorem amount_eq {x y : Fin 5} (h : ¬(x = 0 ∧ y = 0)) : 0 < (amount x y).toNat ∧
    (amount x y).toNat < 64 ∧
    Fin.ofNat 64 (amount x y).toNat = Keccak.offset (x + 3 * y) x := by
  revert x y
  decide

theorem lanes_rhoPi (w : Words) : lanes (rhoPi w) = Keccak.pi (Keccak.rho (lanes w)) := by
  funext x y z
  rw [lanes, get_rhoPi, Keccak.pi, Keccak.rho_eq]
  split
  case isTrue h =>
    obtain ⟨rfl, rfl⟩ := h
    have hoffset : Keccak.offset (0 + 3 * 0) 0 = 0 := by decide
    rw [hoffset, sub_zero]
    rfl
  case isFalse h =>
    obtain ⟨h0, hlt, hoffset⟩ := amount_eq h
    rw [getLsbD_rotl64 _ h0 hlt, hoffset]
    rfl

theorem lanes_chi (w : Words) : lanes (chi w) = Keccak.chi (lanes w) := by
  funext x y z
  rw [lanes, get_chi]
  simp [Keccak.chi, lanes]

theorem getLsbD_roundConstants {i : Nat} (hi : i < 24) (z : Fin 64) :
    (roundConstants.getD i 0).toBitVec.getLsbD z = Keccak.roundConstant i z := by
  have hall : ∀ i : Fin 24, ∀ z : Fin 64,
      (roundConstants.getD i 0).toBitVec.getLsbD z = Keccak.roundConstant i z := by
    decide
  exact hall ⟨i, hi⟩ z

theorem lanes_iota (w : Words) {i : Nat} (hi : i < 24) :
    lanes (iota w (roundConstants.getD i 0)) = Keccak.iota i (lanes w) := by
  funext x y z
  have h0 : lane x y = 0 ↔ x = 0 ∧ y = 0 := by
    revert x y
    decide
  rw [lanes, iota, get_store, Keccak.iota]
  by_cases h : x = 0 ∧ y = 0
  case neg => rw [if_neg (h0.not.mpr h), if_neg h, lanes]
  case pos =>
    rw [if_pos (h0.mpr h), if_pos h, UInt64.toBitVec_xor, BitVec.getLsbD_xor,
      getLsbD_roundConstants hi, lanes, h0.mpr h]

theorem lanes_round (w : Words) {i : Nat} (hi : i < 24) :
    lanes (round w (roundConstants.getD i 0)) = Keccak.round (lanes w) i := by
  rw [round, lanes_iota _ hi, lanes_chi, lanes_rhoPi, lanes_theta, Keccak.round]

theorem lanes_foldl_round {is : List Nat} (his : ∀ i ∈ is, i < 24) (w : Words) :
    lanes (is.foldl (fun w i => round w (roundConstants.getD i 0)) w) =
        is.foldl Keccak.round (lanes w) := by
  induction is generalizing w
  case nil => rfl
  case cons i is hi =>
    obtain ⟨hlt, his⟩ := List.forall_mem_cons.mp his
    rw [List.foldl_cons, hi his, List.foldl_cons, lanes_round w hlt]

theorem lanes_updateStep (w : Words) : lanes (updateStep w) = Keccak.permute (lanes w) := by
  have hconstants : roundConstants = (List.range 24).map fun i =>
    roundConstants.getD i 0 := by decide
  rw [updateStep, Keccak.permute, ← lanes_foldl_round (fun i hi => List.mem_range.mp hi)]
  conv => lhs; rw [hconstants, List.foldl_map]

end BitLevel

end Sha3
