import FcModel.Crypto.Bigint

-- `fc::modexp`, over the integers of GMP.

namespace ModularArithmetic

open Raw

-- What is called of GMP, on words of one byte. A positive order puts the most significant one
-- first, a negative one the least significant one.
structure Gmp where
  mpzImport : (order : Int) → Bytes → Nat
  mpzExport : (order : Int) → Nat → Bytes
  mpzPowm   : Nat → Nat → Nat → Nat

-- How it is documented. Nothing is exported of a number beyond its most significant word that is
-- not zero.
structure Gmp.Exact (g : Gmp) : Prop where
  import_big    : ∀ op, g.mpzImport 1 op = Bigint.ofBytes op
  export_little : ∀ n, g.mpzExport (-1) n = (Nat.digits 256 n).map UInt8.ofNat
  powm          : ∀ base exp mod, mod ≠ 0 → g.mpzPowm base exp mod = base ^ exp % mod

inductive ModularArithmeticError
  | modulusLenZero
deriving DecidableEq, Repr

-- The memory after words are exported to it. There is none if they do not fit in it.
def exportTo (output words : Bytes) : Option Bytes :=
  if words.length ≤ output.length then some (words ++ output.drop words.length) else none

-- There is no result if something is written behind the output.
def modexp (g : Gmp) (base exponent modulus : Bytes) : Option (ModularArithmeticError ⊕ Bytes) :=
  if modulus.length = 0 then some (.inl .modulusLenZero)
  else
    let output := List.replicate modulus.length 0
    let b := if base.length ≠ 0 then g.mpzImport 1 base else 0
    let e := if exponent.length ≠ 0 then g.mpzImport 1 exponent else 0
    let m := g.mpzImport 1 modulus
    if m = 0 then some (.inr output)
    else
      let result := g.mpzPowm b e m
      -- What is exported is little-endian.
      (exportTo output (g.mpzExport (-1) result)).map fun output => .inr output.reverse

-- The power is zero where the modulus is.
def power (base exponent modulus : Bytes) : Nat :=
  if Bigint.ofBytes modulus = 0 then 0
  else Bigint.ofBytes base ^ Bigint.ofBytes exponent % Bigint.ofBytes modulus

-- A number in `n` bytes, of which the first ones are zero.
def padded (n v : Nat) : Bytes :=
  Bigint.data (n - (Bigint.toBytes v).length) v

section Padded

theorem length_toBytes_le {n v : Nat} (h : v < 256 ^ n) : (Bigint.toBytes v).length ≤ n := by
  rw [Bigint.toBytes, List.length_reverse, List.length_map]
  exact (Nat.digits_length_le_iff (by decide) v).mpr h

theorem length_padded {n v : Nat} (h : v < 256 ^ n) : (padded n v).length = n := by
  rw [padded, Bigint.length_data]
  exact Nat.sub_add_cancel (length_toBytes_le h)

theorem ofBytes_padded (n v : Nat) : Bigint.ofBytes (padded n v) = v :=
  Bigint.ofBytes_data _ v

theorem padded_zero (n : Nat) : padded n 0 = List.replicate n 0 :=
  List.append_nil _

theorem power_lt (base exponent modulus : Bytes) :
    power base exponent modulus < 256 ^ modulus.length := by
  rw [power]
  split
  case isTrue    => exact Nat.pow_pos (by decide)
  case isFalse h =>
    exact (Nat.mod_lt _ (Nat.pos_of_ne_zero h)).trans (Bigint.ofBytes_lt modulus)

-- The words of a number, least significant first, in a memory of zeros.
theorem exportTo_zeros {n v : Nat} (h : v < 256 ^ n) :
    (exportTo (List.replicate n 0) ((Nat.digits 256 v).map UInt8.ofNat)).map List.reverse =
      some (padded n v) := by
  have hlength := length_toBytes_le h
  rw [Bigint.toBytes, List.length_reverse] at hlength
  rw [exportTo, List.length_replicate, if_pos hlength, Option.map_some, List.drop_replicate,
    List.reverse_append, List.reverse_replicate, padded, Bigint.data, Bigint.toBytes,
    List.length_reverse]

end Padded

section Modexp

variable {g : Gmp} {base exponent modulus : Bytes}

theorem import_eq (hg : g.Exact) (op : Bytes) :
    (if op.length ≠ 0 then g.mpzImport 1 op else 0) = Bigint.ofBytes op := by
  split
  case isTrue    => exact hg.import_big op
  case isFalse h =>
    rw [List.length_eq_zero_iff.mp (not_not.mp h)]
    rfl

theorem modexp_of_ne_nil (hg : g.Exact) (hm : modulus ≠ []) :
    modexp g base exponent modulus =
      some (.inr (padded modulus.length (power base exponent modulus))) := by
  have hlength : ¬modulus.length = 0 := fun h => hm (List.length_eq_zero_iff.mp h)
  have hlt := power_lt base exponent modulus
  rw [modexp, if_neg hlength]
  dsimp only
  rw [import_eq hg, import_eq hg, hg.import_big]
  rw [power] at hlt ⊢
  by_cases h : Bigint.ofBytes modulus = 0
  case pos => rw [if_pos h, if_pos h, padded_zero]
  case neg =>
    rw [if_neg h] at hlt
    rw [if_neg h, if_neg h, hg.powm _ _ _ h, hg.export_little]
    have hexport := congrArg (Option.map (Sum.inr (α := ModularArithmeticError)))
      (exportTo_zeros hlt)
    rwa [Option.map_map] at hexport

end Modexp

-- As many bytes as the modulus has, which are the power with zeros before it.
theorem modexp_eq_power {g : Gmp} (hg : g.Exact) (base exponent modulus : Bytes) :
    (modulus = [] → modexp g base exponent modulus = some (.inl .modulusLenZero)) ∧
    (modulus ≠ [] → ∃ output, modexp g base exponent modulus = some (.inr output) ∧
      output.length = modulus.length ∧
      Bigint.ofBytes output = power base exponent modulus ∧
      output = padded modulus.length (power base exponent modulus)) := by
  constructor
  case left =>
    rintro rfl
    rfl
  case right =>
    intro hm
    exact ⟨_, modexp_of_ne_nil hg hm, length_padded (power_lt ..), ofBytes_padded .., rfl⟩

-- Natural numbers are such integers.
def naturals : Gmp where
  mpzImport order op := if order = 1 then Bigint.ofBytes op else ofLE op
  mpzExport order n  := if order = 1 then Bigint.toBytes n else (Nat.digits 256 n).map UInt8.ofNat
  mpzPowm b e m      := b ^ e % m

theorem exact_naturals : naturals.Exact where
  import_big _    := rfl
  export_little _ := rfl
  powm _ _ _ _    := rfl

-- Three to the fifth, modulo 0x0100.
theorem modexp_eq_power_naturals :
    ∃ output, modexp naturals [3] [5] [1, 0] = some (.inr output) ∧ output.length = 2 ∧
      Bigint.ofBytes output = power [3] [5] [1, 0] ∧ output = padded 2 (power [3] [5] [1, 0]) :=
  (modexp_eq_power exact_naturals [3] [5] [1, 0]).right (by decide)

end ModularArithmetic
