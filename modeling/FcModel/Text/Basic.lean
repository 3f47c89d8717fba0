import FcModel.Variant.Basic

-- Text, as it is exchanged with the streams of the standard library: the characters of JSON,
-- decimal numerals, and the conversions between numbers and text.

namespace Ascii

abbrev tab : UInt8 := 0x09
abbrev newline : UInt8 := 0x0a
abbrev carriageReturn : UInt8 := 0x0d
abbrev space : UInt8 := 0x20
abbrev quote : UInt8 := 0x22
abbrev apostrophe : UInt8 := 0x27
abbrev plus : UInt8 := 0x2b
abbrev comma : UInt8 := 0x2c
abbrev minus : UInt8 := 0x2d
abbrev dot : UInt8 := 0x2e
abbrev zero : UInt8 := 0x30
abbrev nine : UInt8 := 0x39
abbrev colon : UInt8 := 0x3a
abbrev openBracket : UInt8 := 0x5b
abbrev backslash : UInt8 := 0x5c
abbrev closeBracket : UInt8 := 0x5d
abbrev openBrace : UInt8 := 0x7b
abbrev closeBrace : UInt8 := 0x7d

def isDigit (c : UInt8) : Bool :=
  zero ≤ c ∧ c ≤ nine

theorem isDigit_iff {c : UInt8} : isDigit c = true ↔ 0x30 ≤ c.toNat ∧ c.toNat ≤ 0x39 := by
  simp only [isDigit, decide_eq_true_eq, UInt8.le_iff_toNat_le]
  rfl

-- `isalnum` in the C locale.
def isalnum (c : UInt8) : Bool :=
  isDigit c ∨ (0x41 ≤ c ∧ c ≤ 0x5a) ∨ (0x61 ≤ c ∧ c ≤ 0x7a)

end Ascii

-- A string literal of the source.
def ascii (s : String) : Bytes :=
  s.toList.map Char.toUInt8

namespace Decimal

open Ascii

-- What an output stream writes for an integer.
def ofNat (n : Nat) : Bytes :=
  if n = 0 then [zero] else (Nat.digits 10 n).reverse.map fun d => .ofNat (0x30 + d)

def ofInt (i : Int) : Bytes :=
  if i < 0 then minus :: ofNat i.natAbs else ofNat i.natAbs

-- The number that digits stand for.
def value (ds : Bytes) : Nat :=
  ds.foldl (fun n d => n * 10 + (d.toNat - 0x30)) 0

-- One or more digits.
structure Numeral (ds : Bytes) : Prop where
  nonempty : ds ≠ []
  digits   : ∀ d ∈ ds, isDigit d

theorem digit_toNat {d : Nat} (h : d < 10) : (UInt8.ofNat (0x30 + d)).toNat = 0x30 + d :=
  UInt8.toNat_ofNat_of_lt' (show 0x30 + d < 256 by omega)

theorem isDigit_ofNat {d : Nat} (h : d < 10) : isDigit (.ofNat (0x30 + d)) := by
  rw [isDigit_iff, digit_toNat h]
  omega

theorem value_append_digit (ds : Bytes) {d : Nat} (h : d < 10) :
    value (ds ++ [.ofNat (0x30 + d)]) = value ds * 10 + d := by
  rw [value, List.foldl_append, ← value]
  simp only [List.foldl_cons, List.foldl_nil, digit_toNat h]
  omega

theorem value_reverse_digits {ds : List Nat} (h : ∀ d ∈ ds, d < 10) :
    value (ds.reverse.map fun d => .ofNat (0x30 + d)) = Nat.ofDigits 10 ds := by
  induction ds
  case nil => rfl
  case cons d ds hi =>
    rw [List.reverse_cons, List.map_append, List.map_singleton,
      value_append_digit _ (h d (List.mem_cons_self ..)),
      hi fun d hd => h d (List.mem_cons_of_mem _ hd), Nat.ofDigits_cons]
    omega

theorem digits_lt {n d : Nat} (h : d ∈ Nat.digits 10 n) : d < 10 :=
  Nat.digits_lt_base (by decide) h

theorem value_ofNat (n : Nat) : value (ofNat n) = n := by
  rw [ofNat]
  split
  case isTrue h   => rw [h]; rfl
  case isFalse    => rw [value_reverse_digits fun _ => digits_lt, Nat.ofDigits_digits]

theorem numeral_ofNat (n : Nat) : Numeral (ofNat n) := by
  rw [ofNat]
  split
  case isTrue => exact ⟨List.cons_ne_nil _ _, List.forall_mem_singleton.mpr (by decide)⟩
  case isFalse h =>
    refine ⟨by simpa [Nat.digits_ne_nil_iff_ne_zero] using h, fun d hd => ?_⟩
    have ⟨k, hk, he⟩ := List.mem_map.mp hd
    exact he ▸ isDigit_ofNat (digits_lt (List.mem_reverse.mp hk))

-- A numeral does not start with a zero, unless it is that of zero.
theorem head_ofNat {n : Nat} (h : (ofNat n).head? = some zero) : ofNat n = [zero] := by
  by_cases hn : n = 0
  case pos => rw [ofNat, if_pos hn]
  case neg =>
    have hne : Nat.digits 10 n ≠ [] := Nat.digits_ne_nil_iff_ne_zero.mpr hn
    rw [ofNat, if_neg hn, List.head?_map, List.head?_reverse, List.getLast?_eq_some_getLast hne,
      Option.map_some] at h
    have hd := congrArg UInt8.toNat (Option.some.inj h)
    rw [digit_toNat (digits_lt (List.getLast_mem hne))] at hd
    exact absurd (Nat.add_left_cancel hd) (Nat.getLast_digit_ne_zero 10 hn)

end Decimal

-- The conversions that the code takes from `boost::lexical_cast`, and the text that an output
-- stream writes for a `double`, which is given by its bits.
structure LexicalCast where
  toInt64  : Bytes → Option Int64
  toUint64 : Bytes → Option UInt64
  toDouble : Bytes → Option UInt64
  ofInt64  : Int64 → Bytes
  ofUint64 : UInt64 → Bytes
  ofDouble : UInt64 → Bytes

-- Numerals are converted exactly, and rejected where the number does not fit.
structure LexicalCast.Exact (L : LexicalCast) : Prop where
  toInt64    : ∀ {ds}, Decimal.Numeral ds → L.toInt64 ds =
    if Decimal.value ds < 2 ^ 63 then some (.ofInt (Decimal.value ds)) else none
  toInt64Neg : ∀ {ds}, Decimal.Numeral ds → L.toInt64 (Ascii.minus :: ds) =
    if Decimal.value ds ≤ 2 ^ 63 then some (.ofInt (-Decimal.value ds)) else none
  toUint64   : ∀ {ds}, Decimal.Numeral ds → L.toUint64 ds =
    if Decimal.value ds < 2 ^ 64 then some (.ofNat (Decimal.value ds)) else none
  ofInt64    : ∀ v, L.ofInt64 v = Decimal.ofInt v.toInt
  ofUint64   : ∀ v, L.ofUint64 v = Decimal.ofNat v.toNat

namespace LexicalCast

-- The numeral, if that is all there is.
def numeral (s : Bytes) : Option Nat :=
  if s ≠ [] ∧ s.all Ascii.isDigit then some (Decimal.value s) else none

theorem numeral_eq {ds : Bytes} (h : Decimal.Numeral ds) : numeral ds = some (Decimal.value ds) :=
  if_pos ⟨h.nonempty, List.all_eq_true.mpr h.digits⟩

-- The conversions of numerals alone.
def decimal : LexicalCast where
  toInt64 s :=
    if s.head? = some Ascii.minus then
      (numeral s.tail).bind fun n => if n ≤ 2 ^ 63 then some (.ofInt (-n)) else none
    else
      (numeral s).bind fun n => if n < 2 ^ 63 then some (.ofInt n) else none
  toUint64 s := (numeral s).bind fun n => if n < 2 ^ 64 then some (.ofNat n) else none
  toDouble _ := none
  ofInt64 v  := Decimal.ofInt v.toInt
  ofUint64 v := Decimal.ofNat v.toNat
  ofDouble _ := []

theorem decimal_exact : decimal.Exact where
  toInt64 {ds} h := by
    have hm : ds.head? ≠ some Ascii.minus := by
      intro hm
      have hd := h.digits _ (List.mem_of_mem_head? hm)
      cases hd
    simp only [decimal, if_neg hm, numeral_eq h, Option.bind_some]
  toInt64Neg h := by simp only [decimal, List.head?_cons, if_pos, List.tail_cons, numeral_eq h, Option.bind_some]
  toUint64 h   := by simp only [decimal, numeral_eq h, Option.bind_some]
  ofInt64 _    := rfl
  ofUint64 _   := rfl

end LexicalCast
