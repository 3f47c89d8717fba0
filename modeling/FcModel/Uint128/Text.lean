import FcModel.Text.Basic
import FcModel.Uint128.Product

-- The text of `uint128`: its constructor from a string, and its conversion to one.

namespace Uint128

open Ascii

def ofUInt32 (l : UInt32) : Uint128 :=
  ⟨0, l.toUInt64⟩

-- "0123456789abcdefghijklmnopqrstuvwxyz".
def digitChars : Bytes :=
  ascii "0123456789abcdefghijklmnopqrstuvwxyz"

def digitChar (n : Nat) : UInt8 :=
  digitChars.getD n 0

-- The digit that a character is, or nothing where the loop breaks.
def digit (radix : Nat) (ch : UInt8) : Option Nat :=
  let n :=
    if 0x41 ≤ ch ∧ ch ≤ 0x5a then some (ch.toNat - 0x41 + 10)
    else if 0x61 ≤ ch ∧ ch ≤ 0x7a then some (ch.toNat - 0x61 + 10)
    else if zero ≤ ch ∧ ch ≤ nine then some (ch.toNat - 0x30)
    else none
  n.filter (· < radix)

-- The loop over the digits. Whatever follows them is ignored.
def readDigits (radix : Nat) (v : Uint128) : Bytes → Except Halt Uint128
  | []      => .ok v
  | ch :: i =>
    match digit radix ch with
    | none   => .ok v
    | some n => do
      let v ← assigned (fun _ => mulAssign) v (ofInt64 (.ofNat radix))
      let v ← assigned (fun _ => addAssign) v (ofUInt32 (.ofNat n))
      readDigits radix v i

-- The prefixes that change the radix.
def radixPrefix : Bytes → Nat × Bytes
  | 0x30 :: 0x78 :: i => (16, i)
  | 0x30 :: i         => (8, i)
  | i                 => (10, i)

def ofString (sz : Bytes) : Except Halt Uint128 :=
  let sign := sz.head? = some minus
  let (radix, i) := radixPrefix (if sign then sz.tail else sz)
  do
    let v ← readDigits radix ⟨0, 0⟩ i
    return if sign then v.neg else v

-- The objects of the conversion to a string.
inductive Printing
  | ii
  | remainder
deriving DecidableEq

-- The buffer is filled from its end, which `sz` starts at, down to the index `i`.
def printDigits : (i : Nat) → (sz : Bytes) → Division Printing Bytes
  | 0, sz     => return sz
  | i + 1, sz => do
    let ii ← .lift (load (.object .ii))
    if ii.eq (ofInt64 0) then return sz
    else
      setObject .remainder ⟨0, 0⟩
      divide (.object .ii) (.value (ofInt64 10)) .ii .remainder
      let remainder ← .lift (load (.object .remainder))
      match remainder.toInteger with
      | .error _ => throw .assert
      | .ok r    => printDigits i (digitChar r.toNat :: sz)

def text (x : Uint128) : Except Halt Bytes :=
  if x.eq (ofInt64 0) then .ok [zero]
  else
    match (printDigits 127 []).run fun _ => x with
    | .ok sz _   => .ok sz
    | .error e _ => .error e

section Reading

variable {radix n : Nat} {v : Uint128} {ds : List Nat}

-- The literals: what a sign may be in front of, and its value.
inductive Literal : Bytes → Nat → Prop
  | hexadecimal (ds : List Nat) (hne : ds ≠ []) (h : ∀ d ∈ ds, d < 16) :
    Literal (0x30 :: 0x78 :: ds.map digitChar) (Nat.ofDigits 16 ds.reverse)
  | octal (ds : List Nat) (h : ∀ d ∈ ds, d < 8) :
    Literal (0x30 :: ds.map digitChar) (Nat.ofDigits 8 ds.reverse)
  | decimal (d : Nat) (ds : List Nat) (h0 : d ≠ 0) (h : ∀ e ∈ d :: ds, e < 10) :
    Literal ((d :: ds).map digitChar) (Nat.ofDigits 10 (d :: ds).reverse)

theorem digit_digitChar (hr : radix = 8 ∨ radix = 10 ∨ radix = 16) (hn : n < radix) :
    digit radix (digitChar n) = some n := by
  have h8  : ∀ n < 8, digit 8 (digitChar n) = some n := by decide +kernel
  have h10 : ∀ n < 10, digit 10 (digitChar n) = some n := by decide +kernel
  have h16 : ∀ n < 16, digit 16 (digitChar n) = some n := by decide +kernel
  obtain rfl | rfl | rfl := hr
  · exact h8 n hn
  · exact h10 n hn
  · exact h16 n hn

theorem assigned_mul (a b : Uint128) :
    ∃ w, assigned (fun _ => mulAssign) a b = .ok w ∧ w.val = a.val * b.val % 2 ^ 128 :=
  assigned_of_computes computes_mul a b

theorem assigned_add (a b : Uint128) :
    ∃ w, assigned (fun _ => addAssign) a b = .ok w ∧ w.val = (a.val + b.val) % 2 ^ 128 :=
  assigned_of_computes computes_add a b

theorem val_ofUInt32 {n : Nat} (h : n < 2 ^ 32) : (ofUInt32 (.ofNat n)).val = n := by
  rw [ofUInt32, val, UInt64.toNat_zero, UInt32.toNat_toUInt64, UInt32.toNat_ofNat_of_lt' h]
  omega

theorem val_radix (hr : radix = 8 ∨ radix = 10 ∨ radix = 16) :
    (ofInt64 (.ofNat radix)).val = radix := by
  obtain rfl | rfl | rfl := hr
  · rfl
  · rfl
  · rfl

-- Each round multiplies what has been read by the radix and adds the digit, modulo `2 ^ 128`.
theorem readDigits_map (hr : radix = 8 ∨ radix = 10 ∨ radix = 16) (h : ∀ d ∈ ds, d < radix) :
    ∃ w, readDigits radix v (ds.map digitChar) = .ok w ∧
      w.val ≡ v.val * radix ^ ds.length + Nat.ofDigits radix ds.reverse [MOD 2 ^ 128] := by
  induction ds generalizing v
  case nil =>
    refine ⟨v, rfl, ?_⟩
    simp [Nat.ModEq.refl]
  case cons d ds hi =>
    have hd := h d (List.mem_cons_self ..)
    obtain ⟨x, hx, hxv⟩ := assigned_mul v (ofInt64 (.ofNat radix))
    obtain ⟨y, hy, hyv⟩ := assigned_add x (ofUInt32 (.ofNat d))
    obtain ⟨w, hw, hwv⟩ := hi (v := y) fun e he => h e (List.mem_cons_of_mem _ he)
    rw [val_radix hr] at hxv
    rw [val_ofUInt32 (by omega), hxv] at hyv
    refine ⟨w, ?_, hwv.trans ?_⟩
    case refine_1 =>
      rw [List.map_cons, readDigits, digit_digitChar hr hd]
      simp only [hx, hy, hw, bind, Except.bind]
    case refine_2 =>
      have hm : y.val ≡ v.val * radix + d [MOD 2 ^ 128] := by
        rw [hyv]
        exact (Nat.mod_modEq _ _).trans ((Nat.mod_modEq _ _).add_right d)
      have he : v.val * radix ^ (d :: ds).length + Nat.ofDigits radix (d :: ds).reverse =
          (v.val * radix + d) * radix ^ ds.length + Nat.ofDigits radix ds.reverse := by
        rw [List.reverse_cons, Nat.ofDigits_append, Nat.ofDigits_singleton, List.length_reverse,
          List.length_cons]
        ring
      rw [he]
      exact (hm.mul_right _).add_right _

theorem readDigits_zero (hr : radix = 8 ∨ radix = 10 ∨ radix = 16) (h : ∀ d ∈ ds, d < radix) :
    ∃ w, readDigits radix ⟨0, 0⟩ (ds.map digitChar) = .ok w ∧
      w.val = Nat.ofDigits radix ds.reverse % 2 ^ 128 := by
  obtain ⟨w, hw, hv⟩ := readDigits_map (v := ⟨0, 0⟩) hr h
  refine ⟨w, hw, ?_⟩
  rw [← Nat.mod_eq_of_lt w.val_lt, hv, show val ⟨0, 0⟩ = 0 from rfl, Nat.zero_mul, Nat.zero_add]

theorem digitChar_ne {d : Nat} (h : d < 16) : digitChar d ≠ minus ∧ digitChar d ≠ 0x78 ∧
    (d ≠ 0 → digitChar d ≠ zero) := by
  have hall : ∀ d < 16, digitChar d ≠ minus ∧ digitChar d ≠ 0x78 ∧ (d ≠ 0 → digitChar d ≠ zero) := by
    decide +kernel
  exact hall d h

-- A literal is read with the radix that its prefix says.
theorem readDigits_literal {s : Bytes} (h : Literal s n) :
    ∃ w, readDigits (radixPrefix s).1 ⟨0, 0⟩ (radixPrefix s).2 = .ok w ∧ w.val = n % 2 ^ 128 := by
  cases h
  case hexadecimal ds hne h => exact readDigits_zero (Or.inr (Or.inr rfl)) h
  case octal ds h =>
    have hp : radixPrefix (0x30 :: ds.map digitChar) = (8, ds.map digitChar) := by
      cases ds
      case nil => rfl
      case cons d ds =>
        have hx := (digitChar_ne (Nat.lt_trans (h d (List.mem_cons_self ..)) (by decide))).2.1
        simp [radixPrefix, hx]
    rw [hp]
    exact readDigits_zero (Or.inl rfl) h
  case decimal d ds h0 h =>
    have hp : radixPrefix ((d :: ds).map digitChar) = (10, (d :: ds).map digitChar) := by
      have hz := (digitChar_ne (Nat.lt_trans (h d (List.mem_cons_self ..)) (by decide))).2.2 h0
      simp [radixPrefix, hz]
    rw [hp]
    exact readDigits_zero (Or.inr (Or.inl rfl)) h

theorem Literal.head {s : Bytes} (h : Literal s n) : s.head? ≠ some minus := by
  cases h
  case hexadecimal ds hne h => exact mt Option.some.inj (by decide)
  case octal ds h           => exact mt Option.some.inj (by decide)
  case decimal d ds h0 h    =>
    have hm := (digitChar_ne (Nat.lt_trans (h d (List.mem_cons_self ..)) (by decide))).1
    simp [hm]

theorem ofString_literal {s : Bytes} (h : Literal s n) :
    ∃ w, ofString s = .ok w ∧ w.val = n % 2 ^ 128 := by
  obtain ⟨w, hw, hv⟩ := readDigits_literal h
  refine ⟨w, ?_, hv⟩
  simp only [ofString, h.head, if_false, hw, bind, Except.bind, pure, Except.pure]

theorem ofString_minus {s : Bytes} (h : Literal s n) :
    ∃ w, ofString (minus :: s) = .ok w ∧ w.val = (2 ^ 128 - n % 2 ^ 128) % 2 ^ 128 := by
  obtain ⟨w, hw, hv⟩ := readDigits_literal h
  refine ⟨w.neg, ?_, by rw [val_neg, hv]⟩
  simp only [ofString, List.head?_cons, if_true, List.tail_cons, hw, bind, Except.bind, pure,
    Except.pure]

end Reading

section Printing

variable {n : Nat} {s : Printing → Uint128} {sz : Bytes}

theorem digitChar_decimal {d : Nat} (h : d < 10) : digitChar d = .ofNat (0x30 + d) := by
  have hall : ∀ d < 10, digitChar d = .ofNat (0x30 + d) := by decide +kernel
  exact hall d h

theorem ofNat_eq_map (hn : n ≠ 0) : Decimal.ofNat n = (Nat.digits 10 n).reverse.map digitChar := by
  rw [Decimal.ofNat, if_neg hn]
  refine List.map_congr_left fun d hd => ?_
  exact (digitChar_decimal (Decimal.digits_lt (List.mem_reverse.mp hd))).symm

-- The canonical numeral is a literal: only that of zero starts with the prefix of the radix eight.
theorem literal_ofNat (n : Nat) : Literal (Decimal.ofNat n) n := by
  by_cases hn : n = 0
  case pos =>
    subst hn
    exact .octal [] fun d hd => absurd hd List.not_mem_nil
  case neg =>
    have hlast := Nat.getLast_digit_ne_zero 10 hn
    have hlt : ∀ d ∈ (Nat.digits 10 n).reverse, d < 10 := fun d hd =>
      Decimal.digits_lt (List.mem_reverse.mp hd)
    rw [ofNat_eq_map hn]
    cases hr : (Nat.digits 10 n).reverse
    case nil => exact absurd (List.reverse_eq_nil_iff.mp hr) (Nat.digits_ne_nil_iff_ne_zero.mpr hn)
    case cons d ds =>
      have he : Nat.digits 10 n = (d :: ds).reverse := by rw [← hr, List.reverse_reverse]
      have h0 : d ≠ 0 := by
        simpa [he] using hlast
      have hl := Literal.decimal d ds h0 (hr ▸ hlt)
      rwa [← he, Nat.ofDigits_digits] at hl

-- A round divides the object by ten in place.
theorem divide_ten (s : Printing → Uint128) :
    ∃ p m, (divide (.object .ii) (.value (ofInt64 10)) .ii .remainder).run s =
        .ok () (Function.update (Function.update s .ii p) .remainder m) ∧
      p.val = (s .ii).val / 10 ∧ m.val = (s .ii).val % 10 := by
  have h10 : (ofInt64 10).val = 10 := by decide
  obtain ⟨p, m, hrun, hspec⟩ := @divide_run _ _ Printing.ii Printing.remainder
    (.object .ii) (.value (ofInt64 10)) s (by rw [read_value, h10]; decide)
  refine ⟨p, m, hrun, ?_, ?_⟩
  case refine_1 =>
    have := hspec.total
    have := hspec.lt
    simp only [read_object, read_value, h10] at *
    omega
  case refine_2 =>
    have := hspec.total
    have := hspec.lt
    simp only [read_object, read_value, h10] at *
    omega

theorem printDigits_zero (i : Nat) (h : (s .ii).val = 0) :
    (printDigits i sz).run s = .ok sz s := by
  cases i
  case zero   => rfl
  case succ i =>
    simp only [printDigits, EStateM.run_bind, lift_load_run, read_object,
      if_pos (eq_zero_iff.mpr h)]
    rfl

-- The induction is on the room that is left in the buffer.
theorem printDigits_run {i : Nat} (h : (s .ii).val < 10 ^ i) :
    ∃ s', (printDigits i sz).run s =
      .ok ((Nat.digits 10 (s .ii).val).reverse.map digitChar ++ sz) s' := by
  induction i generalizing s sz
  case zero =>
    have h0 : (s .ii).val = 0 := by simpa using h
    rw [h0]
    exact ⟨s, rfl⟩
  case succ i hi =>
    by_cases h0 : (s .ii).val = 0
    case pos => exact ⟨s, by rw [printDigits_zero _ h0, h0]; rfl⟩
    case neg =>
      obtain ⟨p, m, hrun, hp, hm⟩ := divide_ten (Function.update s .remainder ⟨0, 0⟩)
      rw [Function.update_of_ne (by decide)] at hp hm
      obtain ⟨r, hr, hrv⟩ := toInteger_of_lt (a := m) (by omega)
      have hi := @hi (Function.update (Function.update (Function.update s .remainder ⟨0, 0⟩) .ii p)
        .remainder m) (digitChar r.toNat :: sz)
      rw [Function.update_of_ne (by decide), Function.update_self, hp] at hi
      obtain ⟨s', hs⟩ := hi (by omega)
      refine ⟨s', ?_⟩
      simp only [printDigits, EStateM.run_bind, lift_load_run, read_object,
        if_neg (mt eq_zero_iff.mp h0), setObject_run, hrun, Function.update_self, hr, hs]
      rw [Nat.digits_def' (by decide) (Nat.pos_of_ne_zero h0), List.reverse_cons, List.map_append,
        List.append_assoc, hrv, hm]
      rfl

theorem text_eq (x : Uint128) : text x = .ok (Decimal.ofNat x.val) := by
  by_cases h0 : x.val = 0
  case pos => rw [text, if_pos (eq_zero_iff.mpr h0), h0]; rfl
  case neg =>
    have hlt : x.val < 10 ^ 127 := Nat.lt_trans x.val_lt (by decide)
    obtain ⟨s', hs⟩ := @printDigits_run (fun _ => x) [] 127 hlt
    rw [text, if_neg (mt eq_zero_iff.mp h0), hs, ofNat_eq_map h0, List.append_nil]

theorem ofString_ofNat (n : Nat) :
    ∃ w, ofString (Decimal.ofNat n) = .ok w ∧ w.val = n % 2 ^ 128 :=
  ofString_literal (literal_ofNat n)

end Printing

-- The text is the canonical numeral, which is read back, and every literal is read with its radix,
-- modulo `2 ^ 128`.
theorem text_exact :
    (∀ x : Uint128, text x = .ok (Decimal.ofNat x.val) ∧ (text x).bind ofString = .ok x) ∧
    ∀ s n, Literal s n →
      (∃ w, ofString s = .ok w ∧ (w.val : Int) = n % 2 ^ 128) ∧
      ∃ w, ofString (minus :: s) = .ok w ∧ (w.val : Int) = -n % 2 ^ 128 := by
  refine ⟨fun x => ⟨text_eq x, ?_⟩, fun s n h => ⟨?_, ?_⟩⟩
  case refine_1 =>
    obtain ⟨w, hw, hv⟩ := ofString_ofNat x.val
    rw [Nat.mod_eq_of_lt x.val_lt, val_inj] at hv
    rw [text_eq, Except.bind, hw, hv]
  case refine_2 =>
    obtain ⟨w, hw, hv⟩ := ofString_literal h
    exact ⟨w, hw, by omega⟩
  case refine_3 =>
    obtain ⟨w, hw, hv⟩ := ofString_minus h
    exact ⟨w, hw, by omega⟩

end Uint128
