import FcModel.Crypto.Bigint
import FcModel.Lib.Except
import FcModel.Lib.IntegerType
import FcModel.Text.Digits
import Mathlib.Data.Rat.Floor

-- `fc::real128`: decimal fractions with 18 places, and their text.

structure Real128 where
  fixed : Uint128
deriving DecidableEq, Repr

namespace Real128

open Ascii

inductive Fault
  | assert
  -- An overflow of a signed integer, of which the behaviour is undefined.
  | undefined
  | halt (h : Uint128.Halt)
deriving DecidableEq, Repr

-- `FC_REAL128_PRECISION`.
def precision : UInt64 :=
  1000000 * 1000000 * 1000000

def liftHalt {α : Type} : Except Uint128.Halt α → Except Fault α
  | .ok a    => .ok a
  | .error h => .error (.halt h)

def ofInteger (integer : UInt64) : Except Fault Real128 := do
  return ⟨← liftHalt (Uint128.assigned (fun _ => Uint128.mulAssign) (.ofUInt64 integer)
    (.ofUInt64 precision))⟩

def add (a o : Real128) : Except Fault Real128 := do
  return ⟨← liftHalt (Uint128.assigned (fun _ => Uint128.addAssign) a.fixed o.fixed)⟩

def div (a o : Real128) : Except Fault Real128 :=
  if o.fixed.gt (.ofUInt32 0) then do
    let self  := Bigint.ofUint128 a.fixed
    let other := Bigint.ofUint128 o.fixed
    let self  := self * Bigint.ofUInt64 precision
    let self  := self / other
    return ⟨← liftHalt (Bigint.toUint128 self)⟩
  else throw .assert

def digit (c : UInt8) : Nat :=
  c.toNat - 0x30

-- The digits of the integer, in 64 bits, and what follows them.
def integerPart (part : UInt64) : Bytes → UInt64 × Bytes
  | []     => (part, [])
  | c :: s => if isDigit c then integerPart (part * 10 + .ofNat (digit c)) s else (part, c :: s)

def int64 (x : Int) : Except Fault Int :=
  match IntegerType.int64.arith x with
  | some y => .ok y
  | none   => .error .undefined

-- The digits of the fraction, with the power of ten that it is a fraction of.
def fraction (part magnitude : Int) : Bytes → Except Fault (Int × Int)
  | []     => .ok (part, magnitude)
  | c :: s =>
    if isDigit c then do
      let part ← int64 (part * 10)
      let part ← int64 (part + digit c)
      let magnitude ← int64 (magnitude * 10)
      fraction part magnitude s
    else .ok (part, magnitude)

-- An `int64_t` as an argument of the constructor from a `uint64_t`.
def ofInt64 (x : Int) : Except Fault Real128 :=
  ofInteger (.ofNat ((IntegerType.unsigned 64).convert x).toNat)

def addParts (r : Real128) (part magnitude : Int) : Except Fault Real128 := do
  add r (← div (← ofInt64 part) (← ofInt64 magnitude))

-- What stands behind the point is added to the integer.
def addFraction (r : Real128) : Bytes → Except Fault Real128
  | []     => .ok r
  | c :: s =>
    if isDigit c then do
      let (part, magnitude) ← fraction (digit c) 10 s
      addParts r part magnitude
    else .ok r

def afterInteger (r : Real128) : Bytes → Except Fault Real128
  | []     => .ok r
  | c :: s => if c = dot then addFraction r s else .ok r

def ofString : Bytes → Except Fault Real128
  | []     => .error .assert
  | c :: s =>
    if isDigit c then do
      let (part, s) := integerPart (.ofNat (digit c)) s
      afterInteger (← ofInteger part) s
    else if c = dot then afterInteger ⟨⟨0, 0⟩⟩ (c :: s)
    else .error .assert

-- `while( number.back() == '0' ) number.pop_back()`.
def popZeros (number : Bytes) : Bytes :=
  (number.reverse.dropWhile (· = zero)).reverse

def text (boost : Uint128.Multiprecision) (r : Real128) : Except Fault Bytes := do
  let integer ← liftHalt (Uint128.div boost r.fixed (.ofUInt64 precision))
  let integer ← liftHalt integer.text
  let rest ← liftHalt (Uint128.mod r.fixed (.ofUInt64 precision))
  let frac ← liftHalt (Uint128.assigned (fun _ => Uint128.addAssign) rest (.ofUInt64 precision))
  let frac ← liftHalt frac.text
  return popZeros (integer ++ dot :: frac.tail)

section Operators

theorem pure_eq {α : Type} {a : α} : (pure a : Except Fault α) = .ok a :=
  rfl

theorem liftHalt_ok {α : Type} {a : α} : liftHalt (.ok a) = .ok a :=
  rfl

variable {x : Uint128} {n : Nat}

theorem toNat_precision : precision.toNat = 10 ^ 18 := by
  decide

theorem val_precision : (Uint128.ofUInt64 precision).val = 10 ^ 18 := by
  decide

theorem ofInteger_spec (integer : UInt64) :
    ∃ x, ofInteger integer = .ok ⟨x⟩ ∧ x.val = integer.toNat * 10 ^ 18 := by
  obtain ⟨x, hx, hv⟩ := Uint128.assigned_mul (.ofUInt64 integer) (.ofUInt64 precision)
  have hlt := integer.toNat_lt
  refine ⟨x, by rw [ofInteger, hx]; rfl, ?_⟩
  rw [hv, val_precision,
    show (Uint128.ofUInt64 integer).val = integer.toNat by simp [Uint128.ofUInt64, Uint128.val]]
  exact Nat.mod_eq_of_lt (by omega)

theorem div_spec {a o : Real128} (h : 0 < o.fixed.val) :
    ∃ x, div a o = .ok ⟨x⟩ ∧ x.val = a.fixed.val * 10 ^ 18 / o.fixed.val % 2 ^ 128 := by
  have hgt : o.fixed.gt (.ofUInt32 0) = true := (Uint128.gt_iff _ _).mpr h
  obtain ⟨x, hx, hv⟩ := Bigint.toUint128_spec (a.fixed.val * 10 ^ 18 / o.fixed.val)
  refine ⟨x, ?_, hv⟩
  simp only [div, hgt, if_true, Bigint.ofUint128_eq, Bigint.ofUInt64_eq, toNat_precision, hx]
  rfl

theorem int64_of_lt {x : Int} (h0 : 0 ≤ x) (h : x < 2 ^ 63) : int64 x = .ok x := by
  have hr : IntegerType.int64.Represents x := by
    constructor
    · exact Int.le_trans (by decide) h0
    · exact Int.le_sub_one_of_lt h
  rw [int64, IntegerType.arith_of_represents hr]

theorem int64_of_ge {x : Int} (h : 2 ^ 63 ≤ x) : int64 x = .error .undefined := by
  have hr : ¬(IntegerType.signed 63).Represents x := fun hr => by
    have := hr.2
    change x ≤ 2 ^ 63 - 1 at this
    omega
  rw [int64, IntegerType.int64, IntegerType.arith_signed_of_not hr]

theorem int64_cases {x : Int} (h0 : 0 ≤ x) : int64 x = .ok x ∨ int64 x = .error .undefined := by
  by_cases h : x < 2 ^ 63
  case pos => exact Or.inl (int64_of_lt h0 h)
  case neg => exact Or.inr (int64_of_ge (Int.not_lt.mp h))

end Operators

section Parts

variable {c : UInt8} {s ds rest : Bytes} {j part : Nat}

theorem value_cons (c : UInt8) (ds : Bytes) :
    Decimal.value (c :: ds) = digit c * 10 ^ ds.length + Decimal.value ds :=
  Decimal.value_cons c ds

theorem digit_lt (h : isDigit c) : digit c < 10 :=
  Decimal.digit_lt h

-- The integer is read modulo `2 ^ 64`, up to the first character that is no digit.
theorem integerPart_spec (hd : ∀ c ∈ ds, isDigit c) (hr : ∀ c ∈ rest.head?, isDigit c = false)
    (part : UInt64) : ∃ w : UInt64, integerPart part (ds ++ rest) = (w, rest) ∧
      w.toNat = (part.toNat * 10 ^ ds.length + Decimal.value ds) % 2 ^ 64 := by
  induction ds generalizing part
  case nil =>
    refine ⟨part, ?_, ?_⟩
    case refine_1 =>
      cases rest
      case nil       => rfl
      case cons c cs =>
        have hc := hr c rfl
        rw [List.nil_append, integerPart, hc]
        rfl
    case refine_2 =>
      have := part.toNat_lt
      simp [Decimal.value, Nat.mod_eq_of_lt this]
  case cons c ds hi =>
    have hc := hd c (List.mem_cons_self ..)
    obtain ⟨w, hw, hv⟩ := hi (fun d hd' => hd d (List.mem_cons_of_mem _ hd'))
      (part * 10 + .ofNat (digit c))
    refine ⟨w, ?_, ?_⟩
    case refine_1 => rw [List.cons_append, integerPart, if_pos hc, hw]
    case refine_2 =>
      have hdig : (UInt64.ofNat (digit c)).toNat = digit c :=
        UInt64.toNat_ofNat_of_lt' (Nat.lt_trans (digit_lt hc) (by decide))
      have hm : (part * 10 + .ofNat (digit c)).toNat ≡ part.toNat * 10 + digit c [MOD 2 ^ 64] := by
        rw [UInt64.toNat_add, UInt64.toNat_mul, hdig]
        exact (Nat.mod_modEq _ _).trans ((Nat.mod_modEq _ _).add_right _)
      rw [hv, value_cons, List.length_cons]
      refine ((hm.mul_right _).add_right _).trans ?_
      rw [Nat.pow_succ]
      ring_nf
      rfl

-- Up to 18 digits fit. With the nineteenth, the power of ten overflows, if the digits have not
-- before.
theorem fraction_spec (hd : ∀ c ∈ ds, isDigit c) (hp : part < 10 ^ j) (hj : j ≤ 18) :
    fraction part (10 ^ j) ds =
      if j + ds.length ≤ 18 then
        .ok ((part * 10 ^ ds.length + Decimal.value ds : Nat), 10 ^ (j + ds.length))
      else .error .undefined := by
  induction ds generalizing part j
  case nil => simp [fraction, hj, Decimal.value]
  case cons c ds hi =>
    have hc := hd c (List.mem_cons_self ..)
    have hlt := digit_lt hc
    have hle : 10 ^ j ≤ 10 ^ 18 := Nat.pow_le_pow_right (by decide) hj
    rw [fraction, if_pos hc]
    by_cases h18 : j = 18
    case pos =>
      subst h18
      rw [if_neg (by simp)]
      have h3 : int64 ((10 : Int) ^ 18 * 10) = .error .undefined := int64_of_ge (by norm_num)
      cases int64_cases (x := part * 10) (by positivity)
      case inr h1 => simp only [h1, bind, Except.bind]
      case inl h1 =>
        cases int64_cases (x := part * 10 + digit c) (by positivity)
        case inr h2 => simp only [h1, h2, bind, Except.bind]
        case inl h2 => simp only [h1, h2, h3, bind, Except.bind]
    case neg =>
      have hj' : j + 1 ≤ 18 := by omega
      have hpow : 10 ^ (j + 1) ≤ 10 ^ 18 := Nat.pow_le_pow_right (by decide) hj'
      rw [Nat.pow_succ] at hpow
      have hpart : part * 10 + digit c < 10 ^ (j + 1) := by
        rw [Nat.pow_succ]
        omega
      have h1 : int64 ((part : Int) * 10) = .ok (part * 10) :=
        int64_of_lt (by positivity) (by omega)
      have h2 : int64 ((part : Int) * 10 + digit c) = .ok (part * 10 + digit c) :=
        int64_of_lt (by positivity) (by omega)
      have h3 : int64 ((10 : Int) ^ j * 10) = .ok (10 ^ (j + 1)) := by
        rw [← pow_succ]
        refine int64_of_lt (by positivity) ?_
        have : (10 : Int) ^ (j + 1) ≤ 10 ^ 18 := pow_le_pow_right₀ (by decide) hj'
        omega
      have hi := hi (fun d hd' => hd d (List.mem_cons_of_mem _ hd')) hpart hj'
      simp only [h1, h2, h3, bind, Except.bind]
      push_cast at hi
      rw [hi, value_cons, List.length_cons, Nat.add_assoc j 1, Nat.add_comm 1]
      push_cast
      rw [pow_succ]
      congr 3
      ring

theorem ofInt64_spec {n : Nat} (h : n ≤ 10 ^ 18) :
    ∃ x, ofInt64 n = .ok ⟨x⟩ ∧ x.val = n * 10 ^ 18 := by
  have hr : (IntegerType.unsigned 64).Represents n :=
    ⟨Int.natCast_nonneg n, by simp only [IntegerType.max]; omega⟩
  obtain ⟨x, hx, hv⟩ := ofInteger_spec (.ofNat n)
  rw [UInt64.toNat_ofNat_of_lt' (show n < 2 ^ 64 by omega)] at hv
  refine ⟨x, ?_, hv⟩
  rw [ofInt64, IntegerType.convert_of_represents hr, Int.toNat_natCast, hx]

-- What is added is the fraction of the power of ten, in the places that there are.
theorem places_spec {v k : Nat} (hv : v < 10 ^ k) {a b : Uint128}
    (ha : a.val = v * 10 ^ 18) (hb : b.val = 10 ^ k * 10 ^ 18) :
    ∃ q, div ⟨a⟩ ⟨b⟩ = .ok ⟨q⟩ ∧ q.val = v * 10 ^ 18 / 10 ^ k ∧ q.val < 10 ^ 18 := by
  have hpos : 0 < b.val := by
    rw [hb]
    positivity
  have hlt : v * 10 ^ 18 / 10 ^ k < 10 ^ 18 :=
    Nat.div_lt_of_lt_mul (Nat.mul_lt_mul_of_pos_right hv (by positivity))
  obtain ⟨q, hq, hqv⟩ := @div_spec ⟨a⟩ ⟨b⟩ hpos
  have he : v * 10 ^ 18 * 10 ^ 18 / (10 ^ k * 10 ^ 18) = v * 10 ^ 18 / 10 ^ k :=
    Nat.mul_div_mul_right _ _ (by positivity)
  simp only [ha, hb, he] at hqv
  rw [Nat.mod_eq_of_lt (by omega)] at hqv
  exact ⟨q, hq, hqv, by omega⟩

theorem addFraction_spec {r : Real128} (hd : ∀ c ∈ ds, isDigit c)
    (hr : r.fixed.val + 10 ^ 18 < 2 ^ 128) (h18 : ds.length ≤ 18) :
    ∃ x, addFraction r ds = .ok ⟨x⟩ ∧
      x.val = r.fixed.val + Decimal.value ds * 10 ^ 18 / 10 ^ ds.length := by
  cases ds
  case nil => exact ⟨r.fixed, rfl, by simp [Decimal.value]⟩
  case cons c ds =>
    have hc := hd c (List.mem_cons_self ..)
    have hv := Decimal.value_lt hd
    have hf := fraction_spec (j := 1) (fun d hd' => hd d (List.mem_cons_of_mem _ hd'))
      (by simpa using digit_lt hc) (by decide)
    rw [List.length_cons] at h18 hv
    rw [if_pos (by omega), ← value_cons, Nat.add_comm 1, pow_one] at hf
    have hle : 10 ^ (ds.length + 1) ≤ 10 ^ 18 := Nat.pow_le_pow_right (by decide) h18
    obtain ⟨a, ha, hav⟩ := ofInt64_spec (Nat.le_trans hv.le hle)
    obtain ⟨b, hb, hbv⟩ := ofInt64_spec hle
    obtain ⟨q, hq, hqv, hlt⟩ := places_spec hv hav hbv
    obtain ⟨x, hx, hxv⟩ := Uint128.assigned_add r.fixed q
    rw [Nat.mod_eq_of_lt (by omega)] at hxv
    refine ⟨x, ?_, by rw [hxv, hqv, List.length_cons]⟩
    have hsum : add r ⟨q⟩ = .ok ⟨x⟩ := by
      rw [add, hx]
      rfl
    rw [Nat.cast_pow, Nat.cast_ofNat] at hb
    have hparts : addParts r (Decimal.value (c :: ds)) (10 ^ (ds.length + 1)) = .ok ⟨x⟩ := by
      rw [addParts, ha, Except.ok_bind, hb, Except.ok_bind, hq, Except.ok_bind, hsum]
    rw [addFraction, if_pos hc, hf, Except.ok_bind]
    exact hparts

theorem addFraction_overflow {r : Real128} (hd : ∀ c ∈ ds, isDigit c) (h18 : 18 < ds.length) :
    addFraction r ds = .error .undefined := by
  cases ds
  case nil => cases h18
  case cons c ds =>
    have hc := hd c (List.mem_cons_self ..)
    have hf := fraction_spec (j := 1) (fun d hd' => hd d (List.mem_cons_of_mem _ hd'))
      (by simpa using digit_lt hc) (by decide)
    rw [List.length_cons] at h18
    rw [if_neg (by omega), pow_one] at hf
    simp only [addFraction, if_pos hc, hf, bind, Except.bind]

end Parts

section Text

variable {d f : Bytes}

-- The text of a decimal fraction.
def decimal (d f : Bytes) : Bytes :=
  d ++ dot :: f

-- Reading starts with what the integer is modulo `2 ^ 64`.
theorem ofString_decimal (hd : ∀ c ∈ d, isDigit c) :
    ∃ r : Real128, ofString (decimal d f) = addFraction r f ∧
      r.fixed.val = Decimal.value d % 2 ^ 64 * 10 ^ 18 := by
  cases d
  case nil => exact ⟨⟨⟨0, 0⟩⟩, rfl, rfl⟩
  case cons c d =>
    have hc := hd c (List.mem_cons_self ..)
    obtain ⟨w, hw, hv⟩ := @integerPart_spec d (dot :: f)
      (fun e he => hd e (List.mem_cons_of_mem _ he)) (by simpa using by decide) (.ofNat (digit c))
    obtain ⟨x, hx, hxv⟩ := ofInteger_spec w
    refine ⟨⟨x⟩, ?_, ?_⟩
    case refine_1 =>
      simp only [decimal, List.cons_append, ofString, if_pos hc, hw, hx, bind, Except.bind]
      rfl
    case refine_2 =>
      have hdig : (UInt64.ofNat (digit c)).toNat = digit c :=
        UInt64.toNat_ofNat_of_lt' (Nat.lt_trans (digit_lt hc) (by decide))
      rw [hxv, hv, hdig, value_cons]

-- The number that a decimal fraction stands for, in units of the last place.
def units (d f : Bytes) : Nat :=
  ⌊((Decimal.value d : ℚ) + Decimal.value f / 10 ^ f.length) * 10 ^ 18⌋₊

theorem units_eq (d f : Bytes) :
    units d f = Decimal.value d * 10 ^ 18 + Decimal.value f * 10 ^ 18 / 10 ^ f.length := by
  have he : ((Decimal.value d : ℚ) + Decimal.value f / 10 ^ f.length) * 10 ^ 18 =
      (Decimal.value d * 10 ^ 18 : Nat) + ((Decimal.value f * 10 ^ 18 : Nat) : ℚ) / (10 ^ f.length : Nat) := by
    push_cast
    ring
  rw [units, he, add_comm, Nat.floor_add_natCast (by positivity), Nat.floor_div_eq_div,
    Nat.add_comm]

-- The decimal fraction is read exactly, up to the last place.
def ReadsExactly (d f : Bytes) : Prop :=
  ∃ r, ofString (decimal d f) = .ok r ∧ r.fixed.val = units d f

theorem readsExactly_iff (hd : ∀ c ∈ d, isDigit c) (hf : ∀ c ∈ f, isDigit c) :
    ReadsExactly d f ↔ Decimal.value d < 2 ^ 64 ∧ f.length ≤ 18 := by
  obtain ⟨r, hr, hv⟩ := ofString_decimal (f := f) hd
  have hlt : Decimal.value d % 2 ^ 64 < 2 ^ 64 := Nat.mod_lt _ (by decide)
  unfold ReadsExactly
  rw [hr, units_eq]
  by_cases h18 : f.length ≤ 18
  case neg =>
    rw [addFraction_overflow hf (Nat.not_le.mp h18)]
    refine iff_of_false ?_ fun h => h18 h.2
    intro ⟨_, he, _⟩
    cases he
  case pos =>
    obtain ⟨x, hx, hxv⟩ := addFraction_spec (r := r) hf (by omega) h18
    rw [hx]
    constructor
    case mp =>
      intro ⟨r', he, hr'⟩
      cases he
      rw [hxv, hv] at hr'
      exact ⟨by omega, h18⟩
    case mpr =>
      intro ⟨h64, _⟩
      refine ⟨_, rfl, ?_⟩
      rw [hxv, hv, Nat.mod_eq_of_lt h64]

end Text

section RoundTrip

variable {m j : Nat} {ds : Bytes} {r : Real128}

-- The zeros at the end go, and the point stays.
theorem popZeros_decimal (d ds : Bytes) :
    ∃ f j, ds = f ++ List.replicate j zero ∧ popZeros (decimal d ds) = decimal d f := by
  have hsplit : ds.reverse = ds.reverse.takeWhile (· = zero) ++ ds.reverse.dropWhile (· = zero) :=
    List.takeWhile_append_dropWhile.symm
  refine ⟨(ds.reverse.dropWhile (· = zero)).reverse, (ds.reverse.takeWhile (· = zero)).length, ?_, ?_⟩
  case refine_1 =>
    have hz : ds.reverse.takeWhile (· = zero) =
        List.replicate (ds.reverse.takeWhile (· = zero)).length zero :=
      List.eq_replicate_iff.mpr ⟨rfl, fun c hc => by simpa using List.mem_takeWhile_imp hc⟩
    rw [← List.reverse_replicate, ← hz, ← List.reverse_append, ← hsplit, List.reverse_reverse]
  case refine_2 =>
    rw [popZeros, decimal, List.reverse_append, List.reverse_cons, List.append_assoc,
      List.dropWhile_append]
    split
    case isTrue h =>
      rw [List.isEmpty_iff.mp h, decimal]
      simp [show dot ≠ zero by decide]
    case isFalse => simp [decimal]

theorem text_spec (boost : Uint128.Multiprecision) (r : Real128) :
    ∃ f, text boost r = .ok (decimal (Decimal.ofNat (r.fixed.val / 10 ^ 18)) f) ∧
      (∀ c ∈ f, isDigit c) ∧ f.length ≤ 18 ∧
      units (Decimal.ofNat (r.fixed.val / 10 ^ 18)) f = r.fixed.val := by
  obtain ⟨p, m, hp, hm, hspec⟩ := Uint128.operators_spec boost (a := r.fixed)
    (b := .ofUInt64 precision) (by rw [val_precision]; decide)
  have htotal := hspec.total
  have hlt := hspec.lt
  rw [val_precision] at htotal hlt
  obtain ⟨x, hx, hxv⟩ := Uint128.assigned_add m (.ofUInt64 precision)
  rw [val_precision, Nat.mod_eq_of_lt (by omega)] at hxv
  have hq : p.val = r.fixed.val / 10 ^ 18 := by omega
  obtain ⟨hd, hlen, hval⟩ := Decimal.tail_ofNat hlt
  obtain ⟨f, j, hf, hpop⟩ := popZeros_decimal (Decimal.ofNat (r.fixed.val / 10 ^ 18))
    (Decimal.ofNat (m.val + 10 ^ 18)).tail
  have hjlen : f.length + j = 18 := by
    rw [← hlen, hf, List.length_append, List.length_replicate]
  refine ⟨f, ?_, ?_, by omega, ?_⟩
  case refine_1 =>
    rw [← hpop, ← hq, ← hxv]
    rw [text, hp, liftHalt_ok, Except.ok_bind, Uint128.text_eq, liftHalt_ok, Except.ok_bind, hm,
      liftHalt_ok,
      Except.ok_bind, hx, liftHalt_ok, Except.ok_bind, Uint128.text_eq, liftHalt_ok, Except.ok_bind, decimal]
    exact pure_eq
  case refine_2 =>
    intro c hc
    exact hd c (hf ▸ List.mem_append_left _ hc)
  case refine_3 =>
    have hfj : Decimal.value f * 10 ^ j = m.val := by
      rw [← hval, hf, Decimal.value_append, Decimal.value_zeros, List.length_replicate,
        Nat.add_zero]
    have hplaces : Decimal.value f * 10 ^ 18 / 10 ^ f.length = Decimal.value f * 10 ^ j := by
      rw [← hjlen, Nat.pow_add, Nat.mul_comm (10 ^ f.length), ← Nat.mul_assoc]
      exact Nat.mul_div_cancel _ (Nat.pow_pos (by decide))
    rw [units_eq, Decimal.value_ofNat, hplaces, hfj]
    omega

-- The text of a fraction is read back.
def RoundTrips (boost : Uint128.Multiprecision) (r : Real128) : Prop :=
  ∃ s, text boost r = .ok s ∧ ofString s = .ok r

theorem roundTrips_iff (boost : Uint128.Multiprecision) (r : Real128) :
    RoundTrips boost r ↔ r.fixed.val / 10 ^ 18 < 2 ^ 64 := by
  obtain ⟨f, ht, hd, hlen, hu⟩ := text_spec boost r
  have hiff := readsExactly_iff (Decimal.numeral_ofNat (r.fixed.val / 10 ^ 18)).digits hd
  rw [Decimal.value_ofNat, and_iff_left hlen] at hiff
  rw [← hiff, ReadsExactly, hu]
  constructor
  case mp =>
    intro ⟨s, hs, hr⟩
    rw [ht] at hs
    cases hs
    exact ⟨r, hr, rfl⟩
  case mpr =>
    intro ⟨r', hr, hv⟩
    have he : r' = r := by
      cases r'
      cases r
      exact congrArg Real128.mk ((Uint128.val_inj).mp hv)
    rw [he] at hr
    exact ⟨_, ht, hr⟩

end RoundTrip

-- The integer has to fit in 64 bits, and the digits of the fraction in the places.
theorem text_exact_iff (boost : Uint128.Multiprecision) :
    (∀ r : Real128, RoundTrips boost r ↔ r.fixed.val / 10 ^ 18 < 2 ^ 64) ∧
    ∀ d f : Bytes, (∀ c ∈ d, isDigit c) → (∀ c ∈ f, isDigit c) →
      (ReadsExactly d f ↔ Decimal.value d < 2 ^ 64 ∧ f.length ≤ 18) :=
  ⟨roundTrips_iff boost, fun _ _ hd hf => readsExactly_iff hd hf⟩

theorem text_exact_iff_half :
    RoundTrips .bitVec ⟨⟨0, 500000000000000000⟩⟩ ∧
    (ReadsExactly (ascii "1") (ascii "5") ↔
      Decimal.value (ascii "1") < 2 ^ 64 ∧ (ascii "5").length ≤ 18) :=
  ⟨((text_exact_iff .bitVec).1 _).mpr (by decide),
    (text_exact_iff .bitVec).2 _ _ (by decide +kernel) (by decide +kernel)⟩

-- The fraction 18446744073709551616, whose integer does not fit, and a fraction of 19 digits.
theorem not_text_exact :
    ¬RoundTrips .bitVec ⟨⟨1000000000000000000, 0⟩⟩ ∧
    ¬ReadsExactly (ascii "0") (ascii "0000000000000000001") := by
  refine ⟨fun h => ?_, fun h => ?_⟩
  case refine_1 =>
    have hlt := (roundTrips_iff _ _).mp h
    revert hlt
    decide
  case refine_2 =>
    have hlen := ((readsExactly_iff (by decide +kernel) (by decide +kernel)).mp h).2
    revert hlen
    decide +kernel

end Real128
