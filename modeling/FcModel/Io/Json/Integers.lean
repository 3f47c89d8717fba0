import FcModel.Io.Json.Values

-- The integer literals of `json_relaxed.hpp`, and the ones that the relaxed parser reads exactly.

namespace Json.Relaxed

open Ascii

inductive Radix
  | binary
  | octal
  | decimal
  | hex
deriving DecidableEq, Repr

def Radix.base : Radix → UInt64
  | binary  => 2
  | octal   => 8
  | decimal => 10
  | hex     => 16

-- What stands between the sign and the digits.
def Radix.mark (upper : Bool) : Radix → Bytes
  | binary  => [zero, if upper then 'B'.toUInt8 else 'b'.toUInt8]
  | octal   => [zero, if upper then 'O'.toUInt8 else 'o'.toUInt8]
  | decimal => []
  | hex     => [zero, if upper then 'X'.toUInt8 else 'x'.toUInt8]

inductive Sign
  | none
  | plus
  | minus
deriving DecidableEq, Repr

def Sign.text : Sign → Bytes
  | none  => []
  | plus  => [Ascii.plus]
  | minus => [Ascii.minus]

def Sign.apply : Sign → Nat → Int
  | minus, n => -n
  | _, n     => n

-- A digit and what follows it, where that is not the mark of a radix.
def startsDecimal : Bytes → Bool
  | []     => false
  | d :: r => isDigit d ∧ (d = zero → ∀ c ∈ r.head?, c ∉ ascii "bBoOxX")

-- A token of one of the forms of an integer. What is in the place of the digits need not be digits.
structure IntLiteral where
  sign    : Sign
  radix   : Radix
  upper   : Bool
  digits  : Bytes
  decimal : radix = .decimal → startsDecimal digits

-- The value of a sequence of characters to a base, after those with the value `n`.
def magnitudeFrom (base : UInt64) (n : Nat) (ds : Bytes) : Nat :=
  ds.foldl (fun n c => n * base.toNat + (charValue c).toNat) n

def magnitude (base : UInt64) (ds : Bytes) : Nat :=
  magnitudeFrom base 0 ds

def isDigitOf (base : UInt64) (c : UInt8) : Bool :=
  (charValue c).toNat < base.toNat

namespace IntLiteral

variable (l : IntLiteral)

def token : Bytes :=
  l.sign.text ++ (l.radix.mark l.upper ++ l.digits)

def value : Int :=
  l.sign.apply (magnitude l.radix.base l.digits)

def Valid : Prop :=
  l.digits ≠ [] ∧ ∀ c ∈ l.digits, isDigitOf l.radix.base c

def InRange : Prop :=
  -2 ^ 63 ≤ l.value ∧ l.value ≤ 2 ^ 64 - 1

end IntLiteral

def intValue : Variant → Option Int
  | .int64 i  => some i.toInt
  | .uint64 n => some n.toNat
  | _         => none

-- What a result has to be for the literal to be read exactly.
structure Exact (l : IntLiteral) (result : Except Error Variant) : Prop where
  inside  : l.Valid → l.InRange → ∃ v, result = .ok v ∧ intValue v = some l.value
  outside : l.Valid → ¬l.InRange → (∃ e, result = .error e) ∨ result = .ok (.string l.token)
  invalid : ¬l.Valid → ∀ v, result = .ok v → intValue v = none

def Sign.limit : Sign → Nat
  | minus => 2 ^ 63
  | _     => 2 ^ 64 - 1

-- What `parseInt` takes for an integer: any letters and digits, whatever the base.
structure AcceptsDigits (sign : Sign) (base : UInt64) (ds : Bytes) : Prop where
  nonempty : ds ≠ []
  alnum    : ∀ c ∈ ds, isalnum c
  limit    : magnitude base ds ≤ sign.limit

-- The literals that are read exactly. The first digit of a binary one is lost.
def IntLiteral.Faithful (l : IntLiteral) : Prop :=
  match l.radix, l.digits with
  | .decimal, _       => True
  | .binary, []       => True
  | .binary, c :: ds  =>
    (ds = [] → ¬isDigitOf 2 c) ∧ (AcceptsDigits l.sign 2 ds → c = zero ∧ ∀ d ∈ ds, isDigitOf 2 d)
  | radix, ds         => (∀ d ∈ ds, isDigitOf radix.base d) ∨ ¬AcceptsDigits l.sign radix.base ds

-- What a parser returns or throws, without what it leaves.
def returned {α : Type} : Outcome α → Except Error α
  | .ok a _    => .ok a
  | .error e _ => .error e

section Digits

-- The table has an entry for every letter.
theorem charValue_eq_ff_iff : ∀ c, charValue c = 0xff ↔ ¬isalnum c := by
  decide +kernel

theorem isDigitOf_decimal : ∀ c, isDigitOf 10 c = isDigit c := by
  decide +kernel

theorem isalnum_of_isDigitOf {base : UInt64} (hb : base.toNat ≤ 36) {c : UInt8}
    (hc : isDigitOf base c) :
    isalnum c := by
  by_contra hn
  rw [isDigitOf, (charValue_eq_ff_iff c).mpr hn, decide_eq_true_eq] at hc
  exact absurd (hc.trans_le hb) (by decide)

theorem isDigitOf_two {c : UInt8} (hc : isDigitOf 2 c) (hv : (charValue c).toNat = 0) :
    c = zero := by
  have hall : ∀ c, isDigitOf 2 c → (charValue c).toNat = 0 → c = zero := by
    decide +kernel
  exact hall c hc hv

variable {base : UInt64}

@[simp] theorem magnitudeFrom_nil (n : Nat) : magnitudeFrom base n [] = n := rfl

theorem magnitudeFrom_cons (n : Nat) (c : UInt8) (ds : Bytes) :
    magnitudeFrom base n (c :: ds) =
        magnitudeFrom base (n * base.toNat + (charValue c).toNat) ds := rfl

theorem le_magnitudeFrom (hb : 0 < base.toNat) (n : Nat) (ds : Bytes) :
    n ≤ magnitudeFrom base n ds := by
  induction ds generalizing n
  case nil => exact Nat.le_refl n
  case cons c ds hi =>
    rw [magnitudeFrom_cons]
    calc
      n ≤ n * base.toNat                            := Nat.le_mul_of_pos_right n hb
      _ ≤ n * base.toNat + (charValue c).toNat      := Nat.le_add_right ..
      _ ≤ magnitudeFrom base _ ds                   := hi _

theorem magnitudeFrom_mono {n m : Nat} (h : n ≤ m) (ds : Bytes) :
    magnitudeFrom base n ds ≤ magnitudeFrom base m ds := by
  induction ds generalizing n m
  case nil => exact h
  case cons c ds hi => exact hi (Nat.add_le_add_right (Nat.mul_le_mul_right _ h) _)

theorem magnitude_tail_le (base : UInt64) (c : UInt8) (ds : Bytes) :
    magnitude base ds ≤ magnitude base (c :: ds) :=
  magnitudeFrom_mono (Nat.zero_le _) ds

-- A digit in front of others adds to the value unless it is zero.
theorem magnitudeFrom_lt (hb : 0 < base.toNat) {n m : Nat} (h : n < m) (ds : Bytes) :
    magnitudeFrom base n ds < magnitudeFrom base m ds := by
  induction ds generalizing n m
  case nil => exact h
  case cons c ds hi => exact hi (Nat.add_lt_add_right (Nat.mul_lt_mul_of_pos_right h hb) _)

end Digits

section ParseInt

variable {base val : UInt64} {ds : Bytes}

theorem toNat_add_charValue {n : UInt64} {c : UInt8} (h : n.toNat + (charValue c).toNat < 2 ^ 64) :
    (n + (charValue c).toUInt64).toNat = n.toNat + (charValue c).toNat := by
  rw [UInt64.toNat_add, UInt8.toNat_toUInt64, Nat.mod_eq_of_lt h]

-- The test before the multiplication says exactly whether it overflows.
theorem div_lt_iff (hb : 0 < base.toNat) :
    0xffffffffffffffff / base < val ↔ 2 ^ 64 ≤ val.toNat * base.toNat := by
  rw [UInt64.lt_iff_toNat_lt, UInt64.toNat_div, Nat.div_lt_iff_lt_mul hb]
  exact Nat.succ_le_iff.symm

-- The test after the addition says exactly whether it overflows.
theorem add_lt_iff (n : UInt64) (c : UInt8) :
    n + (charValue c).toUInt64 < n ↔ 2 ^ 64 ≤ n.toNat + (charValue c).toNat := by
  have hc := (charValue c).toNat_lt
  have hn := n.toNat_lt
  rw [UInt64.lt_iff_toNat_lt, UInt64.toNat_add, UInt8.toNat_toUInt64]
  constructor
  case mp =>
    intro h
    by_contra hlt
    rw [Nat.mod_eq_of_lt (by omega)] at h
    omega
  case mpr =>
    intro h
    rw [Nat.mod_eq_sub_mod h, Nat.mod_eq_of_lt (by omega)]
    omega

theorem parseInt_go_ok (hb : 0 < base.toNat) (ha : ∀ c ∈ ds, isalnum c)
    (hv : magnitudeFrom base val.toNat ds < 2 ^ 64) :
    parseInt.go base val ds = .ok (.ofNat (magnitudeFrom base val.toNat ds)) := by
  induction ds generalizing val
  case nil => simp [parseInt.go]; rfl
  case cons c ds hi =>
    obtain ⟨hc, hds⟩ := List.forall_mem_cons.mp ha
    rw [magnitudeFrom_cons] at hv ⊢
    have hsum := (le_magnitudeFrom hb _ ds).trans_lt hv
    have hmul : (val * base).toNat = val.toNat * base.toNat := by
      rw [UInt64.toNat_mul, Nat.mod_eq_of_lt (by omega)]
    have hne : charValue c ≠ 0xff := fun h => (charValue_eq_ff_iff c).mp h hc
    have hdiv : ¬(0xffffffffffffffff / base < val) := by
      rw [div_lt_iff hb]
      omega
    have hadd : ¬(val * base + (charValue c).toUInt64 < val * base) := by
      rw [add_lt_iff, hmul]
      omega
    rw [← hmul, ← toNat_add_charValue (by omega)] at hv ⊢
    simp only [parseInt.go, if_neg hne, if_neg hdiv, if_neg hadd, hi hds hv]

-- Whatever is not accepted is a parse error.
theorem parseInt_go_error (hb : 0 < base.toNat)
    (h : ¬((∀ c ∈ ds, isalnum c) ∧ magnitudeFrom base val.toNat ds < 2 ^ 64)) :
    ∃ m, parseInt.go base val ds = .error (.parseError m) := by
  induction ds generalizing val
  case nil => exact absurd ⟨by simp, val.toNat_lt⟩ h
  case cons c ds hi =>
    rw [magnitudeFrom_cons] at h
    simp only [parseInt.go]
    split
    case isTrue          => exact ⟨_, rfl⟩
    case isFalse hne     =>
      split
      case isTrue        => exact ⟨_, rfl⟩
      case isFalse hdiv  =>
        split
        case isTrue      => exact ⟨_, rfl⟩
        case isFalse hadd =>
          rw [div_lt_iff hb, Nat.not_le] at hdiv
          have hmul : (val * base).toNat = val.toNat * base.toNat := by
            rw [UInt64.toNat_mul, Nat.mod_eq_of_lt hdiv]
          rw [add_lt_iff, hmul, Nat.not_le] at hadd
          apply hi
          rw [toNat_add_charValue (by omega), hmul]
          intro hrest
          have hc : isalnum c := by
            by_contra hn
            exact hne ((charValue_eq_ff_iff c).mpr hn)
          exact h ⟨List.forall_mem_cons.mpr ⟨hc, hrest.1⟩, hrest.2⟩

variable {sign : Sign} {token : Bytes}

theorem Sign.limit_lt (sign : Sign) : sign.limit < 2 ^ 64 := by
  cases sign <;> decide

-- A magnitude is within the limit of its sign if and only if the signed value is in the range.
theorem Sign.le_limit_iff (sign : Sign) (n : Nat) :
    n ≤ sign.limit ↔ -2 ^ 63 ≤ sign.apply n ∧ sign.apply n ≤ 2 ^ 64 - 1 := by
  cases sign <;> simp only [Sign.limit, Sign.apply] <;> omega

theorem intValue_neg {n : Nat} (h : n ≤ 2 ^ 63) :
    intValue (.int64 (-(UInt64.ofNat n).toInt64)) = some (-(n : Int)) := by
  have heq : -(UInt64.ofNat n).toInt64 = Int64.ofInt (-n) := by
    rw [Int64.ofInt_neg, Int64.ofInt_eq_ofNat]
    rfl
  rw [intValue, heq, Int64.toInt_ofInt_of_le (by omega) (by omega)]

theorem parseInt_accepts (hb : 0 < base.toNat) (ht : token.head? = some minus ↔ sign = .minus)
    (h : AcceptsDigits sign base ds) :
    ∃ v, parseInt base token ds = .ok v ∧ intValue v = some (sign.apply (magnitude base ds)) := by
  have hlt := h.limit.trans_lt sign.limit_lt
  have hgo : parseInt.go base 0 ds = .ok (.ofNat (magnitude base ds)) :=
    parseInt_go_ok hb h.alnum hlt
  have hval : (UInt64.ofNat (magnitude base ds)).toNat = magnitude base ds :=
    UInt64.toNat_ofNat_of_lt' hlt
  rw [parseInt, if_neg h.nonempty, hgo]
  simp only [ht]
  cases sign
  case none  => exact ⟨_, rfl, by rw [intValue, hval]; rfl⟩
  case plus  => exact ⟨_, rfl, by rw [intValue, hval]; rfl⟩
  case minus =>
    have hle : magnitude base ds ≤ 2 ^ 63 := h.limit
    have hover : ¬(int64MaxPlusOne < UInt64.ofNat (magnitude base ds)) := by
      rw [UInt64.lt_iff_toNat_lt, hval]
      exact Nat.not_lt.mpr hle
    simp only [bind, Except.bind, if_true, if_neg hover]
    split
    case isFalse   => exact ⟨_, rfl, intValue_neg hle⟩
    case isTrue he =>
      have hmax : magnitude base ds = 2 ^ 63 := by rw [← hval, he]; rfl
      exact ⟨_, rfl, by rw [hmax]; rfl⟩

theorem parseInt_rejects (hb : 0 < base.toNat) (ht : token.head? = some minus ↔ sign = .minus)
    (h : ¬AcceptsDigits sign base ds) : ∃ m, parseInt base token ds = .error (.parseError m) := by
  rw [parseInt]
  split
  case isTrue => exact ⟨_, rfl⟩
  case isFalse hne =>
    by_cases hok : (∀ c ∈ ds, isalnum c) ∧ magnitude base ds < 2 ^ 64
    case neg =>
      obtain ⟨m, hm⟩ := @parseInt_go_error base 0 ds hb hok
      exact ⟨m, by rw [hm]; rfl⟩
    case pos =>
      have hgo : parseInt.go base 0 ds = .ok (.ofNat (magnitude base ds)) :=
        parseInt_go_ok hb hok.1 hok.2
      have hval : (UInt64.ofNat (magnitude base ds)).toNat = magnitude base ds :=
        UInt64.toNat_ofNat_of_lt' hok.2
      have hover : sign.limit < magnitude base ds := by
        by_contra hle
        exact h ⟨hne, hok.1, Nat.not_lt.mp hle⟩
      have hminus : sign = .minus := by
        cases sign
        case minus => rfl
        all_goals exact absurd hok.2 (by simp only [Sign.limit] at hover; omega)
      have hlt : int64MaxPlusOne < UInt64.ofNat (magnitude base ds) := by
        rw [UInt64.lt_iff_toNat_lt, hval]
        rwa [hminus] at hover
      rw [hgo]
      simp only [bind, Except.bind, if_pos (ht.mpr hminus), if_pos hlt]
      exact ⟨_, rfl⟩

theorem maybeParseInt_accepts (hb : 0 < base.toNat) (ht : token.head? = some minus ↔ sign = .minus)
    (h : AcceptsDigits sign base ds) :
    ∃ v, maybeParseInt false base token ds = .ok v ∧
    intValue v = some (sign.apply (magnitude base ds)) := by
  obtain ⟨v, hv, hi⟩ := parseInt_accepts hb ht h
  exact ⟨v, by rw [maybeParseInt, hv], hi⟩

theorem maybeParseInt_rejects (hb : 0 < base.toNat) (ht : token.head? = some minus ↔ sign = .minus)
    (h : ¬AcceptsDigits sign base ds) :
    maybeParseInt false base token ds = .ok (.string token) := by
  obtain ⟨m, hm⟩ := parseInt_rejects hb ht h
  rw [maybeParseInt, hm]
  rfl

end ParseInt

namespace IntLiteral

variable {l : IntLiteral} {L : LexicalCast} {result : Except Error Variant}

theorem digits_of_decimal (hr : l.radix = .decimal) : ∃ d r, l.digits = d :: r ∧ isDigit d ∧
    (d = zero → ∀ c ∈ r.head?, c ∉ ascii "bBoOxX") := by
  have hd := l.decimal hr
  cases hds : l.digits
  case nil       => rw [hds] at hd; cases hd
  case cons d r  =>
    rw [hds] at hd
    exact ⟨d, r, rfl, of_decide_eq_true hd⟩

-- After the sign there is a digit in any case.
theorem unsigned_digit (l : IntLiteral) :
    ∃ d r, l.radix.mark l.upper ++ l.digits = d :: r ∧ isDigit d := by
  cases hr : l.radix
  case decimal =>
    obtain ⟨d, r, hds, hd, -⟩ := digits_of_decimal hr
    exact ⟨d, r, by rw [hds]; rfl, hd⟩
  all_goals exact ⟨zero, _, rfl, by decide⟩

theorem ne_sign {d : UInt8} (hd : isDigit d) : d ≠ Ascii.plus ∧ d ≠ Ascii.minus := by
  constructor
  all_goals
    rintro rfl
    cases hd

theorem head_token (l : IntLiteral) : l.token.head? = some Ascii.minus ↔ l.sign = .minus := by
  obtain ⟨d, r, hdr, hd⟩ := l.unsigned_digit
  rw [token, hdr]
  cases l.sign
  case none  => simp [Sign.text, (ne_sign hd).2]
  case plus  => simp [Sign.text]; decide
  case minus => simp [Sign.text]

theorem parseNumberOrStr_token (l : IntLiteral) :
    parseNumberOrStr L false l.token =
        unsignedNumber L false l.token (l.radix.mark l.upper ++ l.digits) := by
  obtain ⟨d, r, hdr, hd⟩ := l.unsigned_digit
  simp only [token, hdr]
  cases l.sign
  case none  => simp [parseNumberOrStr, Sign.text, ne_sign hd]
  case plus  => simp [parseNumberOrStr, Sign.text]
  case minus => simp [parseNumberOrStr, Sign.text]

theorem base_pos (r : Radix) : 0 < r.base.toNat := by
  cases r <;> decide

theorem alnum_of_valid {ds : Bytes} (hv : ∀ c ∈ ds, isDigitOf l.radix.base c) : ∀ c ∈ ds,
    isalnum c := by
  have hb : l.radix.base.toNat ≤ 36 := by cases l.radix <;> decide
  exact fun c hc => isalnum_of_isDigitOf hb (hv c hc)

theorem inRange_iff (l : IntLiteral) : l.InRange ↔ magnitude l.radix.base l.digits ≤ l.sign.limit :=
  (Sign.le_limit_iff ..).symm

theorem accepts_of_valid (hv : l.Valid) (hr : l.InRange) :
    AcceptsDigits l.sign l.radix.base l.digits :=
  ⟨hv.1, alnum_of_valid hv.2, (inRange_iff l).mp hr⟩

-- An integer is only right for a literal that has its value.
theorem exact_ok_iff {v : Variant} {x : Int} (hi : intValue v = some x) :
    Exact l (.ok v) ↔ l.Valid ∧ l.InRange ∧ l.value = x := by
  constructor
  case mp =>
    intro h
    have hv : l.Valid := by
      by_contra hn
      rw [h.invalid hn v rfl] at hi
      cases hi
    have hr : l.InRange := by
      by_contra hn
      rcases h.outside hv hn with ⟨e, he⟩ | hs
      case inl => cases he
      case inr => cases hs; cases hi
    obtain ⟨w, hw, hx⟩ := h.inside hv hr
    cases hw
    rw [hi] at hx
    cases hx
    exact ⟨hv, hr, rfl⟩
  case mpr =>
    rintro ⟨hv, hr, rfl⟩
    exact ⟨fun _ _ => ⟨v, rfl, hi⟩, fun _ hn => absurd hr hn, fun hn => absurd hv hn⟩

theorem exact_string_iff : Exact l (.ok (.string l.token)) ↔ (l.Valid → ¬l.InRange) := by
  constructor
  case mp =>
    intro h hv hr
    obtain ⟨w, hw, hx⟩ := h.inside hv hr
    cases hw
    cases hx
  case mpr =>
    intro hn
    exact ⟨fun hv hr => absurd hr (hn hv), fun _ _ => .inr rfl, fun _ v hv => by cases hv; rfl⟩

theorem exact_error {e : Error} (hn : l.Valid → ¬l.InRange) : Exact l (.error e) where
  inside hv hr     := absurd hr (hn hv)
  outside _ _      := .inl ⟨e, rfl⟩
  invalid _ v hv   := by cases hv

-- An octal or a hexadecimal literal: the digits are not compared with the base.
theorem exact_maybeParseInt_iff (l : IntLiteral) :
    Exact l (maybeParseInt false l.radix.base l.token l.digits) ↔
      (∀ d ∈ l.digits, isDigitOf l.radix.base d) ∨ ¬AcceptsDigits l.sign l.radix.base l.digits := by
  by_cases ha : AcceptsDigits l.sign l.radix.base l.digits
  case pos =>
    obtain ⟨v, hv, hi⟩ := maybeParseInt_accepts (base_pos l.radix) l.head_token ha
    have hr : l.InRange := (inRange_iff l).mpr ha.limit
    rw [hv, exact_ok_iff hi]
    simp [Valid, hr, value, ha, ha.nonempty]
  case neg =>
    rw [maybeParseInt_rejects (base_pos l.radix) l.head_token ha, exact_string_iff]
    have hn : l.Valid → ¬l.InRange := fun hv hr => ha (accepts_of_valid hv hr)
    exact iff_of_true hn (.inr ha)

theorem Sign.apply_inj {sign : Sign} {n m : Nat} (h : sign.apply n = sign.apply m) : n = m := by
  cases sign <;> simp only [Sign.apply] at h <;> omega

-- A binary literal: what is read is what follows the first digit.
theorem exact_maybeParseInt_tail_iff {c : UInt8} {ds : Bytes} (hr : l.radix = .binary)
    (hl : l.digits = c :: ds) :
    Exact l (maybeParseInt false 2 l.token ds) ↔
      (ds = [] → ¬isDigitOf 2 c) ∧
      (AcceptsDigits l.sign 2 ds → c = zero ∧ ∀ d ∈ ds, isDigitOf 2 d) := by
  have hb : l.radix.base = 2 := by rw [hr]; rfl
  have hvalue : l.value = l.sign.apply (magnitude 2 (c :: ds)) := by rw [value, hb, hl]
  have hvalid : l.Valid ↔ isDigitOf 2 c ∧ ∀ d ∈ ds, isDigitOf 2 d := by simp [Valid, hb, hl]
  have hrange : l.InRange ↔ magnitude 2 (c :: ds) ≤ l.sign.limit := by rw [inRange_iff, hb, hl]
  by_cases ha : AcceptsDigits l.sign 2 ds
  case pos =>
    obtain ⟨v, hv, hi⟩ := maybeParseInt_accepts (by decide) l.head_token ha
    rw [hv, exact_ok_iff hi, hvalid, hrange, hvalue]
    simp only [ha.nonempty, ha, false_implies, true_implies, true_and]
    constructor
    case mp =>
      rintro ⟨⟨hc, hds⟩, -, heq⟩
      have hzero : (charValue c).toNat = 0 := by
        by_contra hne
        have hlt : magnitude 2 ds < magnitude 2 (c :: ds) :=
          magnitudeFrom_lt (by decide) (by simpa using Nat.pos_of_ne_zero hne) ds
        exact absurd (Sign.apply_inj heq).symm hlt.ne
      exact ⟨isDigitOf_two hc hzero, hds⟩
    case mpr =>
      rintro ⟨rfl, hds⟩
      exact ⟨⟨by decide, hds⟩, ha.limit, rfl⟩
  case neg =>
    rw [maybeParseInt_rejects (by decide) l.head_token ha, exact_string_iff, hvalid, hrange]
    simp only [ha, false_implies, and_true]
    constructor
    case mp =>
      rintro h rfl hc
      have hle : magnitude 2 [c] ≤ 1 := by
        have hlt : (charValue c).toNat < 2 := of_decide_eq_true hc
        simpa [magnitude, magnitudeFrom] using Nat.le_of_lt_succ hlt
      exact h ⟨hc, by simp⟩ (hle.trans (by cases l.sign <;> decide))
    case mpr =>
      rintro h ⟨hc, hds⟩ hlimit
      refine ha ⟨fun hnil => h hnil hc, ?_, (magnitude_tail_le 2 c ds).trans hlimit⟩
      exact fun d hd => isalnum_of_isDigitOf (by decide) (hds d hd)

section Decimal

variable {token ds r : Bytes} {c : UInt8}

theorem notNumber_noInt {m : String} {v : Variant} (h : notNumber false token m = .ok v) :
    intValue v = none := by
  cases h
  rfl

theorem toDouble_noInt {v : Variant} (h : toDouble L token = .ok v) : intValue v = none := by
  rw [toDouble] at h
  split at h
  case h_1 => cases h; rfl
  case h_2 => cases h

theorem exponentDigits_noInt {v : Variant} (h : exponentDigits L false token r = .ok v) :
    intValue v = none := by
  induction r
  case nil => exact toDouble_noInt h
  case cons c r hi =>
    rw [exponentDigits] at h
    split_ifs at h
    · exact hi h
    · exact notNumber_noInt h
    · exact hi h

theorem exponent_noInt {v : Variant} (h : exponent L false token r = .ok v) :
    intValue v = none := by
  cases r
  case nil => exact notNumber_noInt h
  case cons c r =>
    rw [exponent] at h
    split_ifs at h
    · exact notNumber_noInt h
    · exact exponentDigits_noInt h
    · exact exponentDigits_noInt h
    · exact notNumber_noInt h
    · cases h

-- The loop stops at the first character that is not a digit, and not with an integer.
theorem numberLoop_noInt {v : Variant} (hr : ¬∀ c ∈ r, isDigit c)
    (h : numberLoop L false token ds r = .ok v) :
    intValue v = none := by
  induction r
  case nil => exact absurd (by simp) hr
  case cons c r hi =>
    rw [numberLoop] at h
    split_ifs at h with hc
    · exact hi (fun hall => hr (List.forall_mem_cons.mpr ⟨hc, hall⟩)) h
    · cases h; rfl
    · exact exponent_noInt h
    · exact notNumber_noInt h

-- What follows a zero is only looked at for the mark of a radix.
theorem afterZero_decimal (hr : ∀ c ∈ r.head?, c ∉ ascii "bBoOxX") (hne : r ≠ []) :
    afterZero L false token ds r = numberLoop L false token ds r := by
  cases r
  case nil => exact absurd rfl hne
  case cons d r =>
    have hd := hr d rfl
    have hb : ¬(d = 'b'.toUInt8 ∨ d = 'B'.toUInt8) := by rintro (rfl | rfl) <;> exact hd (by decide)
    have ho : ¬(d = 'o'.toUInt8 ∨ d = 'O'.toUInt8) := by rintro (rfl | rfl) <;> exact hd (by decide)
    have hx : ¬(d = 'x'.toUInt8 ∨ d = 'X'.toUInt8) := by rintro (rfl | rfl) <;> exact hd (by decide)
    rw [afterZero, if_neg hb, if_neg ho, if_neg hx, if_neg (by simp)]

-- A decimal literal: zero is not read by `parseInt`, and has no sign.
theorem unsignedNumber_decimal (hr : l.radix = .decimal) :
    unsignedNumber L false l.token l.digits =
      if l.digits = [zero] then .ok (.uint64 0) else numberLoop L false l.token l.digits l.digits.tail := by
  obtain ⟨d, r, hdr, hd, hmark⟩ := digits_of_decimal hr
  rw [hdr, unsignedNumber, if_pos hd, List.tail_cons]
  by_cases hz : d = zero
  case neg => rw [if_neg hz, if_neg fun h => hz (List.cons.inj h).1]
  case pos =>
    rw [if_pos hz]
    cases r
    case nil => rw [hz, if_pos rfl]; rfl
    case cons c r =>
      rw [afterZero_decimal (hmark hz) (List.cons_ne_nil c r), if_neg]
      exact fun h => List.cons_ne_nil c r (List.cons.inj h).2

theorem exact_decimal (hr : l.radix = .decimal) :
    Exact l (unsignedNumber L false l.token l.digits) := by
  obtain ⟨d, r, hdr, hd, -⟩ := digits_of_decimal hr
  have hb : l.radix.base = 10 := by rw [hr]; rfl
  have hvalid : l.Valid ↔ ∀ c ∈ r, isDigit c := by simp [Valid, hb, hdr, isDigitOf_decimal, hd]
  rw [unsignedNumber_decimal hr]
  split
  case isTrue hz =>
    have hvalue : l.value = 0 := by rw [value, hb, hz]; cases l.sign <;> decide
    have hi : intValue (.uint64 0) = some 0 := rfl
    refine (exact_ok_iff hi).mpr ⟨?_, ?_, hvalue⟩
    case refine_1 => rw [hdr] at hz; cases hz; exact hvalid.mpr (by simp)
    case refine_2 => rw [InRange, hvalue]; decide
  case isFalse =>
    rw [hdr, List.tail_cons]
    by_cases hall : ∀ c ∈ r, isDigit c
    case neg =>
      have hn : ¬l.Valid := fun hv => hall (hvalid.mp hv)
      exact ⟨fun hv => absurd hv hn, fun hv => absurd hv hn, fun _ v hv => numberLoop_noInt hall hv⟩
    case pos =>
      have hv : l.Valid := hvalid.mpr hall
      have hloop : numberLoop L false l.token (d :: r) (r ++ []) = parseInt 10 l.token (d :: r) :=
        numberLoop_digits hall
      rw [List.append_nil] at hloop
      rw [hloop, ← hdr, ← hb]
      by_cases hrange : l.InRange
      case pos =>
        obtain ⟨v, hok, hi⟩ :=
          parseInt_accepts (base_pos l.radix) l.head_token (accepts_of_valid hv hrange)
        rw [hok]
        exact (exact_ok_iff hi).mpr ⟨hv, hrange, rfl⟩
      case neg =>
        have ha : ¬AcceptsDigits l.sign l.radix.base l.digits :=
          fun ha => hrange ((inRange_iff l).mpr ha.limit)
        obtain ⟨m, hm⟩ := parseInt_rejects (base_pos l.radix) l.head_token ha
        rw [hm]
        exact exact_error fun _ => hrange

end Decimal

theorem unsignedNumber_octal (hr : l.radix = .octal) :
    unsignedNumber L false l.token (l.radix.mark l.upper ++ l.digits) =
        maybeParseInt false 8 l.token l.digits := by
  rw [hr]
  cases l.upper <;> rfl

theorem unsignedNumber_hex (hr : l.radix = .hex) :
    unsignedNumber L false l.token (l.radix.mark l.upper ++ l.digits) =
        maybeParseInt false 16 l.token l.digits := by
  rw [hr]
  cases l.upper <;> rfl

theorem unsignedNumber_binary {c : UInt8} {ds : Bytes} (hr : l.radix = .binary)
    (hl : l.digits = c :: ds) :
    unsignedNumber L false l.token (l.radix.mark l.upper ++ l.digits) =
        maybeParseInt false 2 l.token ds := by
  rw [hr, hl]
  cases l.upper <;> rfl

theorem unsignedNumber_binary_nil (hr : l.radix = .binary) (hl : l.digits = []) :
    unsignedNumber L false l.token (l.radix.mark l.upper ++ l.digits) =
      .error (.parseError "empty binary numeric literal") := by
  rw [hr, hl]
  cases l.upper <;> rfl

theorem exact_iff_faithful (L : LexicalCast) (l : IntLiteral) :
    Exact l (parseNumberOrStr L false l.token) ↔ l.Faithful := by
  rw [parseNumberOrStr_token, Faithful]
  cases hr : l.radix
  case decimal => exact iff_of_true (by simpa [hr, Radix.mark] using exact_decimal hr) trivial
  case octal =>
    rw [← hr, unsignedNumber_octal hr]
    have h := exact_maybeParseInt_iff l
    rw [hr] at h ⊢
    exact h
  case hex =>
    rw [← hr, unsignedNumber_hex hr]
    have h := exact_maybeParseInt_iff l
    rw [hr] at h ⊢
    exact h
  case binary =>
    rw [← hr]
    cases hl : l.digits
    case nil =>
      rw [← hl, unsignedNumber_binary_nil hr hl]
      have hn : ¬l.Valid := fun h => h.1 hl
      exact iff_of_true (exact_error fun hv => absurd hv hn) (by rw [hr, hl]; trivial)
    case cons c ds =>
      rw [← hl, unsignedNumber_binary hr hl, exact_maybeParseInt_tail_iff hr hl, hr, hl]

-- A number is told by its first character, and read by itself it is what `parseNumberOrStr` makes
-- of it.
theorem returned_fromString (L : LexicalCast) (l : IntLiteral) (hl : ∀ c ∈ l.digits, isTokenChar c)
    (d : UInt32) :
    returned (fromString L l.token .relaxedParser d) = parseNumberOrStr L false l.token := by
  have htoken : ∀ c ∈ l.token, isTokenChar c := by
    simp only [token, List.forall_mem_append]
    refine ⟨?_, ?_, hl⟩
    case refine_1 => cases l.sign <;> decide +kernel
    case refine_2 => cases l.radix <;> cases l.upper <;> decide +kernel
  obtain ⟨c, q, hcq, hc⟩ :
      ∃ c q, l.token = c :: q ∧ (c = Ascii.plus ∨ c = Ascii.minus ∨ isDigit c) := by
    obtain ⟨d, r, hdr, hd⟩ := l.unsigned_digit
    rw [token, hdr]
    cases l.sign
    case none  => exact ⟨d, r, rfl, .inr (.inr hd)⟩
    case plus  => exact ⟨_, _, rfl, .inl rfl⟩
    case minus => exact ⟨_, _, rfl, .inr (.inl rfl)⟩
  have hstart : isSpace c = false ∧ c ≠ 0 ∧ c ≠ quote ∧ c ≠ openBrace ∧ c ≠ openBracket ∧
      startsNumber c := by
    rcases hc with rfl | hc
    case inl => decide
    case inr =>
      obtain ⟨-, hspace, h0, hquote, hbrace, hbracket, -, hstarts⟩ := number_cases hc
      exact ⟨hspace, h0, hquote, hbrace, hbracket, hstarts⟩
  obtain ⟨hspace, h0, hquote, hbrace, hbracket, hstarts⟩ := hstart
  have hlen : l.token.length < l.token.length + 3 := Nat.lt_add_of_pos_right (by decide)
  obtain ⟨t', ⟨e, htok, -⟩, -⟩ :=
    tokenFromStream_reads (t := []) htoken (by rw [hcq]; simp) trivial hlen
  have hskip := @skipWhiteSpace_run (l.token.length + 3) c q [] false
    (List.forall_mem_nil _) hspace h0 (by simp)
  rw [List.append_nil] at htok
  rw [List.nil_append, ← hcq] at hskip
  have hswitch : (variantSwitch (reader L false (l.token.length + 3))
      (variantFromStream (reader L false (l.token.length + 3))
        (l.token.length + 3) l.token.length) d
      (l.token.length + 3)).run ⟨l.token, false⟩ =
        (numberFromStream L false (l.token.length + 3)).run ⟨l.token, false⟩ := by
    simp only [variantSwitch, EStateM.run_bind, hcq, peekChar_cons, if_neg h0, hspace,
      Bool.false_eq_true,
      if_false, if_neg hquote, if_neg hbrace, if_neg hbracket, hstarts, if_true]
    rfl
  rw [fromString, parser, stackFor, fuelFor, variantFromStream]
  simp only [EStateM.run_bind, hskip, hswitch, numberFromStream, htok]
  cases parseNumberOrStr L false l.token
  case error => rfl
  case ok    => rfl

theorem integers_exact_iff (L : LexicalCast) (l : IntLiteral) :
    (Exact l (parseNumberOrStr L false l.token) ↔ l.Faithful) ∧
      ((∀ c ∈ l.digits, isTokenChar c) → ∀ maxDepth,
        (Exact l (returned (fromString L l.token .relaxedParser maxDepth)) ↔ l.Faithful)) := by
  refine ⟨exact_iff_faithful L l, fun hl maxDepth => ?_⟩
  rw [returned_fromString L l hl, exact_iff_faithful]

-- `0b101` is read as one, and `0xg` as sixteen.
theorem not_exact_binary_hex :
    ¬Exact ⟨.none, .binary, false, ascii "101", nofun⟩
        (returned (fromString .decimal (ascii "0b101") .relaxedParser 200)) ∧
      ¬Exact ⟨.none, .hex, false, ascii "g", nofun⟩
          (returned (fromString .decimal (ascii "0xg") .relaxedParser 200)) := by
  constructor
  case left =>
    intro h
    have hone : returned (fromString .decimal (ascii "0b101") .relaxedParser 200) =
      .ok (.uint64 1) := by decide +kernel
    rw [hone] at h
    have hvalue := ((exact_ok_iff (x := 1) rfl).mp h).2.2
    exact absurd hvalue (by decide +kernel)
  case right =>
    intro h
    have hsixteen : returned (fromString .decimal (ascii "0xg") .relaxedParser 200) =
      .ok (.uint64 16) := by decide +kernel
    rw [hsixteen] at h
    have hvalid := ((exact_ok_iff (x := 16) rfl).mp h).1
    exact absurd (hvalid.2 _ (List.mem_singleton_self _)) (by decide +kernel)

end IntLiteral

end Json.Relaxed
