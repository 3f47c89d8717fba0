import FcModel.Lib.Except
import FcModel.Lib.Find
import FcModel.Text.Digits

-- `fc::time_point`: points in time with a resolution of microseconds, and their text.

@[ext]
structure Microseconds where
  count : Int64
deriving DecidableEq, Repr

namespace Microseconds

def seconds (s : Int64) : Microseconds :=
  ⟨s * 1000000⟩

def milliseconds (s : Int64) : Microseconds :=
  ⟨s * 1000⟩

end Microseconds

-- What the code takes from `boost::posix_time`. The dates that are read are given as the
-- microseconds since the epoch.
structure PosixTime where
  toIsoExtendedString : (secs : Int64) → Bytes
  toIsoString         : (microseconds : Int64) → Bytes
  parseDelimitedTime  : Bytes → Option Int
  fromIsoString       : Bytes → Option Int

namespace TimePoint

open Ascii

inductive Error
  -- The date library throws.
  | date
  -- "Couldn't parse int64_t"
  | parseError
deriving DecidableEq, Repr

end TimePoint

-- `fc::time_point_sec`
structure TimePointSec where
  utcSeconds : UInt32
deriving DecidableEq, Repr

namespace TimePointSec

open TimePoint (Error)

def ptime (P : PosixTime) (s : Bytes) : Option Int :=
  if 5 ≤ s.length ∧ s.getD 4 0 = Ascii.minus then P.parseDelimitedTime s else P.fromIsoString s

-- `total_seconds` rounds to zero.
def fromIsoString (P : PosixTime) (s : Bytes) : Except Error TimePointSec :=
  match ptime P s with
  | none       => .error .date
  | some ticks => .ok ⟨.ofInt (ticks.tdiv 1000000)⟩

end TimePointSec

structure TimePoint where
  elapsed : Microseconds
deriving DecidableEq, Repr

namespace TimePoint

open Ascii

instance : HAdd TimePoint Microseconds TimePoint where
  hAdd t m := ⟨⟨t.elapsed.count + m.count⟩⟩

-- `time_point_sec::operator time_point`
def ofSec (t : TimePointSec) : TimePoint :=
  ⟨.seconds t.utcSeconds.toUInt64.toInt64⟩

def toInt64 (L : LexicalCast) (i : Bytes) : Except Error Int64 :=
  match L.toInt64 i with
  | none   => .error .parseError
  | some n => .ok n

-- `operator string`
def text (L : LexicalCast) (P : PosixTime) (t : TimePoint) : Bytes :=
  let count := t.elapsed.count
  if 0 ≤ count then
    let secs := count.toUInt64 / 1000000
    let msec := count.toUInt64 % 1000000 / 1000
    let paddedMs := (L.ofUint64 (msec + 1000)).tail
    P.toIsoExtendedString secs.toInt64 ++ dot :: paddedMs
  else P.toIsoString count

def fromIsoString (L : LexicalCast) (P : PosixTime) (s : Bytes) : Except Error TimePoint :=
  match s.findIdx? (· = dot) with
  | none     => (TimePointSec.fromIsoString P s).map ofSec
  | some dot => do
    let ms := (s.drop dot).set 0 0x31
    let ms := ms.rightpad 4 zero
    let sec ← TimePointSec.fromIsoString P s
    let ms ← toInt64 L ms
    return ofSec sec + Microseconds.milliseconds (ms - 1000)

-- A fraction of a second, in the unit of which there are `unit` in a second.
def fraction (unit : Nat) (digits : Bytes) : Nat :=
  Decimal.value digits * unit / 10 ^ digits.length

end TimePoint

-- The texts that the date library writes for the seconds from 1970 to 2106 are in the extended
-- format, and it reads them, with a fraction of a second behind them.
structure PosixTime.Exact (P : PosixTime) : Prop where
  extended : ∀ {secs}, secs < 2 ^ 32 → 5 ≤ (P.toIsoExtendedString (.ofNat secs)).length ∧
    (P.toIsoExtendedString (.ofNat secs)).getD 4 0 = Ascii.minus
  dot      : ∀ {secs}, secs < 2 ^ 32 → Ascii.dot ∉ P.toIsoExtendedString (.ofNat secs)
  parsed   : ∀ {secs digits}, secs < 2 ^ 32 → Decimal.Numeral digits →
    P.parseDelimitedTime (P.toIsoExtendedString (.ofNat secs) ++ Ascii.dot :: digits) =
      some ((secs : Int) * 1000000 + TimePoint.fraction 1000000 digits)

-- A text of a date and a fraction of a second, which the date library reads as what it means.
structure PosixTime.IsoString (P : PosixTime) (s : Bytes) (seconds : Int) (digits : Bytes) :
    Prop where
  text    : ∃ date, s = date ++ Ascii.dot :: digits ∧ Ascii.dot ∉ date
  numeral : Decimal.Numeral digits
  parsed  : TimePointSec.ptime P s =
    some (seconds * 1000000 + TimePoint.fraction 1000000 digits)

namespace TimePoint

open Ascii

variable {L : LexicalCast} {P : PosixTime} {s digits : Bytes} {n : Int}

section Padded

-- The digits behind a one, with zeros up to three places.
def padded (digits : Bytes) : Bytes :=
  (0x31 :: digits).rightpad 4 zero

theorem numeral_padded (h : Decimal.Numeral digits) : Decimal.Numeral (padded digits) := by
  refine ⟨by simp [padded, List.rightpad], fun d hd => ?_⟩
  rw [padded, List.rightpad, List.mem_append, List.mem_cons, List.mem_replicate] at hd
  cases hd
  case inl hd =>
    cases hd
    case inl hd => rw [hd]; decide
    case inr hd => exact h.digits d hd
  case inr hd => rw [hd.right]; decide

theorem value_padded (digits : Bytes) : Decimal.value (padded digits) =
    (10 ^ digits.length + Decimal.value digits) * 10 ^ (3 - digits.length) := by
  have hone : (0x31 : UInt8).toNat - 0x30 = 1 := rfl
  rw [padded, List.rightpad, Decimal.value_append, Decimal.value_zeros, Nat.add_zero,
    Decimal.value_cons, List.length_replicate, hone, Nat.one_mul, List.length_cons]
  congr 2
  omega

-- What the number has more than the milliseconds and the thousand for the one.
def surplus (digits : Bytes) : Nat :=
  if digits.length ≤ 3 then 0
  else 10 ^ digits.length + Decimal.value digits - 1000 -
    Decimal.value digits / 10 ^ (digits.length - 3)

theorem value_padded_eq (h : Decimal.Numeral digits) :
    Decimal.value (padded digits) = 1000 + fraction 1000 digits + surplus digits := by
  have hlt := Decimal.value_lt h.digits
  rw [value_padded, surplus, fraction]
  split
  case isTrue hle =>
    generalize Decimal.value digits = f at hlt
    generalize digits.length = k at hle hlt
    interval_cases k <;> omega
  case isFalse hle =>
    have hpow : 10 ^ digits.length = 10 ^ (digits.length - 3) * 1000 := by
      rw [← Nat.pow_add 10 (digits.length - 3) 3, Nat.sub_add_cancel (by omega)]
    have hten : 10 ^ 1 ≤ 10 ^ (digits.length - 3) := Nat.pow_le_pow_right (by decide) (by omega)
    have hdiv : Decimal.value digits * 1000 / 10 ^ digits.length =
        Decimal.value digits / 10 ^ (digits.length - 3) := by
      rw [hpow, Nat.mul_div_mul_right _ _ (by decide)]
    have hle' : Decimal.value digits / 10 ^ (digits.length - 3) ≤ Decimal.value digits :=
      Nat.div_le_self ..
    have hzero : 3 - digits.length = 0 := by omega
    rw [hdiv, hzero, Nat.pow_zero, Nat.mul_one]
    omega

theorem value_padded_lt (h : Decimal.Numeral digits)
    (hlt : Decimal.value (padded digits) < 2 ^ 63) :
    Decimal.value (padded digits) < 2 * 10 ^ 18 := by
  have hvalue := Decimal.value_lt h.digits
  have hpadded := value_padded digits
  by_cases hlength : digits.length ≤ 3
  case pos =>
    have hpow : 10 ^ digits.length * 10 ^ (3 - digits.length) = 1000 := by
      rw [← Nat.pow_add, Nat.add_sub_cancel' hlength]
    have hmul := Nat.mul_lt_mul_of_pos_right hvalue
      (Nat.pow_pos (show 0 < 10 by decide) : 0 < 10 ^ (3 - digits.length))
    rw [Nat.add_mul] at hpadded
    omega
  case neg =>
    have hzero : 3 - digits.length = 0 := by omega
    rw [hzero, Nat.pow_zero, Nat.mul_one] at hpadded
    have hle : digits.length ≤ 18 := by
      by_contra hgt
      have hpow : 10 ^ 19 ≤ 10 ^ digits.length :=
        Nat.pow_le_pow_right (by decide) (Nat.not_le.mp hgt)
      omega
    have hpow : 10 ^ digits.length ≤ 10 ^ 18 := Nat.pow_le_pow_right (by decide) hle
    omega

end Padded

section Parsed

theorem ofInt_add (a b : Int) : Int64.ofInt a + Int64.ofInt b = Int64.ofInt (a + b) := by
  apply Int64.toBitVec.inj
  simp

theorem ofInt_sub (a b : Int) : Int64.ofInt a - Int64.ofInt b = Int64.ofInt (a - b) := by
  rw [Int64.sub_eq_add_neg, Int64.neg_ofInt, ofInt_add, Int.sub_eq_add_neg]

theorem ofInt_mul (a b : Int) : Int64.ofInt a * Int64.ofInt b = Int64.ofInt (a * b) := by
  apply Int64.toBitVec.inj
  simp

theorem toInt64_ofInt (x : Int) : (UInt32.ofInt x).toUInt64.toInt64 = .ofInt (x % 2 ^ 32) := by
  rw [UInt32.ofInt]
  have hnonneg : 0 ≤ x % 2 ^ 32 := Int.emod_nonneg _ (by decide)
  have hlt : x % 2 ^ 32 < 2 ^ 32 := Int.emod_lt_of_pos _ (by decide)
  generalize x % 2 ^ 32 = y at hnonneg hlt
  obtain ⟨k, rfl⟩ := Int.eq_ofNat_of_zero_le hnonneg
  have hk : k < 2 ^ 32 := by omega
  rw [Int64.ofInt_eq_ofNat]
  apply Int64.toBitVec.inj
  apply BitVec.eq_of_toNat_eq
  simp
  omega

-- What is read from a date and a number of milliseconds, before it is cut to 64 bits.
def elapsedOf (ticks ms : Int) : Int :=
  ticks.tdiv 1000000 % 2 ^ 32 * 1000000 + (ms - 1000) * 1000

theorem ofSec_add (ticks ms : Int) :
    ofSec ⟨.ofInt (ticks.tdiv 1000000)⟩ + Microseconds.milliseconds (.ofInt ms - 1000) =
      ⟨⟨.ofInt (elapsedOf ticks ms)⟩⟩ := by
  have hmillion : (1000000 : Int64) = .ofInt 1000000 := rfl
  have hthousand : (1000 : Int64) = .ofInt 1000 := rfl
  change TimePoint.mk (Microseconds.mk (_ * 1000000 + (Int64.ofInt ms - 1000) * 1000)) = _
  rw [toInt64_ofInt, hmillion, hthousand, ofInt_sub, ofInt_mul, ofInt_mul, ofInt_add, elapsedOf]

theorem fromIsoString_eq (hL : L.Exact) (h : P.IsoString s n digits) :
    fromIsoString L P s =
      if Decimal.value (padded digits) < 2 ^ 63 then
        .ok ⟨⟨.ofInt (elapsedOf (n * 1000000 + fraction 1000000 digits)
          (Decimal.value (padded digits)))⟩⟩
      else .error .parseError := by
  obtain ⟨date, hs, hdot⟩ := h.text
  have hsec : TimePointSec.fromIsoString P s =
      .ok ⟨.ofInt ((n * 1000000 + fraction 1000000 digits).tdiv 1000000)⟩ := by
    rw [TimePointSec.fromIsoString, h.parsed]
  have hidx : s.findIdx? (· = dot) = some date.length := hs ▸ List.findIdx?_append_cons hdot
  have hms : ((s.drop date.length).set 0 0x31).rightpad 4 zero = padded digits := by
    rw [hs, List.drop_left]
    rfl
  rw [fromIsoString, hidx]
  dsimp only
  rw [hms, hsec, Except.ok_bind, toInt64, hL.toInt64 (numeral_padded h.numeral)]
  by_cases hlt : Decimal.value (padded digits) < 2 ^ 63
  case pos =>
    rw [if_pos hlt, if_pos hlt, ← ofSec_add]
    rfl
  case neg =>
    rw [if_neg hlt, if_neg hlt]
    rfl

end Parsed

section Correctness

theorem fraction_lt (h : Decimal.Numeral digits) {unit : Nat} (hu : 0 < unit) :
    fraction unit digits < unit := by
  refine Nat.div_lt_of_lt_mul ?_
  exact Nat.mul_lt_mul_of_pos_right (Decimal.value_lt h.digits) hu

-- The seconds are returned, and the fraction, cut off to milliseconds.
def Returns (L : LexicalCast) (P : PosixTime) (s : Bytes) (n : Int) (digits : Bytes) : Prop :=
  ∃ t, fromIsoString L P s = .ok t ∧
    t.elapsed.count.toInt = n * 1000000 + fraction 1000 digits * 1000

-- The seconds fit in 32 bits and there are at most three digits, or both errors cancel each other.
structure Sound (n : Int) (digits : Bytes) : Prop where
  nonneg  : 0 ≤ n
  fits    : n * 1000000 + fraction 1000 digits * 1000 < 2 ^ 63
  surplus : surplus digits = 1000 * (n - n % 2 ^ 32)

theorem dvd_of_dvd_thousand {a : Int} (h : ((2 ^ 64 : Nat) : Int) ∣ 1000 * a) :
    (2 ^ 61 : Int) ∣ a := by
  obtain ⟨q, hq⟩ := h
  have hmul : a * 125 = 2 ^ 61 * q := by
    push_cast at hq
    linarith
  exact Int.dvd_of_dvd_mul_left_of_gcd_one (Dvd.intro q hmul.symm) (by norm_num)

-- Numbers that differ by less than `2 ^ 64` are not the same number in 64 bits. It is the surplus
-- that cannot be larger, since the number of milliseconds is read from at most 19 digits.
theorem toInt_elapsedOf_iff {millis extra micros : Nat} (hlt : 1000 + millis + extra < 2 * 10 ^ 18)
    (hmillis : millis < 1000) (hmicros : micros < 1000000) :
    (Int64.ofInt (elapsedOf (n * 1000000 + micros) (1000 + millis + extra))).toInt =
        n * 1000000 + millis * 1000 ↔
      0 ≤ n ∧ n * 1000000 + millis * 1000 < 2 ^ 63 ∧ extra = 1000 * (n - n % 2 ^ 32) := by
  have hu0 := Int.emod_nonneg ((n * 1000000 + micros).tdiv 1000000) (b := 2 ^ 32) (by decide)
  have hu1 := Int.emod_lt_of_pos ((n * 1000000 + micros).tdiv 1000000) (b := 2 ^ 32) (by decide)
  have hu : 0 ≤ n → (n * 1000000 + micros).tdiv 1000000 % 2 ^ 32 = n % 2 ^ 32 := by
    intro hn
    rw [Int.tdiv_eq_ediv_of_nonneg (by omega)]
    congr 1
    omega
  have hsize : Int64.size = 2 ^ 64 := rfl
  rw [Int64.toInt_ofInt, elapsedOf, hsize]
  generalize (n * 1000000 + micros).tdiv 1000000 % 2 ^ 32 = u at hu0 hu1 hu
  generalize hx : u * 1000000 + (1000 + ↑millis + ↑extra - 1000) * 1000 = x
  constructor
  case mp =>
    intro h
    have hlow := Int.le_bmod (x := x) (m := 2 ^ 64) (by decide)
    have hhigh := Int.bmod_lt (x := x) (m := 2 ^ 64) (by decide)
    have hdvd := Int.dvd_bmod_sub_self (x := x) (m := 2 ^ 64)
    rw [h] at hlow hhigh hdvd
    have hdiff : n * 1000000 + millis * 1000 - x = 1000 * (1000 * (n - u) - extra) := by
      rw [← hx]
      ring
    rw [hdiff] at hdvd
    obtain ⟨r, hr⟩ := dvd_of_dvd_thousand hdvd
    clear hdvd hdiff hx h
    have hn : 0 ≤ n := by
      by_contra hn
      have hneg : r < 0 := by omega
      have hnonneg : 0 ≤ r := by omega
      omega
    have hr0 : r = 0 := by
      have hun := hu hn
      omega
    rw [hu hn, hr0] at hr
    omega
  case mpr =>
    intro ⟨hn, hfits, hextra⟩
    have hxn : x = n * 1000000 + millis * 1000 := by
      rw [← hx, hu hn, hextra]
      omega
    rw [hxn]
    exact Int.bmod_eq_of_le (by omega) (by omega)

theorem returns_iff (hL : L.Exact) (h : P.IsoString s n digits) :
    Returns L P s n digits ↔ Sound n digits := by
  have hpadded := value_padded_eq h.numeral
  have hlt := value_padded_lt h.numeral
  have hmillis := fraction_lt h.numeral (show 0 < 1000 by decide)
  have hmicros := fraction_lt h.numeral (show 0 < 1000000 by decide)
  have heq := fromIsoString_eq hL h
  rw [Returns, heq]
  by_cases hfits : Decimal.value (padded digits) < 2 ^ 63
  case pos =>
    rw [if_pos hfits, hpadded]
    rw [hpadded] at hfits hlt
    have hiff := toInt_elapsedOf_iff (n := n) (hlt hfits) hmillis hmicros
    constructor
    case mp =>
      intro ⟨t, ht, hcount⟩
      cases ht
      obtain ⟨hn, hbound, hsurplus⟩ := hiff.mp hcount
      exact ⟨hn, hbound, hsurplus⟩
    case mpr => exact fun hs => ⟨_, rfl, hiff.mpr ⟨hs.nonneg, hs.fits, hs.surplus⟩⟩
  case neg =>
    rw [if_neg hfits]
    constructor
    case mp  => intro ⟨t, ht, _⟩; cases ht
    case mpr =>
      intro hs
      have hnonneg := hs.nonneg
      have hbound := hs.fits
      have hsurplus := hs.surplus
      omega

-- The number of microseconds, where it is not negative.
theorem toNat_count {count : Int64} (h : 0 ≤ count.toInt) :
    (count.toUInt64.toNat : Int) = count.toInt := by
  have hcast : count.toInt = if 2 * count.toUInt64.toNat < 2 ^ 64 then (count.toUInt64.toNat : Int)
      else count.toUInt64.toNat - 2 ^ 64 :=
    BitVec.toInt_eq_toNat_cond count.toBitVec
  have hlt := count.toUInt64.toNat_lt
  rw [hcast] at h ⊢
  split at h <;> omega

-- The points in time that are whole milliseconds, from 1970 to 2106.
structure Whole (t : TimePoint) : Prop where
  nonneg : 0 ≤ t.elapsed.count.toInt
  lt     : t.elapsed.count.toInt < 2 ^ 32 * 1000000
  millis : t.elapsed.count.toInt % 1000 = 0

-- The text is that of the whole second, and three digits.
theorem isoString_text (hL : L.Exact) (hP : P.Exact) {t : TimePoint} (ht : Whole t) :
    ∃ digits, digits.length = 3 ∧ fraction 1000 digits * 1000 = t.elapsed.count.toInt % 1000000 ∧
      P.IsoString (text L P t) (t.elapsed.count.toInt / 1000000) digits := by
  have hnonneg := ht.nonneg
  have hlt := ht.lt
  have hmillis := ht.millis
  have hcount := toNat_count ht.nonneg
  have hle : 0 ≤ t.elapsed.count := by
    rw [Int64.le_iff_toInt_le]
    exact hnonneg
  rw [text]
  dsimp only
  rw [if_pos hle]
  generalize t.elapsed.count.toInt = count at hnonneg hlt hmillis hcount
  generalize t.elapsed.count.toUInt64 = c at hcount
  have hmsec : (c % 1000000 / 1000 + 1000).toNat = c.toNat % 1000000 / 1000 + 10 ^ 3 := by
    have hmillion : (1000000 : UInt64).toNat = 1000000 := rfl
    have hthousand : (1000 : UInt64).toNat = 1000 := rfl
    rw [UInt64.toNat_add, UInt64.toNat_div, UInt64.toNat_mod, hmillion, hthousand]
    omega
  have hplaces := Decimal.tail_ofNat (show c.toNat % 1000000 / 1000 < 10 ^ 3 by omega)
  have hsecs : (c / 1000000).toInt64 = .ofNat (c.toNat / 1000000) := by
    have hlt := c.toNat_lt
    apply Int64.toBitVec.inj
    apply BitVec.eq_of_toNat_eq
    simp
    omega
  rw [hL.ofUint64, hmsec, hsecs]
  generalize (Decimal.ofNat (c.toNat % 1000000 / 1000 + 10 ^ 3)).tail = digits at hplaces
  have hsec : c.toNat / 1000000 < 2 ^ 32 := by omega
  have hnumeral : Decimal.Numeral digits :=
    ⟨List.ne_nil_of_length_pos (by rw [hplaces.length]; decide), hplaces.digits⟩
  refine ⟨digits, hplaces.length, ?_, ⟨_, rfl, hP.dot hsec⟩, hnumeral, ?_⟩
  case refine_1 =>
    rw [fraction, hplaces.value, hplaces.length]
    omega
  case refine_2 =>
    obtain ⟨hlength, hminus⟩ := hP.extended hsec
    have hquot : ((c.toNat / 1000000 : Nat) : Int) = count / 1000000 := by omega
    rw [TimePointSec.ptime, if_pos, hP.parsed hsec hnumeral, hquot]
    rw [List.length_append, List.getD_append _ _ _ _ hlength]
    exact ⟨by omega, hminus⟩

theorem fromIsoString_text (hL : L.Exact) (hP : P.Exact) {t : TimePoint} (ht : Whole t) :
    fromIsoString L P (text L P t) = .ok t := by
  obtain ⟨digits, hlength, hfraction, hiso⟩ := isoString_text hL hP ht
  have hnonneg := ht.nonneg
  have hlt := ht.lt
  have hsound : Sound (t.elapsed.count.toInt / 1000000) digits := by
    refine ⟨by omega, by omega, ?_⟩
    rw [surplus, if_pos (Nat.le_of_eq hlength)]
    omega
  obtain ⟨t', ht', hcount⟩ := (returns_iff hL hiso).mpr hsound
  have heq : t'.elapsed.count = t.elapsed.count := by
    rw [← Int64.toInt_inj, hcount, hfraction]
    omega
  rw [ht']
  cases t'
  cases t
  exact congrArg (Except.ok ∘ TimePoint.mk) (Microseconds.ext heq)

end Correctness

-- A point in time is read back from its text. Of a text with a fraction of a second, what it means
-- is returned if and only if the condition holds.
theorem fromIsoString_correct_iff (hL : L.Exact) (hP : P.Exact) :
    (∀ t, Whole t → fromIsoString L P (text L P t) = .ok t) ∧
    ∀ s n digits, P.IsoString s n digits → (Returns L P s n digits ↔ Sound n digits) :=
  ⟨fun _ => fromIsoString_text hL hP, fun _ _ _ => returns_iff hL⟩

section FirstMinute

-- The dates of the first minute. Its seconds are not limited.
def firstMinute : PosixTime where
  toIsoExtendedString secs :=
    ascii "1970-01-01T00:00:" ++ (if secs < 10 then [zero] else []) ++
      Decimal.ofNat secs.toNatClampNeg
  toIsoString _        := []
  parseDelimitedTime s :=
    let second := s.drop 17
    some (Decimal.value (second.takeWhile (· ≠ dot)) * 1000000 +
      (fraction 1000000 (second.dropWhile (· ≠ dot)).tail : Nat))
  fromIsoString _      := none

theorem firstMinute_text {secs : Nat} (h : secs < 2 ^ 32) : ∃ ds,
    firstMinute.toIsoExtendedString (.ofNat secs) = ascii "1970-01-01T00:00:" ++ ds ∧
      (∀ d ∈ ds, isDigit d) ∧ Decimal.value ds = secs := by
  have hsecs : (Int64.ofNat secs).toNatClampNeg = secs := by
    rw [Int64.toNatClampNeg, Int64.toInt_ofNat_of_lt (by omega), Int.toNat_natCast]
  have hdigits := (Decimal.numeral_ofNat secs).digits
  refine ⟨_, List.append_assoc .., ?_⟩
  rw [hsecs]
  split
  case isTrue =>
    refine ⟨List.forall_mem_cons.mpr ⟨by decide, hdigits⟩, ?_⟩
    have hzero : zero.toNat - 0x30 = 0 := rfl
    rw [List.singleton_append, Decimal.value_cons, Decimal.value_ofNat, hzero, Nat.zero_mul,
      Nat.zero_add]
  case isFalse => exact ⟨hdigits, Decimal.value_ofNat secs⟩

theorem parse_firstMinute {ds : Bytes} (hds : ∀ d ∈ ds, isDigit d) (digits : Bytes) :
    firstMinute.parseDelimitedTime (ascii "1970-01-01T00:00:" ++ ds ++ dot :: digits) =
      some ((Decimal.value ds : Int) * 1000000 + fraction 1000000 digits) := by
  have hdot : ∀ d ∈ ds, decide (d ≠ dot) = true := by
    intro d hd
    rw [decide_eq_true_iff]
    rintro rfl
    exact absurd (hds _ hd) (by decide)
  have hsecond : (ascii "1970-01-01T00:00:" ++ ds ++ dot :: digits).drop 17 =
      ds ++ dot :: digits := by
    rw [List.append_assoc]
    rfl
  rw [firstMinute]
  dsimp only
  rw [hsecond, List.takeWhile_append_of_pos hdot, List.dropWhile_append_of_pos hdot,
    List.takeWhile_cons_of_neg (by decide), List.dropWhile_cons_of_neg (by decide),
    List.append_nil, List.tail_cons]

theorem length_firstMinute (ds : Bytes) : 5 ≤ (ascii "1970-01-01T00:00:" ++ ds).length := by
  have hlength : (ascii "1970-01-01T00:00:").length = 17 := rfl
  rw [List.length_append, hlength]
  omega

theorem firstMinute_exact : firstMinute.Exact where
  extended h := by
    obtain ⟨ds, htext, _⟩ := firstMinute_text h
    rw [htext]
    exact ⟨length_firstMinute ds, rfl⟩
  dot h := by
    obtain ⟨ds, htext, hdigits, _⟩ := firstMinute_text h
    rw [htext, List.mem_append, not_or]
    exact ⟨by decide, fun hdot => absurd (hdigits _ hdot) (by decide)⟩
  parsed h _ := by
    obtain ⟨ds, htext, hdigits, hvalue⟩ := firstMinute_text h
    rw [htext, parse_firstMinute hdigits, hvalue]

theorem isoString_firstMinute {ds digits : Bytes} (hds : ∀ d ∈ ds, isDigit d)
    (hdigits : Decimal.Numeral digits) :
    firstMinute.IsoString (ascii "1970-01-01T00:00:" ++ ds ++ dot :: digits) (Decimal.value ds)
      digits := by
  refine ⟨⟨_, rfl, ?_⟩, hdigits, ?_⟩
  case refine_1 =>
    rw [List.mem_append, not_or]
    exact ⟨by decide, fun hdot => absurd (hds _ hdot) (by decide)⟩
  case refine_2 =>
    rw [TimePointSec.ptime, if_pos, parse_firstMinute hds]
    rw [List.append_assoc]
    exact ⟨length_firstMinute _, rfl⟩

-- A second and a half, and a text with two digits.
theorem fromIsoString_correct_iff_firstMinute :
    fromIsoString .decimal firstMinute (text .decimal firstMinute ⟨⟨1500000⟩⟩) = .ok ⟨⟨1500000⟩⟩ ∧
      (Returns .decimal firstMinute (ascii "1970-01-01T00:00:01.25") 1 (ascii "25") ↔
        Sound 1 (ascii "25")) := by
  have h := fromIsoString_correct_iff LexicalCast.decimal_exact firstMinute_exact
  refine ⟨h.left _ ⟨by decide, by decide, by decide⟩, h.right _ _ _ ?_⟩
  exact @isoString_firstMinute (ascii "01") (ascii "25") (by decide +kernel)
    ⟨by decide +kernel, by decide +kernel⟩

-- With four digits, the one in front of them is ten thousand, but one thousand is subtracted.
theorem not_returns_four :
    firstMinute.IsoString (ascii "1970-01-01T00:00:00.0001") 0 (ascii "0001") ∧
      ¬Returns .decimal firstMinute (ascii "1970-01-01T00:00:00.0001") 0 (ascii "0001") := by
  have hread : fromIsoString .decimal firstMinute (ascii "1970-01-01T00:00:00.0001") =
      .ok ⟨⟨9001000⟩⟩ := by
    decide +kernel
  refine ⟨@isoString_firstMinute (ascii "00") (ascii "0001") (by decide +kernel)
    ⟨by decide +kernel, by decide +kernel⟩, fun ⟨t, ht, hcount⟩ => ?_⟩
  rw [hread] at ht
  cases ht
  exact absurd hcount (by decide +kernel)

end FirstMinute

end TimePoint
