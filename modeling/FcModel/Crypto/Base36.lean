import FcModel.Crypto.Bigint
import FcModel.Lib.Except
import FcModel.Lib.IntegerType

-- `fc::to_base36` and `fc::from_base36`.

namespace Base36

open MutableVariantObject Bigint

-- The ways in which the functions do not return: an `int` overflows, memory outside of a buffer is
-- accessed, or a vector is given a negative size.
inductive Error
  | overflow
  | access
  | length
deriving DecidableEq, Repr

def arith (x : Int) : Except Error Int :=
  match IntegerType.int.arith x with
  | some x => .ok x
  | none   => .error .overflow

def base36 : Bytes :=
  ascii "0123456789abcdefghijklmnopqrstuvwxyz"

def char (i : Nat) : UInt8 :=
  base36.getD i 0

abbrev zero : UInt8 := 0x30

-- `bigint::operator /=`: the new value, and what is returned, which is the value as it was before.
def divAssign (n a : Nat) : Nat × Nat :=
  let tmp := n / a
  (tmp, n)

-- Rounding to the nearest `double`, which has 53 bits. Of two of them it is the even one.
def roundToDouble (n : Nat) : Nat :=
  let ulp := 2 ^ (n.log2 - 52)
  let q := n / ulp
  let r := n % ulp
  if ulp < 2 * r ∨ 2 * r = ulp ∧ q % 2 = 1 then (q + 1) * ulp else q * ulp

-- `static_cast<size_t>( len * 1.6 )`. The factor is 7205759403792794 / 2 ^ 52.
def estimate (len : Nat) : Nat :=
  roundToDouble (roundToDouble len * 7205759403792794) / 2 ^ 52

section Encoding

-- The buffer, and the index `pos`.
abbrev Buffer := Bytes × Int

-- `out[ pos ] = c`.
def put (c : UInt8) (s : Buffer) : Except Error Buffer :=
  if 0 ≤ s.2 ∧ s.2 < s.1.length then .ok (s.1.set s.2.toNat c, s.2) else .error .access

-- `out[ --pos ] = c`.
def push (c : UInt8) (s : Buffer) : Except Error Buffer := do
  let pos ← arith (s.2 - 1)
  put c (s.1, pos)

-- The first loop of `to_base36`.
def digitLoop (value : Nat) (s : Buffer) : Except Error Buffer := do
  let s ← if value ≠ 0 then push (char (value % 36)) s else .ok s
  if (divAssign value 36).2 ≠ 0 then digitLoop (divAssign value 36).1 s else .ok s
termination_by value
decreasing_by
  rename_i h
  exact Nat.div_lt_self (Nat.pos_of_ne_zero h) (by decide)

-- The second one.
def zeroLoop : Bytes → Buffer → Except Error Buffer
  | [], s     => .ok s
  | b :: q, s => if b = 0 then do zeroLoop q (← push zero s) else .ok s

-- The number that is encoded. A zero is put before a byte that would be taken for negative.
def source (data : Bytes) : Except Error Nat := do
  let srcLen := IntegerType.int.convert data.length
  if 0x80 ≤ data.headD 0 then
    let srcLen ← arith (srcLen + 1)
    return ofBytes ((0 :: data).take (srcLen % 2 ^ 32).toNat)
  else return ofBytes (data.take (srcLen % 2 ^ 32).toNat)

def toBase36 (data : Bytes) : Except Error Bytes := do
  if data.length = 0 then return []
  else
    let value ← source data
    let out : Bytes := .replicate (estimate data.length + 2) 0
    let s ← put 0 (out, IntegerType.int.convert (out.length - 1))
    let s ← digitLoop value s
    let s ← zeroLoop data s
    return cStr (s.1.drop s.2.toNat)

end Encoding

section Decoding

-- The value of a character, if it is known.
def digit (c : UInt8) : Option Nat :=
  if 0x30 ≤ c ∧ c ≤ 0x39 then some (c.toNat - 0x30)
  else if 0x61 ≤ c ∧ c ≤ 0x7a then some (10 + c.toNat - 0x61)
  else if 0x41 ≤ c ∧ c ≤ 0x5a then some (10 + c.toNat - 0x41)
  else none

-- The loop over the characters, from the last one on.
def valueLoop (pos value : Nat) : Bytes → Nat
  | []     => value
  | c :: q =>
    match digit c with
    | some d => valueLoop (pos + 1) (value + 36 ^ pos * d) q
    | none   => valueLoop (pos + 1) value q

-- `while( len > 0 && *first == 0 )`.
def trim (len : Int) : Bytes → Int × Bytes
  | []         => (len, [])
  | b :: first => if 0 < len ∧ b = 0 then trim (len - 1) first else (len, b :: first)

def fromBase36 (b36 : Bytes) : Except Error Bytes := do
  if b36 = [] then return []
  else
    let bytes := toBytes (valueLoop 0 0 b36.reverse)
    let leadingZeros ← arith ((cStr b36).takeWhile (· = zero)).length
    let (len, first) := trim (IntegerType.int.convert bytes.length) bytes
    let size ← arith (leadingZeros + len)
    if size < 0 then throw .length
    else if len < 0 then throw .access
    else return .replicate leadingZeros.toNat 0 ++ first.take len.toNat

end Decoding

section Estimate

variable {n : Nat}

-- Rounding goes up by less than one unit, and not below a multiple of the unit.
theorem roundToDouble_spec {m : Nat} (hm : 2 ^ (n.log2 - 52) * m ≤ n) :
    2 ^ (n.log2 - 52) * m ≤ roundToDouble n ∧ roundToDouble n ≤ n + 2 ^ (n.log2 - 52) := by
  rw [roundToDouble]
  have hpos : 0 < 2 ^ (n.log2 - 52) := Nat.two_pow_pos _
  generalize 2 ^ (n.log2 - 52) = ulp at hm hpos
  have hq : m ≤ n / ulp := (Nat.le_div_iff_mul_le hpos).mpr (by rwa [Nat.mul_comm])
  have hmul : ulp * m ≤ n / ulp * ulp := by
    rw [Nat.mul_comm]
    exact Nat.mul_le_mul_right _ hq
  have hdiv : n / ulp * ulp ≤ n := Nat.div_mul_le_self _ _
  split
  case isTrue =>
    rw [Nat.succ_mul]
    omega
  case isFalse => omega

theorem roundToDouble_of_lt (h : n < 2 ^ 53) : roundToDouble n = n := by
  have hlog : n.log2 - 52 = 0 := by
    by_cases h0 : n = 0
    case pos => rw [h0]; rfl
    case neg =>
      have := (Nat.log2_lt h0).mpr h
      omega
  have hdown : ¬(1 < 2 * 0 ∨ 2 * 0 = 1 ∧ n % 2 = 1) := by omega
  rw [roundToDouble, hlog, Nat.pow_zero, Nat.div_one, Nat.mod_one, if_neg hdown, Nat.mul_one]

-- The product is a multiple of 0.2, up to less than that, and is not rounded across an integer.
theorem estimate_eq {len : Nat} (h : len < 2 ^ 31) : estimate len = 8 * len / 5 := by
  have hlen : roundToDouble len = len := roundToDouble_of_lt (Nat.lt_trans h (by decide))
  rw [estimate, hlen]
  have hlower : 2 ^ 52 * (8 * len / 5) ≤ len * 7205759403792794 := by omega
  have hupper : len * 7205759403792794 + 2 ^ 31 < 2 ^ 52 * (8 * len / 5) + 2 ^ 52 := by omega
  have hlt : len * 7205759403792794 < 2 ^ (31 + 53) := by
    rw [Nat.pow_add]
    exact Nat.mul_lt_mul'' h (by decide)
  generalize len * 7205759403792794 = n at hlower hupper hlt
  generalize 8 * len / 5 = q at hlower hupper ⊢
  have hulp : n.log2 - 52 ≤ 31 := by
    by_cases h0 : n = 0
    case pos =>
      rw [h0]
      decide
    case neg =>
      have := (Nat.log2_lt h0).mpr hlt
      omega
  have hpow : 2 ^ (n.log2 - 52) ≤ 2 ^ 31 := Nat.pow_le_pow_right (by decide) hulp
  have hsplit : 2 ^ (n.log2 - 52) * 2 ^ (52 - (n.log2 - 52)) = 2 ^ 52 := by
    rw [← Nat.pow_add, Nat.add_sub_cancel' (Nat.le_trans hulp (by decide))]
  rw [← hsplit, Nat.mul_assoc] at hlower
  obtain ⟨hl, hu⟩ := roundToDouble_spec hlower
  rw [← Nat.mul_assoc, hsplit] at hl
  generalize roundToDouble n = r at hl hu ⊢
  omega

end Estimate

section Encoded

variable {size n z k : Nat} {t : Bytes} {s : Buffer}

-- The buffer ends with a text and the NUL behind it, and the index is where the text begins.
structure Written (size : Nat) (t : Bytes) (s : Buffer) : Prop where
  fits   : t.length + 1 ≤ size
  length : s.1.length = size
  pos    : s.2 = (size - (t.length + 1) : Nat)
  text   : s.1.drop (size - (t.length + 1)) = t ++ [0]

theorem put_of_lt {out : Bytes} {p : Nat} (c : UInt8) (h : p < out.length) :
    put c (out, p) = .ok (out.set p c, p) := by
  rw [put, if_pos (by dsimp only; omega)]
  rfl

theorem arith_of_lt {p : Nat} (h : p < 2 ^ 31) : arith p = .ok p := by
  have hr : IntegerType.int.Represents p := by
    refine And.intro ?_ ?_
    · change (-2 ^ 31 : Int) ≤ p
      omega
    · change (p : Int) ≤ 2 ^ 31 - 1
      omega
  rw [arith, IntegerType.arith_of_represents hr]

-- There is room for one more character.
theorem push_written (c : UInt8) (h : Written size t s) (hfits : t.length + 2 ≤ size)
    (hmax : size ≤ 2 ^ 31) : ∃ s', push c s = .ok s' ∧ Written size (c :: t) s' := by
  obtain ⟨out, pos⟩ := s
  obtain ⟨-, hlen, hpos, htext⟩ := h
  dsimp only at hlen hpos htext
  have hp : pos - 1 = (size - (t.length + 2) : Nat) := by omega
  have hlt : size - (t.length + 2) < out.length := by omega
  refine ⟨(out.set (size - (t.length + 2)) c, (size - (t.length + 2) : Nat)), ?_, ?_⟩
  case refine_1 =>
    rw [push, hp, arith_of_lt (by omega), Except.ok_bind, put_of_lt c hlt]
  case refine_2 =>
    refine ⟨hfits, by rw [List.length_set, hlen], rfl, ?_⟩
    have hnext : size - (t.length + 2) + 1 = size - (t.length + 1) := by omega
    rw [List.length_cons, List.drop_eq_getElem_cons (by rwa [List.length_set]),
      List.getElem_set_self, List.drop_set_of_lt (by omega), hnext, htext]
    rfl

theorem digitLoop_eq (value : Nat) (s : Buffer) : digitLoop value s =
    if value = 0 then .ok s
    else push (char (value % 36)) s >>= digitLoop (value / 36) := by
  rw [digitLoop]
  by_cases h : value = 0
  case pos => simp [h, divAssign, Except.ok_bind]
  case neg => simp [h, divAssign]

theorem digitLoop_written (h : Written size t s) (hmax : size ≤ 2 ^ 31)
    (hfits : (Nat.digits 36 n).length + t.length + 1 ≤ size) :
    ∃ s', digitLoop n s = .ok s' ∧
      Written size ((Nat.digits 36 n).reverse.map char ++ t) s' := by
  induction n using Nat.strongRecOn generalizing t s
  case ind n hi =>
    rw [digitLoop_eq]
    split
    case isTrue h0 =>
      subst h0
      exact ⟨s, rfl, h⟩
    case isFalse h0 =>
      have hpos := Nat.pos_of_ne_zero h0
      rw [Nat.digits_def' (by decide) hpos, List.length_cons] at hfits
      obtain ⟨s1, hs, h1⟩ := push_written (char (n % 36)) h (by omega) hmax
      obtain ⟨s2, hs2, h2⟩ := hi (n / 36) (Nat.div_lt_self hpos (by decide)) h1
        (by rw [List.length_cons]; omega)
      refine ⟨s2, by rw [hs, Except.ok_bind, hs2], ?_⟩
      rw [Nat.digits_def' (by decide) hpos]
      simpa using h2

theorem zeroLoop_written (h : Written size t s) (hmax : size ≤ 2 ^ 31)
    (hfits : z + t.length + 1 ≤ size) :
    ∃ s', zeroLoop (data z n) s = .ok s' ∧ Written size (.replicate z zero ++ t) s' := by
  induction z generalizing t s
  case zero =>
    refine ⟨s, ?_, h⟩
    have hhead := takeWhile_data 0 n
    cases hd : data 0 n
    case nil => rfl
    case cons b q =>
      rw [hd] at hhead
      rw [zeroLoop, if_neg]
      intro hb
      simp [hb] at hhead
  case succ z hi =>
    obtain ⟨s1, hs, h1⟩ := push_written zero h (by omega) hmax
    obtain ⟨s2, hs2, h2⟩ := hi h1 (by rw [List.length_cons]; omega)
    refine ⟨s2, ?_, ?_⟩
    case refine_1 =>
      change (if (0 : UInt8) = 0 then do zeroLoop (data z n) (← push zero s) else .ok s) = _
      rw [if_pos rfl, hs, Except.ok_bind, hs2]
    case refine_2 =>
      rw [List.replicate_succ', List.append_assoc]
      exact h2

end Encoded

section Encoding

variable {z n : Nat}

-- A number of zeros before a number, as a text.
def text (z n : Nat) : Bytes :=
  .replicate z zero ++ (Nat.digits 36 n).reverse.map char

-- As `256 ^ 5 ≤ 36 ^ 8`, there are at most 1.6 times as many digits, and one more.
theorem length_digits_le (n : Nat) :
    (Nat.digits 36 n).length ≤ 8 * (toBytes n).length / 5 + 1 := by
  have hlen : (toBytes n).length = (Nat.digits 256 n).length := by simp [toBytes]
  have hlt : n < 256 ^ (Nat.digits 256 n).length := Nat.lt_base_pow_length_digits (by decide)
  rw [hlen]
  generalize (Nat.digits 256 n).length = k at hlt
  by_cases h0 : n = 0
  case pos => simp [h0]
  case neg =>
    have hle : 36 ^ ((Nat.digits 36 n).length - 1) ≤ n := by
      have hbase := Nat.base_pow_length_digits_le 36 n (by decide) h0
      have hd : (Nat.digits 36 n).length ≠ 0 := by
        rw [ne_eq, List.length_eq_zero_iff, Nat.digits_eq_nil_iff_eq_zero]
        exact h0
      obtain ⟨e, he⟩ := Nat.exists_eq_succ_of_ne_zero hd
      rw [he, Nat.pow_succ] at hbase
      rw [he]
      simp only [Nat.succ_eq_add_one, Nat.add_sub_cancel]
      omega
    have hpow : 36 ^ (5 * ((Nat.digits 36 n).length - 1)) < 36 ^ (8 * k) := calc
      36 ^ (5 * ((Nat.digits 36 n).length - 1))
        = (36 ^ ((Nat.digits 36 n).length - 1)) ^ 5 := by rw [Nat.mul_comm, Nat.pow_mul]
      _ < (256 ^ k) ^ 5 := Nat.pow_lt_pow_left (hle.trans_lt hlt) (by decide)
      _ = (256 ^ 5) ^ k := by rw [← Nat.pow_mul, ← Nat.pow_mul, Nat.mul_comm]
      _ ≤ (36 ^ 8) ^ k := Nat.pow_le_pow_left (by decide) k
      _ = 36 ^ (8 * k) := by rw [← Nat.pow_mul]
    have := (Nat.pow_lt_pow_iff_right (by decide)).mp hpow
    omega

theorem source_eq {x : Bytes} (h : x.length < 2 ^ 31 - 1) : source x = .ok (ofBytes x) := by
  have hconv : IntegerType.int.convert x.length = x.length := by
    rw [IntegerType.int_convert, if_pos (by omega)]
    omega
  have htake : ((x.length : Int) % 2 ^ 32).toNat = x.length := by omega
  have hlt : x.length + 1 < 2 ^ 31 := by omega
  have harith : arith ((x.length : Int) + 1) = .ok ((x.length : Int) + 1) := arith_of_lt hlt
  have hnext : (((x.length : Int) + 1) % 2 ^ 32).toNat = x.length + 1 := by omega
  have hzero : ofBytes (0 :: x) = ofBytes x := by
    change ofBytes ([0] ++ x) = _
    rw [ofBytes_append]
    exact Nat.add_eq_left.mpr (Nat.mul_eq_zero.mpr (Or.inr rfl))
  rw [source, hconv]
  split
  case isTrue =>
    rw [harith, Except.ok_bind, hnext, List.take_of_length_le (by rw [List.length_cons]), hzero]
    rfl
  case isFalse =>
    rw [htake, List.take_length]
    rfl

theorem char_spec {i : Nat} (h : i < 36) :
    char i ≠ 0 ∧ digit (char i) = some i ∧ (char i = zero ↔ i = 0) := by
  have hall : ∀ i : Fin 36, char i ≠ 0 ∧ digit (char i) = some i.val ∧
      (char i = zero ↔ i.val = 0) := by decide +kernel
  exact hall ⟨i, h⟩

theorem digits_lt {i : Nat} (h : i ∈ (Nat.digits 36 n).reverse) : i < 36 :=
  Nat.digits_lt_base (by decide) (List.mem_reverse.mp h)

theorem cStr_text (z n : Nat) : cStr (text z n) = text z n := by
  refine cStr_eq_self fun h => ?_
  cases List.mem_append.mp h
  case inl h => exact absurd (List.eq_of_mem_replicate h) (by decide)
  case inr h =>
    obtain ⟨i, hi, hc⟩ := List.mem_map.mp h
    exact (char_spec (digits_lt hi)).left hc

theorem cStr_append_zero {s : Bytes} (h : cStr s = s) : cStr (s ++ [0]) = s := by
  have hall := List.takeWhile_eq_self_iff.mp h
  rw [cStr, List.takeWhile_append_of_pos hall]
  simp

theorem length_text (z n : Nat) : (text z n).length = z + (Nat.digits 36 n).length := by
  simp [text]

-- The buffer with the NUL at its end.
theorem written_nil {size : Nat} (h : 0 < size) (hmax : size ≤ 2 ^ 31) :
    ∃ s, put 0 (.replicate size 0, IntegerType.int.convert (size - 1)) = .ok s ∧
      Written size [] s := by
  obtain ⟨p, rfl⟩ := Nat.exists_eq_succ_of_ne_zero h.ne'
  have hconv : IntegerType.int.convert ((p + 1 : Nat) - 1) = p := by
    rw [show ((p + 1 : Nat) : Int) - 1 = p by omega, IntegerType.int_convert, if_pos (by omega)]
    omega
  have hlen : p < (List.replicate (p + 1) (0 : UInt8)).length := by
    rw [List.length_replicate]
    exact Nat.lt_succ_self p
  refine ⟨_, by rw [hconv, put_of_lt 0 hlen], by simp, by simp, by simp, ?_⟩
  simp

theorem toBase36_data (h : z + (toBytes n).length < 5 * 2 ^ 28) :
    toBase36 (data z n) = .ok (text z n) := by
  have hlen := length_data z n
  rw [toBase36]
  split
  case isTrue h0 =>
    rw [h0] at hlen
    have hz : z = 0 := by omega
    have hn := ofBytes_data z n
    rw [List.eq_nil_of_length_eq_zero h0] at hn
    have h00 : ofBytes [] = 0 := rfl
    rw [hz, ← hn, h00]
    rfl
  case isFalse h0 =>
    have hdigits := length_digits_le n
    rw [source_eq (by omega), Except.ok_bind, ofBytes_data, hlen, estimate_eq (by omega)]
    generalize (toBytes n).length = k at h hdigits
    obtain ⟨s0, hs0, h0⟩ := @written_nil (8 * (z + k) / 5 + 2) (by omega) (by omega)
    obtain ⟨s1, hs1, h1⟩ := digitLoop_written (n := n) h0 (by omega)
      (by rw [List.length_nil]; omega)
    obtain ⟨s2, hs2, h2⟩ := zeroLoop_written (n := n) (z := z) h1 (by omega)
      (by simp only [List.length_append, List.length_map, List.length_reverse,
        List.length_nil]; omega)
    dsimp only
    rw [List.length_replicate, hs0, Except.ok_bind, hs1, Except.ok_bind, hs2, Except.ok_bind,
      h2.pos, Int.toNat_natCast,
      h2.text, List.append_nil]
    exact congrArg Except.ok (cStr_append_zero (cStr_text z n))

end Encoding

section Decoding

variable {z n : Nat} {s y : Bytes}

theorem valueLoop_map {ds : List Nat} {pos value : Nat} (h : ∀ d ∈ ds, d < 36) :
    valueLoop pos value (ds.map char) = value + 36 ^ pos * Nat.ofDigits 36 ds := by
  induction ds generalizing pos value
  case nil          => rfl
  case cons d ds hi =>
    obtain ⟨hd, hds⟩ := List.forall_mem_cons.mp h
    rw [List.map_cons, valueLoop, (char_spec hd).right.left]
    dsimp only
    rw [hi hds, Nat.ofDigits_cons, Nat.pow_succ]
    ring

theorem valueLoop_text (z n : Nat) : valueLoop 0 0 (text z n).reverse = n := by
  have hzero : char 0 = zero := by decide +kernel
  have hrev : (text z n).reverse = (Nat.digits 36 n ++ List.replicate z 0).map char := by
    simp [text, hzero]
  rw [hrev, valueLoop_map, Nat.ofDigits_append_replicate_zero, Nat.ofDigits_digits]
  · omega
  · intro d hd
    cases List.mem_append.mp hd
    case inl hd => exact Nat.digits_lt_base (by decide) hd
    case inr hd =>
      rw [List.eq_of_mem_replicate hd]
      decide

theorem takeWhile_text (z n : Nat) : (text z n).takeWhile (· = zero) = .replicate z zero := by
  have hhead : ((Nat.digits 36 n).reverse.map char).takeWhile (· = zero) = [] := by
    rw [List.takeWhile_eq_nil_iff]
    intro hpos
    have hne : Nat.digits 36 n ≠ [] := by
      intro hnil
      simp [hnil] at hpos
    have hn : n ≠ 0 := Nat.digits_ne_nil_iff_ne_zero.mp hne
    have hlt : (Nat.digits 36 n).getLast hne < 36 :=
      Nat.digits_lt_base (by decide) (List.getLast_mem hne)
    have hlast := (char_spec hlt).right.right.not.mpr (Nat.getLast_digit_ne_zero 36 hn)
    simpa [List.getLast_eq_getElem] using hlast
  rw [text, List.takeWhile_append_of_pos, hhead, List.append_nil]
  intro c hc
  simpa using List.eq_of_mem_replicate hc

-- A number begins with no zero.
theorem trim_toBytes (len : Int) (n : Nat) : trim len (toBytes n) = (len, toBytes n) := by
  have hhead := takeWhile_data 0 n
  rw [data, List.replicate_zero, List.nil_append] at hhead
  cases hb : toBytes n
  case nil => rfl
  case cons b q =>
    rw [hb] at hhead
    rw [trim, if_neg]
    intro h
    simp [h.right] at hhead

theorem fromBase36_text (h : z + (toBytes n).length < 2 ^ 31) :
    fromBase36 (text z n) = .ok (data z n) := by
  rw [fromBase36]
  split
  case isTrue h0 =>
    have hlen := length_text z n
    rw [h0, List.length_nil] at hlen
    have hz : z = 0 := by omega
    have hd : (Nat.digits 36 n).length = 0 := by omega
    have hn : n = 0 := Nat.digits_eq_nil_iff_eq_zero.mp (List.eq_nil_of_length_eq_zero hd)
    rw [hz, hn]
    rfl
  case isFalse =>
    have hconv : IntegerType.int.convert (toBytes n).length = (toBytes n).length := by
      rw [IntegerType.int_convert, if_pos (by omega)]
      omega
    rw [valueLoop_text, cStr_text, takeWhile_text, List.length_replicate, arith_of_lt (by omega),
      Except.ok_bind, hconv, trim_toBytes]
    dsimp only
    have hsum : arith ((z : Int) + (toBytes n).length) = .ok ((z : Int) + (toBytes n).length) :=
      arith_of_lt h
    rw [hsum, Except.ok_bind, if_neg (by omega), if_neg (by omega), Int.toNat_natCast,
      Int.toNat_natCast,
      List.take_length]
    rfl

theorem arith_ok {x y : Int} (h : arith x = .ok y) : y = x ∧ x < 2 ^ 31 := by
  rw [arith, IntegerType.int, IntegerType.arith] at h
  split at h
  case h_2 => cases h
  case h_1 a he =>
    split at he
    case isFalse => cases he
    case isTrue hr =>
      cases he
      cases h
      exact And.intro rfl (Int.lt_of_le_sub_one hr.right)

-- The sizes are added as `int`.
theorem length_of_fromBase36 (h : fromBase36 s = .ok y) : y.length < 2 ^ 31 := by
  rw [fromBase36] at h
  split at h
  case isTrue =>
    cases h
    decide
  case isFalse =>
    dsimp only at h
    generalize trim (IntegerType.int.convert (toBytes (valueLoop 0 0 s.reverse)).length)
      (toBytes (valueLoop 0 0 s.reverse)) = r at h
    cases hz : arith ((cStr s).takeWhile (· = zero)).length
    case error e =>
      rw [hz] at h
      cases h
    case ok leadingZeros =>
      rw [hz, Except.ok_bind] at h
      cases hs : arith (leadingZeros + r.1)
      case error e =>
        rw [hs] at h
        cases h
      case ok size =>
        obtain ⟨hz, -⟩ := arith_ok hz
        obtain ⟨hsum, hlt⟩ := arith_ok hs
        rw [hs, Except.ok_bind] at h
        split at h
        case isTrue => cases h
        case isFalse =>
          split at h
          case isTrue => cases h
          case isFalse =>
            cases h
            rw [List.length_append, List.length_replicate, List.length_take]
            omega

end Decoding

section RoundTrip

variable {x : Bytes}

-- The index does not fit into an `int`.
theorem toBase36_overflow (hl : 5 * 2 ^ 28 ≤ x.length) (hu : x.length < 2 ^ 31) (t : Bytes) :
    toBase36 x ≠ .ok t := by
  intro h
  rw [toBase36, if_neg (by omega), estimate_eq hu] at h
  cases hs : source x
  case error e =>
    rw [hs] at h
    cases h
  case ok value =>
    have hl : 2 ^ 31 ≤ 8 * x.length / 5 := by omega
    have hu : 8 * x.length / 5 + 1 < 2 ^ 32 := by omega
    generalize 8 * x.length / 5 = q at h hl hu
    have hconv : IntegerType.int.convert ((q + 2 : Nat) - 1) < 0 := by
      rw [show ((q + 2 : Nat) : Int) - 1 = (q + 1 : Nat) by omega, IntegerType.int_convert,
        if_neg (by omega)]
      omega
    have hput (out : Bytes) : put 0
        (out, IntegerType.int.convert ((q + 2 : Nat) - 1)) = .error .access :=
      if_neg fun hr => Int.not_le.mpr hconv hr.left
    rw [hs, Except.ok_bind] at h
    dsimp only at h
    rw [List.length_replicate, hput] at h
    cases h

theorem roundTrip_iff (x : Bytes) :
    (∃ t, toBase36 x = .ok t ∧ fromBase36 t = .ok x) ↔ x.length < 5 * 2 ^ 28 := by
  constructor
  case mp =>
    intro ⟨t, ht, hx⟩
    by_contra hl
    by_cases hu : x.length < 2 ^ 31
    case pos => exact toBase36_overflow (by omega) hu t ht
    case neg => exact hu (length_of_fromBase36 hx)
  case mpr =>
    intro h
    obtain ⟨z, hx⟩ := exists_data x
    generalize ofBytes x = n at hx
    subst hx
    rw [length_data] at h
    exact ⟨text z n, toBase36_data h, fromBase36_text (by omega)⟩

end RoundTrip

-- What is encoded is decoded again, and every index is one of the buffer, where the index fits into
-- an `int`.
theorem base36_exact_iff (x : Bytes) :
    (∃ t, toBase36 x = .ok t ∧ fromBase36 t = .ok x) ↔ x.length < 5 * 2 ^ 28 :=
  roundTrip_iff x

theorem not_base36_exact :
    ¬∃ t, toBase36 (.replicate (5 * 2 ^ 28) 0) = .ok t ∧
      fromBase36 t = .ok (.replicate (5 * 2 ^ 28) 0) := by
  intro h
  have hlt := (roundTrip_iff _).mp h
  rw [List.length_replicate] at hlt
  exact Nat.lt_irrefl _ hlt

end Base36
