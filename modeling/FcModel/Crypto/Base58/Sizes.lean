import FcModel.Crypto.Base58
import FcModel.Lib.Except
import FcModel.Lib.IntegerType

-- The functions of `fc::to_base58` and `fc::from_base58` with the sizes that they keep in an `int`
-- or an `unsigned int`.

namespace Base58

open MutableVariantObject Raw Bigint

-- `BN_mpi2bn`: a header of four bytes with the number of the bytes behind it, of which the first
-- has no sign bit. A header that does not fit the length is an error.
def mpi2bn (d : Bytes) (n : Int) : Option Nat :=
  if n < 4 then none
  else
    let len := ofBytes (d.take 4)
    if (len : Int) + 4 = n then some (ofBytes ((d.drop 4).take len)) else none

-- `BN_bn2mpi`.
def bn2mpi (bn : Nat) : Bytes :=
  (toLE 4 (getvch bn).length).reverse ++ (getvch bn).reverse

-- The ways in which decoding does not return: an exception, an overflow of an `int`, and a number
-- that is written past the end of a vector.
inductive Error
  | parse
  | overflow
  | access
deriving DecidableEq, Repr

namespace Sized

-- The result of `BN_mpi2bn` is not looked at: a number that is not read is zero as before.
def setvch (vch : Bytes) : Nat :=
  let nSize : UInt32 := .ofNat vch.length
  let vch2 := (toLE 4 nSize.toNat).reverse ++ vch.reverse
  (mpi2bn vch2 (IntegerType.int.convert vch2.length)).getD 0

def getvch (bn : Nat) : Except Error Bytes :=
  let mpi := bn2mpi bn
  let nSize : UInt32 := .ofNat mpi.length
  if nSize.toNat ≤ 4 then .ok []
  else if mpi.length ≤ nSize.toNat then .ok (mpi.drop 4).reverse
  else .error .access

-- `EncodeBase58`.
def encodeBase58 (d : Bytes) : Bytes :=
  let vchTmp := d.reverse ++ [0]
  let str := encodeLoop (setvch vchTmp) []
  let str := str ++ (d.takeWhile (· = 0)).map fun _ => char 0
  str.reverse

-- `DecodeBase58`, of a C string.
def decodeBase58 (str : Bytes) : Except Error Bytes :=
  let psz := (cStr str).dropWhile isspace
  match decodeLoop 0 psz with
  | none    => .error .parse
  | some bn => do
    let vchTmp := trimSign (← getvch bn)
    let nLeadingZeros := (psz.takeWhile (· = char 0)).length
    if IntegerType.int.max < nLeadingZeros then .error .overflow
    else return .replicate nLeadingZeros 0 ++ vchTmp.reverse

end Sized

def toBase58 (d : Bytes) : Bytes :=
  if d.length ≠ 0 then Sized.encodeBase58 d else []

def fromBase58 (base58Str : Bytes) : Except Error Bytes :=
  Sized.decodeBase58 base58Str

section Numbers

variable {d vch : Bytes} {bn n z : Nat}

theorem ofBytes_header {n : Nat} (h : n < 2 ^ 32) : ofBytes (toLE 4 n).reverse = n := by
  rw [ofBytes, List.reverse_reverse, ofLE_toLE]
  exact Nat.mod_eq_of_lt (Nat.lt_of_lt_of_eq h (by decide))

-- The first bytes of a number that has more of them.
theorem ofBytes_take_lt {k : Nat} (hk : k < d.length) (h0 : ofBytes d ≠ 0) :
    ofBytes (d.take k) < ofBytes d := by
  have happ := ofBytes_append (d.take k) (d.drop k)
  rw [List.take_append_drop] at happ
  have hpow : 256 ≤ 256 ^ (d.drop k).length := by
    refine Nat.le_self_pow ?_ 256
    rw [List.length_drop]
    omega
  have hmul := Nat.mul_le_mul_right (ofBytes (d.take k)) hpow
  omega

theorem setvch_eq_ofBytes (vch : Bytes) : setvch vch = ofBytes vch.reverse := by
  rw [ofBytes, List.reverse_reverse, ofLE_eq_ofDigits, setvch]

-- All the data are read, or only the first of them.
theorem sized_setvch (vch : Bytes) :
    (vch.length + 4 < 2 ^ 31 → Sized.setvch vch = setvch vch) ∧
    (2 ^ 31 ≤ vch.length + 4 →
      ∃ k < vch.length, Sized.setvch vch = ofBytes (vch.reverse.take k)) := by
  have hhead : ofBytes (((toLE 4 (vch.length % 2 ^ 32)).reverse ++ vch.reverse).take 4) =
      vch.length % 2 ^ 32 := by
    rw [List.take_left' (by simp), ofBytes_header (Nat.mod_lt _ (by decide))]
  have hlen : ((toLE 4 (vch.length % 2 ^ 32)).reverse ++ vch.reverse).length = vch.length + 4 := by
    simp only [List.length_append, List.length_reverse, length_toLE]
    omega
  have hset : Sized.setvch vch =
      (mpi2bn ((toLE 4 (vch.length % 2 ^ 32)).reverse ++ vch.reverse)
        (IntegerType.int.convert (vch.length + 4 : Nat))).getD 0 := by
    rw [← hlen]
    rfl
  have hc := IntegerType.int_convert (vch.length + 4)
  rw [hset, mpi2bn, hhead, List.drop_left' (by simp)]
  generalize IntegerType.int.convert (vch.length + 4 : Nat) = m at hc
  constructor
  case left =>
    intro h
    rw [if_pos (by omega)] at hc
    rw [if_neg (by omega), if_pos (by omega), Option.getD_some,
      List.take_of_length_le (by rw [List.length_reverse]; omega), setvch_eq_ofBytes]
  case right =>
    intro h
    split
    case isTrue  => exact ⟨0, by omega, rfl⟩
    case isFalse =>
      dsimp only
      split
      case isTrue he =>
        refine ⟨vch.length % 2 ^ 32, ?_, rfl⟩
        split at hc
        case isTrue  => omega
        case isFalse => omega
      case isFalse => exact ⟨0, by omega, rfl⟩

theorem length_bn2mpi (bn : Nat) : (bn2mpi bn).length = (getvch bn).length + 4 := by
  simp only [bn2mpi, List.length_append, List.length_reverse, length_toLE]
  omega

-- The number is written out, or nothing is, or more than there is room for.
theorem sized_getvch (bn : Nat) :
    ((getvch bn).length + 4 < 2 ^ 32 → Sized.getvch bn = .ok (getvch bn)) ∧
    (Sized.getvch bn = .ok (getvch bn) ∨ Sized.getvch bn = .ok [] ∨
      Sized.getvch bn = .error .access) := by
  have hmpi := length_bn2mpi bn
  have hsize : (UInt32.ofNat (bn2mpi bn).length).toNat = (bn2mpi bn).length % 2 ^ 32 :=
    UInt32.toNat_ofNat
  have hdrop : ((bn2mpi bn).drop 4).reverse = getvch bn := by
    rw [bn2mpi, List.drop_left' (by simp), List.reverse_reverse]
  rw [Sized.getvch, hdrop, hsize]
  constructor
  case left =>
    intro h
    rw [Nat.mod_eq_of_lt (by omega), if_pos (Nat.le_refl _)]
    split
    case isFalse   => rfl
    case isTrue h4 =>
      have hnil : getvch bn = [] := List.eq_nil_of_length_eq_zero (by omega)
      rw [hnil]
  case right =>
    split
    case isTrue  => exact Or.inr (Or.inl rfl)
    case isFalse =>
      split
      case isTrue  => exact Or.inl rfl
      case isFalse => exact Or.inr (Or.inr rfl)

end Numbers

section Texts

variable {x s : Bytes} {n m z : Nat}

-- A number of zeros before a number, as a text.
def text (z n : Nat) : Bytes :=
  (List.replicate z 0 ++ (Nat.digits 58 n).reverse).map char

-- The number that a text stands for.
def number (s : Bytes) : Nat :=
  Nat.ofDigits 58 (s.reverse.map chars.idxOf)

theorem char_idxOf {c : UInt8} (h : c ∈ chars) : chars.idxOf c < 58 ∧ char (chars.idxOf c) = c := by
  have hlt := List.idxOf_lt_length_of_mem h
  refine And.intro (Nat.lt_of_lt_of_eq hlt (by rw [chars_eq]; rfl)) ?_
  rw [char, List.getD_eq_getElem _ _ hlt]
  exact List.getElem_idxOf hlt

-- The digits of the number are the characters behind the leading ones.
theorem digits_number (hs : ∀ c ∈ s, c ∈ chars) (h : ∀ h : s ≠ [], s.head h ≠ char 0) :
    Nat.digits 58 (number s) = s.reverse.map chars.idxOf := by
  refine Nat.digits_ofDigits 58 (by decide) _ ?_ ?_
  · intro i hi
    obtain ⟨c, hc, rfl⟩ := List.mem_map.mp hi
    exact (char_idxOf (hs c (List.mem_reverse.mp hc))).left
  · intro hne hlast
    have hs' : s ≠ [] := by simpa using hne
    rw [List.getLast_map, List.getLast_reverse] at hlast
    have hc := (char_idxOf (hs _ (List.head_mem hs'))).right
    rw [hlast] at hc
    exact h hs' hc.symm

theorem number_zeros (z : Nat) (s : Bytes) : number (.replicate z (char 0) ++ s) = number s := by
  have h0 : chars.idxOf (char 0) = 0 := (char_spec (by decide)).2
  rw [number, List.reverse_append, List.reverse_replicate, List.map_append, List.map_replicate, h0]
  exact Nat.ofDigits_append_replicate_zero _

theorem exists_text (hs : ∀ c ∈ s, c ∈ chars) :
    s = text (s.takeWhile (· = char 0)).length (number s) := by
  have hzeros : s.takeWhile (· = char 0) =
      .replicate (s.takeWhile (· = char 0)).length (char 0) :=
    List.eq_replicate_iff.mpr ⟨rfl, fun c hc => by simpa using List.mem_takeWhile_imp hc⟩
  have hsplit : s = .replicate (s.takeWhile (· = char 0)).length (char 0) ++
      s.dropWhile (· = char 0) := by
    rw [← hzeros]
    exact List.takeWhile_append_dropWhile.symm
  have hrest : ∀ c ∈ s.dropWhile (· = char 0), c ∈ chars :=
    fun c hc => hs c ((List.dropWhile_sublist _).subset hc)
  have hnumber : number s = number (s.dropWhile (· = char 0)) := by
    conv_lhs => rw [hsplit]
    exact number_zeros _ _
  have hback : ((s.dropWhile (· = char 0)).map chars.idxOf).map char =
      s.dropWhile (· = char 0) := by
    rw [List.map_map]
    refine (List.map_congr_left fun c hc => ?_).trans (List.map_id _)
    exact (char_idxOf (hrest c hc)).right
  have hdigits := digits_number hrest fun h => by
    simpa using List.head_dropWhile_not (fun c : UInt8 => decide (c = char 0)) h
  rw [text, hnumber, hdigits, List.map_reverse, List.reverse_reverse, List.map_append,
    List.map_replicate, hback]
  exact hsplit

theorem decodeLoop_text (z n : Nat) : decodeLoop 0 (text z n) = some n := by
  rw [text, decodeLoop_map fun _ => lt_of_mem_digits, List.foldl_append, foldl_zeros, foldl_reverse,
    Nat.ofDigits_digits]

theorem text_inj (h : text z n = text z m) : n = m := by
  have hn := decodeLoop_text z n
  rw [h, decodeLoop_text] at hn
  exact (Option.some.inj hn).symm

theorem text_chars {c : UInt8} (h : c ∈ text z n) : c ∈ chars := by
  obtain ⟨i, hi, rfl⟩ := List.mem_map.mp h
  exact (char_spec (lt_of_mem_digits hi)).1

-- What is written for a number is read back, unless its size is not known.
theorem fromBase58_text (z n : Nat) : fromBase58 (text z n) = (do
    let v ← Sized.getvch n
    if IntegerType.int.max < z then .error .overflow
    else return .replicate z 0 ++ (trimSign v).reverse) := by
  rw [fromBase58, Sized.decodeBase58, psz_eq fun c hc => text_chars hc, decodeLoop_text]
  simp only [text, takeWhile_encoded, List.length_replicate]

theorem sized_encodeBase58 (d : Bytes) : Sized.encodeBase58 d =
    (encodeLoop (Sized.setvch (d.reverse ++ [0])) [] ++
      (d.takeWhile (· = 0)).map fun _ => char 0).reverse :=
  rfl

theorem encodeLoop_data (z n m : Nat) : (encodeLoop m [] ++
    ((data z n).takeWhile (· = 0)).map fun _ => char 0).reverse = text z m := by
  rw [encodeLoop_eq, takeWhile_data, text]
  simp

-- The number that is written for the data is theirs, or a smaller one.
theorem encodeBase58_data (z n : Nat) : ∃ m, Sized.encodeBase58 (data z n) = text z m ∧
    (z + (toBytes n).length + 5 < 2 ^ 31 → m = n) ∧
    (2 ^ 31 ≤ z + (toBytes n).length + 5 → n ≠ 0 → m < n) ∧ (n = 0 → m = 0) := by
  have hvch : ((data z n).reverse ++ [0]).reverse = .replicate 1 0 ++ data z n := by simp
  have hval : ofBytes (.replicate 1 0 ++ data z n) = n := by
    rw [ofBytes_append, ofBytes_zeros, Nat.mul_zero, Nat.add_zero, ofBytes_data]
  have hlen : (List.replicate 1 0 ++ data z n).length = z + (toBytes n).length + 1 := by
    rw [List.length_append, List.length_replicate, length_data]
    omega
  obtain ⟨hsmall, hlarge⟩ := sized_setvch ((data z n).reverse ++ [0])
  rw [← List.length_reverse, hvch, hlen] at hsmall hlarge
  rw [setvch_eq_ofBytes, hvch, hval] at hsmall
  refine ⟨Sized.setvch ((data z n).reverse ++ [0]), ?_, fun h => hsmall (by omega), ?_, ?_⟩
  case refine_1 =>
    exact (sized_encodeBase58 _).trans (encodeLoop_data ..)
  case refine_2 =>
    intro h h0
    obtain ⟨k, hk, he⟩ := hlarge (by omega)
    have hlt := ofBytes_take_lt (hk.trans_eq hlen.symm) (hval.trans_ne h0)
    rwa [hval, ← he] at hlt
  case refine_3 =>
    intro h0
    by_cases h : z + (toBytes n).length + 5 < 2 ^ 31
    case pos => exact (hsmall (by omega)).trans h0
    case neg =>
      obtain ⟨k, -, he⟩ := hlarge (by omega)
      have hz : List.replicate 1 0 ++ data z n = .replicate (1 + z) 0 := by
        rw [h0, data, ← List.append_assoc, List.replicate_append_replicate]
        exact List.append_nil _
      rw [he, hz, List.take_replicate, ofBytes_zeros]

theorem toBase58_eq (x : Bytes) : toBase58 x = Sized.encodeBase58 x := by
  cases x
  case cons => rfl
  case nil  =>
    obtain ⟨m, he, -, -, hzero⟩ := encodeBase58_data 0 0
    rw [hzero rfl] at he
    exact he.symm

-- Zeros and a number that both directions have room for.
def Fits (z n : Nat) : Prop :=
  z + (toBytes n).length + 5 < 2 ^ 31 ∨ n = 0 ∧ z < 2 ^ 31

theorem length_getvch_le (n : Nat) : (getvch n).length ≤ (toBytes n).length + 1 := by
  have hlen : ((Nat.digits 256 n).map UInt8.ofNat).length = (toBytes n).length := by
    rw [toBytes, List.length_reverse]
  rw [getvch]
  split
  case isTrue  => rw [List.length_append, hlen, List.length_singleton]
  case isFalse => rw [hlen]; omega

-- What is read back of a text: its number, or zero, if anything.
theorem fromBase58_text_ok (h : fromBase58 (text z n) = .ok x) :
    z < 2 ^ 31 ∧ (x = data z n ∨ x = data z 0) := by
  rw [fromBase58_text] at h
  have hz {v : Bytes} (h : (if IntegerType.int.max < z then .error .overflow
      else .ok (.replicate z 0 ++ (trimSign v).reverse)) = Except.ok (ε := Error) x) :
      z < 2 ^ 31 ∧ x = .replicate z 0 ++ (trimSign v).reverse := by
    split at h
    case isTrue       => cases h
    case isFalse hmax =>
      cases h
      change ¬(2 ^ 31 - 1 : Int) < z at hmax
      exact And.intro (by omega) rfl
  obtain hv | hv | hv := (sized_getvch n).right
  · rw [hv] at h
    obtain ⟨hlt, he⟩ := hz h
    rw [trimSign_getvch] at he
    exact And.intro hlt (Or.inl he)
  · rw [hv] at h
    obtain ⟨hlt, he⟩ := hz h
    exact And.intro hlt (Or.inr he)
  · rw [hv] at h
    cases h

theorem fromBase58_of_fits (h : Fits z n) : fromBase58 (text z n) = .ok (data z n) := by
  have hle := length_getvch_le n
  have hnil (h0 : n = 0) : (toBytes n).length = 0 := by rw [h0]; rfl
  unfold Fits at h
  have hz : ¬IntegerType.int.max < z := by
    change ¬(2 ^ 31 - 1 : Int) < z
    omega
  have hv := (sized_getvch n).left (by
    obtain h | ⟨h0, h⟩ := h
    · omega
    · have := hnil h0
      omega)
  rw [fromBase58_text, hv]
  rw [Except.ok_bind, if_neg hz, trimSign_getvch]
  rfl

theorem toBase58_of_fits (h : Fits z n) : toBase58 (data z n) = text z n := by
  obtain ⟨m, he, hsmall, -, hzero⟩ := encodeBase58_data z n
  have hm : m = n := by
    cases h
    case inl h => exact hsmall h
    case inr h => exact (hzero h.left).trans h.left.symm
  rw [toBase58_eq, he, hm]

theorem fits_of_toBase58 (hz : z < 2 ^ 31) (h : toBase58 (data z n) = text z n) : Fits z n := by
  obtain ⟨m, he, -, hlarge, -⟩ := encodeBase58_data z n
  rw [toBase58_eq, he] at h
  have hm := text_inj h
  unfold Fits
  by_contra hf
  have := hlarge (by omega) (by omega)
  omega

end Texts

section RoundTrip

variable {x s : Bytes}

theorem fromBase58_toBase58_iff (z n : Nat) :
    fromBase58 (toBase58 (data z n)) = .ok (data z n) ↔ Fits z n := by
  constructor
  case mp =>
    intro h
    obtain ⟨m, he, -, hlarge, -⟩ := encodeBase58_data z n
    rw [toBase58_eq, he] at h
    obtain ⟨hz, hx⟩ := fromBase58_text_ok h
    unfold Fits
    obtain hx | hx := hx
    · have hnm := data_inj hx
      omega
    · exact Or.inr (And.intro (data_inj hx) hz)
  case mpr =>
    intro h
    rw [toBase58_of_fits h, fromBase58_of_fits h]

theorem toBase58_fromBase58_iff (z n : Nat) :
    toBase58 <$> fromBase58 (text z n) = .ok (text z n) ↔ Fits z n := by
  constructor
  case mp =>
    intro h
    cases hd : fromBase58 (text z n)
    case error e =>
      rw [hd] at h
      cases h
    case ok d =>
      rw [hd] at h
      have ht := Except.ok.inj h
      obtain ⟨hz, hx | hx⟩ := fromBase58_text_ok hd
      · rw [hx] at ht
        exact fits_of_toBase58 hz ht
      · have hzero : Fits z 0 := Or.inr (And.intro rfl hz)
        rw [hx, toBase58_of_fits hzero] at ht
        rwa [← text_inj ht]
  case mpr =>
    intro h
    rw [fromBase58_of_fits h]
    exact congrArg Except.ok (toBase58_of_fits h)

theorem data_zeros_iff {z n : Nat} : (∀ b ∈ data z n, b = 0) ↔ n = 0 := by
  constructor
  case mp =>
    intro h
    rw [← ofBytes_data z n, List.eq_replicate_iff.mpr ⟨rfl, h⟩, ofBytes_zeros]
  case mpr =>
    intro h b hb
    rw [h, data] at hb
    exact List.eq_of_mem_replicate (by simpa [toBytes] using hb)

theorem fromBase58_toBase58_bytes (x : Bytes) : fromBase58 (toBase58 x) = .ok x ↔
    x.length + 5 < 2 ^ 31 ∨ (∀ b ∈ x, b = 0) ∧ x.length < 2 ^ 31 := by
  obtain ⟨z, hx⟩ := exists_data x
  generalize ofBytes x = n at hx
  subst hx
  have hnil (h0 : n = 0) : (toBytes n).length = 0 := by rw [h0]; rfl
  rw [fromBase58_toBase58_iff, data_zeros_iff, length_data, Fits]
  refine or_congr_right (and_congr_right fun h0 => ?_)
  rw [hnil h0, Nat.add_zero]

theorem toBase58_fromBase58_chars (hs : ∀ c ∈ s, c ∈ chars) :
    toBase58 <$> fromBase58 s = .ok s ↔
      (s.takeWhile (· = char 0)).length + (toBytes (number s)).length + 5 < 2 ^ 31 ∨
      number s = 0 ∧ s.length < 2 ^ 31 := by
  have hlen (h0 : number s = 0) : s.length = (s.takeWhile (· = char 0)).length := by
    conv_lhs => rw [exists_text hs, h0]
    simp [text]
  have ht := exists_text hs
  generalize (s.takeWhile (· = char 0)).length = z at ht hlen ⊢
  generalize number s = n at ht hlen ⊢
  have hiff := toBase58_fromBase58_iff z n
  rw [← ht, Fits] at hiff
  refine hiff.trans (or_congr_right (and_congr_right fun h0 => ?_))
  rw [hlen h0]

end RoundTrip

-- Data are the data of their text, and a text is the text of its data, where an `int` has room for
-- them, with the header and the zero that are added to a number that is not zero.
theorem base58_exact_iff (x s : Bytes) :
    (fromBase58 (toBase58 x) = .ok x ↔
      x.length + 5 < 2 ^ 31 ∨ (∀ b ∈ x, b = 0) ∧ x.length < 2 ^ 31) ∧
    ((∀ c ∈ s, c ∈ chars) → (toBase58 <$> fromBase58 s = .ok s ↔
      (s.takeWhile (· = char 0)).length + (toBytes (number s)).length + 5 < 2 ^ 31 ∨
      number s = 0 ∧ s.length < 2 ^ 31)) :=
  ⟨fromBase58_toBase58_bytes x, toBase58_fromBase58_chars⟩

theorem base58_exact_iff_two :
    toBase58 <$> fromBase58 (ascii "12") = .ok (ascii "12") ↔
      ((ascii "12").takeWhile (· = char 0)).length + (toBytes (number (ascii "12"))).length + 5 <
        2 ^ 31 ∨ number (ascii "12") = 0 ∧ (ascii "12").length < 2 ^ 31 :=
  (base58_exact_iff [] (ascii "12")).right (by decide +kernel)

-- With the zero that is added to 4 GiB less one byte the size is zero as an `unsigned int`.
theorem not_base58_exact :
    ¬fromBase58 (toBase58 (List.replicate (2 ^ 32 - 1) 1)) =
      .ok (List.replicate (2 ^ 32 - 1) 1) := by
  rw [fromBase58_toBase58_bytes, List.length_replicate]
  intro h
  obtain h | ⟨-, h⟩ := h
  · omega
  · omega

end Base58
