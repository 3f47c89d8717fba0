import FcModel.Crypto.Bigint

-- `fc::to_base58` and `fc::from_base58`. The numbers of OpenSSL that they compute with are natural
-- numbers.

namespace Base58

open MutableVariantObject Bigint

-- `pszBase58`.
def chars : Bytes :=
  ascii "123456789ABCDEFGHJKLMNPQRSTUVWXYZabcdefghijkmnopqrstuvwxyz"

def char (i : Nat) : UInt8 :=
  chars.getD i 0

-- `isspace` in the C locale.
def isspace (c : UInt8) : Bool :=
  c = 0x20 ∨ (0x09 ≤ c ∧ c ≤ 0x0d)

-- `CBigNum::setvch`, of little-endian data whose last byte is zero.
def setvch (vch : Bytes) : Nat :=
  Nat.ofDigits 256 (vch.map UInt8.toNat)

-- `CBigNum::getvch`. A zero is appended where the last byte would be taken for a sign.
def getvch (bn : Nat) : Bytes :=
  let vch := (Nat.digits 256 bn).map UInt8.ofNat
  if 0x80 ≤ vch.getLastD 0 then vch ++ [0] else vch

def encodeLoop (bn : Nat) (str : Bytes) : Bytes :=
  if 0 < bn then encodeLoop (bn / 58) (str ++ [char (bn % 58)]) else str
termination_by bn

-- `EncodeBase58`.
def encodeBase58 (d : Bytes) : Bytes :=
  let vchTmp := d.reverse ++ [0]
  let str := encodeLoop (setvch vchTmp) []
  let str := str ++ (d.takeWhile (· = 0)).map fun _ => char 0
  str.reverse

-- Nothing but spaces may follow the characters.
def decodeLoop (bn : Nat) : Bytes → Option Nat
  | []     => some bn
  | c :: p =>
    if c ∈ chars then decodeLoop (bn * 58 + chars.idxOf c) p
    else if (c :: p).dropWhile isspace = [] then some bn else none

def trimSign (vch : Bytes) : Bytes :=
  if 2 ≤ vch.length ∧ vch.getD (vch.length - 1) 0 = 0 ∧ 0x80 ≤ vch.getD (vch.length - 2) 0 then vch.dropLast
  else vch

-- `DecodeBase58`, of a C string.
def decodeBase58 (str : Bytes) : Option Bytes :=
  let psz := (cStr str).dropWhile isspace
  (decodeLoop 0 psz).map fun bn =>
    let vchTmp := trimSign (getvch bn)
    .replicate (psz.takeWhile (· = char 0)).length 0 ++ vchTmp.reverse

section Characters

theorem chars_eq : chars =
    [0x31, 0x32, 0x33, 0x34, 0x35, 0x36, 0x37, 0x38, 0x39, 0x41, 0x42, 0x43, 0x44, 0x45,
      0x46, 0x47, 0x48, 0x4a, 0x4b, 0x4c, 0x4d, 0x4e, 0x50, 0x51, 0x52, 0x53, 0x54, 0x55,
      0x56, 0x57, 0x58, 0x59, 0x5a, 0x61, 0x62, 0x63, 0x64, 0x65, 0x66, 0x67, 0x68, 0x69,
      0x6a, 0x6b, 0x6d, 0x6e, 0x6f, 0x70, 0x71, 0x72, 0x73, 0x74, 0x75, 0x76, 0x77, 0x78,
      0x79, 0x7a] := by
  decide +kernel

theorem char_spec {i : Nat} (h : i < 58) : char i ∈ chars ∧ chars.idxOf (char i) = i := by
  have hall : ∀ i : Fin 58, char i ∈ chars ∧ chars.idxOf (char i) = i := by
    simp only [char, chars_eq]
    decide +kernel
  exact hall ⟨i, h⟩

theorem char_ne_zero {i : Nat} (h : i < 58) (hi : i ≠ 0) : char i ≠ char 0 := by
  intro he
  have hidx := (char_spec h).2
  rw [he, (char_spec (by decide)).2] at hidx
  exact hi hidx.symm

-- No character is a NUL, a space or an underscore.
theorem plain_of_mem {c : UInt8} (h : c ∈ chars) : c ≠ 0 ∧ isspace c = false ∧ c ≠ 0x5f := by
  have hall : ∀ c ∈ chars, c ≠ 0 ∧ isspace c = false ∧ c ≠ 0x5f := by
    rw [chars_eq]
    decide +kernel
  exact hall c h

end Characters

section Encoded

theorem encodeLoop_eq (bn : Nat) (str : Bytes) :
    encodeLoop bn str = str ++ (Nat.digits 58 bn).map char := by
  induction bn using Nat.strongRecOn generalizing str
  case ind bn hi =>
    rw [encodeLoop]
    split
    case isTrue hpos =>
      rw [hi (bn / 58) (Nat.div_lt_self hpos (by decide)), Nat.digits_def' (by decide) hpos]
      simp
    case isFalse hzero =>
      rw [Nat.eq_zero_of_not_pos hzero]
      simp

variable {z : Nat} {rest : Bytes}

theorem setvch_eq :
    setvch ((List.replicate z 0 ++ rest).reverse ++ [0]) =
        Nat.ofDigits 256 (rest.reverse.map UInt8.toNat) := by
  have happ : (List.replicate z (0 : UInt8) ++ rest).reverse ++ [0] =
      rest.reverse ++ List.replicate (z + 1) 0 := by
    rw [List.reverse_append, List.reverse_replicate, List.append_assoc, ← List.replicate_succ']
  rw [setvch, happ, List.map_append, List.map_replicate]
  exact Nat.ofDigits_append_replicate_zero _

theorem trimSign_append {init : Bytes} {x : UInt8} (hx : 0x80 ≤ x) :
    trimSign (init ++ [x] ++ [0]) = init ++ [x] := by
  have hlast : (init ++ [x] ++ [0]).getD ((init ++ [x] ++ [0]).length - 1) 0 = 0 := by
    simp [List.getD_eq_getElem?_getD]
  have hsign : (init ++ [x] ++ [0]).getD ((init ++ [x] ++ [0]).length - 2) 0 = x := by
    simp [List.getD_eq_getElem?_getD]
  have hlength : 2 ≤ (init ++ [x] ++ [0]).length := by simp
  rw [trimSign, hlast, hsign, if_pos ⟨hlength, rfl, hx⟩]
  exact List.dropLast_concat

theorem trimSign_of_last {vch : Bytes} (h : ∀ h : vch ≠ [], vch.getLast h ≠ 0) :
    trimSign vch = vch := by
  rw [trimSign, if_neg]
  intro ⟨hlength, hlast, _⟩
  have hne : vch ≠ [] := by
    intro hnil
    rw [hnil] at hlength
    simp at hlength
  refine h hne ?_
  rw [List.getLast_eq_getElem, ← hlast, List.getD_eq_getElem]

-- The byte that is added for the sign is removed again.
theorem trimSign_getvch {bn : Nat} :
    trimSign (getvch bn) = (Nat.digits 256 bn).map UInt8.ofNat := by
  simp only [getvch]
  split
  case isFalse => exact trimSign_of_last getLast_digits_ne_zero
  case isTrue hx =>
    obtain hnil | ⟨init, x, hvch⟩ := List.eq_nil_or_concat ((Nat.digits 256 bn).map UInt8.ofNat)
    · rw [hnil] at hx
      exact absurd hx (by decide)
    · rw [List.concat_eq_append] at hvch
      rw [hvch] at hx ⊢
      exact trimSign_append (by simpa using hx)

theorem decodeLoop_map {is : List Nat} {bn : Nat} (h : ∀ i ∈ is, i < 58) :
    decodeLoop bn (is.map char) = some (is.foldl (fun bn i => bn * 58 + i) bn) := by
  induction is generalizing bn
  case nil          => rfl
  case cons i is hi =>
    obtain ⟨hlt, h⟩ := List.forall_mem_cons.mp h
    obtain ⟨hmem, hidx⟩ := char_spec hlt
    rw [List.map_cons, decodeLoop, if_pos hmem, hidx, hi h]
    rfl

theorem foldl_zeros (z : Nat) : (List.replicate z 0).foldl (fun bn i => bn * 58 + i) 0 = 0 := by
  induction z
  case zero      => rfl
  case succ z hi => exact hi

theorem foldl_reverse (ds : List Nat) :
    ds.reverse.foldl (fun bn i => bn * 58 + i) 0 = Nat.ofDigits 58 ds := by
  rw [List.foldl_reverse, Nat.ofDigits_eq_foldr]
  congr 1
  funext i bn
  rw [Nat.mul_comm, Nat.add_comm]
  rfl

-- The leading zeros and the digits of a number.
theorem lt_of_mem_digits {z n i : Nat} (h : i ∈ List.replicate z 0 ++ (Nat.digits 58 n).reverse) :
    i < 58 := by
  cases List.mem_append.mp h
  case inl h =>
    rw [List.eq_of_mem_replicate h]
    decide
  case inr h => exact Nat.digits_lt_base (by decide) (List.mem_reverse.mp h)

-- The text: the digits of the number, after a `1` for each leading zero.
theorem encodeBase58_eq (hz : (List.replicate z 0 ++ rest).takeWhile (· = 0) = List.replicate z 0) :
    encodeBase58 (List.replicate z 0 ++ rest) =
      (List.replicate z 0 ++
          (Nat.digits 58 (Nat.ofDigits 256 (rest.reverse.map UInt8.toNat))).reverse).map char := by
  rw [encodeBase58, hz, encodeLoop_eq, setvch_eq]
  simp

end Encoded

section RoundTrip

variable {d : Bytes} {c : UInt8}

theorem mem_chars_of_mem (h : c ∈ encodeBase58 d) : c ∈ chars := by
  obtain ⟨z, rest, hd, hz, _⟩ := zeros_append d
  subst hd
  rw [encodeBase58_eq hz] at h
  obtain ⟨i, hi, rfl⟩ := List.mem_map.mp h
  exact (char_spec (lt_of_mem_digits hi)).1

theorem psz_eq {str : Bytes} (h : ∀ c ∈ str, c ∈ chars) : (cStr str).dropWhile isspace = str := by
  have hcStr : cStr str = str := cStr_eq_self fun h0 => (plain_of_mem (h 0 h0)).1 rfl
  rw [hcStr]
  cases str
  case nil        => rfl
  case cons c str =>
    have hspace := (plain_of_mem (h c (List.mem_cons_self ..))).2.1
    rw [List.dropWhile_cons, hspace]
    rfl

-- The leading zeros are found again: the first digit of the number is none.
theorem takeWhile_encoded {z n : Nat} :
    ((List.replicate z 0 ++ (Nat.digits 58 n).reverse).map char).takeWhile (· = char 0) =
        List.replicate z (char 0) := by
  have hdigits : ((Nat.digits 58 n).reverse.map char).takeWhile (· = char 0) = [] := by
    rw [List.takeWhile_eq_nil_iff]
    intro hpos
    have hn : n ≠ 0 := by
      intro h0
      rw [h0] at hpos
      simp at hpos
    have hne := Nat.digits_ne_nil_iff_ne_zero (b := 58) |>.mpr hn
    have hlt : (Nat.digits 58 n).getLast hne < 58 :=
      Nat.digits_lt_base (by decide) (List.getLast_mem hne)
    have hhead : ((Nat.digits 58 n).reverse.map char).get ⟨0, hpos⟩ =
        char ((Nat.digits 58 n).getLast hne) := by
      simp [List.getLast_eq_getElem]
    rw [hhead]
    simpa using char_ne_zero hlt (Nat.getLast_digit_ne_zero 58 hn)
  rw [List.map_append, List.map_replicate, List.takeWhile_append_of_pos, hdigits, List.append_nil]
  intro c hc
  simpa using List.eq_of_mem_replicate hc

theorem decodeBase58_encodeBase58 (d : Bytes) : decodeBase58 (encodeBase58 d) = some d := by
  have hpsz := @psz_eq (encodeBase58 d) fun c hc => mem_chars_of_mem hc
  obtain ⟨z, rest, hd, hz, hrest⟩ := zeros_append d
  subst hd
  rw [decodeBase58, hpsz, encodeBase58_eq hz, takeWhile_encoded,
    decodeLoop_map fun _ => lt_of_mem_digits]
  rw [List.foldl_append, foldl_zeros, foldl_reverse, Nat.ofDigits_digits, Option.map_some,
    trimSign_getvch, digits_eq hrest,
    List.map_map, List.length_replicate]
  have hid : UInt8.ofNat ∘ UInt8.toNat = id := funext fun b => UInt8.ofNat_toNat
  simp only [hid, List.map_id, List.reverse_reverse]

theorem encodeBase58_ne_nil (h : d ≠ []) : encodeBase58 d ≠ [] := by
  intro hnil
  have hdecode := decodeBase58_encodeBase58 d
  rw [hnil] at hdecode
  exact h (Option.some.inj hdecode).symm

end RoundTrip

end Base58
