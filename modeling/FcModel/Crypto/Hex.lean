import FcModel.Text.Basic

-- `fc::from_hex` and `fc::to_hex`.

namespace Hex

inductive Error
  -- "Invalid hex character '${c}'"
  | invalidCharacter (c : UInt8)
deriving DecidableEq, Repr

-- `from_hex( char )`.
def fromHexDigit {σ : Type} (c : UInt8) : EStateM Error σ UInt8 :=
  if 0x30 ≤ c ∧ c ≤ 0x39 then return c - 0x30
  else if 0x61 ≤ c ∧ c ≤ 0x66 then return c - 0x61 + 10
  else if 0x41 ≤ c ∧ c ≤ 0x46 then return c - 0x41 + 10
  else throw (.invalidCharacter c)

def digits : Bytes :=
  ascii "0123456789abcdef"

def byteDigits (c : UInt8) : Bytes :=
  [digits.getD (c >>> 4).toNat 0, digits.getD (c &&& 0x0f).toNat 0]

def toHex (d : Bytes) (s : UInt32) : Bytes :=
  (d.take s.toNat).flatMap byteDigits

-- The state is the memory of the destination, and `pos` is the position in it. A digit is thrown on
-- before its half of the byte is written.
def fromHex (pos : Nat) : (hex : Bytes) → EStateM Error Bytes Nat
  | []            => return pos
  | [c]           => do
    if (← get).length = pos then return pos
    let high ← fromHexDigit c
    modify fun out => out.set pos (high <<< 4)
    return pos + 1
  | c :: d :: hex => do
    if (← get).length = pos then return pos
    let high ← fromHexDigit c
    modify fun out => out.set pos (high <<< 4)
    let low ← fromHexDigit d
    modify fun out => out.set pos (out.getD pos 0 ||| low)
    fromHex (pos + 1) hex

-- What a hex digit is, and what it stands for.
def IsDigit (c : UInt8) : Prop :=
  (0x30 ≤ c ∧ c ≤ 0x39) ∨ (0x61 ≤ c ∧ c ≤ 0x66) ∨ (0x41 ≤ c ∧ c ≤ 0x46)

instance (c : UInt8) : Decidable (IsDigit c) :=
  inferInstanceAs (Decidable (_ ∨ _ ∨ _))

def value (c : UInt8) : UInt8 :=
  if c ≤ 0x39 then c - 0x30 else if 0x61 ≤ c then c - 0x61 + 10 else c - 0x41 + 10

-- The bytes that pairs of digits stand for.
def decode : Bytes → Bytes
  | c :: d :: hex => (value c <<< 4 ||| value d) :: decode hex
  | _             => []

theorem fromHexDigit_of_isDigit {σ : Type} {c : UInt8} (h : IsDigit c) :
    fromHexDigit (σ := σ) c = pure (value c) := by
  simp only [IsDigit, UInt8.le_iff_toNat_le, UInt8.reduceToNat] at h
  simp only [fromHexDigit, value, UInt8.le_iff_toNat_le, UInt8.reduceToNat]
  obtain hdecimal | hlower | hupper := h
  · rw [if_pos hdecimal, if_pos hdecimal.2]
  · rw [if_neg (by omega), if_pos hlower, if_neg (by omega), if_pos hlower.1]
  · rw [if_neg (by omega), if_neg (by omega), if_pos hupper, if_neg (by omega), if_neg (by omega)]

theorem fromHexDigit_of_not_isDigit {σ : Type} {c : UInt8} (h : ¬IsDigit c) :
    fromHexDigit (σ := σ) c = throw (.invalidCharacter c) := by
  obtain ⟨hdecimal, hlower, hupper⟩ : ¬_ ∧ ¬_ ∧ ¬_ := by simpa only [IsDigit, not_or] using h
  rw [fromHexDigit, if_neg hdecimal, if_neg hlower, if_neg hupper]

theorem nibble_spec {d : UInt8} (h : d.toNat < 16) :
    IsDigit (digits.getD d.toNat 0) ∧ value (digits.getD d.toNat 0) = d := by
  have hall : ∀ d : Fin 16, IsDigit (digits.getD d 0) ∧ value (digits.getD d 0) = .ofNat d := by
    decide +kernel
  simpa using hall ⟨d.toNat, h⟩

theorem nibbles : ∀ b : UInt8, (b >>> 4) <<< 4 ||| b &&& 0x0f = b := by
  decide +kernel

theorem byteDigits_spec (b : UInt8) : (∀ c ∈ byteDigits b, IsDigit c) ∧
    decode (byteDigits b) = [b] := by
  have hhigh : (b >>> 4).toNat < 16 := by
    have := b.toNat_lt
    rw [UInt8.toNat_shiftRight, Nat.shiftRight_eq_div_pow]
    exact Nat.div_lt_of_lt_mul (by simpa using this)
  have hlow : (b &&& 0x0f).toNat < 16 := by
    rw [UInt8.toNat_and]
    exact Nat.lt_of_le_of_lt Nat.and_le_right (by decide)
  constructor
  · simpa [byteDigits] using ⟨(nibble_spec hhigh).1, (nibble_spec hlow).1⟩
  · rw [byteDigits, decode, (nibble_spec hhigh).2, (nibble_spec hlow).2, nibbles]
    rfl

section Encoded

variable {d : Bytes} {s : UInt32}

theorem length_toHex (h : d.length ≤ s.toNat) : (toHex d s).length = 2 * d.length := by
  have hpair : ∀ b, (byteDigits b).length = 2 := fun _ => rfl
  rw [toHex, List.take_of_length_le h, List.length_flatMap]
  simp [hpair, Nat.mul_comm]

theorem isDigit_toHex {c : UInt8} (hc : c ∈ toHex d s) : IsDigit c := by
  obtain ⟨b, _, hb⟩ := List.mem_flatMap.mp hc
  exact (byteDigits_spec b).1 c hb

theorem decode_toHex (h : d.length ≤ s.toNat) : decode (toHex d s) = d := by
  rw [toHex, List.take_of_length_le h]
  clear h
  induction d
  case nil          => rfl
  case cons b d hi  =>
    have hb := List.head_eq_of_cons_eq (byteDigits_spec b).2
    change (value _ <<< 4 ||| value _) :: decode (d.flatMap byteDigits) = b :: d
    rw [hi, hb]

end Encoded

section Decoded

variable {c d o : UInt8} {hex done out : Bytes}

-- One round of the loop.
theorem fromHex_round (hc : IsDigit c) (hd : IsDigit d) :
    (fromHex done.length (c :: d :: hex)).run (done ++ o :: out) =
      (fromHex (done ++ [value c <<< 4 ||| value d]).length hex).run
        ((done ++ [value c <<< 4 ||| value d]) ++ out) := by
  simp [fromHex, fromHexDigit_of_isDigit hc, fromHexDigit_of_isDigit hd]

theorem fromHex_invalid (h : ¬(IsDigit c ∧ IsDigit d)) :
    ∃ e out', (fromHex done.length (c :: d :: hex)).run (done ++ o :: out) = .error e out' := by
  by_cases hc : IsDigit c
  case pos =>
    have hd : ¬IsDigit d := fun hd => h ⟨hc, hd⟩
    refine ⟨.invalidCharacter d, done ++ (value c <<< 4) :: out, ?_⟩
    simp [fromHex, fromHexDigit_of_isDigit hc, fromHexDigit_of_not_isDigit hd]
    rfl
  case neg =>
    refine ⟨.invalidCharacter c, done ++ o :: out, ?_⟩
    simp [fromHex, fromHexDigit_of_not_isDigit hc]
    rfl

theorem fromHex_full : (fromHex done.length hex).run done = .ok done.length done := by
  cases hex
  case nil => rfl
  case cons c hex => cases hex <;> simp [fromHex]

-- The text is long enough for the destination, which starts after what is done.
theorem exists_digits {n : Nat} (h : 2 * (n + 1) ≤ hex.length) :
    ∃ c d hex', hex = c :: d :: hex' ∧ 2 * n ≤ hex'.length := by
  obtain _ | ⟨c, _ | ⟨d, hex⟩⟩ := hex
  · simp at h
  · simp only [List.length_cons, List.length_nil] at h
    omega
  · refine ⟨c, d, hex, rfl, ?_⟩
    simp only [List.length_cons] at h
    omega

theorem fromHex_run (hn : 2 * out.length ≤ hex.length)
    (hdigits : ∀ c ∈ hex.take (2 * out.length), IsDigit c) :
    (fromHex done.length hex).run (done ++ out) =
      .ok (done.length + out.length) (done ++ decode (hex.take (2 * out.length))) := by
  induction out generalizing done hex
  case nil => simpa [decode] using fromHex_full
  case cons o out hi =>
    obtain ⟨c, d, hex, rfl, hn'⟩ := exists_digits hn
    have htake : (c :: d :: hex).take (2 * (o :: out).length) =
      c :: d :: hex.take (2 * out.length) := rfl
    rw [htake] at hdigits ⊢
    obtain ⟨hc, hd, hdigits⟩ := by simpa only [List.forall_mem_cons] using hdigits
    have hlength : (done ++ [value c <<< 4 ||| value d]).length + out.length =
        done.length + (o :: out).length := by
      simp only [List.length_append, List.length_cons, List.length_nil]
      omega
    rw [fromHex_round hc hd, hi hn' hdigits, hlength, decode, List.append_assoc,
      List.singleton_append]

theorem fromHex_run_error (hn : 2 * out.length ≤ hex.length)
    (h : ¬∀ c ∈ hex.take (2 * out.length), IsDigit c) :
    ∃ e out', (fromHex done.length hex).run (done ++ out) = .error e out' := by
  induction out generalizing done hex
  case nil => simp at h
  case cons o out hi =>
    obtain ⟨c, d, hex, rfl, hn'⟩ := exists_digits hn
    by_cases hcd : IsDigit c ∧ IsDigit d
    case neg => exact fromHex_invalid hcd
    case pos =>
      rw [fromHex_round hcd.1 hcd.2]
      refine hi hn' fun hdigits => h ?_
      exact List.forall_mem_cons.mpr ⟨hcd.1, List.forall_mem_cons.mpr ⟨hcd.2, hdigits⟩⟩

theorem length_decode (hex : Bytes) : (decode hex).length = hex.length / 2 := by
  induction hex using decode.induct
  case case1 c d hex hi =>
    simp only [decode, List.length_cons, hi]
    omega
  case case2 hex h =>
    obtain _ | ⟨c, _ | ⟨d, hex⟩⟩ := hex
    · rfl
    · simp [decode]
    · exact absurd rfl (h c d hex)

-- The whole destination is written if the digits that it takes are hex digits.
theorem fromHex_ok (hn : 2 * out.length ≤ hex.length)
    (hdigits : ∀ c ∈ hex.take (2 * out.length), IsDigit c) :
    (fromHex 0 hex).run out = .ok out.length (decode (hex.take (2 * out.length))) := by
  simpa using @fromHex_run hex [] out hn hdigits

theorem fromHex_error (hn : 2 * out.length ≤ hex.length)
    (h : ¬∀ c ∈ hex.take (2 * out.length), IsDigit c) :
    ∃ e out', (fromHex 0 hex).run out = .error e out' := by
  simpa using @fromHex_run_error hex [] out hn h

end Decoded

end Hex
