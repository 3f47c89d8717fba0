import FcModel.Crypto.Base64.RoundTrip
import FcModel.Raw.Scalar
import FcModel.Variant.Equality

-- The conversions of blobs, through strings and through variants.

namespace Blob

open Variant Base64

inductive Error
  | cast (e : CastError)
  | base64 (message : String)
deriving DecidableEq, Repr

def liftCast {α : Type} : Except CastError α → Except Error α
  | .ok a    => .ok a
  | .error e => .error (.cast e)

def liftBase64 {α : Type} : Except String α → Except Error α
  | .ok a    => .ok a
  | .error m => .error (.base64 m)

-- `variant::as_blob`. A number gives the bytes of `_data`, of which those behind a `bool` are taken
-- as zero.
def asBlob : Variant → Except Error Bytes
  | .null        => .ok []
  | .blob data   => .ok data
  | .string str  =>
    if str.length = 0 then .ok []
    else if str.getLast? = some padding then liftBase64 (base64Decode str)
    else .ok str
  | .object _    => .error (.cast .badCast)
  | .array _     => .error (.cast .badCast)
  | .int64 v     => .ok (Raw.toLE 8 v.toUInt64.toNat)
  | .uint64 v    => .ok (Raw.toLE 8 v.toNat)
  | .double bits => .ok (Raw.toLE 8 bits.toNat)
  | .bool b      => .ok (Raw.toLE 8 b.toNat)

-- `to_variant` and `from_variant` of a blob.
def toVariant (b : Bytes) : Variant :=
  .string (base64Encode b)

def fromVariant (L : LexicalCast) (v : Variant) : Except Error Bytes := do
  liftBase64 (base64Decode (← liftCast (v.asString L)))

-- `variant( variant( b ).as_string() ).as_blob()`.
def throughText (L : LexicalCast) (b : Bytes) : Except Error Bytes := do
  asBlob (.string (← liftCast ((Variant.blob b).asString L)))

-- The longest blob of which the text has less than `2 ^ 31` characters.
def maxSize : Nat :=
  3 * (2 ^ 29 - 1)

section Texts

variable {L : LexicalCast} {b : Bytes} {t : Bytes} {n : Nat}

theorem liftBase64_ok_iff {x : Except String Bytes} : liftBase64 x = .ok b ↔ x = .ok b := by
  cases x
  case error m => simp [liftBase64]
  case ok c    => simp [liftBase64]

-- At most one more padding character than `base64_encode` writes.
theorem base64Decode_text_iff (hn : n ≤ 1)
    (ht : t = base64Encode b ++ List.replicate n padding) :
    base64Decode t = .ok b ↔ b.length ≤ maxSize := by
  have hp : Padded (Alphabet.base64.encode b) t := ht ▸ .appended n
  obtain ⟨k, hk, he⟩ := encodeImpl_eq Alphabet.base64.chars (b.take (b.length % 2 ^ 32))
  have hs : t = symbols Alphabet.base64.chars (b.take (b.length % 2 ^ 32)) ++
      List.replicate (k + n) padding := by
    rw [ht, ← List.replicate_append_replicate, ← List.append_assoc, ← he]
    rfl
  have hlen : t.length = 4 * (((b.take (b.length % 2 ^ 32)).length + 2) / 3) + n := by
    rw [ht, List.length_append, List.length_replicate, base64Encode, length_encodeImpl]
  rw [List.length_take] at hlen
  have hd : base64Decode t = .ok b ↔ b.length < 2 ^ 32 ∧ t.length < 2 ^ 31 := by
    rw [← counted_symbols_iff (by omega) hs]
    exact decode_padded_iff hp
  rw [hd]
  unfold maxSize
  omega

theorem asString_blob (b : Bytes) : (Variant.blob b).asString L =
    .ok (if b = [] then [] else base64Encode b ++ [padding]) :=
  rfl

theorem asBlob_raw {s : Bytes} (h : s.getLast? ≠ some padding) : asBlob (.string s) = .ok s := by
  rw [asBlob, if_neg h]
  split
  case isTrue h0  => rw [List.eq_nil_of_length_eq_zero h0]
  case isFalse h0 => rfl

theorem asBlob_padded (s : Bytes) :
    asBlob (.string (s ++ [padding])) = liftBase64 (base64Decode (s ++ [padding])) := by
  rw [asBlob, if_neg (by simp), if_pos (by simp)]

theorem throughText_iff (L : LexicalCast) (b : Bytes) :
    throughText L b = .ok b ↔ b.length ≤ maxSize := by
  rw [throughText, asString_blob]
  by_cases hb : b = []
  case pos =>
    rw [if_pos hb, hb]
    exact iff_of_true rfl (Nat.zero_le _)
  case neg =>
    rw [if_neg hb]
    change asBlob (.string (base64Encode b ++ [padding])) = .ok b ↔ _
    rw [asBlob_padded, liftBase64_ok_iff]
    exact base64Decode_text_iff (n := 1) le_rfl rfl

theorem fromVariant_toVariant_iff (L : LexicalCast) (b : Bytes) :
    fromVariant L (toVariant b) = .ok b ↔ b.length ≤ maxSize := by
  change liftBase64 (base64Decode (base64Encode b)) = .ok b ↔ _
  rw [liftBase64_ok_iff]
  exact base64Decode_text_iff (n := 0) (Nat.zero_le _) (List.append_nil _).symm

end Texts

-- The text of a blob has one padding character more, by which it is told from raw bytes, and is
-- read back where its size fits into an `int`.
theorem blob_exact_iff (L : LexicalCast) (b : Bytes) :
    (b ≠ [] → (Variant.blob b).asString L = .ok (base64Encode b ++ [padding])) ∧
    (∀ s : Bytes, s.getLast? ≠ some padding → asBlob (.string s) = .ok s) ∧
    (throughText L b = .ok b ↔ b.length ≤ maxSize) ∧
    (fromVariant L (toVariant b) = .ok b ↔ b.length ≤ maxSize) :=
  ⟨fun hb => (asString_blob b).trans (congrArg _ (if_neg hb)), fun _ => asBlob_raw,
    throughText_iff L b, fromVariant_toVariant_iff L b⟩

-- The text of a blob of 4 GiB is a padding character alone.
theorem not_blob_exact :
    ¬(throughText .decimal (List.replicate (2 ^ 32) 0) = .ok (List.replicate (2 ^ 32) 0) ∧
      fromVariant .decimal (toVariant (List.replicate (2 ^ 32) 0)) =
        .ok (List.replicate (2 ^ 32) 0)) := by
  intro h
  have hle := (throughText_iff _ _).mp h.left
  rw [List.length_replicate] at hle
  exact absurd hle (by decide)

end Blob
