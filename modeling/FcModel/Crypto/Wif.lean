import FcModel.Crypto.Keys
import FcModel.Raw.BoostVector

-- Which texts are imported as private keys, and what the keys are.

namespace Keys

open Raw Suite Variant

variable {H : Hashes} {s payload : Bytes} {k : Data 32}

-- The bytes before the last four, and whether these are the first of their digest, or of its
-- digest.
def hashed (payload : Bytes) : Bytes :=
  payload.take (payload.length - 4)

def Checked (H : Hashes) (payload : Bytes) : Prop :=
  (memory (H.sha256 (hashed payload))).take 4 = payload.drop (payload.length - 4) ∨
  (memory (H.sha256 (memory (H.sha256 (hashed payload))))).take 4 =
    payload.drop (payload.length - 4)

-- What is taken for a key.
structure Accepted (H : Hashes) (payload : Bytes) : Prop where
  nonempty : 5 ≤ payload.length
  limit    : payload.length - 5 ≤ maxSizeOfByteArrays
  checked  : Checked H payload

-- What is to be taken for a key: a version, 32 bytes and four of the checksum.
structure Wellformed (H : Hashes) (payload : Bytes) : Prop where
  length  : payload.length = 37
  version : payload.head? = some 0x80
  checked : Checked H payload

-- A text that is imported is well formed, and the key is what it holds.
def Validated (H : Hashes) (s : Bytes) : Prop :=
  ∀ k, fromWif H s = .ok k → ∃ payload, fromBase58 s = .ok payload ∧ Wellformed H payload ∧
    memory k = (payload.drop 1).take 32

-- The key of an accepted payload: it is cut or filled to 32 bytes.
def imported (payload : Bytes) : Data 32 :=
  let ve := (payload.drop 1).take (payload.length - 5)
  Scalar.arrayOfBytes (.int 1) (ve.take 32 ++ List.replicate (32 - ve.length) 0)

theorem assert_eq_ok {p : Prop} [Decidable p] {message : String} {f : Unit → Except Error (Data 32)}
    (h : assert p message >>= f = .ok k) : p ∧ f () = .ok k := by
  by_cases hp : p
  case pos =>
    rw [assert_bind hp] at h
    exact And.intro hp h
  case neg =>
    rw [assert, if_neg hp] at h
    cases h

theorem keyBytesToVariant_bind {b : Bytes} {f : Variant → Except Error (Data 32)}
    (h : keyBytesToVariant b >>= f = .ok k) : b.length ≤ maxSizeOfByteArrays := by
  by_contra hb
  rw [keyBytesToVariant, ByteVector.stdToVariant, ByteVector.toVariant, if_neg hb] at h
  cases h

theorem imported_eq (h : payload.length - 5 ≤ maxSizeOfByteArrays) :
    (keyBytesToVariant ((payload.drop 1).take (payload.length - 5)) >>= sha256FromVariant) =
      .ok (imported payload) := by
  have hle : ((payload.drop 1).take (payload.length - 5)).length ≤ maxSizeOfByteArrays :=
    (List.length_take_le _ _).trans h
  obtain ⟨v, hto, hfrom⟩ := ByteVector.roundTrips_std hle
  rw [keyBytesToVariant, hto, Except.ok_bind, sha256FromVariant, hfrom]
  rfl

-- The length that is hashed is not cut.
theorem take_hashed (h : payload.length - 5 ≤ maxSizeOfByteArrays) :
    payload.take ((payload.length - 4) % 2 ^ 32) = hashed payload := by
  have hlt : payload.length - 4 < 2 ^ 32 := by
    unfold maxSizeOfByteArrays at h
    omega
  rw [Nat.mod_eq_of_lt hlt, hashed]

theorem fromWif_ok_iff : fromWif H s = .ok k ↔
    ∃ payload, fromBase58 s = .ok payload ∧ Accepted H payload ∧ k = imported payload := by
  constructor
  case mp =>
    intro h
    rw [fromWif] at h
    cases hd : fromBase58 s
    case error e =>
      rw [hd] at h
      cases h
    case ok payload =>
      rw [hd, Except.ok_bind] at h
      obtain ⟨hlen, h⟩ := assert_eq_ok h
      obtain ⟨hsum, h⟩ := assert_eq_ok h
      have hkey := keyBytesToVariant_bind h
      have htake : ((payload.drop 1).take (payload.length - 5)).length = payload.length - 5 := by
        rw [List.length_take, List.length_drop]
        omega
      rw [htake] at hkey
      rw [take_hashed hkey] at hsum
      rw [imported_eq hkey] at h
      exact ⟨payload, rfl, ⟨hlen, hkey, hsum⟩, (Except.ok.inj h).symm⟩
  case mpr =>
    rintro ⟨payload, hd, ha, hk⟩
    have hsum := ha.checked
    unfold Checked at hsum
    rw [fromWif, hd, Except.ok_bind, assert_bind ha.nonempty]
    dsimp only
    rw [take_hashed ha.limit, assert_bind hsum, imported_eq ha.limit, hk]

-- Of 37 bytes, the key is those between the version and the checksum.
theorem memory_imported (h : payload.length = 37) :
    memory (imported payload) = (payload.drop 1).take 32 := by
  have hlen : ((payload.drop 1).take 32).length = 32 := by
    rw [List.length_take, List.length_drop, h]
    rfl
  have hve : (payload.drop 1).take (payload.length - 5) = (payload.drop 1).take 32 := by rw [h]
  rw [imported, hve, hlen, List.take_of_length_le (Nat.le_of_eq hlen), Nat.sub_self,
    List.replicate_zero,
    List.append_nil]
  exact BoostVector.arrayToBytes_arrayOfBytes_int hlen

theorem validated_iff : Validated H s ↔ ∀ payload, fromBase58 s = .ok payload →
    Accepted H payload → payload.length = 37 ∧ payload.head? = some 0x80 := by
  constructor
  case mp =>
    intro h payload hd ha
    obtain ⟨payload', hd', hw, -⟩ := h _ (fromWif_ok_iff.mpr ⟨payload, hd, ha, rfl⟩)
    rw [hd] at hd'
    cases hd'
    exact And.intro hw.length hw.version
  case mpr =>
    intro h k hk
    obtain ⟨payload, hd, ha, rfl⟩ := fromWif_ok_iff.mp hk
    obtain ⟨hlen, hversion⟩ := h payload hd ha
    exact ⟨payload, hd, ⟨hlen, hversion, ha.checked⟩, memory_imported hlen⟩

-- What is imported is well formed just if whatever is accepted has the length and the version.
theorem wif_validated_iff (H : Hashes) (s : Bytes) : Validated H s ↔
    ∀ payload, fromBase58 s = .ok payload → Accepted H payload →
      payload.length = 37 ∧ payload.head? = some 0x80 :=
  validated_iff

-- The digest of the byte 0x80.
def digestOf80 : Bytes :=
  [0x76, 0xbe, 0x8b, 0x52, 0x8d, 0x00, 0x75, 0xf7, 0xaa, 0xe9, 0x8d, 0x6f, 0xa5, 0x7a, 0x6d, 0x3c,
    0x83, 0xae, 0x48, 0x0a, 0x84, 0x69, 0xe6, 0x68, 0xd7, 0xb0, 0xaf, 0x96, 0x89, 0x95, 0xac, 0x71]

-- Hashes of which that of this byte is the digest, as it is for SHA-256.
def hashesOf80 : Hashes where
  ripemd160 _ := 0
  sha256 bytes := fun i => if bytes = [0x80] then ((digestOf80.getD i 0).toBitVec) else 0

-- A version and a checksum, without a key, are imported as the key of 32 zeros.
theorem not_wif_validated : ¬Validated hashesOf80 (ascii "FVd5ncq") := by
  have hd : fromBase58 (ascii "FVd5ncq") = .ok [0x80, 0x76, 0xbe, 0x8b, 0x52] := by
    decide +kernel
  have hsum : (memory (hashesOf80.sha256 [0x80])).take 4 = [0x76, 0xbe, 0x8b, 0x52] := by
    decide +kernel
  intro h
  have hlen := (validated_iff.mp h _ hd ⟨by decide, by decide, Or.inl hsum⟩).left
  exact absurd hlen (by decide)

end Keys
