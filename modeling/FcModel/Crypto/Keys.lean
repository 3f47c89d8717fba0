import FcModel.Crypto.Suite
import FcModel.Crypto.Webauthn.PublicKey

-- `public_key`, `signature` and `private_key`, and their texts.

namespace Keys

open Raw Suite
open Base58 (plain_of_mem mem_chars_of_mem char encodeBase58)

-- An array of `n` bytes. A `sha256` is one of 32 bytes too.
abbrev Data (n : Nat) := Fin n → BitVec (8 * 1)

-- The hash functions are not part of the repository. Of `ripemd160` the first word is used.
structure Hashes where
  ripemd160 : Bytes → Checksum
  sha256    : Bytes → Data 32

def memory {n : Nat} (data : Data n) : Bytes :=
  Scalar.arrayToBytes (.int 1) data

section DataTypes

def array (n : Nat) : DataType (Data n) where
  pack data := Raw.pack (.scalarArray n (.int 1)) data
  unpack _  := Raw.unpack 0 (.scalarArray n (.int 1)) fun _ => 0

def webauthnPublicKey : DataType Webauthn.PublicKey where
  pack k   := k.pack
  unpack _ := Webauthn.PublicKey.unpack {}

def packByte (b : UInt8) : Packer :=
  packInt (n := 1) b.toBitVec

def unpackByte (b : UInt8) : Unpacker UInt8 := do
  return .ofBitVec (← unpackInt (n := 1) b.toBitVec)

def webauthnSignature : DataType Webauthn.Signature where
  pack s   := (array 65).pack s.compactSignature ++
    (packSequence packByte s.authData ++ packBytes s.clientJson)
  unpack _ := do
    let compactSignature ← (array 65).unpack 0
    let authData ← unpackInPlace unpackByte 0 []
    let clientJson ← unpackBytes []
    return ⟨compactSignature, authData, clientJson⟩

end DataTypes

abbrev PublicKeyType : Fin 3 → Type :=
  ![Data 33, Data 33, Webauthn.PublicKey]

abbrev SignatureType : Fin 3 → Type :=
  ![Data 65, Data 65, Webauthn.Signature]

abbrev PrivateKeyType : Fin 2 → Type :=
  ![Data 32, Data 32]

abbrev PublicKey := Σ i, PublicKeyType i

abbrev Signature := Σ i, SignatureType i

abbrev PrivateKey := Σ i, PrivateKeyType i

def publicKeys : Suites PublicKeyType where
  dataType
    | 0 => array 33
    | 1 => array 33
    | 2 => webauthnPublicKey
  prefixes := ![ascii "K1", ascii "R1", ascii "WA"]

def signatures : Suites SignatureType where
  dataType
    | 0 => array 65
    | 1 => array 65
    | 2 => webauthnSignature
  prefixes := ![ascii "K1", ascii "R1", ascii "WA"]

def privateKeys : Suites PrivateKeyType where
  dataType
    | 0 => array 32
    | 1 => array 32
  prefixes := ![ascii "K1", ascii "R1"]

def publicKeyLegacyPrefix : Bytes :=
  ascii "EOS"

def publicKeyBasePrefix : Bytes :=
  ascii "PUB"

def signatureBasePrefix : Bytes :=
  ascii "SIG"

def privateKeyBasePrefix : Bytes :=
  ascii "PVT"

-- What `serialize` returns of a key or of a signature, member by member.
def PublicKey.contents : PublicKey → List Bytes
  | ⟨0, data⟩ => [memory data]
  | ⟨1, data⟩ => [memory data]
  | ⟨2, k⟩    =>
    let k : Webauthn.PublicKey := k
    [memory k.publicKeyData, toLE 1 k.userVerificationType.toNat, k.rpid]

def Signature.contents : Signature → List Bytes
  | ⟨0, data⟩ => [memory data]
  | ⟨1, data⟩ => [memory data]
  | ⟨2, s⟩    =>
    let s : Webauthn.Signature := s
    [memory s.compactSignature, s.authData, s.clientJson]

section Visitors

variable {α : Type}

def PublicKey.k1 (data : Data 33) : PublicKey := ⟨0, data⟩

def PublicKey.r1 (data : Data 33) : PublicKey := ⟨1, data⟩

def PublicKey.webauthn (k : Webauthn.PublicKey) : PublicKey := ⟨2, k⟩

def PublicKey.visit (k1 r1 : Data 33 → α) (webauthn : Webauthn.PublicKey → α) : PublicKey → α
  | ⟨0, data⟩ => k1 data
  | ⟨1, data⟩ => r1 data
  | ⟨2, k⟩    => webauthn k

def Signature.k1 (data : Data 65) : Signature := ⟨0, data⟩

def Signature.r1 (data : Data 65) : Signature := ⟨1, data⟩

def Signature.webauthn (s : Webauthn.Signature) : Signature := ⟨2, s⟩

def Signature.visit (k1 r1 : Data 65 → α) (webauthn : Webauthn.Signature → α) : Signature → α
  | ⟨0, data⟩ => k1 data
  | ⟨1, data⟩ => r1 data
  | ⟨2, s⟩    => webauthn s

def PrivateKey.k1 (secret : Data 32) : PrivateKey := ⟨0, secret⟩

def PrivateKey.r1 (secret : Data 32) : PrivateKey := ⟨1, secret⟩

def PrivateKey.visit (k1 r1 : Data 32 → α) : PrivateKey → α
  | ⟨0, secret⟩ => k1 secret
  | ⟨1, secret⟩ => r1 secret

end Visitors

section Texts

variable (H : Hashes)

def prefixMatches (base str : Bytes) : Bool :=
  base.length < str.length ∧ str.take base.length = base

-- What the three classes do with a text that has their own prefix: `name` is what the messages call
-- it.
def parseBase {n : Nat} {T : Fin n → Type} (S : Suites T) (base : Bytes)
    (noDelimiter invalid noData : String)
    (base58str : Bytes) : Except Error (Σ i, T i) :=
  match splitUnderscore base58str with
  | none                      => .error (.assert noDelimiter)
  | some (prefixStr, dataStr) => do
    assert (base = prefixStr) invalid
    assert (dataStr ≠ []) noData
    S.parse H.ripemd160 dataStr

-- `public_key::to_string`.
def PublicKey.toString (k : PublicKey) : Except Error Bytes := do
  let dataStr ← publicKeys.print H.ripemd160 (some 0) k
  return if k.1 = 0 then publicKeyLegacyPrefix ++ dataStr else publicKeyBasePrefix ++ [underscore] ++ dataStr

def PublicKey.parseLegacy (subStr : Bytes) : Except Error PublicKey := do
  let bin ← fromBase58 subStr
  assert (bin.length = 33 + 4) "bin.size() == sizeof(data_type) + sizeof(uint32_t): "
  let (wrapped, _) ← (array 33).unpacked bin
  let checksum ← (array 33).calculateChecksum H.ripemd160 wrapped.1 none
  assert (checksum = wrapped.2) "wrapper::calculate_checksum(wrapped.data) == wrapped.check: "
  return ⟨0, wrapped.1⟩

-- `parse_base58`.
def PublicKey.parse (base58str : Bytes) : Except Error PublicKey :=
  if prefixMatches publicKeyLegacyPrefix base58str ∧ underscore ∉ base58str then
    PublicKey.parseLegacy H (base58str.drop publicKeyLegacyPrefix.length)
  else parseBase H publicKeys publicKeyBasePrefix
    "pivot != std::string::npos: No delimiter in string, cannot determine data type: $\x7bstr\x7d"
    "prefix == prefix_str: Public Key has invalid prefix: $\x7bstr\x7d"
    "!data_str.empty(): Public Key has no data: $\x7bstr\x7d" base58str

-- `signature::to_string`.
def Signature.toString (s : Signature) : Except Error Bytes := do
  let dataStr ← signatures.print H.ripemd160 none s
  return signatureBasePrefix ++ [underscore] ++ dataStr

-- `sig_parse_base58`.
def Signature.parse : Bytes → Except Error Signature :=
  parseBase H signatures signatureBasePrefix
    "pivot != std::string::npos: No delimiter in string, cannot determine type: $\x7bstr\x7d"
    "prefix == prefix_str: Signature Key has invalid prefix: $\x7bstr\x7d"
    "!data_str.empty(): Signature has no data: $\x7bstr\x7d"

def toWif (secret : Data 32) : Bytes :=
  let data := 0x80 :: memory secret
  let digest := H.sha256 (memory (H.sha256 data))
  encodeBase58 (data ++ (memory digest).take 4)

-- A `sha256` is converted from a vector of bytes, of which there may be fewer or more.
def sha256FromVariant (v : Variant) : Except Error (Data 32) :=
  match (ByteVector.stdFromVariant v).run [] with
  | .ok _ ve   => .ok (Scalar.arrayOfBytes (.int 1)
    (ve.take 32 ++ List.replicate (32 - ve.length) 0))
  | .error e _ => .error (.vector e)

def keyBytesToVariant (keyBytes : Bytes) : Except Error Variant :=
  match ByteVector.stdToVariant keyBytes with
  | .ok v    => .ok v
  | .error e => .error (.vector e)

-- The length of what is hashed is a `uint32_t`.
def fromWif (wifKey : Bytes) : Except Error (Data 32) := do
  let wifBytes ← fromBase58 wifKey
  assert (5 ≤ wifBytes.length) "wif_bytes.size() >= 5: "
  let keyBytes := (wifBytes.drop 1).take (wifBytes.length - 5)
  let sum := wifBytes.drop (wifBytes.length - 4)
  let check := H.sha256 (wifBytes.take ((wifBytes.length - 4) % 2 ^ 32))
  let check2 := H.sha256 (memory check)
  assert ((memory check).take 4 = sum ∨ (memory check2).take 4 = sum)
    "memcmp( (char*)&check, wif_bytes.data() + wif_bytes.size() - 4, 4 ) == 0 || memcmp( (char*)&check2, wif_bytes.data() + wif_bytes.size() - 4, 4 ) == 0: "
  sha256FromVariant (← keyBytesToVariant keyBytes)

-- `private_key::to_string`.
def PrivateKey.toString : PrivateKey → Except Error Bytes
  | ⟨0, secret⟩ => return toWif H secret
  | p           => do
    let dataStr ← privateKeys.print H.ripemd160 none p
    return privateKeyBasePrefix ++ [underscore] ++ dataStr

-- `priv_parse_base58`.
def PrivateKey.parse (base58str : Bytes) : Except Error PrivateKey :=
  if underscore ∉ base58str then do
    return ⟨0, ← fromWif H base58str⟩
  else parseBase H privateKeys privateKeyBasePrefix ""
    "prefix == prefix_str: Private Key has invalid prefix: $\x7bstr\x7d"
    "!data_str.empty(): Private Key has no data: $\x7bstr\x7d" base58str

end Texts

section Carried

variable {n : Nat}

theorem carries_array (data : Data n) : (array n).Carries data where
  packs := Packs.done.write
  reads := .read (by simp) (by rw [Scalar.arrayOfBytes_arrayToBytes]; exact .pure)

theorem length_memory (data : Data n) : (memory data).length = n := by
  rw [memory, Scalar.length_arrayToBytes, Scalar.size, Nat.mul_one]

theorem bytes_array (data : Data n) : ((array n).pack data).bytes = .ok (memory data) :=
  Encoder.bytes_write_eq_ok.mpr ⟨[], rfl, (List.append_nil _).symm⟩

theorem carries_webauthnPublicKey {k : Webauthn.PublicKey} (hk : k.rpid ≠ [])
    (hle : k.rpid.length ≤ maxSizeOfByteArrays) : webauthnPublicKey.Carries k where
  packs := Packs.done.write.append ((Packs.int _).append (Packs.bytes hle))
  reads := Webauthn.PublicKey.reads_unpack hk {}

theorem packs_webauthnPublicKey_iff {k : Webauthn.PublicKey} :
    Packs (webauthnPublicKey.pack k) ↔ k.rpid.length ≤ maxSizeOfByteArrays := by
  refine ⟨fun ⟨b, hb⟩ => ?_, fun h =>
    Packs.done.write.append ((Packs.int _).append (Packs.bytes h))⟩
  obtain ⟨_, _, _, hb, _⟩ := Encoder.bytes_append_eq_ok.mp hb
  obtain ⟨_, _, _, hb, _⟩ := Encoder.bytes_append_eq_ok.mp hb
  obtain ⟨_, _, hguard, _, _⟩ := Encoder.bytes_append_eq_ok.mp hb
  exact (Encoder.bytes_guard_eq_ok.mp hguard).1

theorem reads_byte (d b : UInt8) : Reads (fun _ => unpackByte d) (packByte b) b :=
  (reads_int (n := 1) d.toBitVec b.toBitVec).map
    (f := fun _ b => Pure.pure (UInt8.ofBitVec b)) .pure

theorem packs_webauthnSignature_iff {s : Webauthn.Signature} : Packs (webauthnSignature.pack s) ↔
    s.authData.length ≤ maxNumArrayElements ∧ s.clientJson.length ≤ maxSizeOfByteArrays := by
  constructor
  · intro ⟨b, hb⟩
    obtain ⟨_, _, _, hb, _⟩ := Encoder.bytes_append_eq_ok.mp hb
    obtain ⟨_, _, hauth, hjson, _⟩ := Encoder.bytes_append_eq_ok.mp hb
    obtain ⟨_, _, hauth, _, _⟩ := Encoder.bytes_append_eq_ok.mp hauth
    obtain ⟨_, _, hjson, _, _⟩ := Encoder.bytes_append_eq_ok.mp hjson
    exact ⟨(Encoder.bytes_guard_eq_ok.mp hauth).1, (Encoder.bytes_guard_eq_ok.mp hjson).1⟩
  · intro ⟨hauth, hjson⟩
    exact Packs.done.write.append ((Packs.sequence hauth fun b _ => .int _).append (.bytes hjson))

theorem reads_webauthnSignature (s : Webauthn.Signature) :
    Reads webauthnSignature.unpack (webauthnSignature.pack s) s :=
  (carries_array s.compactSignature).reads.bind
    (.bind (reads_inPlace fun d _ b _ => reads_byte d b) (.map (reads_bytes [] s.clientJson) .pure))

theorem carries_webauthnSignature {s : Webauthn.Signature}
    (hauth : s.authData.length ≤ maxNumArrayElements)
    (hjson : s.clientJson.length ≤ maxSizeOfByteArrays) : webauthnSignature.Carries s where
  packs := packs_webauthnSignature_iff.mpr ⟨hauth, hjson⟩
  reads := reads_webauthnSignature s

end Carried

section Bases

variable {H : Hashes} {n : Nat} {T : Fin n → Type} {S : Suites T} {base dataStr : Bytes}
  {noDelimiter invalid noData : String}

theorem parseBase_append (hbase : underscore ∉ base) (hdata : dataStr ≠ []) :
    parseBase H S base noDelimiter invalid noData (base ++ [underscore] ++ dataStr) =
        S.parse H.ripemd160 dataStr := by
  rw [parseBase, splitUnderscore_append hbase]
  dsimp only
  rw [assert_bind rfl, assert_bind hdata]

theorem underscore_not_mem_encode (d : Bytes) : underscore ∉ encodeBase58 d :=
  fun h => (plain_of_mem (mem_chars_of_mem h)).2.2 rfl

theorem suite_ne_nil {suite digits : Bytes} : suite ++ [underscore] ++ digits ≠ [] := by
  simp

end Bases

section PublicKeys

variable {H : Hashes}

-- The text of a key starts with it.
def PublicKey.head (k : PublicKey) : Bytes :=
  if k.1 = 0 then publicKeyLegacyPrefix
  else publicKeyBasePrefix ++ [underscore] ++ (publicKeys.prefixes k.1 ++ [underscore])

-- The text of the key is parsed to the same key, and the whole payload is unpacked for it.
def PublicKey.RoundTrips (H : Hashes) (k : PublicKey) : Prop :=
  ∃ digits, k.toString H = .ok (k.head ++ digits) ∧ PublicKey.parse H (k.head ++ digits) = .ok k ∧
    (publicKeys.dataType k.1).Consumes digits k.2

theorem parseLegacy_payload (data : Data 33) :
    PublicKey.parseLegacy H
        (encodeBase58 (memory data ++ toLE 4 (H.ripemd160 (memory data ++ [])).toNat)) =
      .ok ⟨0, data⟩ := by
  have hbytes := bytes_array data
  obtain ⟨ds, hunpack, _⟩ :=
    @unpacked_payload _ _ _ (H.ripemd160 (memory data ++ [])) _ (carries_array data) hbytes
  have hchecksum := @calculateChecksum_of_bytes _ _ _ _ H.ripemd160 none hbytes
  have hlength : (memory data ++ toLE 4 (H.ripemd160 (memory data ++ [])).toNat).length =
      33 + 4 := by
    rw [List.length_append, length_memory, length_toLE]
  rw [PublicKey.parseLegacy, fromBase58_encode, Except.ok_bind, assert_bind hlength, hunpack,
    Except.ok_bind]
  dsimp only
  rw [hchecksum, Except.ok_bind]
  exact assert_bind rfl

theorem parse_legacy {digits : Bytes} (hne : digits ≠ []) (hplain : underscore ∉ digits) :
    PublicKey.parse H (publicKeyLegacyPrefix ++ digits) = PublicKey.parseLegacy H digits := by
  have hpos := List.length_pos_iff.mpr hne
  have hmatches : prefixMatches publicKeyLegacyPrefix (publicKeyLegacyPrefix ++ digits) = true := by
    simp [prefixMatches, hpos]
  have hlegacy : underscore ∉ publicKeyLegacyPrefix ++ digits := by
    rw [List.mem_append, not_or]
    exact ⟨by decide, hplain⟩
  rw [PublicKey.parse, if_pos ⟨hmatches, hlegacy⟩, List.drop_left]

theorem roundTrips_legacy (data : Data 33) : PublicKey.RoundTrips H ⟨0, data⟩ := by
  have hbytes := bytes_array data
  refine ⟨encodeBase58 (memory data ++ toLE 4 (H.ripemd160 (memory data ++ [])).toNat), ?_, ?_,
    consumes_payload (carries_array data) hbytes⟩
  · have hprint := @print_of_bytes _ _ publicKeys H.ripemd160 0 data _ (some 0) none
      (if_pos rfl) hbytes
    rw [PublicKey.toString, hprint]
    rfl
  · exact (parse_legacy encode_payload_ne_nil (underscore_not_mem_encode _)).trans
      (parseLegacy_payload data)

theorem roundTrips_suite {k : PublicKey} (hk : k.1 ≠ 0)
    (h : (publicKeys.dataType k.1).Carries k.2) :
    k.RoundTrips H := by
  have hinj : ∀ i j, publicKeys.prefixes j = publicKeys.prefixes i → j = i := by decide
  have hname : ∀ i, underscore ∉ publicKeys.prefixes i := by decide
  obtain ⟨digits, hprint, hparse, hconsumes⟩ :=
    @parse_print _ _ publicKeys H.ripemd160 k.1 k.2 (some 0)
      (fun he => hk (Option.some.inj he).symm) (hinj k.1)
      (hname k.1) h
  have htext : k.head ++ digits = publicKeyBasePrefix ++ [underscore] ++
      (publicKeys.prefixes k.1 ++ [underscore] ++ digits) := by
    rw [PublicKey.head, if_neg hk, List.append_assoc]
  refine ⟨digits, ?_, ?_, hconsumes⟩
  · rw [PublicKey.toString, hprint, htext]
    change Except.ok (if k.1 = 0 then _ else _) = _
    rw [if_neg hk]
  · have hmem : underscore ∈ k.head ++ digits := by
      rw [htext]
      simp
    rw [PublicKey.parse, if_neg fun h => h.2 hmem, htext, parseBase_append (by decide) suite_ne_nil]
    exact hparse

-- What `post_init` requires of a key.
def PublicKey.Initialised : PublicKey → Prop
  | ⟨2, k⟩ => (show Webauthn.PublicKey from k).rpid ≠ []
  | _      => True

-- What `fc::raw::pack` requires of a key.
def PublicKey.Packable : PublicKey → Prop
  | ⟨2, k⟩ => (show Webauthn.PublicKey from k).rpid.length ≤ maxSizeOfByteArrays
  | _      => True

theorem exists_error_of_not_packs {x : Packer} (h : ¬Packs x) : ∃ e, x.bytes = .error e := by
  cases hx : x.bytes
  case ok b    => exact absurd ⟨b, hx⟩ h
  case error e => exact ⟨e, rfl⟩

-- What is not packed has no text.
theorem PublicKey.not_roundTrips {k : PublicKey} (h : ¬Packs ((publicKeys.dataType k.1).pack k.2)) :
    ¬k.RoundTrips H := by
  obtain ⟨e, he⟩ := exists_error_of_not_packs h
  intro ⟨digits, hprint, _⟩
  have hraw := @print_of_error _ _ publicKeys H.ripemd160 k.1 k.2 (some 0) _ he
  rw [PublicKey.toString, hraw] at hprint
  cases hprint

theorem PublicKey.roundTrips_iff {k : PublicKey} (hk : k.Initialised) : k.RoundTrips H ↔
    k.Packable := by
  obtain ⟨i, data⟩ := k
  match i, data with
  | 0, data => exact iff_of_true (roundTrips_legacy data) trivial
  | 1, data => exact iff_of_true (roundTrips_suite (show (1 : Fin 3) ≠ 0 by decide) (carries_array data)) trivial
  | 2, k    =>
    by_cases hle : PublicKey.Packable ⟨2, k⟩
    case pos =>
      exact iff_of_true (roundTrips_suite (show (2 : Fin 3) ≠ 0 by decide)
        (carries_webauthnPublicKey hk hle)) hle
    case neg =>
      exact iff_of_false (PublicKey.not_roundTrips fun h =>
        hle (packs_webauthnPublicKey_iff.mp h)) hle

end PublicKeys

section Signatures

variable {H : Hashes}

def Signature.head (s : Signature) : Bytes :=
  signatureBasePrefix ++ [underscore] ++ (signatures.prefixes s.1 ++ [underscore])

def Signature.RoundTrips (H : Hashes) (s : Signature) : Prop :=
  ∃ digits, s.toString H = .ok (s.head ++ digits) ∧ Signature.parse H (s.head ++ digits) = .ok s ∧
    (signatures.dataType s.1).Consumes digits s.2

def Signature.Packable : Signature → Prop
  | ⟨2, s⟩ => (show Webauthn.Signature from s).authData.length ≤ maxNumArrayElements ∧
    (show Webauthn.Signature from s).clientJson.length ≤ maxSizeOfByteArrays
  | _      => True

theorem Signature.roundTrips {s : Signature} (h : (signatures.dataType s.1).Carries s.2) :
    s.RoundTrips H := by
  have hinj : ∀ i j, signatures.prefixes j = signatures.prefixes i → j = i := by decide
  have hname : ∀ i, underscore ∉ signatures.prefixes i := by decide
  obtain ⟨digits, hprint, hparse, hconsumes⟩ :=
    @parse_print _ _ signatures H.ripemd160 s.1 s.2 none (Option.some_ne_none _).symm (hinj s.1)
      (hname s.1) h
  have htext : s.head ++ digits =
      signatureBasePrefix ++ [underscore] ++
        (signatures.prefixes s.1 ++ [underscore] ++ digits) := by
    rw [Signature.head, List.append_assoc]
  refine ⟨digits, ?_, ?_, hconsumes⟩
  · rw [Signature.toString, hprint, htext]
    rfl
  · rw [Signature.parse, htext, parseBase_append (by decide) suite_ne_nil]
    exact hparse

theorem Signature.not_roundTrips {s : Signature} (h : ¬Packs ((signatures.dataType s.1).pack s.2)) :
    ¬s.RoundTrips H := by
  obtain ⟨e, he⟩ := exists_error_of_not_packs h
  intro ⟨digits, hprint, _⟩
  have hraw := @print_of_error _ _ signatures H.ripemd160 s.1 s.2 none _ he
  rw [Signature.toString, hraw] at hprint
  cases hprint

theorem Signature.roundTrips_iff {s : Signature} : s.RoundTrips H ↔ s.Packable := by
  obtain ⟨i, data⟩ := s
  match i, data with
  | 0, data => exact iff_of_true (Signature.roundTrips (carries_array data)) trivial
  | 1, data => exact iff_of_true (Signature.roundTrips (carries_array data)) trivial
  | 2, s    =>
    by_cases hle : Signature.Packable ⟨2, s⟩
    case pos => exact iff_of_true (Signature.roundTrips (carries_webauthnSignature hle.1 hle.2)) hle
    case neg =>
      exact iff_of_false (Signature.not_roundTrips fun h =>
        hle (packs_webauthnSignature_iff.mp h)) hle

end Signatures

section PrivateKeys

variable {H : Hashes}

-- A secret is written after one byte and before four bytes of its checksum.
def PrivateKey.RoundTrips (H : Hashes) : PrivateKey → Prop
  | ⟨0, secret⟩ => ∃ digits sum, PrivateKey.toString H ⟨0, secret⟩ = .ok digits ∧
    PrivateKey.parse H digits = .ok ⟨0, secret⟩ ∧
        fromBase58 digits = .ok (0x80 :: memory secret ++ sum) ∧ sum.length = 4
  | ⟨1, secret⟩ => ∃ digits, PrivateKey.toString H ⟨1, secret⟩ = .ok (ascii "PVT_R1_" ++ digits) ∧
    PrivateKey.parse H (ascii "PVT_R1_" ++ digits) = .ok ⟨1, secret⟩ ∧
        (array 32).Consumes digits secret

theorem sha256FromVariant_keyBytes (secret : Data 32) :
    (keyBytesToVariant (memory secret) >>= sha256FromVariant) = .ok secret := by
  have hlength := length_memory secret
  obtain ⟨v, hto, hfrom⟩ := @ByteVector.roundTrips_std (memory secret) (by rw [hlength]; decide)
  have hdata : Scalar.arrayOfBytes (.int 1)
    ((memory secret).take 32 ++ List.replicate (32 - (memory secret).length) 0) =
      secret := by
    rw [hlength, List.take_of_length_le (Nat.le_of_eq hlength), Nat.sub_self, List.replicate_zero,
      List.append_nil, memory,
      Scalar.arrayOfBytes_arrayToBytes]
  rw [keyBytesToVariant, hto, Except.ok_bind, sha256FromVariant, hfrom]
  exact congrArg Except.ok hdata

-- The checksum of a secret.
def wifSum (H : Hashes) (secret : Data 32) : Bytes :=
  (memory (H.sha256 (memory (H.sha256 (0x80 :: memory secret))))).take 4

theorem length_wifSum (secret : Data 32) : (wifSum H secret).length = 4 := by
  rw [wifSum, List.length_take, length_memory]
  rfl

theorem fromWif_toWif (secret : Data 32) : fromWif H (toWif H secret) = .ok secret := by
  have hdata : (0x80 :: memory secret).length = 33 := by rw [List.length_cons, length_memory]
  have hlength : (0x80 :: memory secret ++ wifSum H secret).length = 37 := by
    rw [List.length_append, hdata, length_wifSum]
  have hkey : ((0x80 :: memory secret ++ wifSum H secret).drop 1).take 32 = memory secret :=
    List.take_left' (length_memory secret)
  have hsum : (0x80 :: memory secret ++ wifSum H secret).drop 33 = wifSum H secret :=
    List.drop_left' hdata
  have hhashed : (0x80 :: memory secret ++ wifSum H secret).take (33 % 2 ^ 32) =
    0x80 :: memory secret :=
    List.take_left' hdata
  have hdecode : fromBase58 (toWif H secret) = .ok (0x80 :: memory secret ++ wifSum H secret) :=
    fromBase58_encode _
  rw [fromWif, hdecode, Except.ok_bind]
  dsimp only
  rw [hlength]
  dsimp only [Nat.reduceSub]
  rw [assert_bind (by decide), hkey, hsum, hhashed, assert_bind (.inr rfl)]
  exact sha256FromVariant_keyBytes secret

theorem roundTrips_wif (secret : Data 32) : PrivateKey.RoundTrips H ⟨0, secret⟩ := by
  have hplain : underscore ∉ toWif H secret := underscore_not_mem_encode _
  refine ⟨toWif H secret, wifSum H secret, rfl, ?_, fromBase58_encode _, length_wifSum secret⟩
  rw [PrivateKey.parse, if_pos hplain, fromWif_toWif]
  rfl

theorem roundTrips_r1 (secret : Data 32) : PrivateKey.RoundTrips H ⟨1, secret⟩ := by
  have hinj : ∀ i j, privateKeys.prefixes j = privateKeys.prefixes i → j = i := by decide
  obtain ⟨digits, hprint, hparse, hconsumes⟩ :=
    @parse_print _ _ privateKeys H.ripemd160 1 secret none (Option.some_ne_none _).symm (hinj 1)
      (by decide)
      (carries_array secret)
  have htext : ascii "PVT_R1_" ++ digits =
      privateKeyBasePrefix ++ [underscore] ++
        (privateKeys.prefixes 1 ++ [underscore] ++ digits) := rfl
  refine ⟨digits, ?_, ?_, hconsumes⟩
  · change (privateKeys.print H.ripemd160 none ⟨1, secret⟩ >>= _) = _
    rw [hprint, Except.ok_bind, htext]
    rfl
  · have hmem : ¬underscore ∉ ascii "PVT_R1_" ++ digits := by
      rw [htext]
      simp
    rw [PrivateKey.parse, if_neg hmem, htext, parseBase_append (by decide) suite_ne_nil]
    exact hparse

theorem PrivateKey.roundTrips (p : PrivateKey) : p.RoundTrips H := by
  obtain ⟨i, secret⟩ := p
  match i, secret with
  | 0, secret => exact roundTrips_wif secret
  | 1, secret => exact roundTrips_r1 secret

end PrivateKeys

-- The texts of keys and signatures give them back. Those of the WebAuthn suites have texts as far
-- as they can be packed.
theorem texts_roundTrip (H : Hashes) :
    (∀ k : PublicKey, k.Initialised → (k.RoundTrips H ↔ k.Packable)) ∧
    (∀ s : Signature, s.RoundTrips H ↔ s.Packable) ∧
    ∀ p : PrivateKey, p.RoundTrips H :=
  ⟨fun _ => PublicKey.roundTrips_iff, fun _ => Signature.roundTrips_iff, PrivateKey.roundTrips⟩

-- Hashes that are always zero.
def zeroHashes : Hashes where
  ripemd160 _ := 0
  sha256 _    := fun _ => 0

theorem texts_roundTrip_host :
    PublicKey.RoundTrips zeroHashes ⟨2, ({ rpid := ascii "eos.io" } : Webauthn.PublicKey)⟩ ↔
      PublicKey.Packable ⟨2, ({ rpid := ascii "eos.io" } : Webauthn.PublicKey)⟩ :=
  (texts_roundTrip zeroHashes).1 _ (show ascii "eos.io" ≠ [] by decide)

-- A signature with more than a mebibyte of authenticator data has no text.
theorem not_roundTrips_authData : ¬Signature.RoundTrips zeroHashes
    ⟨2, (⟨fun _ => 0, List.replicate (2 ^ 20 + 1) 0, []⟩ : Webauthn.Signature)⟩ := by
  rw [Signature.roundTrips_iff]
  intro h
  have hle := h.1
  rw [List.length_replicate] at hle
  exact absurd hle (by decide)

end Keys
