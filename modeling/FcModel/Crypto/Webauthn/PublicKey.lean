import FcModel.Crypto.Base64
import FcModel.Crypto.Webauthn.Handler
import FcModel.Lib.Except
import FcModel.Lib.Find
import FcModel.Raw.Codec.TwoPass

-- `webauthn::public_key`: how it is recovered from a signature, and how it is packed.

namespace Webauthn

open MutableVariantObject Raw

abbrev Sha256 := Vector UInt8 32

-- What is called but not part of the repository: the JSON parser, the hash function, and the curve
-- on which a key is recovered from a digest, the two numbers of a signature and an index.
structure Environment where
  parse      : Bytes → Option Document
  sha256     : Bytes → Sha256
  recoverKey : Sha256 → Bytes → Bytes → Nat → Option (Fin 33 → BitVec 8)

structure Signature where
  compactSignature : Fin 65 → BitVec 8
  authData         : Bytes
  clientJson       : Bytes

-- Any byte can be cast to a `user_presence_t`.
abbrev UserPresence := BitVec (8 * 1)

namespace UserPresence

abbrev none : UserPresence := 0
abbrev present : UserPresence := 1
abbrev verified : UserPresence := 2

end UserPresence

structure PublicKey where
  publicKeyData        : Fin 33 → BitVec (8 * 1) := fun _ => 0
  userVerificationType : UserPresence := .none
  rpid                 : Bytes := []
deriving DecidableEq

-- `FC_ASSERT`, and the exceptions that are thrown when a condition does not hold.
def assert (p : Prop) [Decidable p] (message : String) : Except String Unit :=
  if p then .ok () else .error message

theorem assert_eq_ok {p : Prop} [Decidable p] {message : String} {u : Unit} :
    assert p message = .ok u ↔ p := by
  rw [assert]
  split
  case isTrue h  => exact iff_of_true rfl h
  case isFalse h => exact iff_of_false (by simp) h

-- `sha256( data, size )` copies a digest.
def digestOf (data : Bytes) : Except String Sha256 :=
  if h : data.length = 32 then .ok ⟨data.toArray, h⟩ else .error "sha256: size mismatch"

-- `npos` if the character is not there.
def rfind (s : Bytes) (c : UInt8) : Nat :=
  match s.reverse.findIdx? (· = c) with
  | some i => s.length - 1 - i
  | none   => 2 ^ 64 - 1

-- A difference of two numbers of type `size_t`.
def sizeSub (a b : Nat) : Nat :=
  if b ≤ a then a - b else a + 2 ^ 64 - b

def substr (s : Bytes) (pos n : Nat) : Except String Bytes :=
  if pos ≤ s.length then .ok ((s.drop pos).take n) else .error "basic_string::substr"

namespace Environment

variable (env : Environment)

-- The lengths are passed as `uint32_t`.
def hash (s : Bytes) : Sha256 :=
  env.sha256 (s.take (s.length % 2 ^ 32))

-- The parser is given a C string. It fails if the handler does not accept one of the events.
def parseClientData (c : Signature) : Option JsonHandler :=
  (env.parse (cStr c.clientJson)).bind fun d => JsonHandler.run {} d.events

-- The signature is over the authenticator data and the hash of the client data.
def signedDigest (c : Signature) : Sha256 :=
  env.sha256 (c.authData.take (c.authData.length % 2 ^ 32) ++ (env.hash c.clientJson).toList)

end Environment

def requiredOriginScheme : Bytes :=
  ascii "https://"

def minAuthDataSize : Nat := 37

-- The second test overrides the first one.
def userPresence (flags : UInt8) : UserPresence :=
  if flags &&& 0x04 ≠ 0 then .verified else if flags &&& 0x01 ≠ 0 then .present else .none

-- The bytes of a compact signature from `i` on.
def Signature.bytes (c : Signature) (i n : Nat) : Bytes :=
  ((List.ofFn c.compactSignature).drop i).take n |>.map fun b => .ofBitVec b

-- `public_key( c, digest )`. The flag that asks for a canonical signature is not looked at.
def publicKey (env : Environment) (c : Signature) (digest : Sha256) : Except String PublicKey := do
  let some handler := env.parseClientData c | .error "Failed to parse client data JSON"
  assert (handler.foundType = ascii "webauthn.get") "webauthn signature type not an assertion"
  let challengeBytes ← Base64.base64urlDecode handler.foundChallenge
  let challenge ← digestOf challengeBytes
  assert (challenge = digest) "Wrong webauthn challenge"
  let httpsLen := requiredOriginScheme.length
  assert (handler.foundOrigin.take httpsLen = requiredOriginScheme)
    "webauthn origin must begin with https://"
  let rpid ← substr handler.foundOrigin httpsLen (sizeSub (rfind handler.foundOrigin Ascii.colon) httpsLen)
  assert (minAuthDataSize ≤ c.authData.length) "auth_data not as large as required"
  let presence := userPresence (c.authData.getD 32 0)
  assert (c.authData.take 32 = (env.hash rpid).toList) "webauthn rpid hash doesn't match origin"
  let nV := (c.compactSignature 0).toNat
  assert (31 ≤ nV ∧ nV < 35) "unable to reconstruct public key from signature"
  let some key := env.recoverKey (env.signedDigest c) (c.bytes 1 32) (c.bytes 33 32) (nV - 4 - 27)
    | .error "unable to reconstruct public key from signature"
  return { publicKeyData := key, userVerificationType := presence, rpid := rpid }

-- What the constructor does with the client data before it looks at their origin.
def challenged (env : Environment) (c : Signature) (digest : Sha256) :
    Except String JsonHandler := do
  let some handler := env.parseClientData c | .error "Failed to parse client data JSON"
  assert (handler.foundType = ascii "webauthn.get") "webauthn signature type not an assertion"
  let challengeBytes ← Base64.base64urlDecode handler.foundChallenge
  let challenge ← digestOf challengeBytes
  assert (challenge = digest) "Wrong webauthn challenge"
  return handler

def rpidOf (origin : Bytes) : Except String Bytes := do
  let httpsLen := requiredOriginScheme.length
  assert (origin.take httpsLen = requiredOriginScheme) "webauthn origin must begin with https://"
  substr origin httpsLen (sizeSub (rfind origin Ascii.colon) httpsLen)

-- What it does with the host.
def recovered (env : Environment) (c : Signature) (rpid : Bytes) : Except String PublicKey := do
  assert (minAuthDataSize ≤ c.authData.length) "auth_data not as large as required"
  let presence := userPresence (c.authData.getD 32 0)
  assert (c.authData.take 32 = (env.hash rpid).toList) "webauthn rpid hash doesn't match origin"
  let nV := (c.compactSignature 0).toNat
  assert (31 ≤ nV ∧ nV < 35) "unable to reconstruct public key from signature"
  let some key := env.recoverKey (env.signedDigest c) (c.bytes 1 32) (c.bytes 33 32) (nV - 4 - 27)
    | .error "unable to reconstruct public key from signature"
  return { publicKeyData := key, userVerificationType := presence, rpid := rpid }

namespace PublicKey

def pack (k : PublicKey) : Packer :=
  Raw.pack (.scalarArray 33 (.int 1)) k.publicKeyData ++
    (packInt k.userVerificationType ++ packBytes k.rpid)

-- `post_init`.
def postInit (k : PublicKey) : Unpacker Unit :=
  check (k.rpid.length ≠ 0)

def unpack (k : PublicKey) : Unpacker PublicKey := do
  let data ← Raw.unpack 0 (.scalarArray 33 (.int 1)) k.publicKeyData
  let t ← unpackInt (n := 1) 0
  let rpid ← unpackBytes k.rpid
  let k : PublicKey := { publicKeyData := data, userVerificationType := t, rpid := rpid }
  k.postInit
  return k

-- The key has an rpid, and unpacking what it is packed to gives it back.
def Serialisable (k : PublicKey) : Prop :=
  k.rpid ≠ [] ∧ ∃ b, k.pack.bytes = .ok b ∧ ∀ d : PublicKey,
    ∃ ds, (d.unpack.run Datastream.source).run ⟨b, 0⟩ = .ok k ds ∧ ds.unread = []

theorem reads_unpack {k : PublicKey} (hk : k.rpid ≠ []) (d : PublicKey) :
    Reads (fun _ => d.unpack) k.pack k := by
  have hpost : k.rpid.length ≠ 0 := fun h => hk (List.length_eq_zero_iff.mp h)
  have hdata : Reads (fun _ => Raw.unpack 0 (.scalarArray 33 (.int 1)) d.publicKeyData)
      (Raw.pack (.scalarArray 33 (.int 1)) k.publicKeyData) k.publicKeyData :=
    .read (by simp) (by rw [Scalar.arrayOfBytes_arrayToBytes]; exact .pure)
  exact .bind hdata (.bind (reads_int 0 k.userVerificationType)
    (.map (reads_bytes d.rpid k.rpid) (.check_bind hpost .pure)))

theorem serialisable_iff (k : PublicKey) :
    k.Serialisable ↔ k.rpid ≠ [] ∧ k.rpid.length ≤ maxSizeOfByteArrays := by
  constructor
  case mp =>
    rintro ⟨hne, b, hb, -⟩
    obtain ⟨_, _, -, hb, -⟩ := Encoder.bytes_append_eq_ok.mp hb
    obtain ⟨_, _, -, hb, -⟩ := Encoder.bytes_append_eq_ok.mp hb
    obtain ⟨_, _, hguard, -, -⟩ := Encoder.bytes_append_eq_ok.mp hb
    exact ⟨hne, (Encoder.bytes_guard_eq_ok.mp hguard).1⟩
  case mpr =>
    rintro ⟨hne, hle⟩
    obtain ⟨b, hb⟩ : Packs k.pack :=
      Packs.done.write.append ((Packs.int _).append (Packs.bytes hle))
    refine ⟨hne, b, hb, fun d => ?_⟩
    have hagree := Datastream.checked.run d.unpack (.start b)
    rw [← List.append_nil b, reads_unpack hne d b hb [] _ (Nat.lt_succ_self _),
      List.append_nil] at hagree
    generalize (d.unpack.run Datastream.source).run ⟨b, 0⟩ = r at hagree
    cases hagree
    case ok ds hu => exact ⟨ds, rfl, hu.unread⟩

end PublicKey

-- The origin that the client data of a signature give.
def Signature.origin (env : Environment) (c : Signature) : Bytes :=
  ((env.parseClientData c).getD {}).foundOrigin

-- What is left of the checks once a key is recovered.
theorem publicKey_eq_ok {env : Environment} {c : Signature} {digest : Sha256} {k : PublicKey}
    (h : publicKey env c digest = .ok k) :
    (c.origin env).take requiredOriginScheme.length = requiredOriginScheme ∧
      substr (c.origin env) requiredOriginScheme.length
        (sizeSub (rfind (c.origin env) Ascii.colon) requiredOriginScheme.length) = .ok k.rpid := by
  rw [publicKey] at h
  rw [Signature.origin]
  split at h
  case h_2 => cases h
  case h_1 handler hparse =>
    rw [hparse, Option.getD_some]
    obtain ⟨_, -, h⟩ := Except.bind_eq_ok h
    obtain ⟨_, -, h⟩ := Except.bind_eq_ok h
    obtain ⟨_, -, h⟩ := Except.bind_eq_ok h
    obtain ⟨_, -, h⟩ := Except.bind_eq_ok h
    obtain ⟨_, hscheme, h⟩ := Except.bind_eq_ok h
    obtain ⟨rpid, hrpid, h⟩ := Except.bind_eq_ok h
    obtain ⟨_, -, h⟩ := Except.bind_eq_ok h
    obtain ⟨_, -, h⟩ := Except.bind_eq_ok h
    obtain ⟨_, -, h⟩ := Except.bind_eq_ok h
    refine ⟨assert_eq_ok.mp hscheme, ?_⟩
    split at h
    case h_1 => cases h; exact hrpid
    case h_2 => cases h

-- The host ends at the last colon, if there is one.
def IsHost (rest host : Bytes) : Prop :=
  (Ascii.colon ∉ rest ∧ host = rest) ∨ ∃ port,
    rest = host ++ Ascii.colon :: port ∧ Ascii.colon ∉ port

-- After the scheme comes the name of a host, which is not too long to be packed.
def NamesHost (origin : Bytes) : Prop :=
  ∃ rest host, origin = requiredOriginScheme ++ rest ∧ IsHost rest host ∧ host ≠ [] ∧
    host.length ≤ maxSizeOfByteArrays

theorem exists_isHost (rest : Bytes) : ∃ host, IsHost rest host := by
  by_cases h : Ascii.colon ∈ rest
  case neg => exact ⟨rest, .inl ⟨h, rfl⟩⟩
  case pos =>
    obtain ⟨as, bs, hrest, has⟩ := List.eq_append_cons_of_mem (List.mem_reverse.mpr h)
    refine ⟨bs.reverse, .inr ⟨as.reverse, ?_, by simpa using has⟩⟩
    rw [← List.reverse_reverse rest, hrest]
    simp

theorem rfind_append_cons (a : Bytes) {c : UInt8} {b : Bytes} (hb : c ∉ b) :
    rfind (a ++ c :: b) c = a.length := by
  have hfind : (a ++ c :: b).reverse.findIdx? (· = c) = some b.length := by
    rw [List.reverse_append, List.reverse_cons, List.append_assoc, List.singleton_append,
      List.findIdx?_append_cons fun hc => hb (List.mem_reverse.mp hc), List.length_reverse]
  rw [rfind, hfind]
  simp

-- What is taken from the origin is the host, up to a length that no packed string has.
theorem substr_origin {rest host : Bytes} (h : IsHost rest host) : ∃ n, maxSizeOfByteArrays < n ∧
    substr (requiredOriginScheme ++ rest) requiredOriginScheme.length
      (sizeSub (rfind (requiredOriginScheme ++ rest) Ascii.colon) requiredOriginScheme.length) =
        .ok (host.take n) := by
  have hsubstr : ∀ m, substr (requiredOriginScheme ++ rest) requiredOriginScheme.length m =
      .ok (rest.take m) := by
    intro m
    rw [substr, if_pos (by simp), List.drop_left]
  rw [hsubstr]
  obtain ⟨hrest, rfl⟩ | ⟨port, rfl, hport⟩ := h
  · refine ⟨2 ^ 64 - 3, by decide, ?_⟩
    have hscheme : requiredOriginScheme ++ host = ascii
      "https" ++ Ascii.colon :: (ascii "//" ++ host) := rfl
    have hslashes : Ascii.colon ∉ ascii "//" := by decide
    rw [hscheme, rfind_append_cons _ (by simp [hrest, hslashes])]
    rfl
  · refine ⟨host.length + maxSizeOfByteArrays + 1, by omega, ?_⟩
    rw [← List.append_assoc, rfind_append_cons _ hport, List.length_append, sizeSub,
      if_pos (by omega),
      Nat.add_sub_cancel_left, List.take_left, List.take_of_length_le (by omega)]

theorem serialisable_iff_namesHost {env : Environment} {c : Signature} {digest : Sha256}
    {k : PublicKey}
    (h : publicKey env c digest = .ok k) : k.Serialisable ↔ NamesHost (c.origin env) := by
  obtain ⟨hscheme, hrpid⟩ := publicKey_eq_ok h
  have hhost : ∀ rest host, c.origin env = requiredOriginScheme ++ rest → IsHost rest host →
      (k.Serialisable ↔ host ≠ [] ∧ host.length ≤ maxSizeOfByteArrays) := by
    intro rest host horigin hhost
    obtain ⟨n, hn, hsubstr⟩ := substr_origin hhost
    rw [horigin, hsubstr] at hrpid
    rw [PublicKey.serialisable_iff, ← Except.ok.inj hrpid, List.length_take, ne_eq,
      List.take_eq_nil_iff]
    refine and_congr ?_ (by omega)
    rw [or_iff_right (by omega)]
  constructor
  case mp =>
    intro hk
    obtain ⟨host, hrest⟩ := exists_isHost ((c.origin env).drop requiredOriginScheme.length)
    have horigin : c.origin env = requiredOriginScheme ++
        (c.origin env).drop requiredOriginScheme.length := by
      conv => lhs; rw [← List.take_append_drop requiredOriginScheme.length (c.origin env), hscheme]
    exact ⟨_, host, horigin, hrest, (hhost _ host horigin hrest).mp hk⟩
  case mpr =>
    rintro ⟨rest, host, horigin, hrest, hk⟩
    exact (hhost rest host horigin hrest).mpr hk

section Sample

-- A signature by the key whose point is the generator of the curve, over a challenge of zeros.

def bigEndian (n v : Nat) : Bytes :=
  List.ofFn fun i : Fin n => .ofNat (v / 256 ^ (n - 1 - i))

def sampleDigest (v : Nat) : Sha256 :=
  .ofFn fun i => .ofNat (v / 256 ^ (31 - i.val))

def sampleKey : Fin 33 → BitVec 8 := fun i =>
  .ofNat 8 (0x036b17d1f2e12c4247f8bce6e563a440f277037d812deb33a0f4a13945d898c296 / 256 ^
    (32 - i.val))

def sampleJson (origin : Bytes) : Bytes :=
  ascii "\x7b\"origin\":\"" ++ origin ++ ascii "\",\"type\":\"webauthn.get\",\"challenge\":\"" ++
    List.replicate 43 0x41 ++ ascii "\"\x7d"

def sampleDocument (origin : Bytes) : Document :=
  .object [(ascii "origin", .string origin), (ascii "type", .string (ascii "webauthn.get")),
    (ascii "challenge", .string (List.replicate 43 0x41))]

structure Sample where
  origin     : Bytes
  rpid       : Bytes
  rpidHash   : Nat
  clientHash : Nat
  digest     : Nat
  compact    : Nat

def Sample.signature (x : Sample) : Signature where
  compactSignature i := .ofNat 8 (x.compact / 256 ^ (64 - i.val))
  authData           := bigEndian 32 x.rpidHash ++ List.replicate 5 0
  clientJson         := sampleJson x.origin

-- The values of the functions that are called for the signature.
def Sample.environment (x : Sample) : Environment where
  parse s := if s = sampleJson x.origin then some (sampleDocument x.origin) else none
  sha256 m := sampleDigest (
    if m = x.rpid then x.rpidHash
    else if m = sampleJson x.origin then x.clientHash
    else if m = x.signature.authData ++ bigEndian 32 x.clientHash then x.digest
    else 0)
  recoverKey z r s i :=
    if z = sampleDigest x.digest ∧ r ++ s = bigEndian 64 x.compact ∧ i = 1 then some sampleKey else none

def Sample.key (x : Sample) : PublicKey where
  publicKeyData        := sampleKey
  userVerificationType := .none
  rpid                 := x.rpid

def hostSample : Sample where
  origin     := ascii "https://a:1"
  rpid       := ascii "a"
  rpidHash   := 0xca978112ca1bbdcafac231b39a23dc4da786eff8147c4e72b9807785afee48bb
  clientHash := 0x43809547ff1db2965e401d6a3a123b8b99337fd7237d8f9879b1269528703fad
  digest     := 0xee1302ed10467b29b7287f6d4575266e75472bcc0f269e37f7936a3240bcf37b
  compact    := 0x207cf27b188d034f7e8a52380304b51ac3c08969e277f21b35a60b48fc476699783582bf034ea4e553a0bd5bb8251520993c74cd8070008d7454f27435c5e033d1

-- Nothing follows the scheme.
def emptySample : Sample where
  origin     := ascii "https://"
  rpid       := []
  rpidHash   := 0xe3b0c44298fc1c149afbf4c8996fb92427ae41e4649b934ca495991b7852b855
  clientHash := 0xad6c4b700bb764c8512634c9bae1bfa4d2bc4cb7bf1f9eb67ee0754582c75ccd
  digest     := 0x34dea02cc5a409146c7457a2b53fc86f51503f11eb3b6c4dd29c2f2c3d4a9981
  compact    := 0x207cf27b188d034f7e8a52380304b51ac3c08969e277f21b35a60b48fc47669978d8e88da22953ac49fb6347d2dcfa7199676051d1052293043630a175c08a2c25

set_option maxRecDepth 8000 in
theorem serialisable_host : hostSample.key.Serialisable := by
  have hkey : publicKey hostSample.environment hostSample.signature (sampleDigest 0) =
      .ok hostSample.key := by
    decide
  have horigin : hostSample.signature.origin hostSample.environment = ascii
    "https://a:1" := by decide
  refine (serialisable_iff_namesHost hkey).mpr
    ⟨ascii "a:1", ascii "a", horigin.trans rfl, ?_, by decide, by decide⟩
  exact .inr ⟨ascii "1", rfl, by decide⟩

set_option maxRecDepth 8000 in
theorem not_serialisable_empty :
    publicKey emptySample.environment emptySample.signature (sampleDigest 0) = .ok emptySample.key ∧
      ¬emptySample.key.Serialisable := by
  exact ⟨by decide, fun h => h.1 rfl⟩

end Sample

end Webauthn
