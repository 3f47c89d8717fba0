import FcModel.Crypto.Elliptic.Data
import FcModel.Lib.Ecdsa

-- `fc::crypto::r1`: keys and signatures over a curve of OpenSSL, and the recovery of keys.

namespace R1

open Raw Keys Elliptic
open ModularArithmetic (padded length_padded ofBytes_padded)

-- The number of bits of the field is looked at too.
structure Group (E : Type) extends Ecdsa.Curve E where
  degree : Nat

inductive Error
  | assert
  -- "Unable to sign"
  | sign
  -- "unable to construct recoverable key"
  | recoverable
  -- "unable to reconstruct public key from signature"
  | reconstruct
  -- "invalid high s-value encountered in r1 signature"
  | highS
  -- "error decoding public key"
  | decoding
  -- "digest > group order"
  | digest
  -- "point at  infinity"
  | infinity
deriving DecidableEq, Repr

-- A key of OpenSSL with a secret.
structure EcKey (E : Type) where
  secret : Nat
  point  : E

-- Without a key of OpenSSL a key is not valid.
abbrev PublicKey (E : Type) := Option E

abbrev PrivateKey (E : Type) := Option (EcKey E)

variable {E : Type} [AddCommGroup E] [DecidableEq E]

section Keys

variable (C : Group E)

-- `i2o_ECPublicKey`, with the compressed form.
def serialize : PublicKey E → Data 33
  | none   => data 33 []
  | some P =>
    if P = 0 then data 33 []
    else data 33 ((if C.odd P then 3 else 2) :: padded 32 (C.x P))

-- `o2i_ECPublicKey`.
def ofData (dat : Data 33) : Except Error (PublicKey E) :=
  if byte dat 0 = 0 then .ok none
  else
    let x := Bigint.ofBytes (bytes dat 1 32)
    if (byte dat 0 = 2 ∨ byte dat 0 = 3) ∧ x < C.field then
      match C.lift x (byte dat 0 = 3) with
      | some P => .ok (some P)
      | none   => .error .decoding
    else .error .decoding

def regenerate (secret : Data 32) : PrivateKey E :=
  let bn := Bigint.ofBytes (memory secret)
  some ⟨bn, bn • C.generator⟩

-- `private_key::get_secret`.
def getSecret : PrivateKey E → Data 32
  | none   => data 32 []
  | some k => data 32 (padded 32 k.secret)

end Keys

def EcKey.getPublicKey (k : EcKey E) : PublicKey E :=
  some k.point

-- `BN_mod_inverse`.
def modInverse (r n : Nat) : Option Nat :=
  if Nat.gcd r n = 1 then some (Nat.gcdA r n % n).toNat else none

section Signatures

variable (C : Group E)

-- `ECDSA_SIG_recover_key_GFp`. There is no key where it does not return 1.
def recoverKey (r s : Nat) (msg : Bytes) (recid : Nat) (check : Bool) : Option E := do
  let i := recid / 2
  let x := C.order * i + r
  guard (x < C.field)
  let R ← C.lift x (recid % 2 = 1)
  if check then guard (C.order • R = 0)
  let n := C.degree
  let e := Bigint.ofBytes msg
  let e := if 8 * msg.length > n then e >>> (8 - n % 8) else e
  let e := ((0 - e : Int) % C.order).toNat
  let rr ← modInverse r C.order
  let sor := s * rr % C.order
  let eor := e * rr % C.order
  return eor • C.generator + sor • R

-- The low one of the two numbers that are possible is always used.
def signatureFromEcdsa (pubData : Data 33) (r s : Nat) (d : Data 32) : Except Error (Data 65) := do
  let halforder := C.order / 2
  let s := if s > halforder then C.order - s else s
  if r.size > 256 ∨ s.size > 256 then throw .sign
  let nRecId := (List.range 4).find? fun i =>
    (recoverKey C r s (memory d) i true).any fun Q => serialize C (some Q) = pubData
  match nRecId with
  | some i => return data 65 (.ofNat (i + 27 + 4) :: padded 32 r ++ padded 32 s)
  | none   => throw .recoverable

-- `doSign` is `ECDSA_do_sign`.
def signCompact (doSign : Nat → Bytes → Option (Nat × Nat)) (digest : Data 32) :
    PrivateKey E → Except Error (Data 65)
  | none   => .error .assert
  | some k =>
    match doSign k.secret (memory digest) with
    | some (r, s) => signatureFromEcdsa C (serialize C k.getPublicKey) r s digest
    | none        => .error .sign

-- `public_key( c, digest )`. The flag that asks for a canonical signature is not looked at.
def recover (c : Data 65) (digest : Data 32) : Except Error (PublicKey E) := do
  let nV := (byte c 0).toNat
  if nV < 27 ∨ 35 ≤ nV then throw .reconstruct
  let r := Bigint.ofBytes (bytes c 1 32)
  let s := Bigint.ofBytes (bytes c 33 32)
  if s > C.order / 2 then throw .highS
  let nV := if nV ≥ 31 then nV - 4 else nV
  match recoverKey C r s (memory digest) (nV - 27) false with
  | some Q => return some Q
  | none   => throw .reconstruct

end Signatures

section Derivation

variable (C : Group E)

-- The sum of the seed and the offset is the secret.
def generateFromSeed (seed offset : Data 32) : PrivateKey E :=
  let z := Bigint.ofBytes (memory offset)
  let secexp := (Bigint.ofBytes (memory seed) + z) % C.order
  regenerate C (data 32 (padded 32 secexp))

-- Not the key is multiplied, but the generator.
def mult (masterPub : E) (digest : Data 32) : PublicKey E :=
  some (Bigint.ofBytes (memory digest) • C.generator + 1 • masterPub)

def add (masterPub : E) (digest : Data 32) : Except Error (PublicKey E) := do
  let digestBi := Bigint.ofBytes (memory digest)
  if digestBi > C.order then throw .digest
  let digestPoint := digestBi • C.generator
  let result := digestPoint + masterPub
  if result = 0 then throw .infinity
  return some result

end Derivation

-- `ECDH_compute_key` with `ecies_key_derivation`. Nothing is written if it fails.
def getSharedSecret (C : Group E) (sha512 : Bytes → Data 64) :
    PrivateKey E → PublicKey E → Except Error (Data 64)
  | some k, some other =>
    let point := k.secret • other
    .ok (if point = 0 then data 64 [] else sha512 (padded 32 (C.x point)))
  | _, _ => .error .assert

-- The laws of the curve, whose numbers have 256 bits.
structure Group.Lawful (C : Group E) : Prop extends C.toCurve.Lawful where
  degree_eq : C.degree = 256
  order_le  : C.order ≤ 2 ^ 256
  field_le' : C.field ≤ 2 ^ 256

-- What `ECDSA_do_sign` returns is a signature.
def Signer (C : Group E) (doSign : Nat → Bytes → Option (Nat × Nat)) : Prop :=
  ∀ {d msg r s}, doSign d msg = some (r, s) →
    ∃ R, C.Signs (d • C.generator) (Bigint.ofBytes msg) r s R

variable {C : Group E} {P Q R : E} {r s recid : Nat}

section Serialize

omit [DecidableEq E] in
theorem length_compressed (h : C.Lawful) (hP : P ≠ 0) (b : UInt8) :
    (b :: padded 32 (C.x P)).length = 33 := by
  have hx : C.x P < 256 ^ 32 := (h.x_lt hP).trans_le h.field_le'
  rw [List.length_cons, length_padded hx]

theorem serialize_head (P : E) : (serialize C (some P)) 0 =
    if P = 0 then 0 else if C.odd P then 3 else 2 := by
  rw [serialize]
  split
  case isTrue  => rfl
  case isFalse =>
    cases C.odd P
    case false => rfl
    case true  => rfl

theorem serialize_inj (h : C.Lawful) (he : serialize C (some P) = serialize C (some Q)) :
    P = Q := by
  have hd := congrFun he 0
  rw [serialize_head, serialize_head] at hd
  by_cases hP : P = 0 <;> by_cases hQ : Q = 0
  case pos => rw [hP, hQ]
  case neg => cases ho : C.odd Q <;> simp [hP, hQ, ho] at hd
  case pos => cases ho : C.odd P <;> simp [hP, hQ, ho] at hd
  case neg =>
    rw [serialize, serialize, if_neg hP, if_neg hQ] at he
    have hb := data_inj (length_compressed h hP _) (length_compressed h hQ _) he
    simp only [List.cons.injEq] at hb
    have hx : C.x P = C.x Q := by rw [← ofBytes_padded 32 (C.x P), hb.2, ofBytes_padded]
    refine h.eq_of_coordinates hP hQ hx ?_
    cases hp : C.odd P <;> cases hq : C.odd Q <;> simp [hp, hq] at hb ⊢

-- What is serialised of a key gives it back, if it is valid.
theorem ofData_serialize (h : C.Lawful) (hP : P ≠ 0) :
    ofData C (serialize C (some P)) = .ok (some P) := by
  have hx := h.x_lt hP
  have hb : bytes (serialize C (some P)) 1 32 = padded 32 (C.x P) := by
    rw [serialize, if_neg hP, bytes_data (length_compressed h hP _), List.drop_one, List.tail_cons,
      List.take_of_length_le (by rw [length_padded (hx.trans_le h.field_le')])]
  rw [ofData, show byte _ 0 = _ from byte_eq (serialize C (some P)) 0, serialize_head, hb,
    ofBytes_padded]
  have hl := h.lift_self hP
  cases ho : C.odd P <;> rw [ho] at hl <;> simp [hP, hx, hl]

end Serialize

end R1
