import FcModel.Crypto.Elliptic.K1
import FcModel.Crypto.Elliptic.R1.Recovery
import FcModel.Crypto.Webauthn.Origin

-- `private_key` and `public_key` at work: signing, recovering keys and sharing secrets.

namespace Keys

open Raw Elliptic

-- The libraries below, over the points of two curves.
structure Libraries (E F : Type) where
  secp256k1 : K1.Secp256k1 E
  group     : R1.Group F
  doSign    : Nat → Bytes → Option (Nat × Nat)
  sha512    : Bytes → Data 64
  parse     : Bytes → Option Webauthn.Document
  sha256    : Bytes → Webauthn.Sha256

inductive CurveError
  | k1 (e : K1.Error)
  | r1 (e : R1.Error)
  | webauthn (message : String)
  -- `std::bad_variant_access`.
  | badVariantAccess

section

variable {E F : Type} [AddCommGroup E] [DecidableEq E] [AddCommGroup F] [DecidableEq F]
  (L : Libraries E F)

def Libraries.webauthn : Webauthn.Environment where
  parse            := L.parse
  sha256           := L.sha256
  recoverKey d r s i :=
    -- A point at infinity has fewer bytes.
    ((R1.recoverKey L.group (Bigint.ofBytes r) (Bigint.ofBytes s) d.toList i false).filter
      (· ≠ 0)).map fun Q => R1.serialize L.group (some Q)

-- `ecc::public_key::serialize`.
def serializeK1 (data : Data 33) : Except K1.Error (Data 33) := do
  K1.assert (data ≠ Elliptic.data 33 [])
  return data

-- `private_key::get_public_key`.
def getPublicKey (p : PrivateKey) : Except CurveError PublicKey :=
  p.visit
    (fun secret => do
      let key ← (K1.getPublicKey L.secp256k1 secret >>= serializeK1).mapError .k1
      return .k1 key)
    (fun secret => do
      let key := (R1.regenerate L.group secret).bind R1.EcKey.getPublicKey
      return .r1 (R1.serialize L.group key))

-- Signatures of the second curve are not asked whether they are canonical.
def sign (fuel : Nat) (digest : Data 32) (requireCanonical : Bool) (p : PrivateKey) :
    Except CurveError Signature :=
  p.visit
    (fun secret => do
      let c ← (K1.signCompact L.secp256k1 fuel digest secret requireCanonical).mapError .k1
      return .k1 c)
    (fun secret => do
      let key := R1.regenerate L.group secret
      let c ← (R1.signCompact L.group L.doSign digest key).mapError .r1
      return .r1 c)

-- `public_key( signature, digest, check_canonical )`.
def recover (digest : Data 32) (checkCanonical : Bool) (c : Signature) :
    Except CurveError PublicKey :=
  c.visit
    (fun c => do
      let key ← (K1.publicKey L.secp256k1 c digest checkCanonical >>= serializeK1).mapError .k1
      return .k1 key)
    (fun c => do
      let key ← (R1.recover L.group c digest).mapError .r1
      return .r1 (R1.serialize L.group key))
    (fun s => do
      let digest := Vector.ofFn fun i => .ofBitVec (digest i)
      let key ← (Webauthn.publicKey L.webauthn s digest).mapError .webauthn
      return .webauthn key)

-- The public key has to be of the kind of the private one.
def generateSharedSecret (p : PrivateKey) (pub : PublicKey) : Except CurveError (Data 64) :=
  let badVariantAccess := .error .badVariantAccess
  p.visit
    (fun secret => pub.visit
      (fun data => (K1.getSharedSecret L.secp256k1 L.sha512 secret data).mapError .k1)
      (fun _ => badVariantAccess) (fun _ => badVariantAccess))
    (fun secret => pub.visit (fun _ => badVariantAccess)
      (fun data => (R1.ofData L.group data >>=
        R1.getSharedSecret L.group L.sha512 (R1.regenerate L.group secret)).mapError .r1)
      (fun _ => badVariantAccess))

-- How the libraries are documented.
structure Libraries.Lawful (C : Ecdsa.Curve E) : Prop where
  k1     : L.secp256k1.Lawful C
  r1     : L.group.Lawful
  signer : R1.Signer L.group L.doSign

end

section Recovery

variable {E F : Type} [AddCommGroup E] [DecidableEq E] [AddCommGroup F] [DecidableEq F]
  {L : Libraries E F} {C : Ecdsa.Curve E} {digest : Data 32}

def nonCanonical (c : Signature) : Bool :=
  c.visit (fun c => !K1.isCanonical c) (fun _ => false) (fun _ => false)

-- A key that was computed is not empty.
theorem serialize_ne {S : K1.Secp256k1 E} (h : S.Lawful C) {P : E} (hP : P ≠ 0) :
    data 33 (S.pubkeySerialize P true) ≠ data 33 [] := by
  intro he
  have h0 := congrFun he 0
  have hh := h.serialize_head hP
  have hl : (S.pubkeySerialize P true).headD 0 = (S.pubkeySerialize P true).getD 0 0 := by
    cases S.pubkeySerialize P true <;> rfl
  rw [hl] at hh
  exact hh (UInt8.eq_of_toBitVec_eq h0)

theorem serializeK1_compressed {S : K1.Secp256k1 E} (h : S.Lawful C) {P : E} (hP : P ≠ 0) :
    serializeK1 (data 33 (S.pubkeySerialize P true)) =
      .ok (data 33 (S.pubkeySerialize P true)) := by
  rw [serializeK1, K1.assert_bind (serialize_ne h hP)]
  rfl

theorem nonCanonical_k1 {c : Data 65} : nonCanonical (.k1 c) = true ↔ ¬K1.isCanonical c = true := by
  change (!K1.isCanonical c) = true ↔ _
  rw [Bool.not_eq_true', Bool.not_eq_true]

omit [AddCommGroup E] [DecidableEq E] in
theorem getPublicKey_k1 (secret : Data 32) : getPublicKey L (.k1 secret) =
    (K1.getPublicKey L.secp256k1 secret >>= serializeK1).mapError .k1 >>= fun key =>
      .ok (.k1 key) := rfl

omit [AddCommGroup E] [DecidableEq E] in
theorem recover_k1 (checkCanonical : Bool) (c : Data 65) : recover L digest checkCanonical (.k1 c) =
    (K1.publicKey L.secp256k1 c digest checkCanonical >>= serializeK1).mapError .k1 >>= fun key =>
      .ok (.k1 key) := rfl

omit [AddCommGroup E] [DecidableEq E] in
theorem recover_r1 (checkCanonical : Bool) (c : Data 65) : recover L digest checkCanonical (.r1 c) =
    (R1.recover L.group c digest).mapError .r1 >>= fun key =>
      .ok (.r1 (R1.serialize L.group key)) := rfl

omit [AddCommGroup E] [DecidableEq E] in
theorem sign_r1 (fuel : Nat) (requireCanonical : Bool) (secret : Data 32) :
    sign L fuel digest requireCanonical (.r1 secret) =
      (R1.signCompact L.group L.doSign digest (R1.regenerate L.group secret)).mapError .r1 >>=
        fun c => .ok (.r1 c) := rfl

theorem mapError_ok {ε ε' α : Type} {f : ε → ε'} (a : α) :
    (Except.ok a : Except ε α).mapError f = .ok a := rfl

theorem mapError_eq_ok {ε ε' α : Type} {f : ε → ε'} {x : Except ε α} {a : α}
    (h : x.mapError f = .ok a) : x = .ok a := by
  cases x
  case error => cases h
  case ok a  => cases h; rfl

-- What has to hold of a signature that a key makes.
def Recovers (L : Libraries E F) (digest : Data 32) (requireCanonical : Bool) (p : PrivateKey)
    (sig : Signature) : Prop :=
  sig.1.val = p.1.val ∧ (requireCanonical = true → nonCanonical sig = false) ∧
    (∀ checkCanonical, recover L digest checkCanonical sig =
      if checkCanonical ∧ nonCanonical sig then .error (.k1 .canonical) else getPublicKey L p) ∧
    ∀ c, sig = .k1 c → ∃ Q,
      getPublicKey L p = .ok (.k1 (data 33 (L.secp256k1.pubkeySerialize Q true))) ∧
      K1.k1Recover L.secp256k1 (memory c) (memory digest) =
        .inr (L.secp256k1.pubkeySerialize Q false)

variable {fuel : Nat} {requireCanonical : Bool} {secret : Data 32} {sig : Signature}

theorem recovers_k1 (h : L.Lawful C)
    (hs : sign L fuel digest requireCanonical (.k1 secret) = .ok sig) :
    Recovers L digest requireCanonical (.k1 secret) sig := by
  obtain ⟨c, hc, hs⟩ := Except.bind_eq_ok hs
  cases hs
  obtain ⟨hcan, hrec, Q, hQ, hkey, hk1⟩ := K1.recover_signCompact h.k1 (mapError_eq_ok hc)
  have hpub : getPublicKey L (.k1 secret) =
      .ok (.k1 (data 33 (L.secp256k1.pubkeySerialize Q true))) := by
    rw [getPublicKey_k1, hkey, Except.ok_bind, serializeK1_compressed h.k1 hQ]
    rfl
  refine ⟨rfl, fun hr => congrArg not (hcan hr), fun checkCanonical => ?_, ?_⟩
  case refine_1 =>
    rw [recover_k1, hrec, hpub]
    by_cases hcc : checkCanonical ∧ ¬K1.isCanonical c
    case pos =>
      rw [if_pos hcc, if_pos ⟨hcc.1, nonCanonical_k1.mpr hcc.2⟩]
      rfl
    case neg =>
      rw [if_neg hcc, if_neg fun h => hcc ⟨h.1, nonCanonical_k1.mp h.2⟩, hkey, Except.ok_bind,
        serializeK1_compressed h.k1 hQ]
      rfl
  case refine_2 =>
    intro c' hc'
    cases hc'
    exact ⟨Q, hpub, hk1⟩

theorem recovers_r1 (h : L.Lawful C)
    (hs : sign L fuel digest requireCanonical (.r1 secret) = .ok sig) :
    Recovers L digest requireCanonical (.r1 secret) sig := by
  obtain ⟨c, hc, hs⟩ := Except.bind_eq_ok hs
  cases hs
  have hc := mapError_eq_ok hc
  rw [R1.regenerate, R1.signCompact] at hc
  cases hd : L.doSign (Bigint.ofBytes (memory secret)) (memory digest)
  case none =>
    simp only [hd] at hc
    cases hc
  case some rs =>
    obtain ⟨c', hc', hrec⟩ := R1.recover_signCompact h.r1 h.signer secret digest hd
    rw [R1.regenerate, R1.signCompact, hc] at hc'
    cases hc'
    refine ⟨rfl, fun _ => rfl, fun checkCanonical => ?_, fun c' hc' => by cases hc'⟩
    rw [recover_r1, hrec, if_neg fun h => Bool.false_ne_true h.2]
    rfl

-- What a key signs is recovered as its public key, unless it is not canonical and has to be. The
-- signature is the one that the key is asked for.
theorem recover_sign (h : L.Lawful C) {p : PrivateKey}
    (hs : sign L fuel digest requireCanonical p = .ok sig) :
    Recovers L digest requireCanonical p sig := by
  obtain ⟨i, secret⟩ := p
  match i, secret with
  | 0, secret => exact recovers_k1 h hs
  | 1, secret => exact recovers_r1 h hs

end Recovery

section SharedSecret

variable {E F : Type} [AddCommGroup E] [DecidableEq E] [AddCommGroup F] [DecidableEq F]
  {L : Libraries E F} {C : Ecdsa.Curve E}

-- Whether a key has a public one. On the first curve there are no keys from the order on.
def Proper (L : Libraries E F) (C : Ecdsa.Curve E) (p : PrivateKey) : Prop :=
  p.visit
    (fun secret => 0 < Bigint.ofBytes (memory secret) ∧ Bigint.ofBytes (memory secret) < C.order)
    (fun secret => ¬L.group.order ∣ Bigint.ofBytes (memory secret))

omit [AddCommGroup E] [DecidableEq E] in
theorem generateSharedSecret_k1 (secret : Data 32) (key : Data 33) :
    generateSharedSecret L (.k1 secret) (.k1 key) =
      (K1.getSharedSecret L.secp256k1 L.sha512 secret key).mapError .k1 := rfl

omit [AddCommGroup E] [DecidableEq E] in
theorem generateSharedSecret_r1 (secret : Data 32) (key : Data 33) :
    generateSharedSecret L (.r1 secret) (.r1 key) = (R1.ofData L.group key >>=
      R1.getSharedSecret L.group L.sha512 (R1.regenerate L.group secret)).mapError .r1 := rfl

theorem getPublicKey_proper_k1 (h : L.Lawful C) {secret : Data 32}
    (hp : Proper L C (.k1 secret)) : getPublicKey L (.k1 secret) = .ok (.k1 (data 33
      (L.secp256k1.pubkeySerialize (Bigint.ofBytes (memory secret) • C.generator) true))) := by
  have hQ := h.k1.nsmul_ne_zero (Nat.not_dvd_of_pos_of_lt hp.1 hp.2) h.k1.generator_ne
  rw [getPublicKey_k1, K1.getPublicKey_eq h.k1 hp.1 hp.2, Except.ok_bind,
    serializeK1_compressed h.k1 hQ]
  rfl

-- The secret that is shared depends on the product of the two numbers.
theorem sharedSecret_k1 (h : L.Lawful C) {secret : Data 32} (hp : Proper L C (.k1 secret)) {d : Nat}
    (hd : ¬C.order ∣ d) : generateSharedSecret L (.k1 secret)
      (.k1 (data 33 (L.secp256k1.pubkeySerialize (d • C.generator) true))) =
    .ok (L.sha512 ((L.secp256k1.pubkeySerialize
      ((Bigint.ofBytes (memory secret) * d) • C.generator) true).drop 1)) := by
  have hQ := h.k1.nsmul_ne_zero hd h.k1.generator_ne
  have hne : secret ≠ data 32 [] := by
    rintro rfl
    exact absurd hp.1 (by decide)
  have hne' : data 33 (L.secp256k1.pubkeySerialize (d • C.generator) true) ≠ data 33 [] :=
    serialize_ne h.k1 hQ
  have hlen (P : E) : (L.secp256k1.pubkeySerialize P true).length = 33 :=
    h.k1.length_serialize P true
  rw [generateSharedSecret_k1, K1.getSharedSecret, K1.assert_bind hne, K1.assert_bind hne',
    memory_data (hlen _), h.k1.parse_serialize hQ, K1.assertSome_some, Except.ok_bind,
    h.k1.tweakMul_eq, if_pos (show _ ∧ _ from hp), K1.assertSome_some, Except.ok_bind, ← mul_nsmul',
    K1.assert_bind (hlen _)]
  rfl

theorem sharedSecret_r1 (h : L.Lawful C) {secret : Data 32} (hp : Proper L C (.r1 secret)) {d : Nat}
    (hd : ¬L.group.order ∣ d) : generateSharedSecret L (.r1 secret)
      (.r1 (R1.serialize L.group (some (d • L.group.generator)))) =
    .ok (L.sha512 (ModularArithmetic.padded 32 (L.group.x
      ((Bigint.ofBytes (memory secret) * d) • L.group.generator)))) := by
  have hQ := h.r1.nsmul_ne_zero hd h.r1.generator_ne
  have hR := h.r1.nsmul_ne_zero hp hQ
  rw [generateSharedSecret_r1, R1.ofData_serialize h.r1 hQ, Except.ok_bind, R1.regenerate,
    R1.getSharedSecret]
  simp only [hR, if_false]
  rw [← mul_nsmul']
  rfl

omit [AddCommGroup E] [DecidableEq E] in
theorem getPublicKey_r1 (secret : Data 32) : getPublicKey L (.r1 secret) = .ok (.r1
    (R1.serialize L.group (some (Bigint.ofBytes (memory secret) • L.group.generator)))) := rfl

omit [AddCommGroup E] [DecidableEq E] in
theorem generateSharedSecret_other (secret : Data 32) (key : Data 33) :
    generateSharedSecret L (.k1 secret) (.r1 key) = .error .badVariantAccess ∧
      generateSharedSecret L (.r1 secret) (.k1 key) = .error .badVariantAccess := ⟨rfl, rfl⟩

theorem eq_k1_or_eq_r1 : ∀ p : PrivateKey,
    (∃ secret : Data 32, p = .k1 secret) ∨ ∃ secret : Data 32, p = .r1 secret
  | ⟨0, secret⟩ => .inl ⟨secret, rfl⟩
  | ⟨1, secret⟩ => .inr ⟨secret, rfl⟩

-- Two owners of keys on one curve share a secret, each with the public key of the other one. There
-- is none across the curves.
theorem sharedSecret_comm (h : L.Lawful C) {p q : PrivateKey} (hp : Proper L C p)
    (hq : Proper L C q) :
    ∃ P Q, getPublicKey L p = .ok P ∧ getPublicKey L q = .ok Q ∧
      (p.1 = q.1 → ∃ secret, generateSharedSecret L p Q = .ok secret ∧
        generateSharedSecret L q P = .ok secret) ∧
      (p.1 ≠ q.1 → generateSharedSecret L p Q = .error .badVariantAccess ∧
        generateSharedSecret L q P = .error .badVariantAccess) := by
  obtain ⟨a, rfl⟩ | ⟨a, rfl⟩ := eq_k1_or_eq_r1 p <;>
    obtain ⟨b, rfl⟩ | ⟨b, rfl⟩ := eq_k1_or_eq_r1 q
  · refine ⟨_, _, getPublicKey_proper_k1 h hp, getPublicKey_proper_k1 h hq,
      fun _ => ⟨_, sharedSecret_k1 h hp (Nat.not_dvd_of_pos_of_lt hq.1 hq.2), ?_⟩,
      fun hne => absurd rfl hne⟩
    rw [mul_comm]
    exact sharedSecret_k1 h hq (Nat.not_dvd_of_pos_of_lt hp.1 hp.2)
  · exact ⟨_, _, getPublicKey_proper_k1 h hp, getPublicKey_r1 b, fun he => absurd he zero_ne_one,
      fun _ => ⟨(generateSharedSecret_other a _).1, (generateSharedSecret_other b _).2⟩⟩
  · exact ⟨_, _, getPublicKey_r1 a, getPublicKey_proper_k1 h hq, fun he => absurd he one_ne_zero,
      fun _ => ⟨(generateSharedSecret_other a _).2, (generateSharedSecret_other b _).1⟩⟩
  · refine ⟨_, _, getPublicKey_r1 a, getPublicKey_r1 b, fun _ => ?_, fun hne => absurd rfl hne⟩
    refine ⟨_, sharedSecret_r1 h hp hq, ?_⟩
    rw [mul_comm]
    exact sharedSecret_r1 h hq hp

end SharedSecret

section Nineteen

def small : Libraries (ZMod 19) (ZMod 19) where
  secp256k1 := K1.secp19
  group     := R1.nineteen
  doSign    := R1.signNineteen
  sha512    := data 64
  parse _   := none
  sha256 bs := .ofFn fun i => bs.getD i 0

theorem lawful_small : small.Lawful Ecdsa.nineteen where
  k1     := K1.lawful_secp19
  r1     := R1.lawful_nineteen
  signer := R1.signer_nineteen

def key (n : UInt8) : Data 32 :=
  data 32 (List.replicate 31 0 ++ [n])

-- A signature on each curve.
theorem recover_sign_small :
    (∃ sig, sign small 1 (key 7) false (.k1 (key 2)) = .ok sig ∧
      Recovers small (key 7) false (.k1 (key 2)) sig) ∧
    ∃ sig, sign small 1 (key 7) true (.r1 (key 2)) = .ok sig ∧
      Recovers small (key 7) true (.r1 (key 2)) sig := by
  constructor
  · have hs : sign small 1 (key 7) false (.k1 (key 2)) = .ok (.k1 _) := rfl
    exact ⟨_, hs, recover_sign lawful_small hs⟩
  · have hd : small.doSign (Bigint.ofBytes (memory (key 2))) (memory (key 7)) = some (5, 17) := by
      decide +kernel
    obtain ⟨c, hc, -⟩ := R1.recover_signCompact lawful_small.r1 lawful_small.signer (key 2) (key 7) hd
    have hs : sign small 1 (key 7) true (.r1 (key 2)) = .ok (.r1 c) := by
      rw [sign_r1, hc]
      rfl
    exact ⟨_, hs, recover_sign lawful_small hs⟩

theorem sharedSecret_comm_small : ∃ P Q secret, getPublicKey small (.k1 (key 2)) = .ok P ∧
    getPublicKey small (.k1 (key 3)) = .ok Q ∧
    generateSharedSecret small (.k1 (key 2)) Q = .ok secret ∧
    generateSharedSecret small (.k1 (key 3)) P = .ok secret := by
  obtain ⟨P, Q, hP, hQ, hs, -⟩ := sharedSecret_comm lawful_small
    (p := .k1 (key 2)) (q := .k1 (key 3)) ⟨by decide, by decide⟩ ⟨by decide, by decide⟩
  obtain ⟨secret, hs⟩ := hs (show (0 : Fin 2) = 0 from rfl)
  exact ⟨P, Q, secret, hP, hQ, hs⟩

end Nineteen

end Keys
