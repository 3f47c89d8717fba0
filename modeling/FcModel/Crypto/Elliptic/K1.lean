import FcModel.Crypto.Elliptic.Data
import FcModel.Lib.Ecdsa

-- `fc::ecc` and `k1_recover`: keys and signatures over the curve of libsecp256k1.

namespace K1

open Raw Keys Elliptic
open ModularArithmetic (padded length_padded ofBytes_padded)

-- What is called of libsecp256k1. Signing takes the counter of `extended_nonce_function` and leaves
-- another one behind.
structure Secp256k1 (E : Type) where
  Sig              : Type
  pubkeyCreate     : Bytes → Option E
  pubkeySerialize  : E → (compressed : Bool) → Bytes
  pubkeyParse      : Bytes → Option E
  tweakMul         : E → Bytes → Option E
  signRecoverable  : (digest key : Bytes) → UInt32 → Option (Sig × UInt32)
  serializeCompact : Sig → Bytes × Nat
  parseCompact     : Bytes → Nat → Option Sig
  recover          : Sig → Bytes → Option E

inductive Error
  | assert
  -- "unable to reconstruct public key from signature"
  | reconstruct
  -- "signature is not canonical"
  | canonical
  | endless
deriving DecidableEq, Repr

inductive RecoverError
  | input
  | signature
  | recover
deriving DecidableEq, Repr

variable {E : Type}

def assert (p : Prop) [Decidable p] : Except Error Unit :=
  if p then .ok () else .error .assert

def assertSome {α : Type} : Option α → Except Error α
  | some a => .ok a
  | none   => .error .assert

-- `public_key::is_canonical`.
def isCanonical (c : Data 65) : Bool :=
  byte c 1 &&& 0x80 = 0 ∧ ¬(byte c 1 = 0 ∧ byte c 2 &&& 0x80 = 0) ∧
    byte c 33 &&& 0x80 = 0 ∧ ¬(byte c 33 = 0 ∧ byte c 34 &&& 0x80 = 0)

section Keys

variable (S : Secp256k1 E)

-- `private_key::get_public_key`.
def getPublicKey (key : Data 32) : Except Error (Data 33) := do
  assert (key ≠ data 32 [])
  let secpPub ← assertSome (S.pubkeyCreate (memory key))
  let pub := S.pubkeySerialize secpPub true
  assert (pub.length = 33)
  return data 33 pub

def getSharedSecret (sha512 : Bytes → Data 64) (key : Data 32) (other : Data 33) :
    Except Error (Data 64) := do
  assert (key ≠ data 32 [])
  assert (other ≠ data 33 [])
  let secpPubkey ← assertSome (S.pubkeyParse (memory other))
  let secpPubkey ← assertSome (S.tweakMul secpPubkey (memory key))
  let serializedResult := S.pubkeySerialize secpPubkey true
  assert (serializedResult.length = 33)
  return sha512 (serializedResult.drop 1)

-- The loop of `sign_compact`, up to a signature that is canonical.
def signLoop (digest key : Data 32) (requireCanonical : Bool) :
    Nat → UInt32 → Except Error (Bytes × Nat)
  | 0, _              => .error .endless
  | fuel + 1, counter => do
    let (sig, counter) ← assertSome (S.signRecoverable (memory digest) (memory key) counter)
    let (result, recid) := S.serializeCompact sig
    if requireCanonical ∧ ¬isCanonical (data 65 (0 :: result)) then
      signLoop digest key requireCanonical fuel counter
    else return (result, recid)

def signCompact (fuel : Nat) (digest key : Data 32) (requireCanonical : Bool) :
    Except Error (Data 65) := do
  assert (key ≠ data 32 [])
  let (result, recid) ← signLoop S digest key requireCanonical fuel 0
  return data 65 (.ofNat (27 + 4 + recid) :: result)

-- `public_key( c, digest, check_canonical )`.
def publicKey (c : Data 65) (digest : Data 32) (checkCanonical : Bool) :
    Except Error (Data 33) := do
  let nV := (byte c 0).toNat
  if nV < 27 ∨ 35 ≤ nV then throw .reconstruct
  if checkCanonical ∧ ¬isCanonical c then throw .canonical
  let secpSig ← assertSome (S.parseCompact (bytes c 1 64) ((nV - 27) % 4))
  let secpPub ← assertSome (S.recover secpSig (memory digest))
  let key := S.pubkeySerialize secpPub true
  assert (key.length = 33)
  return data 33 key

-- A `char` is signed.
def k1Recover (signature digest : Bytes) : RecoverError ⊕ Bytes :=
  if signature.length ≠ 65 ∨ digest.length ≠ 32 then .inl .input
  else
    let recid := (signature.headD 0).toInt8.toInt
    if recid < 27 ∨ 35 ≤ recid then .inl .signature
    else
      match S.parseCompact ((signature.drop 1).take 64) ((recid.toNat - 27) % 4) with
      | none     => .inl .signature
      | some sig =>
        match S.recover sig digest with
        | none        => .inl .recover
        | some pubKey => .inr (S.pubkeySerialize pubKey false)

end Keys

-- How the library is documented.
structure Secp256k1.Lawful [AddCommGroup E] [DecidableEq E] (S : Secp256k1 E)
    (C : Ecdsa.Curve E) : Prop extends C.Lawful where
  order_le         : C.order ≤ 2 ^ 256
  create_eq        : ∀ key, S.pubkeyCreate key =
    if 0 < Bigint.ofBytes key ∧ Bigint.ofBytes key < C.order
    then some (Bigint.ofBytes key • C.generator) else none
  length_serialize : ∀ P b, (S.pubkeySerialize P b).length = if b then 33 else 65
  parse_serialize  : ∀ {P}, P ≠ 0 → ∀ b, S.pubkeyParse (S.pubkeySerialize P b) = some P
  serialize_head   : ∀ {P}, P ≠ 0 → (S.pubkeySerialize P true).headD 0 ≠ 0
  tweakMul_eq      : ∀ P key, S.tweakMul P key =
    if 0 < Bigint.ofBytes key ∧ Bigint.ofBytes key < C.order
    then some (Bigint.ofBytes key • P) else none
  -- A signature with the index of its point, by a key that is valid.
  sign             : ∀ {digest key counter sig counter'},
    S.signRecoverable digest key counter = some (sig, counter') →
      (0 < Bigint.ofBytes key ∧ Bigint.ofBytes key < C.order) ∧ ∃ r s R recid,
        C.Signs (Bigint.ofBytes key • C.generator) (Bigint.ofBytes digest) r s R ∧
        C.x R = C.order * (recid / 2) + r ∧ C.odd R = decide (recid % 2 = 1) ∧ recid < 4 ∧
        S.serializeCompact sig = (padded 32 r ++ padded 32 s, recid)
  -- The algorithm of SEC 1. A key at infinity is none.
  recover_eq       : ∀ r s recid digest, r < 2 ^ 256 → s < 2 ^ 256 → recid < 4 →
    (S.parseCompact (padded 32 r ++ padded 32 s) recid).bind (S.recover · digest) =
      if (0 < r ∧ r < C.order) ∧ (0 < s ∧ s < C.order) ∧ C.order * (recid / 2) + r < C.field then
        ((C.lift (C.order * (recid / 2) + r) (recid % 2 = 1)).map
          (C.recovered (Bigint.ofBytes digest) r s)).filter (· ≠ 0)
      else none

section Recovery

variable [AddCommGroup E] [DecidableEq E] {S : Secp256k1 E} {C : Ecdsa.Curve E} {fuel : Nat}
  {digest key : Data 32} {requireCanonical : Bool}

theorem assert_bind {α : Type} {p : Prop} [Decidable p] {f : Unit → Except Error α} (hp : p) :
    (assert p >>= f) = f () := by
  rw [assert, if_pos hp]
  rfl

theorem assertSome_some {α : Type} (a : α) : assertSome (some a) = .ok a := rfl

theorem assertSome_eq_ok {α : Type} {x : Option α} {a : α} (h : assertSome x = .ok a) :
    x = some a := by
  cases x
  case none   => cases h
  case some a => cases h; rfl

-- The first byte is not looked at.
theorem isCanonical_cons (b : UInt8) (l : Bytes) :
    isCanonical (data 65 (b :: l)) = isCanonical (data 65 (0 :: l)) := rfl

omit [AddCommGroup E] [DecidableEq E] in
-- What the loop returns is one of the signatures of the library.
theorem signLoop_eq_ok {counter : UInt32} {result : Bytes} {recid : Nat}
    (h : signLoop S digest key requireCanonical fuel counter = .ok (result, recid)) :
    ∃ counter sig counter', S.signRecoverable (memory digest) (memory key) counter =
      some (sig, counter') ∧ S.serializeCompact sig = (result, recid) ∧
      (requireCanonical = true → isCanonical (data 65 (0 :: result)) = true) := by
  induction fuel generalizing counter
  case zero => cases h
  case succ fuel hi =>
    rw [signLoop] at h
    obtain ⟨⟨sig, counter'⟩, hs, h⟩ := Except.bind_eq_ok h
    cases hser : S.serializeCompact sig with | mk result' recid' =>
    simp only [hser] at h
    split at h
    case isTrue  => exact hi h
    case isFalse hc =>
      cases h
      refine ⟨counter, sig, counter', assertSome_eq_ok hs, hser, fun hr => ?_⟩
      by_contra hn
      exact hc ⟨hr, hn⟩

-- The key of a secret that is valid.
theorem getPublicKey_eq (h : S.Lawful C) (hk : 0 < Bigint.ofBytes (memory key))
    (hl : Bigint.ofBytes (memory key) < C.order) : getPublicKey S key =
      .ok (data 33 (S.pubkeySerialize (Bigint.ofBytes (memory key) • C.generator) true)) := by
  have hne : key ≠ data 32 [] := by
    rintro rfl
    exact absurd hk (by decide)
  rw [getPublicKey, assert_bind hne, h.create_eq, if_pos ⟨hk, hl⟩, assertSome, Except.ok_bind]
  exact assert_bind (h.length_serialize _ true)

-- The library recovers the key from what it signs.
theorem Secp256k1.Lawful.recovers (h : S.Lawful C) {digest key : Bytes}
    {counter counter' : UInt32} {sig : S.Sig}
    (hs : S.signRecoverable digest key counter = some (sig, counter')) :
    (0 < Bigint.ofBytes key ∧ Bigint.ofBytes key < C.order) ∧ ∃ result recid sig',
      S.serializeCompact sig = (result, recid) ∧ result.length = 64 ∧ recid < 4 ∧
      S.parseCompact result recid = some sig' ∧
      S.recover sig' digest = some (Bigint.ofBytes key • C.generator) := by
  obtain ⟨hk, r, s, R, recid, hR, hx, ho, hi, hser⟩ := h.sign hs
  have hrl : r < C.order := hR.r_lt h.toLawful
  have hr : r < 2 ^ 256 := hrl.trans_le h.order_le
  have hs : s < 2 ^ 256 := hR.s_lt.trans_le h.order_le
  have hlen : (padded 32 r ++ padded 32 s).length = 64 := by
    rw [List.length_append, length_padded (hr.trans_eq (by norm_num)),
      length_padded (hs.trans_eq (by norm_num))]
  have hQ : Bigint.ofBytes key • C.generator ≠ 0 :=
    h.nsmul_ne_zero (Nat.not_dvd_of_pos_of_lt hk.1 hk.2) h.generator_ne
  have hl := h.lift_self hR.ne_zero
  rw [hx, ho] at hl
  have hrec := h.recover_eq r s recid digest hr hs hi
  rw [if_pos ⟨⟨hR.r_pos, hrl⟩, ⟨hR.s_pos, hR.s_lt⟩, hx ▸ h.x_lt hR.ne_zero⟩, hl, Option.map_some,
    hR.recovered_eq h.toLawful, Option.filter_some, if_pos (decide_eq_true hQ)] at hrec
  obtain ⟨sig', hp, hrec⟩ := Option.bind_eq_some_iff.mp hrec
  exact ⟨hk, _, recid, sig', hser, hlen, hi, hp, hrec⟩

-- What is signed is recovered by both functions that recover, unless it is not canonical and has
-- to be.
theorem recover_signCompact (h : S.Lawful C) {c : Data 65}
    (hs : signCompact S fuel digest key requireCanonical = .ok c) :
    (requireCanonical = true → isCanonical c = true) ∧
    (∀ checkCanonical, publicKey S c digest checkCanonical =
      if checkCanonical ∧ ¬isCanonical c then .error .canonical else getPublicKey S key) ∧
    ∃ Q ≠ 0, getPublicKey S key = .ok (data 33 (S.pubkeySerialize Q true)) ∧
      k1Recover S (memory c) (memory digest) = .inr (S.pubkeySerialize Q false) := by
  rw [signCompact] at hs
  obtain ⟨_, -, hs⟩ := Except.bind_eq_ok hs
  obtain ⟨⟨result, recid⟩, hl, hs⟩ := Except.bind_eq_ok hs
  cases hs
  obtain ⟨counter, sig, counter', hsig, hser, hcan⟩ := signLoop_eq_ok hl
  obtain ⟨⟨hk, hkl⟩, result', recid', sig', hser', hlen, hi, hp, hrec⟩ := h.recovers hsig
  cases hser.symm.trans hser'
  have hlen' : (UInt8.ofNat (27 + 4 + recid) :: result).length = 65 := by rw [List.length_cons, hlen]
  have hkey := getPublicKey_eq h hk hkl
  have hQ : Bigint.ofBytes (memory key) • C.generator ≠ 0 :=
    h.nsmul_ne_zero (Nat.not_dvd_of_pos_of_lt hk hkl) h.generator_ne
  refine ⟨hcan, fun checkCanonical => ?_, _, hQ, hkey, ?_⟩
  case refine_1 =>
    generalize hc : data 65 (UInt8.ofNat (27 + 4 + recid) :: result) = c
    have hn : (byte c 0).toNat = recid + 31 := by rw [← hc]; simp [byte, data]; omega
    have hb : bytes c 1 64 = result := by
      rw [← hc, bytes_data hlen', List.drop_one, List.tail_cons, List.take_of_length_le hlen.le]
    have hn' : ¬((byte c 0).toNat < 27 ∨ 35 ≤ (byte c 0).toNat) := by rw [hn]; omega
    have hi' : ((byte c 0).toNat - 27) % 4 = recid := by rw [hn]; omega
    have hser : (S.pubkeySerialize (Bigint.ofBytes (memory key) • C.generator) true).length = 33 :=
      h.length_serialize _ true
    rw [publicKey]
    by_cases hcc : checkCanonical ∧ ¬isCanonical c
    case pos =>
      simp only [hn', if_false, hcc]
      rfl
    case neg =>
      simp only [hn', if_false, hcc, hi', hb, hp, hrec, assertSome_some, Except.ok_bind, hkey]
      exact assert_bind hser
  case refine_2 =>
    have hr : (UInt8.ofNat (27 + 4 + recid)).toInt8.toInt = recid + 31 := by
      interval_cases recid <;> rfl
    have hn : ¬((recid : Int) + 31 < 27 ∨ 35 ≤ (recid : Int) + 31) := by omega
    have hi' : (((recid : Int) + 31).toNat - 27) % 4 = recid := by omega
    rw [memory_data hlen', k1Recover]
    simp only [hlen', length_memory, List.headD_cons, hr, hn, hi', if_false, ne_eq, not_true,
      or_self, List.drop_one, List.tail_cons, List.take_of_length_le hlen.le, hp, hrec]

end Recovery

section Nineteen

open Ecdsa (nineteen multiples lawful_nineteen)

def yNineteen (P : ZMod 19) : Nat :=
  (multiples.getD (P.val - 1) (0, 0)).2

-- The functions of the library for a curve that is small. Signatures are made with the generator.
def secp19 : Secp256k1 (ZMod 19) where
  Sig := (Nat × Nat) × Nat
  pubkeyCreate key :=
    if 0 < Bigint.ofBytes key ∧ Bigint.ofBytes key < nineteen.order
    then some (Bigint.ofBytes key • nineteen.generator) else none
  pubkeySerialize P compressed :=
    if compressed then (if nineteen.odd P then 3 else 2) :: padded 32 (nineteen.x P)
    else 4 :: (padded 32 (nineteen.x P) ++ padded 32 (yNineteen P))
  pubkeyParse bs :=
    let x := Bigint.ofBytes ((bs.drop 1).take 32)
    let y := Bigint.ofBytes (bs.drop 33)
    match bs.headD 0 with
    | 2 => nineteen.lift x false
    | 3 => nineteen.lift x true
    | 4 => nineteen.lift x (y % 2 = 1)
    | _ => none
  tweakMul P key :=
    if 0 < Bigint.ofBytes key ∧ Bigint.ofBytes key < nineteen.order
    then some (Bigint.ofBytes key • P) else none
  signRecoverable digest key counter :=
    let s := (Bigint.ofBytes digest + 5 * Bigint.ofBytes key) % 19
    if (0 < Bigint.ofBytes key ∧ Bigint.ofBytes key < nineteen.order) ∧ s ≠ 0
    then some (((5, s), 1), counter + 1) else none
  serializeCompact := fun ((r, s), recid) => (padded 32 r ++ padded 32 s, recid)
  parseCompact bs recid := some
    ((Bigint.ofBytes (bs.take 32), Bigint.ofBytes (bs.drop 32)), recid)
  recover := fun ((r, s), recid) digest =>
    if (0 < r ∧ r < nineteen.order) ∧ (0 < s ∧ s < nineteen.order) ∧
        nineteen.order * (recid / 2) + r < nineteen.field then
      ((nineteen.lift (nineteen.order * (recid / 2) + r) (recid % 2 = 1)).map
        (nineteen.recovered (Bigint.ofBytes digest) r s)).filter (· ≠ 0)
    else none

theorem x_nineteen_lt : ∀ P, nineteen.x P < 256 ^ 32 := by
  have : ∀ P, nineteen.x P < 17 := by decide
  exact fun P => (this P).trans (by norm_num)

theorem yNineteen_lt : ∀ P, yNineteen P < 256 ^ 32 := by
  have : ∀ P, yNineteen P < 17 := by decide
  exact fun P => (this P).trans (by norm_num)

theorem lawful_secp19 : secp19.Lawful nineteen where
  toLawful         := lawful_nineteen
  order_le         := by decide
  create_eq _      := rfl
  tweakMul_eq _ _  := rfl
  length_serialize P b := by
    cases b <;> simp [secp19, length_padded (x_nineteen_lt P), length_padded (yNineteen_lt P)]
  serialize_head {P} _ := by
    cases ho : nineteen.odd P <;> simp [secp19, ho]
  parse_serialize {P} hP b := by
    have hx := length_padded (x_nineteen_lt P)
    have hl := lawful_nineteen.lift_self hP
    have hy : decide (yNineteen P % 2 = 1) = nineteen.odd P := rfl
    have ht := List.take_of_length_le hx.le
    cases b <;> cases ho : nineteen.odd P <;> rw [ho] at hl <;>
      simp [secp19, ho, hx, ht, hl, hy, ofBytes_padded]
  sign {digest key counter sig counter'} h := by
    simp only [secp19] at h
    split at h
    case isFalse => cases h
    case isTrue hk =>
      cases h
      refine ⟨hk.1, 5, _, 1, 1, ?_, by decide, by decide, by decide, rfl⟩
      refine .of_nonce (k := 1) lawful_nineteen (by decide) (by decide) (Nat.pos_of_ne_zero hk.2)
        (Nat.mod_lt _ (by decide)) ?_
      rw [mul_one]
      exact Nat.mod_modEq _ _
  recover_eq r s recid digest hr hs hi := by
    have hr' := length_padded (n := 32) (hr.trans_eq (by norm_num))
    have hd : (padded 32 r ++ padded 32 s).drop 32 = padded 32 s := List.drop_left' hr'
    have ht : (padded 32 r ++ padded 32 s).take 32 = padded 32 r := List.take_left' hr'
    simp only [secp19, Option.bind_some, hd, ht, ofBytes_padded]

end Nineteen

end K1
