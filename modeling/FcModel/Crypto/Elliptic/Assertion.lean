import FcModel.Crypto.Elliptic.Keys
import FcModel.Crypto.Webauthn.Extraction

-- The assertions of an authenticator: which of them a key is recovered from, and which key.

namespace Webauthn

open MutableVariantObject

-- What the handler takes for the value of a member.
def valueOf (ms : List Member) (f : Field) : Bytes :=
  stringValue [] (lastMember (fun k => cStr k = f.name) ms)

theorem parseClientData_eq_some_iff {env : Environment} {c : Signature}
    (hle : ∀ d, env.parse (cStr c.clientJson) = some d → d.nesting ≤ 2 ^ 32) (h : JsonHandler) :
    env.parseClientData c = some h ↔ ∃ ms, env.parse (cStr c.clientJson) = some (.object ms) ∧
      Strings ms ∧ ms.foldlM JsonHandler.member JsonHandler.started = some h := by
  rw [Environment.parseClientData, Option.bind_eq_some_iff]
  constructor
  case mp =>
    rintro ⟨d, hd, hrun⟩
    have hn := hle d hd
    cases d
    case object ms =>
      rw [Sax.Document.nesting] at hn
      rw [JsonHandler.run_document (by omega)] at hrun
      exact ⟨ms, hd, (JsonHandler.foldlM_some hrun).1, hrun⟩
    all_goals
      rw [JsonHandler.run_other (by simp)] at hrun
      cases hrun
  case mpr =>
    rintro ⟨ms, hd, -, hrun⟩
    have hn := hle _ hd
    rw [Sax.Document.nesting] at hn
    exact ⟨_, hd, (JsonHandler.run_document (by omega)).trans hrun⟩

theorem found_eq_valueOf {ms : List Member} {h : JsonHandler}
    (hms : ms.foldlM JsonHandler.member JsonHandler.started = some h) (f : Field) :
    h.found f = valueOf ms f := by
  rw [(JsonHandler.foldlM_some hms).2 f]
  cases f <;> rfl

theorem digestOf_eq_ok_iff {bs : Bytes} {d : Sha256} : digestOf bs = .ok d ↔ bs = d.toList := by
  rw [digestOf]
  split
  case isTrue h =>
    constructor
    case mp  => rintro he; cases he; simp [Vector.toList]
    case mpr => rintro rfl; simp [Vector.toList]
  case isFalse h =>
    refine iff_of_false (by simp) ?_
    rintro rfl
    exact h (by simp)

-- The client data that are accepted for a digest and an origin.
structure ClientData (env : Environment) (c : Signature) (digest : Sha256) (origin : Bytes)
    (ms : List Member) : Prop where
  parse     : env.parse (cStr c.clientJson) = some (.object ms)
  strings   : Strings ms
  type      : valueOf ms .type = ascii "webauthn.get"
  challenge : Base64.base64urlDecode (valueOf ms .challenge) = .ok digest.toList
  origin    : valueOf ms .origin = origin

theorem challenged_eq_ok_iff (env : Environment) {c : Signature} (digest : Sha256)
    (hle : ∀ d, env.parse (cStr c.clientJson) = some d → d.nesting ≤ 2 ^ 32) :
    (∃ h, challenged env c digest = .ok h) ↔ ∃ ms, ClientData env c digest (c.origin env) ms := by
  have hiff := parseClientData_eq_some_iff hle
  rw [challenged, Signature.origin]
  cases hp : env.parseClientData c
  case none =>
    refine iff_of_false (by simp) ?_
    rintro ⟨ms, hms⟩
    obtain ⟨h, hh⟩ := @JsonHandler.foldlM_of_strings JsonHandler.started _ hms.strings
    rw [(hiff h).mpr ⟨ms, hms.parse, hms.strings, hh⟩] at hp
    cases hp
  case some h =>
    obtain ⟨ms, hparse, hstrings, hfold⟩ := (hiff h).mp hp
    have hf := found_eq_valueOf hfold
    have ht : h.foundType = valueOf ms .type := hf .type
    have hc : h.foundChallenge = valueOf ms .challenge := hf .challenge
    have ho : h.foundOrigin = valueOf ms .origin := hf .origin
    constructor
    case mp =>
      rintro ⟨h', he⟩
      obtain ⟨_, htype, he⟩ := Except.bind_eq_ok he
      obtain ⟨bs, hbs, he⟩ := Except.bind_eq_ok he
      obtain ⟨d, hd, he⟩ := Except.bind_eq_ok he
      obtain ⟨_, hdd, -⟩ := Except.bind_eq_ok he
      cases assert_eq_ok.mp hdd
      refine ⟨ms, hparse, hstrings, ht ▸ assert_eq_ok.mp htype, ?_, ho.symm⟩
      rw [← hc, hbs, digestOf_eq_ok_iff.mp hd]
    case mpr =>
      rintro ⟨ms', hms⟩
      cases hparse.symm.trans hms.parse
      have htype := ht.trans hms.type
      have hbs := hms.challenge
      rw [← hc] at hbs
      refine ⟨h, ?_⟩
      simp only [assert, htype, hbs, digestOf_eq_ok_iff.mpr rfl, Except.ok_bind, if_true]
      rfl

theorem ClientData.origin_eq {env : Environment} {c : Signature} {digest : Sha256}
    {origin : Bytes} {ms : List Member} (h : ClientData env c digest origin ms)
    (hle : ∀ d, env.parse (cStr c.clientJson) = some d → d.nesting ≤ 2 ^ 32) :
    c.origin env = origin := by
  obtain ⟨handler, hh⟩ := @JsonHandler.foldlM_of_strings JsonHandler.started _ h.strings
  have hp := (parseClientData_eq_some_iff hle handler).mpr ⟨ms, h.parse, h.strings, hh⟩
  rw [Signature.origin, hp, ← h.origin]
  exact found_eq_valueOf hh .origin

theorem rpidOf_eq_ok_iff {origin rpid : Bytes} (hsize : origin.length < 2 ^ 64) :
    rpidOf origin = .ok rpid ↔
      ∃ rest, origin = requiredOriginScheme ++ rest ∧ IsHost rest rpid := by
  have hok {rest host : Bytes} (hsize : (requiredOriginScheme ++ rest).length < 2 ^ 64)
      (h : IsHost rest host) : rpidOf (requiredOriginScheme ++ rest) = .ok host := by
    obtain ⟨hrest, rfl⟩ | ⟨port, rfl, hport⟩ := h
    · exact rpidOf_host hrest hsize
    · rw [← List.append_assoc]
      exact rpidOf_port hport
  constructor
  case mp =>
    intro he
    by_cases hscheme : requiredOriginScheme <+: origin
    case neg =>
      rw [rpidOf_rejects hscheme] at he
      cases he
    case pos =>
      obtain ⟨rest, rfl⟩ := hscheme
      obtain ⟨host, hhost⟩ := exists_isHost rest
      rw [hok hsize hhost] at he
      cases he
      exact ⟨rest, rfl, hhost⟩
  case mpr =>
    rintro ⟨rest, rfl, hhost⟩
    exact hok hsize hhost

end Webauthn

namespace Keys

open Raw Elliptic
open Webauthn (ClientData valueOf)
open MutableVariantObject (cStr)

variable {E F : Type} [AddCommGroup E] [DecidableEq E] [AddCommGroup F] [DecidableEq F]
  {L : Libraries E F}

-- The digest that is asserted.
def sha256Of (digest : Data 32) : Webauthn.Sha256 :=
  .ofFn fun i => .ofBitVec (digest i)

-- A point that a compact signature can have been made with, for a key and a digest.
structure Made (C : R1.Group F) (c : Data 65) (e : Nat) (Q R : F) : Prop where
  signs : C.Signs Q e (Bigint.ofBytes (bytes c 1 32) % C.order)
    (Bigint.ofBytes (bytes c 33 32) % C.order) R
  x     : C.x R = C.order * (((c 0).toNat - 31) / 2) + Bigint.ofBytes (bytes c 1 32)
  odd   : C.odd R = decide (((c 0).toNat - 31) % 2 = 1)

-- What an authenticator signs: its own data, with the hash of the host, and the client data.
structure Asserts (L : Libraries E F) (c : Webauthn.Signature) (host : Bytes) (Q : F) : Prop where
  size   : Webauthn.minAuthDataSize ≤ c.authData.length
  host   : c.authData.take 32 = (L.webauthn.hash host).toList
  index  : 31 ≤ (c.compactSignature 0).toNat ∧ (c.compactSignature 0).toNat < 35
  ne     : Q ≠ 0
  made   : ∃ R, Made L.group c.compactSignature
    (Bigint.ofBytes (L.webauthn.signedDigest c).toList) Q R

section Recovered

variable {c : Webauthn.Signature} {host : Bytes}

-- Only what is left of the second number counts.
theorem recoverKey_mod {C : R1.Group F} (h : C.Lawful) {msg : Bytes} (hm : msg.length = 32)
    {r s recid : Nat} {check : Bool} :
    R1.recoverKey C r s msg recid check = R1.recoverKey C r (s % C.order) msg recid check := by
  rw [R1.recoverKey_eq h hm, R1.recoverKey_eq h hm]
  simp only [Nat.mod_mul_mod]

omit [AddCommGroup E] [DecidableEq E] in
theorem recoverKey_eq_some_iff (h : L.group.Lawful)
    (hs : ¬L.group.order ∣ Bigint.ofBytes (bytes c.compactSignature 33 32)) (key : Data 33) :
    L.webauthn.recoverKey (L.webauthn.signedDigest c) (c.bytes 1 32) (c.bytes 33 32)
        ((c.compactSignature 0).toNat - 4 - 27) = some key ↔
      ∃ Q ≠ 0, key = R1.serialize L.group (some Q) ∧ ∃ R, Made L.group c.compactSignature
        (Bigint.ofBytes (L.webauthn.signedDigest c).toList) Q R := by
  have hm : (L.webauthn.signedDigest c).toList.length = 32 := Vector.length_toList
  have hi : (c.compactSignature 0).toNat - 4 - 27 = (c.compactSignature 0).toNat - 31 := by omega
  have hs₀ : 0 < Bigint.ofBytes (bytes c.compactSignature 33 32) % L.group.order :=
    Nat.pos_of_ne_zero fun hz => hs (Nat.dvd_of_mod_eq_zero hz)
  have hsl := Nat.mod_lt (Bigint.ofBytes (bytes c.compactSignature 33 32)) h.prime.pos
  have hiff (Q : F) := (R1.recoverKey_eq_some_iff ((c.compactSignature 0).toNat - 31) false (Q := Q)
    (r := Bigint.ofBytes (bytes c.compactSignature 1 32)) h hm hs₀ hsl)
  rw [hi]
  change ((R1.recoverKey L.group (Bigint.ofBytes (bytes c.compactSignature 1 32))
    (Bigint.ofBytes (bytes c.compactSignature 33 32)) (L.webauthn.signedDigest c).toList
    ((c.compactSignature 0).toNat - 31) false).filter (· ≠ 0)).map
      (fun Q => R1.serialize L.group (some Q)) = some key ↔ _
  rw [Option.map_eq_some_iff]
  refine exists_congr fun Q => ?_
  rw [Option.filter_eq_some_iff, decide_eq_true_eq, recoverKey_mod h hm, hiff Q]
  constructor
  case mp =>
    rintro ⟨⟨⟨R, hR, hx, ho⟩, hQ⟩, he⟩
    exact ⟨hQ, he.symm, R, hR, hx, ho⟩
  case mpr =>
    rintro ⟨hQ, he, R, hR, hx, ho⟩
    exact ⟨⟨⟨R, hR, hx, ho⟩, hQ⟩, he.symm⟩

omit [AddCommGroup E] [DecidableEq E] in
theorem recovered_eq_ok_iff (h : L.group.Lawful)
    (hs : ¬L.group.order ∣ Bigint.ofBytes (bytes c.compactSignature 33 32))
    {k : Webauthn.PublicKey} : Webauthn.recovered L.webauthn c host = .ok k ↔
      ∃ Q, Asserts L c host Q ∧ k = ⟨R1.serialize L.group (some Q),
        Webauthn.userPresence (c.authData.getD 32 0), host⟩ := by
  have hiff (key : Data 33) := recoverKey_eq_some_iff h hs key
  constructor
  case mp =>
    intro he
    obtain ⟨_, hsize, he⟩ := Except.bind_eq_ok he
    obtain ⟨_, hhost, he⟩ := Except.bind_eq_ok he
    obtain ⟨_, hindex, he⟩ := Except.bind_eq_ok he
    split at he
    case h_2 => cases he
    case h_1 key hkey =>
      cases he
      obtain ⟨Q, hQ, rfl, hR⟩ := (hiff key).mp hkey
      exact ⟨Q, ⟨Webauthn.assert_eq_ok.mp hsize, Webauthn.assert_eq_ok.mp hhost,
        Webauthn.assert_eq_ok.mp hindex, hQ, hR⟩, rfl⟩
  case mpr =>
    rintro ⟨Q, hQ, rfl⟩
    have hkey := (hiff _).mpr ⟨Q, hQ.ne, rfl, hQ.made⟩
    rw [Webauthn.recovered]
    simp only [Webauthn.assert, hQ.size, hQ.host, hQ.index, and_self, if_true, Except.ok_bind,
      hkey]
    rfl

end Recovered

theorem toList_sha256Of (digest : Data 32) : (sha256Of digest).toList = memory digest := by
  rw [memory_eq, sha256Of, Vector.toList_ofFn, List.map_ofFn]
  rfl

omit [AddCommGroup E] [DecidableEq E] in
theorem recover_webauthn (digest : Data 32) (checkCanonical : Bool) (c : Webauthn.Signature) :
    recover L digest checkCanonical (.webauthn c) =
      (Webauthn.publicKey L.webauthn c (sha256Of digest)).mapError .webauthn >>= fun key =>
        .ok (.webauthn key) := rfl

section Opposite

-- The two signatures with the same first number and opposite points.
structure Opposite (C : R1.Group F) (c c' : Data 65) : Prop where
  r      : bytes c' 1 32 = bytes c 1 32
  s      : Bigint.ofBytes (bytes c 33 32) + Bigint.ofBytes (bytes c' 33 32) = C.order
  le     : 31 ≤ (c 0).toNat
  lt     : (c 0).toNat < 35
  le'    : 31 ≤ (c' 0).toNat
  lt'    : (c' 0).toNat < 35
  group  : ((c' 0).toNat - 31) / 2 = ((c 0).toNat - 31) / 2
  parity : ((c' 0).toNat - 31) % 2 = 1 - ((c 0).toNat - 31) % 2

variable {C : R1.Group F} {c c' : Data 65}

omit [AddCommGroup F] [DecidableEq F] in
theorem Opposite.symm (h : Opposite C c c') : Opposite C c' c where
  r      := h.r.symm
  s      := by rw [add_comm, h.s]
  le     := h.le'
  lt     := h.lt'
  le'    := h.le
  lt'    := h.lt
  group  := h.group.symm
  parity := by have := h.parity; omega

omit [DecidableEq F] in
theorem Made.opposite (hl : C.Lawful) (h : Opposite C c c') {e : Nat} {Q R : F}
    (hm : Made C c e Q R) : Made C c' e Q (-R) := by
  have hn := hl.prime.pos
  have hs := hm.signs.s_pos
  have hsum := h.s
  have hlt : Bigint.ofBytes (bytes c 33 32) < C.order := by
    refine lt_of_le_of_ne (by omega) fun he => ?_
    rw [he, Nat.mod_self] at hs
    exact absurd hs (lt_irrefl 0)
  rw [Nat.mod_eq_of_lt hlt] at hs
  have hs' : Bigint.ofBytes (bytes c' 33 32) % C.order =
      C.order - Bigint.ofBytes (bytes c 33 32) % C.order := by
    rw [Nat.mod_eq_of_lt hlt, Nat.mod_eq_of_lt (by omega)]
    omega
  constructor
  case signs =>
    rw [hs', h.r]
    exact hm.signs.neg hl.toLawful
  case x   => rw [hl.x_neg, h.group, h.r, hm.x]
  case odd =>
    rw [hl.odd_neg hm.signs.ne_zero, hm.odd, h.parity]
    rcases Nat.mod_two_eq_zero_or_one ((c 0).toNat - 31) with h₂ | h₂ <;> simp [h₂]

omit [AddCommGroup F] [DecidableEq F] in
theorem Opposite.not_dvd (h : Opposite C c c')
    (hs : ¬C.order ∣ Bigint.ofBytes (bytes c 33 32)) :
    ¬C.order ∣ Bigint.ofBytes (bytes c' 33 32) := by
  have hsum := h.s
  exact fun hd => hs ((Nat.dvd_add_left hd).mp (hsum ▸ dvd_rfl))

omit [DecidableEq F] in
-- Not both numbers are low, since the order is odd.
theorem Opposite.not_low (h : Opposite C c c') (hl : C.Lawful)
    (hs : Bigint.ofBytes (bytes c 33 32) ≤ C.order / 2) :
    C.order / 2 < Bigint.ofBytes (bytes c' 33 32) := by
  have hsum := h.s
  by_contra hs'
  have htwo : C.order = 2 := (hl.prime.even_iff).mp (by rw [Nat.even_iff]; omega)
  have hneg : -C.generator = C.generator := by
    have hz := hl.nsmul_order C.generator
    rw [htwo, two_nsmul] at hz
    exact neg_eq_of_add_eq_zero_left hz
  have ho := hl.odd_neg hl.generator_ne
  rw [hneg] at ho
  cases hb : C.odd C.generator <;> simp [hb] at ho

omit [AddCommGroup E] [DecidableEq E] in
theorem recovered_opposite (hl : L.group.Lawful) {w w' : Webauthn.Signature}
    (h : Opposite L.group w.compactSignature w'.compactSignature)
    (hs : ¬L.group.order ∣ Bigint.ofBytes (bytes w.compactSignature 33 32))
    (hauth : w'.authData = w.authData) (hjson : w'.clientJson = w.clientJson) (host : Bytes) :
    Webauthn.recovered L.webauthn w' host = Webauthn.recovered L.webauthn w host := by
  have hdigest : L.webauthn.signedDigest w' = L.webauthn.signedDigest w := by
    simp only [Webauthn.Environment.signedDigest, hauth, hjson]
  have hkey : L.webauthn.recoverKey (L.webauthn.signedDigest w') (w'.bytes 1 32) (w'.bytes 33 32)
      ((w'.compactSignature 0).toNat - 4 - 27) = L.webauthn.recoverKey (L.webauthn.signedDigest w)
      (w.bytes 1 32) (w.bytes 33 32) ((w.compactSignature 0).toNat - 4 - 27) := by
    refine Option.ext fun key => ?_
    rw [recoverKey_eq_some_iff hl hs, recoverKey_eq_some_iff hl (h.not_dvd hs), hdigest]
    refine exists_congr fun Q => and_congr_right fun _ => and_congr_right fun _ => ?_
    constructor
    case mp  => rintro ⟨R, hR⟩; exact ⟨-R, hR.opposite hl h.symm⟩
    case mpr => rintro ⟨R, hR⟩; exact ⟨-R, hR.opposite hl h⟩
  have hn : 31 ≤ (w.compactSignature 0).toNat ∧ (w.compactSignature 0).toNat < 35 := ⟨h.le, h.lt⟩
  have hn' : 31 ≤ (w'.compactSignature 0).toNat ∧ (w'.compactSignature 0).toNat < 35 :=
    ⟨h.le', h.lt'⟩
  simp only [Webauthn.recovered, hauth, Webauthn.assert, hn, hn', and_self, if_true, hkey]

omit [AddCommGroup E] [DecidableEq E] in
-- Of two opposite signatures `r1` takes one at most; an authenticator can make either of them.
theorem recover_opposite (hl : L.group.Lawful) {w w' : Webauthn.Signature}
    (h : Opposite L.group w.compactSignature w'.compactSignature)
    (hs : ¬L.group.order ∣ Bigint.ofBytes (bytes w.compactSignature 33 32))
    (hauth : w'.authData = w.authData) (hjson : w'.clientJson = w.clientJson)
    (digest : Data 32) (checkCanonical : Bool) :
    recover L digest checkCanonical (.webauthn w') = recover L digest checkCanonical (.webauthn w) ∧
    ∀ k, recover L digest checkCanonical (.r1 w.compactSignature) = .ok k →
      recover L digest checkCanonical (.r1 w'.compactSignature) = .error (.r1 .highS) := by
  constructor
  case left =>
    have horigin : w'.origin L.webauthn = w.origin L.webauthn := by
      simp only [Webauthn.Signature.origin, Webauthn.Environment.parseClientData, hjson]
    have hclient : Webauthn.challenged L.webauthn w' (sha256Of digest) =
        Webauthn.challenged L.webauthn w (sha256Of digest) := by
      simp only [Webauthn.challenged, Webauthn.Environment.parseClientData, hjson]
    simp only [recover_webauthn, Webauthn.publicKey_eq, hclient, horigin,
      recovered_opposite hl h hs hauth hjson]
  case right =>
    intro k hk
    obtain ⟨key, hkey, -⟩ := Except.bind_eq_ok hk
    have hkey := mapError_eq_ok hkey
    rw [R1.recover_eq] at hkey
    split at hkey
    case isFalse => cases hkey
    case isTrue =>
      split at hkey
      case isTrue => cases hkey
      case isFalse hlow =>
        have hhigh := h.not_low hl (Nat.le_of_not_lt hlow)
        have hn : 27 ≤ (w'.compactSignature 0).toNat ∧ (w'.compactSignature 0).toNat < 35 :=
          ⟨(by decide : 27 ≤ 31).trans h.le', h.lt'⟩
        rw [recover_r1, R1.recover_eq, if_pos hn, if_pos hhigh]
        rfl

end Opposite

section Nineteen

def smallAuthenticator : Libraries (ZMod 19) (ZMod 19) :=
  { small with parse := fun _ => some (Webauthn.sampleDocument (ascii "https://a:1")) }

def smallAssertion (i s : Nat) : Webauthn.Signature where
  compactSignature := R1.compact i 5 s
  authData         := (ascii "a" ++ List.replicate 31 0) ++ 1 :: List.replicate 4 0
  clientJson       := Webauthn.sampleJson (ascii "https://a:1")

theorem compact_small {i r s : Nat} (hi : i < 4) (hr : r < 19) (hs : s < 19) :
    R1.Compact (R1.compact i r s) i r s :=
  R1.compact_spec hi (hr.trans (by norm_num)) (hs.trans (by norm_num))

theorem nesting_small : ∀ d,
    smallAuthenticator.parse (cStr (smallAssertion 1 3).clientJson) = some d →
    d.nesting ≤ 2 ^ 32 := by
  rintro d hd
  cases hd
  decide

theorem made_small : Made R1.nineteen (R1.compact 1 5 3)
    (Bigint.ofBytes (smallAuthenticator.webauthn.signedDigest (smallAssertion 1 3)).toList) 2 1 := by
  have hc := compact_small (i := 1) (r := 5) (s := 3) (by decide) (by decide) (by decide)
  have he : Bigint.ofBytes (smallAuthenticator.webauthn.signedDigest (smallAssertion 1 3)).toList ≡
      12 [MOD R1.nineteen.order] := by
    decide +kernel
  have hs : R1.nineteen.Signs 2 12 (5 % 19) (3 % 19) 1 :=
    ⟨by decide, by decide, by decide, by decide, by decide, by decide⟩
  refine ⟨?_, by rw [hc.index, hc.r]; rfl, by rw [hc.index]; rfl⟩
  rw [hc.r, hc.s]
  exact ⟨hs.ne_zero, hs.eq_x, hs.r_pos, hs.s_pos, hs.s_lt,
    by rw [R1.lawful_nineteen.nsmul_congr he]; exact hs.equation⟩

theorem opposite_small : Opposite smallAuthenticator.group (smallAssertion 1 3).compactSignature
    (smallAssertion 0 16).compactSignature := by
  have hc := compact_small (i := 1) (r := 5) (s := 3) (by decide) (by decide) (by decide)
  have hc' := compact_small (i := 0) (r := 5) (s := 16) (by decide) (by decide) (by decide)
  change Opposite R1.nineteen (R1.compact 1 5 3) (R1.compact 0 5 16)
  constructor
  case r => decide +kernel
  case s => rw [hc.s, hc'.s]; rfl
  all_goals simp [hc.index, hc'.index]

theorem recover_opposite_small :
    recover smallAuthenticator (key 0) false (.webauthn (smallAssertion 0 16)) =
      recover smallAuthenticator (key 0) false (.webauthn (smallAssertion 1 3)) := by
  have hc := compact_small (i := 1) (r := 5) (s := 3) (by decide) (by decide) (by decide)
  have hs : ¬smallAuthenticator.group.order ∣
      Bigint.ofBytes (bytes (smallAssertion 1 3).compactSignature 33 32) := by
    change ¬19 ∣ Bigint.ofBytes (bytes (R1.compact 1 5 3) 33 32)
    rw [hc.s]
    decide
  have hl : smallAuthenticator.group.Lawful := R1.lawful_nineteen
  exact (recover_opposite hl opposite_small hs rfl rfl (key 0) false).left

end Nineteen

end Keys
