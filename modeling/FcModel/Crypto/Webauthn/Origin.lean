import FcModel.Crypto.Webauthn.PublicKey

-- The host that `webauthn::public_key` takes from the origin of a signature.

namespace Webauthn

open MutableVariantObject Raw

theorem publicKey_eq (env : Environment) (c : Signature) (digest : Sha256) :
    publicKey env c digest = (do
      let _ ← challenged env c digest
      let rpid ← rpidOf (c.origin env)
      recovered env c rpid) := by
  rw [publicKey, challenged, Signature.origin]
  cases env.parseClientData c
  case none         => rfl
  case some handler =>
    simp only [bind_assoc, pure_bind, rpidOf, recovered, Option.getD_some]

theorem recovered_eq_ok {env : Environment} {c : Signature} {rpid : Bytes} {k : PublicKey}
    (h : recovered env c rpid = .ok k) : k.rpid = rpid := by
  obtain ⟨_, -, h⟩ := Except.bind_eq_ok h
  obtain ⟨_, -, h⟩ := Except.bind_eq_ok h
  obtain ⟨_, -, h⟩ := Except.bind_eq_ok h
  split at h
  case h_1 => cases h; rfl
  case h_2 => cases h

-- The two forms of an origin: with and without a port. A string has a length of type `size_t`.
structure Origin (origin host : Bytes) : Prop where
  size  : origin.length < 2 ^ 64
  plain : Ascii.colon ∉ host
  form  : origin = requiredOriginScheme ++ host ∨
    ∃ port, Ascii.colon ∉ port ∧ origin = requiredOriginScheme ++ host ++ Ascii.colon :: port

theorem rpidOf_scheme (rest : Bytes) :
    rpidOf (requiredOriginScheme ++ rest) = .ok (rest.take
      (sizeSub (rfind (requiredOriginScheme ++
          rest) Ascii.colon) requiredOriginScheme.length)) := by
  have hscheme : (requiredOriginScheme ++ rest).take requiredOriginScheme.length =
    requiredOriginScheme :=
    List.take_left
  rw [rpidOf, assert, if_pos hscheme]
  dsimp only [bind, Except.bind]
  rw [substr, if_pos (by simp), List.drop_left]

-- The last colon is that of the scheme, and the difference wraps around.
theorem rpidOf_host {host : Bytes} (h : Ascii.colon ∉ host)
    (hsize : (requiredOriginScheme ++ host).length < 2 ^ 64) :
    rpidOf (requiredOriginScheme ++ host) = .ok host := by
  have hscheme : requiredOriginScheme ++ host = ascii
    "https" ++ Ascii.colon :: (ascii "//" ++ host) := rfl
  have hrest : Ascii.colon ∉ ascii "//" ++ host := by
    rw [List.mem_append, not_or]
    exact ⟨by decide, h⟩
  have hfind : rfind (requiredOriginScheme ++ host) Ascii.colon = 5 := by
    rw [hscheme, rfind_append_cons _ hrest]
    rfl
  have hlength : requiredOriginScheme.length = 8 := rfl
  rw [rpidOf_scheme, hfind, hlength, sizeSub, if_neg (by decide), List.take_of_length_le]
  rw [List.length_append, hlength] at hsize
  omega

theorem rpidOf_port {host port : Bytes} (h : Ascii.colon ∉ port) :
    rpidOf (requiredOriginScheme ++ host ++ Ascii.colon :: port) = .ok host := by
  have hfind := @rfind_append_cons (requiredOriginScheme ++ host) Ascii.colon port h
  rw [List.append_assoc] at hfind ⊢
  rw [rpidOf_scheme, hfind, List.length_append, sizeSub, if_pos (by omega), Nat.add_sub_cancel_left,
    List.take_left]

theorem rpidOf_origin {origin host : Bytes} (h : Origin origin host) :
    rpidOf origin = .ok host := by
  have hsize := h.size
  cases h.form
  case inl horigin =>
    rw [horigin] at hsize ⊢
    exact rpidOf_host h.plain hsize
  case inr horigin =>
    obtain ⟨port, hport, rfl⟩ := horigin
    exact rpidOf_port hport

theorem rpidOf_rejects {origin : Bytes} (h : ¬requiredOriginScheme <+: origin) :
    rpidOf origin = .error "webauthn origin must begin with https://" := by
  have hscheme : ¬origin.take requiredOriginScheme.length = requiredOriginScheme :=
    fun he => h (he ▸ List.take_prefix ..)
  rw [rpidOf, assert, if_neg hscheme]
  rfl

-- The constructor goes on with exactly the host of its origin. Another scheme is rejected, be the
-- rest of the signature right or not.
theorem rpid_eq_host :
    (∀ origin host, Origin origin host → rpidOf origin = .ok host) ∧
    (∀ origin, ¬requiredOriginScheme <+: origin →
      rpidOf origin = .error "webauthn origin must begin with https://") ∧
    ∀ (env : Environment) (c : Signature) (digest : Sha256),
      (∀ host, Origin (c.origin env) host →
        publicKey env c digest = (challenged env c digest >>= fun _ => recovered env c host) ∧
        ∀ k, publicKey env c digest = .ok k → k.rpid = host) ∧
      (¬requiredOriginScheme <+: c.origin env → publicKey env c digest =
        (challenged env c digest >>= fun _ => .error
            "webauthn origin must begin with https://")) := by
  refine ⟨fun _ _ => rpidOf_origin, fun _ => rpidOf_rejects, fun env c digest => ⟨?_, ?_⟩⟩
  case refine_1 =>
    intro host hhost
    have hkey := publicKey_eq env c digest
    rw [rpidOf_origin hhost] at hkey
    refine ⟨hkey, fun k hk => ?_⟩
    rw [hkey] at hk
    obtain ⟨_, -, hk⟩ := Except.bind_eq_ok hk
    exact recovered_eq_ok hk
  case refine_2 =>
    intro hscheme
    rw [publicKey_eq, rpidOf_rejects hscheme]
    rfl

-- An origin with a port, and one of another scheme.
theorem rpid_eq_host_port :
    rpidOf (ascii "https://a:1") = .ok (ascii "a") ∧
      rpidOf (ascii "http://a") = .error "webauthn origin must begin with https://" :=
  ⟨rpid_eq_host.left _ _ ⟨by decide, by decide, .inr ⟨ascii "1", by decide, rfl⟩⟩,
    rpid_eq_host.right.left _ (by decide)⟩

end Webauthn
