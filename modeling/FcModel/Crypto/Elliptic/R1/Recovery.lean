import FcModel.Crypto.Elliptic.R1

-- Keys are recovered from the signatures they make, and from no others, and public keys follow the
-- derivation of private ones.

namespace R1

open Raw Keys Elliptic
open ModularArithmetic (padded length_padded ofBytes_padded)

variable {E : Type} [AddCommGroup E] [DecidableEq E] {C : Group E} {P Q R : E} {r s recid : Nat}

section ModInverse

variable {n : Nat}

theorem modInverse_of_not_dvd (hn : n.Prime) (hr : ¬n ∣ r) :
    ∃ rr, modInverse r n = some rr ∧ rr * r ≡ 1 [MOD n] := by
  have hg : Nat.gcd r n = 1 := ((hn.coprime_iff_not_dvd).mpr hr).symm
  refine ⟨_, by rw [modInverse, if_pos hg], ?_⟩
  have hpos : (0 : Int) < n := Int.natCast_pos.mpr hn.pos
  have hc : ((Nat.gcdA r n % n).toNat : Int) = Nat.gcdA r n % n :=
    Int.toNat_of_nonneg (Int.emod_nonneg _ hpos.ne')
  rw [← Int.natCast_modEq_iff, Nat.cast_mul, hc, Nat.cast_one]
  have hb := Nat.gcd_eq_gcd_ab r n
  rw [hg, Nat.cast_one] at hb
  calc Nat.gcdA r n % n * r
      ≡ Nat.gcdA r n * r [ZMOD n] := (Int.mod_modEq _ _).mul_right _
    _ ≡ r * Nat.gcdA r n + n * Nat.gcdB r n [ZMOD n] := by
      rw [mul_comm]
      exact (Int.modEq_iff_dvd.mpr ⟨Nat.gcdB r n, by ring⟩)
    _ = 1 := hb.symm

theorem modInverse_of_dvd (hn : n.Prime) (hr : n ∣ r) : modInverse r n = none := by
  have hg : ¬Nat.gcd r n = 1 := by rw [Nat.gcd_eq_right hr]; exact hn.ne_one
  rw [modInverse, if_neg hg]

-- The factors that the key is computed with.
theorem dvd_eor {e rr : Nat} (hn : 0 < n) (hr : rr * r ≡ 1 [MOD n]) :
    n ∣ ((0 - e : Int) % n).toNat * rr % n * r + e := by
  have hc : (((0 - e : Int) % n).toNat : Int) = (0 - e) % n :=
    Int.toNat_of_nonneg (Int.emod_nonneg _ (Int.natCast_pos.mpr hn).ne')
  have hr := Int.natCast_modEq_iff.mpr hr
  rw [Nat.cast_mul, Nat.cast_one] at hr
  rw [← Int.natCast_dvd_natCast]
  refine Int.modEq_zero_iff_dvd.mp ?_
  rw [Nat.cast_add, Nat.cast_mul, Int.natCast_mod, Nat.cast_mul, hc]
  calc (0 - e : Int) % n * rr % n * r + e
      ≡ (0 - e) % n * rr * r + e [ZMOD n] := ((Int.mod_modEq _ _).mul_right _).add_right _
    _ ≡ (0 - e) * (rr * r) + e [ZMOD n] := by
      rw [mul_assoc]
      exact ((Int.mod_modEq _ _).mul_right _).add_right _
    _ ≡ (0 - e) * 1 + e [ZMOD n] := (hr.mul_left _).add_right _
    _ = 0 := by ring

theorem sor_modEq {rr : Nat} (hr : rr * r ≡ 1 [MOD n]) : s * rr % n * r ≡ s [MOD n] := by
  calc s * rr % n * r
      ≡ s * rr * r [MOD n] := (Nat.mod_modEq _ _).mul_right _
    _ = s * (rr * r) := mul_assoc ..
    _ ≡ s * 1 [MOD n] := hr.mul_left _
    _ = s := mul_one _

end ModInverse

section Recover

variable {msg : Bytes} {check : Bool}

theorem recoverKey_eq (h : C.Lawful) (hm : msg.length = 32) :
    recoverKey C r s msg recid check =
      if C.order * (recid / 2) + r < C.field then
        (C.lift (C.order * (recid / 2) + r) (recid % 2 = 1)).bind fun R =>
          (modInverse r C.order).map fun rr =>
            (((0 - Bigint.ofBytes msg : Int) % C.order).toNat * rr % C.order) • C.generator +
              (s * rr % C.order) • R
      else none := by
  have hd : ¬8 * msg.length > C.degree := by rw [hm, h.degree_eq]; decide
  have hz (R : E) : C.order • R = 0 := h.nsmul_order R
  by_cases hx : C.order * (recid / 2) + r < C.field
  case neg => simp [recoverKey, hx]
  case pos =>
    cases hl : C.lift (C.order * (recid / 2) + r) (recid % 2 = 1)
    case none => simp [recoverKey, hx, hl]
    case some R =>
      cases hi : modInverse r C.order <;> cases check <;>
        simp [recoverKey, hx, hl, hd, hz, hi]

theorem recoverKey_check (h : C.Lawful) (hm : msg.length = 32) :
    recoverKey C r s msg recid true = recoverKey C r s msg recid false := by
  rw [recoverKey_eq h hm, recoverKey_eq h hm]

-- What is recovered is the key that the signature belongs to, where the index tells which point it
-- was made with.
variable (recid check) in
theorem recoverKey_eq_some_iff (h : C.Lawful) (hm : msg.length = 32) (hs₀ : 0 < s)
    (hs : s < C.order) : recoverKey C r s msg recid check = some Q ↔
      ∃ R, C.Signs Q (Bigint.ofBytes msg) (r % C.order) s R ∧
        C.x R = C.order * (recid / 2) + r ∧ C.odd R = decide (recid % 2 = 1) := by
  rw [recoverKey_eq h hm]
  constructor
  case mp =>
    intro hk
    split at hk
    case isFalse => cases hk
    case isTrue =>
      obtain ⟨R, hl, hk⟩ := Option.bind_eq_some_iff.mp hk
      obtain ⟨rr, hi, rfl⟩ := Option.map_eq_some_iff.mp hk
      obtain ⟨hR, hx, ho⟩ := h.of_lift hl
      have hr : ¬C.order ∣ r := fun hd => by simp [modInverse_of_dvd h.prime hd] at hi
      obtain ⟨rr', hi', hrr⟩ := modInverse_of_not_dvd h.prime hr
      cases hi.symm.trans hi'
      have hrm : rr * (r % C.order) ≡ 1 [MOD C.order] :=
        ((Nat.mod_modEq r C.order).mul_left rr).trans hrr
      refine ⟨R, h.toLawful.signs hR ?_ ?_ hs₀ hs (dvd_eor h.prime.pos hrm) (sor_modEq hrm), hx, ho⟩
      case refine_1 => rw [hx, Nat.mul_add_mod]
      case refine_2 => exact Nat.pos_of_ne_zero fun hz => hr (Nat.dvd_of_mod_eq_zero hz)
  case mpr =>
    rintro ⟨R, hR, hx, ho⟩
    have hr : ¬C.order ∣ r := mt Nat.dvd_iff_mod_eq_zero.mp hR.r_pos.ne'
    obtain ⟨rr, hi, hrr⟩ := modInverse_of_not_dvd h.prime hr
    have hrm : rr * (r % C.order) ≡ 1 [MOD C.order] :=
      ((Nat.mod_modEq r C.order).mul_left rr).trans hrr
    have hl := h.lift_self hR.ne_zero
    rw [hx, ho] at hl
    rw [if_pos (hx ▸ h.x_lt hR.ne_zero), hl, hi, Option.bind_some, Option.map_some]
    exact congrArg some <|
      hR.recover h.toLawful (dvd_eor h.prime.pos hrm) (sor_modEq hrm)

-- The index of the point that a signature was made with.
def recidOf (C : Group E) (R : E) : Nat :=
  2 * (C.x R / C.order) + (C.odd R).toNat

variable (check) in
theorem recoverKey_recidOf (h : C.Lawful) (hm : msg.length = 32)
    (hs : C.Signs Q (Bigint.ofBytes msg) r s R) :
    recidOf C R < 4 ∧ recoverKey C r s msg (recidOf C R) check = some Q := by
  have hx := hs.x_eq h.toLawful
  have hb := Bool.toNat_lt (C.odd R)
  have hd : recidOf C R / 2 = C.x R / C.order := by rw [recidOf]; omega
  refine ⟨by rw [recidOf]; omega, (recoverKey_eq_some_iff _ _ h hm hs.s_pos hs.s_lt).mpr ⟨R, ?_, ?_, ?_⟩⟩
  case refine_1 => rwa [Nat.mod_eq_of_lt (hs.r_lt h.toLawful)]
  case refine_2 => rw [hd, hx.1]
  case refine_3 =>
    rw [recidOf]
    cases C.odd R <;> simp

end Recover

section Compact

variable {digest : Data 32}

-- The bytes of a signature with the index of its point.
def compact (i r s : Nat) : Data 65 :=
  data 65 (.ofNat (i + 27 + 4) :: padded 32 r ++ padded 32 s)

structure Compact (c : Data 65) (i r s : Nat) : Prop where
  index : (c 0).toNat = i + 31
  r     : Bigint.ofBytes (bytes c 1 32) = r
  s     : Bigint.ofBytes (bytes c 33 32) = s

theorem compact_spec {i : Nat} (hi : i < 4) (hr : r < 2 ^ 256) (hs : s < 2 ^ 256) :
    Compact (compact i r s) i r s := by
  have hr' := length_padded (n := 32) (hr.trans_eq (by norm_num))
  have hs' := length_padded (n := 32) (hs.trans_eq (by norm_num))
  have hl : (UInt8.ofNat (i + 27 + 4) :: padded 32 r ++ padded 32 s).length = 65 := by
    rw [List.length_append, List.length_cons, hr', hs']
  constructor
  case index => simp [compact, data]; omega
  case r =>
    rw [compact, bytes_data hl, List.cons_append, List.drop_one, List.tail_cons,
      List.take_left' hr',
      ofBytes_padded]
  case s =>
    rw [compact, bytes_data hl, List.drop_left' (by rw [List.length_cons, hr']),
      List.take_of_length_le hs'.le, ofBytes_padded]

theorem recover_eq (c : Data 65) : recover C c digest =
    if 27 ≤ (c 0).toNat ∧ (c 0).toNat < 35 then
      if Bigint.ofBytes (bytes c 33 32) > C.order / 2 then .error .highS
      else
        match recoverKey C (Bigint.ofBytes (bytes c 1 32)) (Bigint.ofBytes (bytes c 33 32))
          (memory digest) (((c 0).toNat - 27) % 4) false with
        | some Q => .ok (some Q)
        | none   => .error .reconstruct
    else .error .reconstruct := by
  have h₀ : byte c 0 = c 0 := byte_eq c 0
  generalize hn : (c 0).toNat = nV
  by_cases hv : 27 ≤ nV ∧ nV < 35
  case neg =>
    have hv' : nV < 27 ∨ 35 ≤ nV := by omega
    rw [recover, h₀, hn, if_neg hv]
    simp only [hv', if_true]
    rfl
  case pos =>
    have hv' : ¬(nV < 27 ∨ 35 ≤ nV) := by omega
    have hi : (if nV ≥ 31 then nV - 4 else nV) - 27 = (nV - 27) % 4 := by split <;> omega
    rw [recover, h₀, hn, if_pos hv]
    simp only [hv', if_false, hi]
    split
    case isTrue  => rfl
    case isFalse =>
      cases recoverKey C (Bigint.ofBytes (bytes c 1 32)) (Bigint.ofBytes (bytes c 33 32))
        (memory digest) ((nV - 27) % 4) false <;> rfl

theorem recover_compact (h : C.Lawful) {c : Data 65} {i : Nat} (hc : Compact c i r s) (hi : i < 4)
    (hs : s ≤ C.order / 2) (hk : recoverKey C r s (memory digest) i true = some Q) :
    recover C c digest = .ok (some Q) := by
  have hn : 27 ≤ (c 0).toNat ∧ (c 0).toNat < 35 := by rw [hc.index]; omega
  have hv : ((c 0).toNat - 27) % 4 = i := by rw [hc.index]; omega
  rw [recover_eq, if_pos hn, hc.s, hc.r, if_neg (Nat.not_lt.mpr hs), hv,
    ← recoverKey_check h (length_memory digest), hk]

end Compact

section Main

variable {doSign : Nat → Bytes → Option (Nat × Nat)}

omit [DecidableEq E] in
-- The number is replaced by the low one, which belongs to the opposite point.
theorem exists_low (h : C.Lawful) {e : Nat} (hs : C.Signs Q e r s R) :
    ∃ R', C.Signs Q e r (if s > C.order / 2 then C.order - s else s) R' ∧
      (if s > C.order / 2 then C.order - s else s) ≤ C.order / 2 := by
  split
  case isTrue hl  => exact ⟨-R, hs.neg h.toLawful, by omega⟩
  case isFalse hl => exact ⟨R, hs, Nat.le_of_not_lt hl⟩

theorem signatureFromEcdsa_eq (h : C.Lawful) {digest : Data 32}
    (hs : C.Signs Q (Bigint.ofBytes (memory digest)) r s R) :
    ∃ i s', i < 4 ∧ s' < 2 ^ 256 ∧ s' ≤ C.order / 2 ∧
      recoverKey C r s' (memory digest) i true = some Q ∧
      signatureFromEcdsa C (serialize C (some Q)) r s digest = .ok (compact i r s') := by
  obtain ⟨R', hs', hl⟩ := exists_low h hs
  generalize hq : (if s > C.order / 2 then C.order - s else s) = s' at hs' hl
  have hr : r < 2 ^ 256 := (hs'.r_lt h.toLawful).trans_le h.order_le
  have hsl : s' < 2 ^ 256 := hs'.s_lt.trans_le h.order_le
  have hsize : ¬(r.size > 256 ∨ s'.size > 256) := by
    have := Nat.size_le.mpr hr
    have := Nat.size_le.mpr hsl
    omega
  -- One of the indices finds the key, though perhaps not the first one that is tried.
  obtain ⟨hi, hk⟩ := recoverKey_recidOf true h (length_memory digest) hs'
  cases hf : (List.range 4).find? fun i =>
    (recoverKey C r s' (memory digest) i true).any fun Q' =>
      serialize C (some Q') = serialize C (some Q)
  case none =>
    have := List.find?_eq_none.mp hf _ (List.mem_range.mpr hi)
    simp [hk] at this
  case some i =>
    have hi' := List.mem_range.mp (List.mem_of_find?_eq_some hf)
    have hm := List.find?_some hf
    obtain ⟨Q', hQ', hm⟩ := (Option.any_eq_true _ _).mp hm
    have hk' : recoverKey C r s' (memory digest) i true = some Q := by
      rw [hQ', serialize_inj h (of_decide_eq_true hm)]
    refine ⟨i, s', hi', hsl, hl, hk', ?_⟩
    rw [signatureFromEcdsa]
    simp only [hq, hsize, if_false, hf]
    rfl

-- Whenever OpenSSL signs, the signature has a compact form, and the key is recovered from that.
theorem recover_signCompact (h : C.Lawful) (hd : Signer C doSign) (secret digest : Data 32)
    (hs : doSign (Bigint.ofBytes (memory secret)) (memory digest) = some (r, s)) :
    ∃ c, signCompact C doSign digest (regenerate C secret) = .ok c ∧
      recover C c digest = .ok ((regenerate C secret).bind EcKey.getPublicKey) := by
  obtain ⟨R, hR⟩ := hd hs
  obtain ⟨i, s', hi, hsl, hl, hk, he⟩ := signatureFromEcdsa_eq h hR
  have hc := compact_spec hi ((hR.r_lt h.toLawful).trans_le h.order_le) hsl
  refine ⟨_, ?_, recover_compact h hc hi hl hk⟩
  rw [regenerate, signCompact]
  simp only [hs]
  exact he

end Main

section Derived

omit [DecidableEq E] in
theorem getSecret_regenerate (C : Group E) (secret : Data 32) :
    getSecret (regenerate C secret) = secret := by
  simp only [regenerate, getSecret]
  rw [padded_ofBytes (length_memory secret), data_memory]

omit [DecidableEq E] in
-- What is derived of a key belongs to what is derived of its public key.
theorem generateFromSeed_eq (h : C.Lawful) (seed offset : Data 32) :
    ∃ secret, generateFromSeed C seed offset = regenerate C secret ∧
      (regenerate C secret).bind EcKey.getPublicKey =
        ((regenerate C seed).bind EcKey.getPublicKey).bind (mult C · offset) := by
  refine ⟨_, rfl, ?_⟩
  have hlt : (Bigint.ofBytes (memory seed) + Bigint.ofBytes (memory offset)) % C.order < 256 ^ 32 :=
    (Nat.mod_lt _ h.prime.pos).trans_le h.order_le
  simp only [regenerate, memory_data (length_padded hlt), ofBytes_padded, EcKey.getPublicKey, mult,
    Option.bind_some, Option.some.injEq]
  rw [h.nsmul_congr (Nat.mod_modEq _ _), add_nsmul, one_nsmul, add_comm]

theorem add_eq (masterPub : E) (digest : Data 32) :
    add C masterPub digest =
      if Bigint.ofBytes (memory digest) > C.order then .error .digest
      else if mult C masterPub digest = some 0 then .error .infinity
      else .ok (mult C masterPub digest) := by
  by_cases hd : Bigint.ofBytes (memory digest) > C.order
  case pos => simp [add, hd]; rfl
  case neg =>
    by_cases hz : Bigint.ofBytes (memory digest) • C.generator + masterPub = 0
    case pos => simp [add, mult, hd, hz]; rfl
    case neg => simp [add, mult, hd, hz]; rfl

-- The owner of a key and those who only know the public one follow the same offsets to the same
-- keys.
theorem follow_offsets (h : C.Lawful) (seed : Data 32) (offsets : List (Data 32)) :
    let k := offsets.foldl (fun k offset => generateFromSeed C (getSecret k) offset)
      (regenerate C seed)
    let p := offsets.foldl (fun p offset => p.bind (mult C · offset))
      ((regenerate C seed).bind EcKey.getPublicKey)
    k.bind EcKey.getPublicKey = p ∧ ∀ P, p = some P → ∀ digest, add C P digest =
      if Bigint.ofBytes (memory digest) > C.order then .error .digest
      else if mult C P digest = some 0 then .error .infinity
      else .ok ((generateFromSeed C (getSecret k) digest).bind EcKey.getPublicKey) := by
  suffices hs : ∃ secret, offsets.foldl (fun k offset => generateFromSeed C (getSecret k) offset)
      (regenerate C seed) = regenerate C secret ∧
      (regenerate C secret).bind EcKey.getPublicKey =
        offsets.foldl (fun p offset => p.bind (mult C · offset))
          ((regenerate C seed).bind EcKey.getPublicKey) by
    obtain ⟨secret, hk, hp⟩ := hs
    intro k p
    refine ⟨(congrArg (Option.bind · EcKey.getPublicKey) hk).trans hp, fun P hP digest => ?_⟩
    obtain ⟨secret', he, hp'⟩ := generateFromSeed_eq h secret digest
    have hm : (regenerate C secret').bind EcKey.getPublicKey = mult C P digest := by
      rw [hp', hp]
      exact congrArg (Option.bind · (mult C · digest)) hP
    rw [add_eq, show k = regenerate C secret from hk, getSecret_regenerate, he, hm]
  induction offsets generalizing seed
  case nil => exact ⟨seed, rfl, rfl⟩
  case cons offset offsets hi =>
    obtain ⟨secret, he, hp⟩ := generateFromSeed_eq h seed offset
    simp only [List.foldl_cons, getSecret_regenerate, he, ← hp]
    exact hi secret

end Derived

section Nineteen

-- A curve that is small, of which only the number of bits is not small.
def nineteen : Group (ZMod 19) where
  toCurve := Ecdsa.nineteen
  degree  := 256

theorem lawful_nineteen : nineteen.Lawful where
  toLawful  := Ecdsa.lawful_nineteen
  degree_eq := rfl
  order_le  := by decide
  field_le' := by decide

-- Signatures that are made with the generator.
def signNineteen (d : Nat) (msg : Bytes) : Option (Nat × Nat) :=
  let s := (Bigint.ofBytes msg + 5 * d) % 19
  if s = 0 then none else some (5, s)

theorem signer_nineteen : Signer nineteen signNineteen := by
  intro d msg r s h
  simp only [signNineteen] at h
  split at h
  case isTrue  => cases h
  case isFalse hs =>
    cases h
    refine ⟨_, .of_nonce (k := 1) Ecdsa.lawful_nineteen (by decide) (by decide) (Nat.pos_of_ne_zero hs)
      (Nat.mod_lt _ (by decide)) ?_⟩
    rw [mul_one]
    exact Nat.mod_modEq _ _

end Nineteen

theorem follow_offsets_nineteen :
    let offsets := [data 32 [1], data 32 [2], data 32 [3]]
    (offsets.foldl (fun k offset => generateFromSeed nineteen (getSecret k) offset)
      (regenerate nineteen (data 32 [7]))).bind EcKey.getPublicKey =
      offsets.foldl (fun p offset => p.bind (mult nineteen · offset))
        ((regenerate nineteen (data 32 [7])).bind EcKey.getPublicKey) :=
  (follow_offsets lawful_nineteen (data 32 [7]) [data 32 [1], data 32 [2], data 32 [3]]).1

end R1
