import FcModel.Uint128.Division

-- `uint128::full_product`: the product of two numbers in two objects.

namespace Uint128

namespace fullProduct

def product (x y : UInt64) : Except Halt Uint128 :=
  assigned (fun _ => mulAssign) (ofUInt64 x) (ofUInt64 y)

-- The terms are added to the accumulator one after the other.
def accumulate (acc : Uint128) (terms : List UInt64) : Except Halt Uint128 :=
  terms.foldlM (fun acc x => assigned (fun _ => addAssign) acc (ofUInt64 x)) acc

structure Words where
  y0 : UInt64
  y1 : UInt64
  y2 : UInt64
  y3 : UInt64

def words (ah al bh bl : UInt64) : Except Halt Words := do
  let s ← product al bl
  let r ← product ah bl
  let q ← product al bh
  let p ← product ah bh
  let low  ← accumulate (ofUInt64 s.hi) [q.lo, r.lo]
  let high ← accumulate (ofUInt64 low.hi) [q.hi, r.hi, p.lo]
  return { y0 := s.lo, y1 := low.lo, y2 := high.lo, y3 := high.hi + p.hi }

end fullProduct

def fullProduct {ν : Type} [DecidableEq ν] (a b : Operand ν) (resultHi resultLo : ν) :
    Division ν Unit := do
  let ah := (← .lift (load a)).hi
  let al := (← .lift (load a)).lo
  let bh := (← .lift (load b)).hi
  let bl := (← .lift (load b)).lo
  match fullProduct.words ah al bh bl with
  | .error e => throw e
  | .ok y    =>
    setObject resultHi ⟨y.y3, y.y2⟩
    setObject resultLo ⟨y.y1, y.y0⟩

namespace fullProduct

theorem val_mk (hi lo : UInt64) : val ⟨hi, lo⟩ = hi.toNat * 2 ^ 64 + lo.toNat := by
  rw [val]

theorem val_eq (a : Uint128) : a.val = a.hi.toNat * 2 ^ 64 + a.lo.toNat := by
  rw [val]

@[simp]
theorem val_ofUInt64 (x : UInt64) : (ofUInt64 x).val = x.toNat := by
  simp [val, ofUInt64]

theorem product_spec (x y : UInt64) : ∃ w, product x y = .ok w ∧ w.val = x.toNat * y.toNat := by
  obtain ⟨w, hw, hval⟩ := assigned_of_computes computes_mul (ofUInt64 x) (ofUInt64 y)
  have hlt : x.toNat * y.toNat < 2 ^ 128 :=
    calc x.toNat * y.toNat
      _ < 2 ^ 64 * 2 ^ 64 := Nat.mul_lt_mul'' x.toNat_lt y.toNat_lt
      _ = 2 ^ 128         := rfl
  refine ⟨w, hw, ?_⟩
  rw [hval, val_ofUInt64, val_ofUInt64, Nat.mod_eq_of_lt hlt]

-- As long as the sum fits, no carry is lost.
theorem accumulate_spec {acc : Uint128} {terms : List UInt64}
    (h : acc.val + (terms.map UInt64.toNat).sum < 2 ^ 128) :
    ∃ w, accumulate acc terms = .ok w ∧ w.val = acc.val + (terms.map UInt64.toNat).sum := by
  induction terms generalizing acc
  case nil => exact ⟨acc, rfl, by simp⟩
  case cons x terms hi =>
    rw [List.map_cons, List.sum_cons, ← Nat.add_assoc] at h ⊢
    obtain ⟨v, hv, hval⟩ := assigned_of_computes computes_add acc (ofUInt64 x)
    rw [val_ofUInt64, Nat.mod_eq_of_lt (by omega)] at hval
    rw [← hval] at h ⊢
    obtain ⟨w, hw, hsum⟩ := hi h
    exact ⟨w, by rw [accumulate, List.foldlM_cons, hv]; exact hw, hsum⟩

-- How the words come about: the partial products and both sums are exact, and the last addition
-- does not wrap.
structure Exact (ah al bh bl : UInt64) (s r q p low high : Uint128) : Prop where
  sProduct : product al bl = .ok s ∧ s.val = al.toNat * bl.toNat
  rProduct : product ah bl = .ok r ∧ r.val = ah.toNat * bl.toNat
  qProduct : product al bh = .ok q ∧ q.val = al.toNat * bh.toNat
  pProduct : product ah bh = .ok p ∧ p.val = ah.toNat * bh.toNat
  lowSum   : accumulate (ofUInt64 s.hi) [q.lo, r.lo] = .ok low ∧ low.val = s.hi.toNat + q.lo.toNat + r.lo.toNat
  highSum  : accumulate (ofUInt64 low.hi) [q.hi, r.hi, p.lo] = .ok high ∧
    high.val = low.hi.toNat + q.hi.toNat + r.hi.toNat + p.lo.toNat
  noCarry  : high.hi.toNat + p.hi.toNat < 2 ^ 64

theorem exact_total {ah al bh bl : UInt64} {s r q p low high : Uint128}
    (hs : s.val = al.toNat * bl.toNat) (hr : r.val = ah.toNat * bl.toNat)
    (hq : q.val = al.toNat * bh.toNat)
    (hp : p.val = ah.toNat * bh.toNat) (hlow : low.val = s.hi.toNat + q.lo.toNat + r.lo.toNat)
    (hhigh : high.val = low.hi.toNat + q.hi.toNat + r.hi.toNat + p.lo.toNat) :
    (high.hi.toNat + p.hi.toNat) * 2 ^ 192 + high.lo.toNat * 2 ^ 128 + low.lo.toNat * 2 ^ 64 + s.lo.toNat =
      (ah.toNat * 2 ^ 64 + al.toNat) * (bh.toNat * 2 ^ 64 + bl.toNat) := by
  have hmul : (ah.toNat * 2 ^ 64 + al.toNat) * (bh.toNat * 2 ^ 64 + bl.toNat) =
      p.val * 2 ^ 128 + (q.val + r.val) * 2 ^ 64 + s.val := by
    rw [hs, hr, hq, hp]
    ring
  have hsv := val_eq s; have hrv := val_eq r; have hqv := val_eq q; have hpv := val_eq p
  have hlv := val_eq low; have hhv := val_eq high
  rw [hmul]
  omega

theorem exists_exact (ah al bh bl : UInt64) : ∃ s r q p low high,
    Exact ah al bh bl s r q p low high := by
  obtain ⟨s, hs, hsv⟩ := product_spec al bl
  obtain ⟨r, hr, hrv⟩ := product_spec ah bl
  obtain ⟨q, hq, hqv⟩ := product_spec al bh
  obtain ⟨p, hp, hpv⟩ := product_spec ah bh
  have h64 (x : UInt64) : x.toNat < 2 ^ 64 := x.toNat_lt
  have := h64 s.hi; have := h64 q.lo; have := h64 r.lo
  obtain ⟨low, hlow, hlowv⟩ := @accumulate_spec (ofUInt64 s.hi) [q.lo, r.lo] (by simp; omega)
  have := h64 low.hi; have := h64 q.hi; have := h64 r.hi; have := h64 p.lo
  obtain ⟨high, hhigh, hhighv⟩ := @accumulate_spec (ofUInt64 low.hi) [q.hi, r.hi, p.lo] (by simp; omega)
  replace hlowv : low.val = s.hi.toNat + q.lo.toNat + r.lo.toNat := by simpa [← Nat.add_assoc] using hlowv
  replace hhighv : high.val = low.hi.toNat + q.hi.toNat + r.hi.toNat + p.lo.toNat := by
    simpa [← Nat.add_assoc] using hhighv
  refine ⟨s, r, q, p, low, high, ⟨hs, hsv⟩, ⟨hr, hrv⟩, ⟨hq, hqv⟩, ⟨hp, hpv⟩, ⟨hlow, hlowv⟩, ⟨hhigh, hhighv⟩, ?_⟩
  -- A carry out of the last word would take the sum beyond the product.
  have htotal := exact_total hsv hrv hqv hpv hlowv hhighv
  have hprod : (ah.toNat * 2 ^ 64 + al.toNat) * (bh.toNat * 2 ^ 64 + bl.toNat) < 2 ^ 128 * 2 ^ 128 := by
    have := h64 ah; have := h64 al; have := h64 bh; have := h64 bl
    exact Nat.mul_lt_mul'' (by omega) (by omega)
  omega

theorem words_spec (a b : Uint128) :
    ∃ y, words a.hi a.lo b.hi b.lo = .ok y ∧
    val ⟨y.y3, y.y2⟩ * 2 ^ 128 + val ⟨y.y1, y.y0⟩ = a.val * b.val := by
  obtain ⟨s, r, q, p, low, high, h⟩ := exists_exact a.hi a.lo b.hi b.lo
  have htotal := exact_total h.sProduct.2 h.rProduct.2 h.qProduct.2 h.pProduct.2 h.lowSum.2 h.highSum.2
  have hlast : (high.hi + p.hi).toNat = high.hi.toNat + p.hi.toNat := by
    rw [UInt64.toNat_add, Nat.mod_eq_of_lt h.noCarry]
  refine ⟨⟨s.lo, low.lo, high.lo, high.hi + p.hi⟩, ?_, ?_⟩
  case refine_1 =>
    simp only [words, h.sProduct.1, h.rProduct.1, h.qProduct.1, h.pProduct.1, h.lowSum.1,
      h.highSum.1, bind, Except.bind]
    rfl
  case refine_2 =>
    rw [val_eq a, val_eq b, ← htotal, val_mk, val_mk, hlast]
    generalize high.hi.toNat + p.hi.toNat = y₃
    ring

end fullProduct

theorem fullProduct_exact :
    (∀ (ν : Type) [DecidableEq ν] (s : ν → Uint128) (a b : Operand ν) (resultHi resultLo : ν),
      ∃ s', (fullProduct a b resultHi resultLo).run s = .ok () s' ∧
        (resultHi ≠ resultLo →
          (s' resultHi).val * 2 ^ 128 + (s' resultLo).val = (a.read s).val * (b.read s).val) ∧
        ∀ x, x ≠ resultHi → x ≠ resultLo → s' x = s x) ∧
    ∀ ah al bh bl : UInt64, ∃ s r q p low high, fullProduct.Exact ah al bh bl s r q p low high := by
  refine ⟨fun ν _ s a b resultHi resultLo => ?_, fullProduct.exists_exact⟩
  obtain ⟨y, hy, htotal⟩ := fullProduct.words_spec (a.read s) (b.read s)
  refine ⟨Function.update (Function.update s resultHi ⟨y.y3, y.y2⟩) resultLo ⟨y.y1, y.y0⟩, ?_, fun hne => ?_,
    fun x hx hx' => ?_⟩
  case refine_1 =>
    refine lift_load_bind.trans (lift_load_bind.trans (lift_load_bind.trans (lift_load_bind.trans ?_)))
    simp only [hy]
    exact setObject_bind.trans (setObject_run _)
  case refine_2 => rwa [Function.update_of_ne hne, Function.update_self, Function.update_self]
  case refine_3 => rw [Function.update_of_ne hx', Function.update_of_ne hx]

end Uint128
