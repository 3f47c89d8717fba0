import Mathlib

-- Signatures with the points of a group of prime order, and the recovery of the key from a
-- signature, as in SEC 1.

namespace Ecdsa

-- A point other than the neutral one is given by its first coordinate and the parity of the second
-- one; `lift` looks for the point. `field` bounds the first coordinates.
structure Curve (E : Type) where
  generator : E
  order     : Nat
  field     : Nat
  x         : E → Nat
  odd       : E → Bool
  lift      : Nat → Bool → Option E

variable {E : Type} [AddCommGroup E]

structure Curve.Lawful (C : Curve E) : Prop where
  prime        : C.order.Prime
  nsmul_order  : ∀ P : E, C.order • P = 0
  generator_ne : C.generator ≠ 0
  x_lt         : ∀ {P}, P ≠ 0 → C.x P < C.field
  x_neg        : ∀ P, C.x (-P) = C.x P
  odd_neg      : ∀ {P}, P ≠ 0 → C.odd (-P) = !C.odd P
  lift_self    : ∀ {P}, P ≠ 0 → C.lift (C.x P) (C.odd P) = some P
  of_lift      : ∀ {a b P}, C.lift a b = some P → P ≠ 0 ∧ C.x P = a ∧ C.odd P = b
  field_le     : C.field ≤ 2 * C.order

namespace Curve

variable {C : Curve E} {P Q R : E} {d e r s : Nat}

-- `(r, s)` is a signature by the owner of `Q` of what has the number `e`, and `R` is the point it
-- was made with.
structure Signs (C : Curve E) (Q : E) (e r s : Nat) (R : E) : Prop where
  ne_zero  : R ≠ 0
  eq_x     : r = C.x R % C.order
  r_pos    : 0 < r
  s_pos    : 0 < s
  s_lt     : s < C.order
  equation : s • R = e • C.generator + r • Q

-- The key that a signature belongs to.
def recovered (C : Curve E) (e r s : Nat) (R : E) : E :=
  (-e * (r : ZMod C.order)⁻¹).val • C.generator + (s * (r : ZMod C.order)⁻¹).val • R

namespace Lawful

-- Multiples are determined modulo the order.
theorem nsmul_congr (h : C.Lawful) {m n : Nat} (hmn : m ≡ n [MOD C.order]) (P : E) :
    m • P = n • P :=
  nsmul_eq_nsmul_iff_modEq.mpr (hmn.of_dvd (addOrderOf_dvd_of_nsmul_eq_zero (h.nsmul_order P)))

theorem nsmul_eq_zero (h : C.Lawful) {n : Nat} (hn : C.order ∣ n) (P : E) : n • P = 0 := by
  rw [h.nsmul_congr (Nat.modEq_zero_iff_dvd.mpr hn), zero_nsmul]

-- The order is prime, so that what is not a multiple of it can be cancelled.
theorem nsmul_cancel (h : C.Lawful) {n : Nat} (hn : ¬C.order ∣ n) (he : n • P = n • Q) : P = Q := by
  have hz : n • (P - Q) = 0 := by rw [nsmul_sub, he, sub_self]
  have hd : addOrderOf (P - Q) ∣ 1 := by
    have hc : Nat.gcd n C.order = 1 := ((h.prime.coprime_iff_not_dvd).mpr hn).symm
    rw [← hc]
    exact Nat.dvd_gcd (addOrderOf_dvd_of_nsmul_eq_zero hz)
      (addOrderOf_dvd_of_nsmul_eq_zero (h.nsmul_order _))
  exact sub_eq_zero.mp (AddMonoid.addOrderOf_eq_one_iff.mp (Nat.dvd_one.mp hd))

theorem nsmul_ne_zero (h : C.Lawful) {n : Nat} (hn : ¬C.order ∣ n) (hP : P ≠ 0) : n • P ≠ 0 :=
  fun hz => hP (h.nsmul_cancel hn (hz.trans (nsmul_zero n).symm))

theorem nsmul_neg (h : C.Lawful) {n : Nat} (hn : n ≤ C.order) (P : E) :
    (C.order - n) • -P = n • P := by
  rw [eq_comm, ← sub_eq_zero, smul_neg, sub_neg_eq_add, ← add_nsmul, Nat.add_sub_cancel' hn,
    h.nsmul_order]

-- Points with the same coordinates are equal.
theorem eq_of_coordinates (h : C.Lawful) (hP : P ≠ 0) (hQ : Q ≠ 0) (hx : C.x P = C.x Q)
    (ho : C.odd P = C.odd Q) : P = Q := by
  have := h.lift_self hP
  rw [hx, ho, h.lift_self hQ] at this
  exact (Option.some.inj this).symm

end Lawful

namespace Signs

variable (h : C.Lawful)
include h

-- A signature that is made with the secret `d` and the number `k`.
theorem of_nonce {k : Nat} (hk : k • C.generator ≠ 0) (hr : 0 < C.x (k • C.generator) % C.order)
    (hs : 0 < s) (hl : s < C.order)
    (he : s * k ≡ e + C.x (k • C.generator) % C.order * d [MOD C.order]) :
    Signs C (d • C.generator) e (C.x (k • C.generator) % C.order) s (k • C.generator) where
  ne_zero  := hk
  eq_x     := rfl
  r_pos    := hr
  s_pos    := hs
  s_lt     := hl
  equation := by rw [← mul_nsmul', ← mul_nsmul', ← add_nsmul, h.nsmul_congr he]

omit h in
theorem r_lt (h : C.Lawful) (hs : Signs C Q e r s R) : r < C.order :=
  hs.eq_x ▸ Nat.mod_lt _ h.prime.pos

theorem not_dvd_r (hs : Signs C Q e r s R) : ¬C.order ∣ r :=
  Nat.not_dvd_of_pos_of_lt hs.r_pos (hs.r_lt h)

-- The key is what solves the equation for it.
theorem recover (hs : Signs C Q e r s R) {a b : Nat} (ha : C.order ∣ a * r + e)
    (hb : b * r ≡ s [MOD C.order]) : a • C.generator + b • R = Q := by
  refine h.nsmul_cancel (hs.not_dvd_r h) (add_left_cancel (a := e • C.generator) ?_)
  calc e • C.generator + r • (a • C.generator + b • R)
      = (a * r + e) • C.generator + (b * r) • R := by
        rw [nsmul_add, add_nsmul, mul_nsmul, mul_nsmul]
        abel
    _ = s • R := by rw [h.nsmul_eq_zero ha, zero_add, h.nsmul_congr hb]
    _ = e • C.generator + r • Q := hs.equation

theorem recovered_eq (hs : Signs C Q e r s R) : C.recovered e r s R = Q := by
  have : NeZero C.order := ⟨h.prime.ne_zero⟩
  have hr : (r : ZMod C.order)⁻¹ * r = 1 := by
    rw [mul_comm]
    exact ZMod.coe_mul_inv_eq_one r
      ((h.prime.coprime_iff_not_dvd).mpr (hs.not_dvd_r h)).symm
  refine hs.recover h ?_ ?_
  case refine_1 =>
    rw [← ZMod.natCast_eq_zero_iff, Nat.cast_add, Nat.cast_mul, ZMod.natCast_zmod_val, mul_assoc,
      hr, mul_one, neg_add_cancel]
  case refine_2 =>
    rw [← ZMod.natCast_eq_natCast_iff, Nat.cast_mul, ZMod.natCast_zmod_val, mul_assoc, hr, mul_one]

-- The other signature with the same first number.
theorem neg (hs : Signs C Q e r s R) : Signs C Q e r (C.order - s) (-R) where
  ne_zero  := neg_ne_zero.mpr hs.ne_zero
  eq_x     := by rw [h.x_neg]; exact hs.eq_x
  r_pos    := hs.r_pos
  s_pos    := Nat.sub_pos_of_lt hs.s_lt
  s_lt     := Nat.sub_lt h.prime.pos hs.s_pos
  equation := by rw [h.nsmul_neg hs.s_lt.le]; exact hs.equation

-- The first coordinate of the point is what its remainder and one bit say.
theorem x_eq (hs : Signs C Q e r s R) :
    C.order * (C.x R / C.order) + r = C.x R ∧ C.x R / C.order < 2 := by
  refine ⟨hs.eq_x ▸ Nat.div_add_mod .., (Nat.div_lt_iff_lt_mul h.prime.pos).mpr ?_⟩
  exact (h.x_lt hs.ne_zero).trans_le h.field_le

end Signs

-- What solves the equation is a key that the signature belongs to.
theorem Lawful.signs (h : C.Lawful) {a b : Nat} (hR : R ≠ 0) (hr : r = C.x R % C.order)
    (hr₀ : 0 < r) (hs : 0 < s) (hl : s < C.order) (ha : C.order ∣ a * r + e)
    (hb : b * r ≡ s [MOD C.order]) : Signs C (a • C.generator + b • R) e r s R where
  ne_zero  := hR
  eq_x     := hr
  r_pos    := hr₀
  s_pos    := hs
  s_lt     := hl
  equation :=
    calc s • R = (a * r + e) • C.generator + (b * r) • R := by
          rw [h.nsmul_eq_zero ha, zero_add, h.nsmul_congr hb]
      _ = e • C.generator + r • (a • C.generator + b • R) := by
          rw [nsmul_add, add_nsmul, mul_nsmul, mul_nsmul]
          abel

end Curve

section Nineteen

-- The multiples of the point (5, 1) on the curve y² = x³ + 2x + 2 over the field of 17 elements.
def multiples : List (Nat × Nat) :=
  [(5, 1), (6, 3), (10, 6), (3, 1), (9, 16), (16, 13), (0, 6), (13, 7), (7, 6), (7, 11), (13, 10),
    (0, 11), (16, 4), (9, 1), (3, 16), (10, 11), (6, 14), (5, 16)]

def nineteen : Curve (ZMod 19) where
  generator := 1
  order     := 19
  field     := 17
  x P       := (multiples.getD (P.val - 1) (0, 0)).1
  odd P     := (multiples.getD (P.val - 1) (0, 0)).2 % 2 = 1
  lift a b  := (List.finRange 19).find? fun P => P ≠ 0 ∧
    (multiples.getD (P.val - 1) (0, 0)).1 = a ∧
    decide ((multiples.getD (P.val - 1) (0, 0)).2 % 2 = 1) = b

theorem lawful_nineteen : nineteen.Lawful where
  prime        := by decide
  nsmul_order  := by decide
  generator_ne := by decide
  x_lt {P} h   := by revert P; decide
  x_neg        := by decide
  odd_neg {P}  := by revert P; decide
  lift_self {P} := by revert P; decide
  of_lift {a b P} h := by
    have := List.find?_some h
    simpa [nineteen] using this
  field_le     := by decide

end Nineteen

end Ecdsa
