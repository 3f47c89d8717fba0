import FcModel.Uint128.Arithmetic

-- The division of `uint128`: the loop over the bits, and the operators `/` and `%`.

namespace Uint128

-- The ways in which a division does not return. The last one is what a loop of this model runs into
-- when it was given too little of it.
inductive Halt
  | assert
  | domainError
  | overflowError
  | fuel
deriving DecidableEq, Repr

abbrev Division (ν : Type) := EStateM Halt (ν → Uint128)

def Division.lift {ν α : Type} (x : Action ν α) : Division ν α := fun s =>
  match x.run s with
  | .ok a s'   => .ok a s'
  | .error _ s' => .error .assert s'

-- A local variable is changed by its own function only. An assignment to it gives it the value of
-- the operator of two operands.
def assigned (op : Assignment) (l r : Uint128) : Except Halt Uint128 :=
  match binary op l r with
  | .ok w    => .ok w
  | .error _ => .error .assert

namespace divide

structure Locals where
  n      : Uint128
  d      : Uint128
  x      : Uint128
  answer : Uint128
deriving DecidableEq, Repr

def shiftUp : Nat → Locals → Except Halt Locals
  | 0, _        => throw .fuel
  | fuel + 1, v => do
    let top ← assigned (fun _ => shrAssign) v.d (ofInt64 127)
    let top ← assigned (fun _ => andAssign) top (ofInt64 1)
    if v.n.ge v.d && top.eq (ofInt64 0) then
      let x ← assigned (fun _ => shlAssign) v.x (ofInt64 1)
      let d ← assigned (fun _ => shlAssign) v.d (ofInt64 1)
      shiftUp fuel { v with x, d }
    else
      return v

def subtract (v : Locals) : Except Halt Locals := do
  if v.n.ge v.d then
    let n      ← assigned (fun _ => subAssign) v.n v.d
    let answer ← assigned (fun _ => orAssign) v.answer v.x
    return { v with n, answer }
  else
    return v

def shiftDown : Nat → Locals → Except Halt Locals
  | 0, _        => throw .fuel
  | fuel + 1, v => do
    if v.x.eq (ofInt64 0) then
      return v
    else
      let v ← subtract v
      let x ← assigned (fun _ => shrAssign) v.x (ofInt64 1)
      let d ← assigned (fun _ => shrAssign) v.d (ofInt64 1)
      shiftDown fuel { v with x, d }

end divide

section Objects

variable {ν : Type} [DecidableEq ν]

-- The assignment of one object to another.
def setObject (this : ν) (w : Uint128) : Division ν Unit :=
  modify fun s => Function.update s this w

-- Each loop makes at most one round for each bit, and looks at its condition once more.
def divide (numerator denominator : Operand ν) (quotient remainder : ν) : Division ν Unit := do
  if (← .lift (load denominator)).eq (ofInt64 0) then
    throw .domainError
  else
    let n ← .lift (load numerator)
    let d ← .lift (load denominator)
    let v : divide.Locals := { n, d, x := ofInt64 1, answer := ofInt64 0 }
    match divide.shiftUp 129 v >>= divide.shiftDown 129 with
    | .error e => throw e
    | .ok v    =>
      setObject quotient v.answer
      setObject remainder v.n

-- Runs a function that has an object of its own, which is zero at first.
def withLocal {α : Type} (x : Division (Option ν) α) : Division ν α := fun s =>
  match x.run fun o => o.elim ⟨0, 0⟩ s with
  | .ok a s'    => .ok a fun y => s' (some y)
  | .error e s' => .error e fun y => s' (some y)

def Operand.outer : Operand ν → Operand (Option ν)
  | .object x => .object (some x)
  | .value v  => .value v

def modAssign (this : ν) (b : Operand ν) : Division ν Unit :=
  withLocal (divide (.object (some this)) b.outer none (some this))

-- The integers of 128 bits of `boost::multiprecision`, whose division is exact.
structure Multiprecision where
  divAssign : BitVec 128 → BitVec 128 → Except Unit (BitVec 128)
  exact     : ∀ a b, b ≠ 0 → divAssign a b = .ok (a / b)
  zero      : ∀ a, divAssign a 0 = .error ()

def m128 (w : UInt64) : BitVec 128 :=
  w.toBitVec.setWidth 128

def divAssign (boost : Multiprecision) (this : ν) (b : Operand ν) : Division ν Unit := do
  let self  := (m128 (← .lift (load (.object this))).hi <<< 64) + m128 (← .lift (load (.object this))).lo
  let other := (m128 (← .lift (load b)).hi <<< 64) + m128 (← .lift (load b)).lo
  match boost.divAssign self other with
  | .error _ => throw .overflowError
  | .ok self =>
    .lift (setHi this (.ofBitVec ((self >>> 64).setWidth 64)))
    .lift (setLo this (.ofBitVec (((self <<< 64) >>> 64).setWidth 64)))

end Objects

-- The operators of two operands copy the first one and assign to the copy.

def divided (op : Operand Unit → Division Unit Unit) (l r : Uint128) : Except Halt Uint128 :=
  match (op (.value r)).run fun _ => l with
  | .ok _ s    => .ok (s ())
  | .error e _ => .error e

def div (boost : Multiprecision) (l r : Uint128) : Except Halt Uint128 :=
  divided (divAssign boost ()) l r

def mod (l r : Uint128) : Except Halt Uint128 :=
  divided (modAssign ()) l r

section Values

variable {a b : Uint128}

theorem assigned_of_computes {op : Assignment} {f : Nat → Nat → Nat} (h : Computes op f)
    (a b : Uint128) :
    ∃ w, assigned op a b = .ok w ∧ w.val = f a.val b.val := by
  obtain ⟨w, hw, hval⟩ := h.2 a b
  exact ⟨w, by rw [assigned, hw], hval⟩

theorem val_ofInt64_0 : (ofInt64 0).val = 0 := by
  decide

theorem val_ofInt64_1 : (ofInt64 1).val = 1 := by
  decide

theorem val_ofInt64_127 : (ofInt64 127).val = 127 := by
  decide

theorem eq_zero_iff : a.eq (ofInt64 0) = true ↔ a.val = 0 := by
  rw [eq_iff, val_ofInt64_0]

theorem assigned_shl_one (h : a.val < 2 ^ 127) :
    ∃ w, assigned (fun _ => shlAssign) a (ofInt64 1) = .ok w ∧ w.val = a.val * 2 := by
  obtain ⟨w, hw, hval⟩ := assigned_of_computes computes_shl a (ofInt64 1)
  refine ⟨w, hw, ?_⟩
  rw [hval, val_ofInt64_1, if_pos (by decide)]
  omega

theorem assigned_shr_one (a : Uint128) :
    ∃ w, assigned (fun _ => shrAssign) a (ofInt64 1) = .ok w ∧ w.val = a.val / 2 := by
  obtain ⟨w, hw, hval⟩ := assigned_of_computes computes_shr a (ofInt64 1)
  refine ⟨w, hw, ?_⟩
  rw [hval, val_ofInt64_1, if_pos (by decide), Nat.pow_one]

theorem assigned_sub (h : b.val ≤ a.val) :
    ∃ w, assigned (fun _ => subAssign) a b = .ok w ∧ w.val = a.val - b.val := by
  obtain ⟨w, hw, hval⟩ := assigned_of_computes computes_sub a b
  have := a.val_lt
  exact ⟨w, hw, by rw [hval]; omega⟩

-- The test of the highest bit.
theorem assigned_top (a : Uint128) :
    ∃ t u, assigned (fun _ => shrAssign) a (ofInt64 127) = .ok t ∧
      assigned (fun _ => andAssign) t (ofInt64 1) = .ok u ∧
      (u.eq (ofInt64 0) = true ↔ a.val < 2 ^ 127) := by
  obtain ⟨t, ht, hval⟩ := assigned_of_computes computes_shr a (ofInt64 127)
  obtain ⟨u, hu, hval'⟩ := assigned_of_computes computes_and t (ofInt64 1)
  refine ⟨t, u, ht, hu, ?_⟩
  have := a.val_lt
  rw [val_ofInt64_127, if_pos (by decide)] at hval
  rw [eq_zero_iff, hval', val_ofInt64_1, Nat.and_one_is_mod, hval]
  omega

end Values

namespace divide

variable {n₀ d₀ k fuel : Nat} {v : Locals}

-- In the first loop: the divisor was doubled `k` times, and `x` with it.
structure Raised (n₀ d₀ k : Nat) (v : Locals) : Prop where
  n      : v.n.val = n₀
  d      : v.d.val = d₀ * 2 ^ k
  x      : v.x.val = 2 ^ k
  answer : v.answer.val = 0

-- In the second loop, where the rounds for the bits from `k` down are to come: what is left of the
-- numerator is less than twice the divisor, and the bits of the answer are those above.
structure Lowered (n₀ d₀ k : Nat) (v : Locals) : Prop where
  total  : n₀ = v.answer.val * d₀ + v.n.val
  n      : v.n.val < 2 * (d₀ * 2 ^ k)
  d      : v.d.val = d₀ * 2 ^ k
  x      : v.x.val = 2 ^ k
  answer : 2 ^ (k + 1) ∣ v.answer.val

-- The first loop ends with a divisor that is greater than the numerator or has its highest bit set.
-- Then twice the divisor does not fit, but it is greater than the numerator.
theorem shiftUp_spec (hd : 0 < d₀) (h : Raised n₀ d₀ k v) (hf : 128 ≤ fuel + k) (hk : k ≤ 127) :
    ∃ k' v', shiftUp fuel v = .ok v' ∧ k' ≤ 127 ∧ Raised n₀ d₀ k' v' ∧ n₀ < 2 * (d₀ * 2 ^ k') := by
  have hn := v.n.val_lt
  rw [h.n] at hn
  induction fuel generalizing k v
  case zero => omega
  case succ fuel hi =>
    obtain ⟨t, u, ht, hu, htop⟩ := assigned_top v.d
    simp only [shiftUp, ht, hu, bind, Except.bind]
    split
    case isFalse hc =>
      refine ⟨k, v, rfl, hk, h, ?_⟩
      rw [Bool.and_eq_true, ge_iff, htop, h.n, h.d] at hc
      omega
    case isTrue hc =>
      rw [Bool.and_eq_true, ge_iff, htop, h.d] at hc
      have hpow : 2 ^ k ≤ d₀ * 2 ^ k := Nat.le_mul_of_pos_left _ hd
      have hlt : k < 127 := (Nat.pow_lt_pow_iff_right (by decide)).mp (Nat.lt_of_le_of_lt hpow hc.2)
      obtain ⟨x, hx, hxv⟩ := @assigned_shl_one v.x (by rw [h.x]; omega)
      obtain ⟨d, hd', hdv⟩ := @assigned_shl_one v.d (by rw [h.d]; exact hc.2)
      simp only [hx, hd']
      refine hi (k := k + 1) ⟨h.n, ?_, ?_, h.answer⟩ (by omega) (by omega)
      case refine_1 => rw [hdv, h.d, Nat.pow_succ, Nat.mul_assoc]
      case refine_2 => rw [hxv, h.x, Nat.pow_succ]

theorem Raised.lowered (h : Raised n₀ d₀ k v) (hn : n₀ < 2 * (d₀ * 2 ^ k)) : Lowered n₀ d₀ k v where
  total  := by rw [h.answer, h.n, Nat.zero_mul, Nat.zero_add]
  n      := by rwa [h.n]
  d      := h.d
  x      := h.x
  answer := by rw [h.answer]; exact Nat.dvd_zero _

-- A bit below those that are set is added to them.
theorem or_two_pow {m : Nat} (h : 2 ^ (k + 1) ∣ m) : m ||| 2 ^ k = m + 2 ^ k := by
  obtain ⟨c, rfl⟩ := h
  rw [Nat.mul_comm, ← Nat.shiftLeft_eq,
    Nat.shiftLeft_add_eq_or_of_lt (Nat.pow_lt_pow_succ (by decide))]

-- One round brings what is left of the numerator below the divisor.
theorem subtract_spec (h : Lowered n₀ d₀ k v) :
    ∃ w, subtract v = .ok w ∧ n₀ = w.answer.val * d₀ + w.n.val ∧ w.n.val < d₀ * 2 ^ k ∧
      w.d = v.d ∧ w.x = v.x ∧ 2 ^ k ∣ w.answer.val := by
  have hdvd : 2 ^ k ∣ v.answer.val := Nat.dvd_trans (Nat.pow_dvd_pow 2 (Nat.le_succ k)) h.answer
  by_cases hge : v.d.val ≤ v.n.val
  case neg =>
    refine ⟨v, ?_, h.total, ?_, rfl, rfl, hdvd⟩
    case refine_1 => rw [subtract, if_neg (mt (ge_iff _ _).mp hge)]; rfl
    case refine_2 => rw [← h.d]; omega
  case pos =>
    obtain ⟨n, hn, hnv⟩ := assigned_sub hge
    obtain ⟨a, ha, hav⟩ := assigned_of_computes computes_or v.answer v.x
    rw [h.x, or_two_pow h.answer] at hav
    have hd := h.d
    have htotal := h.total
    have hlt := h.n
    refine ⟨{ v with n, answer := a }, ?_, ?_, ?_, rfl, rfl, ?_⟩
    case refine_1 => rw [subtract, if_pos ((ge_iff _ _).mpr hge), hn, ha]; rfl
    case refine_2 =>
      simp only [hav, hnv, Nat.add_mul, Nat.mul_comm (2 ^ k) d₀]
      omega
    case refine_3 => simp only [hnv]; omega
    case refine_4 => simp only [hav]; exact Nat.dvd_add hdvd (Nat.dvd_refl _)

theorem shiftDown_spec (h : Lowered n₀ d₀ k v) (hf : k + 2 ≤ fuel) :
    ∃ w, shiftDown fuel v = .ok w ∧ n₀ = w.answer.val * d₀ + w.n.val ∧ w.n.val < d₀ := by
  induction fuel generalizing k v
  case zero => omega
  case succ fuel hi =>
    have hx : ¬v.x.eq (ofInt64 0) := by
      rw [eq_zero_iff, h.x]
      exact Nat.ne_of_gt (Nat.two_pow_pos k)
    obtain ⟨w, hw, htotal, hn, hwd, hwx, hdvd⟩ := subtract_spec h
    obtain ⟨x, hx', hxv⟩ := assigned_shr_one w.x
    obtain ⟨d, hd', hdv⟩ := assigned_shr_one w.d
    simp only [shiftDown, hx, hw, hx', hd', bind, Except.bind]
    rw [hwx, h.x] at hxv
    rw [hwd, h.d] at hdv
    cases k
    case zero =>
      -- The lowest bit was the last one.
      obtain ⟨fuel, rfl⟩ := Nat.exists_eq_add_of_le' (show 1 ≤ fuel by omega)
      have hx0 : x.eq (ofInt64 0) = true := eq_zero_iff.mpr hxv
      refine ⟨{ w with x, d }, ?_, htotal, by simpa using hn⟩
      simp only [shiftDown, hx0]
      rfl
    case succ k =>
      refine hi (k := k) ⟨htotal, ?_, ?_, ?_, hdvd⟩ (by omega)
      case refine_1 => rw [Nat.pow_succ, ← Nat.mul_assoc] at hn; simp only; omega
      case refine_2 => rw [hdv, Nat.pow_succ, ← Nat.mul_assoc, Nat.mul_div_cancel _ (by decide)]
      case refine_3 => rw [hxv, Nat.pow_succ, Nat.mul_div_cancel _ (by decide)]

theorem loops_spec {n d : Uint128} (hd : d.val ≠ 0) :
    ∃ v, (shiftUp 129 { n, d, x := ofInt64 1, answer := ofInt64 0 } >>= shiftDown 129) = .ok v ∧
      n.val = v.answer.val * d.val + v.n.val ∧ v.n.val < d.val := by
  have hraised : Raised n.val d.val 0 { n, d, x := ofInt64 1, answer := ofInt64 0 } :=
    ⟨rfl, by simp, by rw [val_ofInt64_1, Nat.pow_zero], val_ofInt64_0⟩
  obtain ⟨k, v, hv, hk, h, hn⟩ := @shiftUp_spec _ _ _ 129 _ (Nat.pos_of_ne_zero hd) hraised (by omega) (by omega)
  obtain ⟨w, hw, hspec⟩ := @shiftDown_spec _ _ _ 129 _ (h.lowered hn) (by omega)
  exact ⟨w, by rw [hv]; exact hw, hspec⟩

end divide

-- `p` and `m` are the quotient and the remainder of `n` and `d`.
structure Euclidean (n d p m : Uint128) : Prop where
  total : n.val = p.val * d.val + m.val
  lt    : m.val < d.val

section Runs

variable {ν : Type} [DecidableEq ν] {this quotient remainder : ν} {n d u : Operand ν}
    {s : ν → Uint128}

omit [DecidableEq ν] in
@[simp]
theorem lift_load_run : (Division.lift (load u)).run s = .ok (u.read s) s := by
  rfl

@[simp]
theorem setObject_run (w : Uint128) :
    (setObject this w).run s = .ok () (Function.update s this w) := by
  rfl

@[simp]
theorem lift_setHi_run (hi : UInt64) :
    (Division.lift (setHi this hi)).run s = .ok () (Function.update s this ⟨hi, (s this).lo⟩) := by
  rfl

@[simp]
theorem lift_setLo_run (lo : UInt64) :
    (Division.lift (setLo this lo)).run s = .ok () (Function.update s this ⟨(s this).hi, lo⟩) := by
  rfl

omit [DecidableEq ν] in
theorem lift_load_bind {α : Type} {f : Uint128 → Division ν α} :
    (Division.lift (load u) >>= f).run s = (f (u.read s)).run s :=
  rfl

theorem setObject_bind {w : Uint128} {x : Division ν Unit} :
    (setObject this w >>= fun _ => x).run s = x.run (Function.update s this w) :=
  rfl

-- The outputs are assigned when both inputs have been read, whichever objects they are.
theorem divide_run (hd : (d.read s).val ≠ 0) :
    ∃ p m, (divide n d quotient remainder).run s =
        .ok () (Function.update (Function.update s quotient p) remainder m) ∧
      Euclidean (n.read s) (d.read s) p m := by
  obtain ⟨v, hv, htotal, hlt⟩ := @divide.loops_spec (n.read s) _ hd
  refine ⟨v.answer, v.n, ?_, htotal, hlt⟩
  refine lift_load_bind.trans ?_
  rw [if_neg (mt eq_zero_iff.mp hd)]
  refine lift_load_bind.trans (lift_load_bind.trans ?_)
  simp only [hv]
  exact setObject_bind.trans (setObject_run _)

theorem divide_run_zero (hd : (d.read s).val = 0) :
    (divide n d quotient remainder).run s = .error .domainError s := by
  refine lift_load_bind.trans ?_
  rw [if_pos (eq_zero_iff.mpr hd)]
  rfl

omit [DecidableEq ν] in
theorem read_outer (o : Uint128) (u : Operand ν) :
    u.outer.read (fun x => x.elim o s) = u.read s := by
  cases u <;> rfl

theorem modAssign_run (hd : (u.read s).val ≠ 0) :
    ∃ p m, (modAssign this u).run s = .ok () (Function.update s this m) ∧
    Euclidean (s this) (u.read s) p m := by
  obtain ⟨p, m, hrun, hspec⟩ := @divide_run _ _ none (some this) (.object (some this)) u.outer
    (fun x => x.elim ⟨0, 0⟩ s) (by rwa [read_outer])
  rw [read_outer] at hspec
  refine ⟨p, m, ?_, hspec⟩
  have hout : (fun y => Function.update (Function.update (fun x => x.elim ⟨0, 0⟩ s) none p) (some this) m (some y)) =
      Function.update s this m := by
    funext y
    by_cases hy : y = this
    case pos => subst hy; simp
    case neg => simp [hy]
  simp only [modAssign, withLocal, EStateM.run] at hrun ⊢
  rw [hrun, ← hout]

theorem modAssign_run_zero (hd : (u.read s).val = 0) :
    (modAssign this u).run s = .error .domainError s := by
  have hrun := @divide_run_zero _ _ none (some this) (.object (some this)) u.outer
    (fun x => x.elim ⟨0, 0⟩ s) (by rwa [read_outer])
  simp only [modAssign, withLocal, EStateM.run] at hrun ⊢
  rw [hrun]
  rfl

-- The two halves, as `boost` holds them.
theorem m128_bits (a : Uint128) : (m128 a.hi <<< 64) + m128 a.lo = a.bits := by
  refine BitVec.eq_of_toNat_eq ?_
  have := a.hi.toNat_lt
  have := a.lo.toNat_lt
  have hhi : a.hi.toBitVec.toNat = a.hi.toNat := rfl
  have hlo : a.lo.toBitVec.toNat = a.lo.toNat := rfl
  simp only [m128, BitVec.toNat_add, BitVec.toNat_shiftLeft, BitVec.toNat_setWidth, toNat_bits, val,
    Nat.shiftLeft_eq,
    hhi, hlo]
  omega

theorem ofBits_halves (v : BitVec 128) :
    (⟨.ofBitVec ((v >>> 64).setWidth 64), .ofBitVec (((v <<< 64) >>> 64).setWidth 64)⟩ : Uint128) = ofBits v := by
  refine eq_ofBits_of_val ?_
  have := v.isLt
  have hval : ∀ w : BitVec 64, (UInt64.ofBitVec w).toNat = w.toNat := fun _ => rfl
  simp only [val, hval, BitVec.toNat_setWidth, BitVec.toNat_ushiftRight, BitVec.toNat_shiftLeft,
    Nat.shiftLeft_eq,
    Nat.shiftRight_eq_div_pow]
  omega

theorem divAssign_run (boost : Multiprecision) (hd : (u.read s).val ≠ 0) :
    (divAssign boost this u).run s =
      .ok () (Function.update s this (ofBits ((s this).bits / (u.read s).bits))) := by
  have hne : (u.read s).bits ≠ 0 := by
    intro h
    rw [← toNat_bits, h] at hd
    exact hd rfl
  rw [← ofBits_halves]
  simp only [divAssign, EStateM.run_bind, lift_load_run, read_object, m128_bits,
    boost.exact _ _ hne, lift_setHi_run,
    lift_setLo_run, Function.update_self, Function.update_idem]

theorem divAssign_run_zero (boost : Multiprecision) (hd : (u.read s).val = 0) :
    (divAssign boost this u).run s = .error .overflowError s := by
  have hz : (u.read s).bits = 0 := BitVec.eq_of_toNat_eq (by rw [toNat_bits, hd]; rfl)
  simp only [divAssign, EStateM.run_bind, lift_load_run, m128_bits, hz, boost.zero]
  rfl

-- There is one quotient and one remainder.
theorem Euclidean.div_eq {n d p m : Uint128} (h : Euclidean n d p m) :
    p = ofBits (n.bits / d.bits) := by
  refine eq_ofBits_of_val ?_
  have hlt := h.lt
  rw [BitVec.toNat_udiv, toNat_bits, toNat_bits, h.total, Nat.add_comm,
    Nat.add_mul_div_right _ _ (by omega),
    Nat.div_eq_of_lt hlt, Nat.zero_add]

theorem operators_spec (boost : Multiprecision) {a b : Uint128} (hd : b.val ≠ 0) :
    ∃ p m, div boost a b = .ok p ∧ mod a b = .ok m ∧ Euclidean a b p m := by
  obtain ⟨p, m, hrun, hspec⟩ := @modAssign_run Unit _ () (.value b) (fun _ => a) hd
  have hdiv := @divAssign_run Unit _ () (.value b) (fun _ => a) boost hd
  refine ⟨p, m, ?_, ?_, hspec⟩
  case refine_1 => rw [div, divided, hdiv, hspec.div_eq]; simp
  case refine_2 => rw [mod, divided, hrun]; simp

end Runs

-- The loop and the two operators agree on what division is, and all of them throw for a divisor of
-- zero.
theorem division_exact (boost : Multiprecision) :
    (∀ (ν : Type) [DecidableEq ν] (s : ν → Uint128) (n d : Operand ν) (quotient remainder : ν),
      if (d.read s).val = 0 then
        (divide n d quotient remainder).run s = .error .domainError s
      else
        ∃ s', (divide n d quotient remainder).run s = .ok () s' ∧
          (quotient ≠ remainder → Euclidean (n.read s) (d.read s) (s' quotient) (s' remainder)) ∧
          ∀ x, x ≠ quotient → x ≠ remainder → s' x = s x) ∧
    (∀ (ν : Type) [DecidableEq ν] (s : ν → Uint128) (this : ν) (b : Operand ν),
      if (b.read s).val = 0 then
        (divAssign boost this b).run s = .error .overflowError s ∧
        (modAssign this b).run s = .error .domainError s
      else
        ∃ p m, (divAssign boost this b).run s = .ok () (Function.update s this p) ∧
          (modAssign this b).run s = .ok () (Function.update s this m) ∧
          Euclidean (s this) (b.read s) p m) ∧
    ∀ a b : Uint128,
      if b.val = 0 then
        div boost a b = .error .overflowError ∧ mod a b = .error .domainError
      else
        ∃ p m, div boost a b = .ok p ∧ mod a b = .ok m ∧ Euclidean a b p m := by
  refine ⟨fun ν _ s n d quotient remainder => ?_, fun ν _ s this b => ?_, fun a b => ?_⟩
  case refine_1 =>
    split
    case isTrue hd  => exact divide_run_zero hd
    case isFalse hd =>
      obtain ⟨p, m, hrun, hspec⟩ := divide_run hd
      refine ⟨_, hrun, fun hne => ?_, fun x hq hr => ?_⟩
      case refine_1 => rwa [Function.update_of_ne hne, Function.update_self, Function.update_self]
      case refine_2 => rw [Function.update_of_ne hr, Function.update_of_ne hq]
  case refine_2 =>
    split
    case isTrue hd  => exact ⟨divAssign_run_zero boost hd, modAssign_run_zero hd⟩
    case isFalse hd =>
      obtain ⟨p, m, hrun, hspec⟩ := @modAssign_run ν _ this b s hd
      exact ⟨p, m, hspec.div_eq ▸ divAssign_run boost hd, hrun, hspec⟩
  case refine_3 =>
    split
    case isTrue hd =>
      have hdiv := @divAssign_run_zero Unit _ () (.value b) (fun _ => a) boost hd
      have hmod := @modAssign_run_zero Unit _ () (.value b) (fun _ => a) hd
      exact ⟨by rw [div, divided, hdiv], by rw [mod, divided, hmod]⟩
    case isFalse hd => exact operators_spec boost hd

def Multiprecision.bitVec : Multiprecision where
  divAssign a b := if b = 0 then .error () else .ok (a / b)
  exact _ _ h   := if_neg h
  zero _        := if_pos rfl

-- The quotient that has all its bits set.
theorem division_exact_max : ∃ p m, div .bitVec ⟨-1, -1⟩ ⟨0, 1⟩ = .ok p ∧
    mod ⟨-1, -1⟩ ⟨0, 1⟩ = .ok m ∧
    Euclidean ⟨-1, -1⟩ ⟨0, 1⟩ p m := by
  have h := (division_exact .bitVec).2.2 ⟨-1, -1⟩ ⟨0, 1⟩
  rwa [if_neg (by decide)] at h

end Uint128
