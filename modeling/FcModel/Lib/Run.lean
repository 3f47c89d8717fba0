import Mathlib

-- What holds of a run of a program that has a state and can throw, and when one program can take
-- the place of another.

variable {ε σ α β : Type}

instance EStateM.Result.decidableEq [DecidableEq ε] [DecidableEq σ] [DecidableEq α] :
    DecidableEq (EStateM.Result ε σ α)
  | .ok a s, .ok b t       => decidable_of_iff (a = b ∧ s = t) (by simp)
  | .error e s, .error f t => decidable_of_iff (e = f ∧ s = t) (by simp)
  | .ok _ _, .error _ _    => isFalse nofun
  | .error _ _, .ok _ _    => isFalse nofun

-- A run that starts in `s` either returns, and then `Q` holds of what it returns and of the state
-- it ends in, or it throws, and then `E` holds of what it throws.
def Ensures (x : EStateM ε σ α) (s : σ) (Q : α → σ → Prop) (E : ε → Prop) : Prop :=
  match x.run s with
  | .ok a s'   => Q a s'
  | .error e _ => E e

namespace Ensures

variable {x : EStateM ε σ α} {f : α → EStateM ε σ β} {s : σ} {Q : α → σ → Prop} {E : ε → Prop}

theorem pure {a : α} (h : Q a s) : Ensures (Pure.pure a) s Q E :=
  h

theorem throw {e : ε} (h : E e) : Ensures (MonadExcept.throw e : EStateM ε σ α) s Q E :=
  h

theorem bind {R : β → σ → Prop} (h : Ensures x s (fun a s' => Ensures (f a) s' R E) E) :
    Ensures (x >>= f) s R E := by
  unfold Ensures at *
  rw [EStateM.run_bind]
  split at h
  case h_1 hx => simpa only [hx] using h
  case h_2 hx => simpa only [hx] using h

theorem ite {p : Prop} [Decidable p] {y : EStateM ε σ α} (h : p → Ensures x s Q E)
    (h' : ¬p → Ensures y s Q E) :
    Ensures (if p then x else y) s Q E := by
  by_cases hp : p
  case pos => simpa only [if_pos hp] using h hp
  case neg => simpa only [if_neg hp] using h' hp

theorem of_run {a : α} {s' : σ} (hr : x.run s = .ok a s') (h : Q a s') : Ensures x s Q E := by
  unfold Ensures
  rw [hr]
  exact h

theorem ok {a : α} {s' : σ} (h : Ensures x s Q E) (hr : x.run s = .ok a s') : Q a s' := by
  unfold Ensures at h
  rwa [hr] at h

theorem error {e : ε} {s' : σ} (h : Ensures x s Q E) (hr : x.run s = .error e s') : E e := by
  unfold Ensures at h
  rwa [hr] at h

theorem mono {Q' : α → σ → Prop} {E' : ε → Prop} (h : Ensures x s Q E)
    (hQ : ∀ a s', Q a s' → Q' a s')
    (hE : ∀ e, E e → E' e) : Ensures x s Q' E' := by
  unfold Ensures at *
  split at h
  case h_1 => exact hQ _ _ h
  case h_2 => exact hE _ h

theorem imp {Q' : α → σ → Prop} (h : Ensures x s Q E) (hQ : ∀ a s', Q a s' → Q' a s') :
    Ensures x s Q' E :=
  h.mono hQ fun _ => id

-- The run itself.
theorem self (h : Ensures x s Q E) : Ensures x s (fun a s' => x.run s = .ok a s') E := by
  unfold Ensures at *
  split at h
  case h_1 hx => exact hx
  case h_2    => exact h

-- Where it makes no difference how the run ends.
theorem of_forall (hQ : ∀ a s', Q a s') (hE : ∀ e, E e) : Ensures x s Q E := by
  unfold Ensures
  split
  case h_1 => exact hQ _ _
  case h_2 => exact hE _

theorem and {Q' : α → σ → Prop} {E' : ε → Prop} (h : Ensures x s Q E) (h' : Ensures x s Q' E') :
    Ensures x s (fun a s' => Q a s' ∧ Q' a s') E := by
  unfold Ensures at *
  split at h
  case h_1 hx => rw [hx] at h'; exact ⟨h, h'⟩
  case h_2    => exact h

end Ensures

-- Whatever a run returns is in `P`.
def Returns (x : EStateM ε σ α) (P : α → Prop) : Prop :=
  ∀ s a s', x.run s = .ok a s' → P a

namespace Returns

variable {x : EStateM ε σ α} {f : α → EStateM ε σ β} {P : α → Prop}

theorem pure {a : α} (h : P a) : Returns (Pure.pure a : EStateM ε σ α) P := by
  intro s a' s' hr
  cases hr
  exact h

theorem throw {e : ε} : Returns (MonadExcept.throw e : EStateM ε σ α) P :=
  nofun

theorem bind {R : β → Prop} (h : Returns x P) (hf : ∀ a, P a → Returns (f a) R) :
    Returns (x >>= f) R := by
  intro s b s' hr
  rw [EStateM.run_bind] at hr
  split at hr
  case h_1 a s₁ hx => exact hf a (h s a s₁ hx) s₁ b s' hr
  case h_2         => cases hr

-- Where it makes no difference what the first part returns.
theorem seq {R : β → Prop} (hf : ∀ a, Returns (f a) R) : Returns (x >>= f) R :=
  bind (P := fun _ => True) (fun _ _ _ _ => trivial) fun a _ => hf a

theorem ite {p : Prop} [Decidable p] {y : EStateM ε σ α} (h : Returns x P) (h' : Returns y P) :
    Returns (if p then x else y) P := by
  split
  case isTrue   => exact h
  case isFalse  => exact h'

end Returns

-- The runs of `x` end with an error in `bad`, or as those of `y` do.
def Approx (bad : ε → Prop) (x y : EStateM ε σ α) : Prop :=
  ∀ s, (∃ e s', x.run s = .error e s' ∧ bad e) ∨ x.run s = y.run s

namespace Approx

variable {bad : ε → Prop} {x y : EStateM ε σ α} {f g : α → EStateM ε σ β} {s s' : σ} {a : α}

theorem refl (x : EStateM ε σ α) : Approx bad x x :=
  fun _ => .inr rfl

theorem throw {e : ε} (h : bad e) (y : EStateM ε σ α) : Approx bad (MonadExcept.throw e) y :=
  fun s => .inl ⟨e, s, rfl, h⟩

theorem bind (h : Approx bad x y) (hf : ∀ a, Approx bad (f a) (g a)) :
    Approx bad (x >>= f) (y >>= g) := by
  intro s
  simp only [EStateM.run_bind]
  rcases h s with ⟨e, s', hx, he⟩ | hxy
  case inl => exact .inl ⟨e, s', by rw [hx], he⟩
  case inr =>
    rw [← hxy]
    cases x.run s
    case ok a s'  => exact hf a s'
    case error    => exact .inr rfl

theorem ite {p : Prop} [Decidable p] {y' x' : EStateM ε σ α} (h : p → Approx bad x y)
    (h' : ¬p → Approx bad x' y') : Approx bad (if p then x else x') (if p then y else y') := by
  by_cases hp : p
  case pos => simpa only [if_pos hp] using h hp
  case neg => simpa only [if_neg hp] using h' hp

theorem ok (h : Approx bad x y) (hx : x.run s = .ok a s') : y.run s = .ok a s' := by
  rcases h s with ⟨e, s'', he, _⟩ | hxy
  case inl => rw [hx] at he; cases he
  case inr => rw [← hxy, hx]

-- What ends with none of these errors ends in the same way.
theorem eq (h : Approx bad x y) (hx : ∀ e s', x.run s = .error e s' → ¬bad e) :
    x.run s = y.run s := by
  rcases h s with ⟨e, s', he, hb⟩ | hxy
  case inl => exact absurd hb (hx e s' he)
  case inr => exact hxy

end Approx

-- Where the run of `x` from `s` returns, that of `y` from `t` returns the same in a state that `Q`
-- relates, or it ends with an error in `bad`.
def Mimics (bad : ε → Prop) (x y : EStateM ε σ α) (s t : σ) (Q : σ → σ → Prop) : Prop :=
  ∀ a s', x.run s = .ok a s' → (∃ t', y.run t = .ok a t' ∧ Q s' t') ∨ ∃ e t', y.run t = .error e t' ∧ bad e

namespace Mimics

variable {bad : ε → Prop} {x y : EStateM ε σ α} {f g : α → EStateM ε σ β} {s t : σ}
    {Q : σ → σ → Prop}

theorem pure {a : α} (h : Q s t) : Mimics bad (Pure.pure a) (Pure.pure a) s t Q := by
  intro a' s' hx
  cases hx
  exact .inl ⟨t, rfl, h⟩

theorem of_run {a : α} {s' t' : σ} (hx : x.run s = .ok a s') (hy : y.run t = .ok a t')
    (h : Q s' t') :
    Mimics bad x y s t Q := by
  intro a' s'' hr
  rw [hx] at hr
  cases hr
  exact .inl ⟨t', hy, h⟩

theorem of_not_ok (h : ∀ a s', x.run s ≠ .ok a s') : Mimics bad x y s t Q :=
  fun a s' hx => absurd hx (h a s')

theorem throw {e : ε} : Mimics bad (MonadExcept.throw e) y s t Q :=
  of_not_ok nofun

theorem of_bad {e : ε} {t' : σ} (hy : y.run t = .error e t') (he : bad e) : Mimics bad x y s t Q :=
  fun _ _ _ => .inr ⟨e, t', hy, he⟩

-- Steps of either side that only change its state.
theorem congr {x' y' : EStateM ε σ α} {s' t' : σ} (h : Mimics bad x' y' s' t' Q)
    (hx : x.run s = x'.run s')
    (hy : y.run t = y'.run t') : Mimics bad x y s t Q := by
  intro a s'' hr
  rw [hy]
  exact h a s'' (hx ▸ hr)

theorem imp {R : σ → σ → Prop} (h : Mimics bad x y s t Q) (hQ : ∀ s t, Q s t → R s t) :
    Mimics bad x y s t R := by
  intro a s' hx
  rcases h a s' hx with ⟨t', hy, hq⟩ | hbad
  case inl => exact .inl ⟨t', hy, hQ s' t' hq⟩
  case inr => exact .inr hbad

theorem bind {R : σ → σ → Prop} (h : Mimics bad x y s t Q)
    (hf : ∀ a s' t', Q s' t' → Mimics bad (f a) (g a) s' t' R) :
    Mimics bad (x >>= f) (y >>= g) s t R := by
  intro b s'' hr
  rw [EStateM.run_bind] at hr ⊢
  cases hx : x.run s
  case error => rw [hx] at hr; cases hr
  case ok a s' =>
    rw [hx] at hr
    rcases h a s' hx with ⟨t', hy, hq⟩ | ⟨e, t', hy, he⟩
    case inl => rw [hy]; exact hf a s' t' hq b s'' hr
    case inr => rw [hy]; exact .inr ⟨e, t', rfl, he⟩

theorem ite {p : Prop} [Decidable p] {x' y' : EStateM ε σ α} (h : p → Mimics bad x y s t Q)
    (h' : ¬p → Mimics bad x' y' s t Q) :
    Mimics bad (if p then x else x') (if p then y else y') s t Q := by
  by_cases hp : p
  case pos => simpa only [if_pos hp] using h hp
  case neg => simpa only [if_neg hp] using h' hp

-- It is enough to look at programs that take the place of the two.
theorem of_approx {x' y' : EStateM ε σ α} (hx : Approx bad x x') (hy : Approx bad y y')
    (h : Mimics bad x' y' s t Q) : Mimics bad x y s t Q := by
  intro a s' hr
  rcases hy t with hbad | heq
  case inl => exact .inr hbad
  case inr => rw [heq]; exact h a s' (hx.ok hr)

end Mimics

-- Two computations both return, and then what they return is related, or they throw the same.
def Agree (R : α → β → Prop) : Except ε α → Except ε β → Prop
  | .ok a, .ok b       => R a b
  | .error e, .error f => e = f
  | _, _               => False

namespace Agree

variable {α' β' : Type} {R : α → β → Prop} {S : α' → β' → Prop} {x : Except ε α} {y : Except ε β}

theorem pure {a : α} {b : β} (h : R a b) : Agree R (Pure.pure a : Except ε α) (Pure.pure b) :=
  h

theorem throw (e : ε) : Agree R (MonadExcept.throw e : Except ε α) (MonadExcept.throw e) :=
  rfl

theorem bind {f : α → Except ε α'} {g : β → Except ε β'} (h : Agree R x y)
    (hf : ∀ a b, R a b → Agree S (f a) (g b)) :
    Agree S (x >>= f) (y >>= g) := by
  match x, y, h with
  | .ok a, .ok b, h       => exact hf a b h
  | .error _, .error _, h => exact h

theorem ite {p q : Prop} [Decidable p] [Decidable q] {x' : Except ε α} {y' : Except ε β}
    (hpq : p ↔ q) (h : Agree R x y)
    (h' : p → Agree R x' y') : Agree R (if p then x' else x) (if q then y' else y) := by
  by_cases hp : p
  case pos => rw [if_pos hp, if_pos (hpq.mp hp)]; exact h' hp
  case neg => rw [if_neg hp, if_neg (hp ∘ hpq.mpr)]; exact h

end Agree

-- If something is returned, it is in `P`.
def Gives (P : α → Prop) : Except ε α → Prop
  | .ok a    => P a
  | .error _ => True

namespace Gives

variable {P : α → Prop} {Q : β → Prop} {x : Except ε α} {f : α → Except ε β}

theorem pure {a : α} (h : P a) : Gives P (Pure.pure a : Except ε α) :=
  h

theorem bind (h : Gives P x) (hf : ∀ a, P a → Gives Q (f a)) : Gives Q (x >>= f) := by
  cases x
  case ok a  => exact hf a h
  case error => exact trivial

theorem imp {P' : α → Prop} (h : Gives P x) (hP : ∀ a, P a → P' a) : Gives P' x := by
  cases x
  case ok a  => exact hP a h
  case error => exact trivial

-- Where it makes no difference what the first part returns.
theorem seq (hf : ∀ a, Gives Q (f a)) : Gives Q (x >>= f) :=
  bind (P := fun _ => True) (by cases x <;> exact trivial) fun a _ => hf a

theorem ite {p : Prop} [Decidable p] {y : Except ε α} (h : Gives P x) (h' : Gives P y) :
    Gives P (if p then x else y) := by
  split
  case isTrue   => exact h
  case isFalse  => exact h'

end Gives
