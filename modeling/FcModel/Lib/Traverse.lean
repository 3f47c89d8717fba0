import Mathlib
import FcModel.Lib.Encoder
import FcModel.Lib.Except

-- Programs that can fail, run for each element of a list or each component of a tuple.

namespace Except

variable {ε α β σ : Type}

-- Computes a tuple component by component.
def pi : {n : Nat} → {T : Fin n → Type} → (∀ i, Except ε (T i)) → Except ε (∀ i, T i)
  | 0, _, _     => return fun i => i.elim0
  | n + 1, T, x => do
    let d  ← x (.first n)
    let ds ← pi (T := fun i => T i.succ) fun i => x i.succ
    return Fin.cons d ds

theorem pi_eq_ok {n : Nat} {T : Fin n → Type} {x : ∀ i, Except ε (T i)} {v : ∀ i, T i}
    (h : ∀ i, x i = .ok (v i)) : pi x = .ok v := by
  induction n
  case zero => exact congrArg Except.ok (funext fun i => i.elim0)
  case succ n hi =>
    rw [pi, h, ok_bind, hi (v := fun i => v i.succ) fun i => h i.succ, ok_bind]
    exact congrArg Except.ok (Fin.cons_self_tail v)

-- The results of a list of successful programs.
theorem mapM_of_forall₂ {f : α → Except ε β} {as : List α} {bs : List β}
    (h : List.Forall₂ (fun a b => f a = .ok b) as bs) : as.mapM f = .ok bs := by
  induction h
  case nil         => rfl
  case cons h _ hi => rw [List.mapM_cons, h, ok_bind, hi, ok_bind]; rfl

theorem exists_mapM {f : α → Except ε β} {R : α → β → Prop} {as : List α}
    (h : ∀ a ∈ as, ∃ b, f a = .ok b ∧ R a b) : ∃ bs, as.mapM f = .ok bs ∧ List.Forall₂ R as bs := by
  induction as
  case nil => exact ⟨[], rfl, .nil⟩
  case cons a as hi =>
    obtain ⟨⟨b, hb, hr⟩, has⟩ := List.forall_mem_cons.mp h
    obtain ⟨bs, hbs, hrs⟩ := hi has
    exact ⟨b :: bs, by rw [List.mapM_cons, hb, ok_bind, hbs, ok_bind]; rfl, .cons hr hrs⟩

-- A loop that keeps an invariant in each of its rounds.
theorem exists_foldlM {f : σ → α → Except ε σ} {P : List α → σ → Prop} {as : List α} {s : σ}
    (hs : P [] s) (h : ∀ done a rest s, as = done ++ a :: rest → P done s →
      ∃ s', f s a = .ok s' ∧ P (done ++ [a]) s') :
    ∃ s', as.foldlM f s = .ok s' ∧ P as s' := by
  suffices hloop : ∀ done rest s, as = done ++ rest → P done s →
      ∃ s', rest.foldlM f s = .ok s' ∧ P as s' from hloop [] as s rfl hs
  intro done rest
  induction rest generalizing done
  case nil =>
    intro s he hd
    rw [List.append_nil] at he
    exact ⟨s, rfl, he ▸ hd⟩
  case cons a rest hi =>
    intro s he hd
    obtain ⟨s', hs', hp⟩ := h done a rest s he hd
    obtain ⟨s'', hs'', hp'⟩ := hi (done ++ [a]) s' (by rw [he, List.append_assoc]; rfl) hp
    exact ⟨s'', by rw [List.foldlM_cons, hs', ok_bind, hs''], hp'⟩

end Except
