import Mathlib.Tactic.Common

-- Programs that can fail, one after the other.

namespace Except

variable {ε α β : Type} {x : Except ε α} {f : α → Except ε β} {b : β}

theorem ok_bind (a : α) (f : α → Except ε β) : (Except.ok a >>= f) = f a := rfl

theorem bind_eq_ok (h : (x >>= f) = .ok b) : ∃ a, x = .ok a ∧ f a = .ok b := by
  cases x
  case error e => cases h
  case ok a    => exact ⟨a, rfl, h⟩

end Except
