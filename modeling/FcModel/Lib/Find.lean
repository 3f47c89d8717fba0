import Mathlib.Data.List.Basic

-- Where an element is first found in a list.

namespace List

variable {α : Type} [DecidableEq α] {c : α} {s t : List α}

theorem findIdx?_of_not_mem (h : c ∉ s) : s.findIdx? (· = c) = none := by
  rw [findIdx?_eq_none_iff]
  intro b hb
  have hne : b ≠ c := fun he => h (he ▸ hb)
  simpa using hne

theorem findIdx?_append_cons (h : c ∉ s) : (s ++ c :: t).findIdx? (· = c) = some s.length := by
  rw [findIdx?_append, findIdx?_of_not_mem h, findIdx?_cons]
  simp

end List
