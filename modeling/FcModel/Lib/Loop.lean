import Mathlib

-- A loop over a state that has parts: each round changes the parts it owns, from what they were.

namespace Loop

variable {σ κ ι α : Type} [DecidableEq ι] {get : σ → κ → α} {step : σ → ι → σ} {owner : κ → ι}
    {f : ι → κ → σ → α}

-- A part has, after the loop, what the round that owns it makes of the first state.
theorem get_foldl (hstep : ∀ s i k, get (step s i) k = if owner k = i then f i k s else get s k)
    (hlocal : ∀ s s' i k, owner k = i → (∀ k', owner k' = i → get s k' = get s' k') → f i k s = f i k s')
    {is : List ι} (hnodup : is.Nodup) (s : σ) (k : κ) :
    get (is.foldl step s) k = if owner k ∈ is then f (owner k) k s else get s k := by
  induction is generalizing s
  case nil => simp
  case cons i is hi =>
    obtain ⟨hi', hnodup⟩ := List.nodup_cons.mp hnodup
    rw [List.foldl_cons, hi hnodup]
    by_cases hk : owner k ∈ is
    case pos =>
      have hne : owner k ≠ i := fun h => hi' (h ▸ hk)
      rw [if_pos hk, if_pos (List.mem_cons_of_mem _ hk)]
      refine hlocal _ _ _ _ rfl fun k' hk' => ?_
      rw [hstep, if_neg (hk' ▸ hne)]
    case neg =>
      rw [if_neg hk, hstep]
      by_cases hi : owner k = i
      case pos => rw [if_pos hi, if_pos (hi ▸ List.mem_cons_self ..), hi]
      case neg => rw [if_neg hi, if_neg (List.not_mem_cons_of_ne_of_not_mem hi hk)]

-- All the rounds take place.
theorem get_foldl_finRange {n : Nat} (get : σ → κ → α) (step : σ → Fin n → σ) (owner : κ → Fin n)
    (f : Fin n → κ → σ → α)
    (hstep : ∀ s i k, get (step s i) k = if owner k = i then f i k s else get s k)
    (hlocal : ∀ s s' i k, owner k = i → (∀ k', owner k' = i → get s k' = get s' k') → f i k s = f i k s')
    (s : σ) (k : κ) : get ((List.finRange n).foldl step s) k = f (owner k) k s := by
  rw [get_foldl hstep hlocal (List.nodup_finRange n), if_pos (List.mem_finRange _)]

end Loop
