import Mathlib

-- Machines whose operations change a state and either return an output or throw, the states they
-- reach under a discipline on their clients, and simulation by an abstract machine that never
-- throws.

namespace Machine

variable {σ ι ε ο τ : Type}

def run (step : ι → EStateM ε σ ο) : List ι → EStateM ε σ (List ο)
  | []      => pure []
  | i :: is => do
    let o  ← step i
    let os ← run step is
    return o :: os

-- The state an operation leaves behind. A client that catches an exception goes on from there.
def state : EStateM.Result ε σ ο → σ
  | .ok _ s | .error _ s => s

-- A client may issue an operation only where `adm` allows it. The discipline is checked against
-- the state in which the operation is issued, so it follows the machine along the run.
def Admissible (step : ι → EStateM ε σ ο) (adm : σ → ι → Prop) (s : σ) : List ι → Prop
  | []      => True
  | i :: is => adm s i ∧ Admissible step adm (state <| (step i).run s) is

instance Admissible.decidable (step : ι → EStateM ε σ ο) (adm : σ → ι → Prop)
    [∀ s i, Decidable (adm s i)] : (s : σ) → (is : List ι) → Decidable (Admissible step adm s is)
  | _, []      => isTrue trivial
  | s, i :: is =>
    have := Admissible.decidable step adm (state <| (step i).run s) is
    inferInstanceAs (Decidable (adm s i ∧ _))

inductive Reachable (step : ι → EStateM ε σ ο) (adm : σ → ι → Prop) (init : σ) : σ → Prop
  | init : Reachable step adm init init
  | step {s : σ} {i : ι} :
      Reachable step adm init s → adm s i → Reachable step adm init (state <| (step i).run s)

theorem Reachable.invariant {step : ι → EStateM ε σ ο} {adm : σ → ι → Prop} {init s : σ}
    {P : σ → Prop} (hi : P init) (hs : ∀ {s i}, P s → adm s i → P (state <| (step i).run s))
    (h : Reachable step adm init s) : P s := by
  induction h
  case init       => exact hi
  case step ha hp => exact hs hp ha

-- The state a computation leaves behind is in `P` where the one it starts in is, whether it throws
-- or not.
def Keeps (P : σ → Prop) (x : EStateM ε σ ο) : Prop :=
  ∀ s, P s → P (state (x.run s))

namespace Keeps

variable {P : σ → Prop} {κ : Type} {x : EStateM ε σ ο} {f : ο → EStateM ε σ κ}

theorem pure (o : ο) : Keeps P (Pure.pure o : EStateM ε σ ο) :=
  fun _ h => h

theorem throw (e : ε) : Keeps P (MonadExcept.throw e : EStateM ε σ ο) :=
  fun _ h => h

theorem bind (hx : Keeps P x) (hf : ∀ o, Keeps P (f o)) : Keeps P (x >>= f) := by
  intro s h
  have hs := hx s h
  rw [EStateM.run_bind]
  cases hr : x.run s
  case ok o s'    => rw [hr] at hs; exact hf o s' hs
  case error e s' => rw [hr] at hs; exact hs

theorem get_bind {f : σ → EStateM ε σ κ} (hf : ∀ s, P s → P (state ((f s).run s))) :
    Keeps P (get >>= f) :=
  hf

end Keeps

-- The state after a run of a client that catches all exceptions.
def after (step : ι → EStateM ε σ ο) (s : σ) : List ι → σ
  | []      => s
  | i :: is => after step (state <| (step i).run s) is

theorem Reachable.after {step : ι → EStateM ε σ ο} {adm : σ → ι → Prop} {init s : σ}
    {is : List ι} (h : Reachable step adm init s) (ha : Admissible step adm s is) :
    Reachable step adm init (after step s is) := by
  induction is generalizing s
  case nil          => exact h
  case cons i is hi => exact hi (h.step ha.1) ha.2

-- A relation that each operation keeps is kept by runs.
theorem after_related {step : ι → EStateM ε σ ο} {adm : σ → ι → Prop} {step' : ι → EStateM ε τ ο}
    {rel : σ → τ → Prop}
    (hs : ∀ {s t i}, rel s t → adm s i → rel (state <| (step i).run s) (state <| (step' i).run t))
    {s : σ} {t : τ}
    {is : List ι} (h : rel s t) (ha : Admissible step adm s is) :
    rel (after step s is) (after step' t is) := by
  induction is generalizing s t
  case nil          => exact h
  case cons i is hi => exact hi (hs h ha.1) ha.2

-- The abstract machine is total: its step gives the output and the next abstract state.
def specRun (spec : τ → ι → ο × τ) (t : τ) : List ι → List ο × τ
  | []      => ([], t)
  | i :: is => ((spec t i).1 :: (specRun spec (spec t i).2 is).1, (specRun spec (spec t i).2 is).2)

theorem specRun_map {κ : Type} (spec : τ → ι → ο × τ) (f : κ → ι) (t : τ) (ks : List κ) :
    specRun (fun t k => spec t (f k)) t ks = specRun spec t (ks.map f) := by
  induction ks generalizing t
  case nil          => rfl
  case cons _ _ hi  => simp only [specRun, List.map_cons, hi]

structure Simulation (step : ι → EStateM ε σ ο) (adm : σ → ι → Prop) (spec : τ → ι → ο × τ)
    (rel : σ → τ → Prop) : Prop where
  step : ∀ {s t i}, rel s t → adm s i →
    ∃ s', (step i).run s = .ok (spec t i).1 s' ∧ rel s' (spec t i).2

-- Along an admissible run the concrete machine never throws, gives the outputs of the abstract one
-- and ends in a related state.
theorem Simulation.run {step : ι → EStateM ε σ ο} {adm : σ → ι → Prop} {spec : τ → ι → ο × τ}
    {rel : σ → τ → Prop} (sim : Simulation step adm spec rel) {s : σ} {t : τ} {is : List ι}
    (hr : rel s t) (ha : Admissible step adm s is) :
    ∃ s', (run step is).run s = .ok (specRun spec t is).1 s' ∧ rel s' (specRun spec t is).2 := by
  induction is generalizing s t
  case nil => exact ⟨s, rfl, hr⟩
  case cons i is hi =>
    have ⟨s₁, he, hr₁⟩ := sim.step hr ha.left
    have ⟨s₂, hrun, hr₂⟩ := hi hr₁ (by simpa [he, state] using ha.right)
    refine ⟨s₂, ?_, hr₂⟩
    simp only [Machine.run, EStateM.run_bind, he, hrun, specRun]
    rfl

end Machine
