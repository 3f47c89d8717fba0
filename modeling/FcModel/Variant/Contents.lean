import FcModel.Variant.Shared

-- What variables in memory contain, and which changes of the memory they do not see.

namespace Shared

open MutableVariantObject

variable {heap heap' : Nat → List (Bytes × Cell)} {c : Cell} {l l' : Nat} {v w : Variant}

-- The value that is stored. A vector that contains itself has none.
inductive Holds (heap : Nat → List (Bytes × Cell)) : Cell → Variant → Prop
  | scalar (v : Scalar) : Holds heap (.scalar v) v.toVariant
  | array {cs : List Cell} {vs : List Variant} (h : List.Forall₂ (Holds heap) cs vs) :
      Holds heap (.array cs) (.array vs)
  | object {l : Nat} {es : List Entry} (h : List.Forall₂ (EntryRel (Holds heap)) (heap l) es) :
      Holds heap (.object l) (.object es)

@[elab_as_elim]
theorem Holds.induct {motive : (c : Cell) → (v : Variant) → Holds heap c v → Prop}
    (scalar : ∀ v, motive (.scalar v) v.toVariant (.scalar v))
    (array : ∀ cs vs (h : List.Forall₂ (Holds heap) cs vs), List.Forall₂ (fun c v => ∃ h, motive c v h) cs vs →
      motive (.array cs) (.array vs) (.array h))
    (object : ∀ l es (h : List.Forall₂ (EntryRel (Holds heap)) (heap l) es),
      List.Forall₂ (EntryRel fun c v => ∃ h, motive c v h) (heap l) es →
      motive (.object l) (.object es) (.object h))
    {c : Cell} {v : Variant} (h : Holds heap c v) : motive c v h :=
  @Holds.rec heap motive (fun cs vs _ => List.Forall₂ (fun c v => ∃ h, motive c v h) cs vs)
    (fun es fs _ => List.Forall₂ (EntryRel fun c v => ∃ h, motive c v h) es fs)
    (fun e f _ => EntryRel (fun c v => ∃ h, motive c v h) e f)
    scalar (fun h hi => array _ _ h hi) (fun h hi => object _ _ h hi) .nil (fun h _ hi ht => .cons ⟨h, hi⟩ ht)
    .nil (fun _ _ hi ht => .cons hi ht) (fun h hi => .intro ⟨h, hi⟩) c v h

theorem forall₂_unique {α β : Type} {R : α → β → Prop} {as : List α} {bs bs' : List β}
    (h : List.Forall₂ (fun a b => ∀ b', R a b' → b = b') as bs) (h' : List.Forall₂ R as bs') :
    bs = bs' := by
  induction h generalizing bs'
  case nil => cases h'; rfl
  case cons h _ hi =>
    have .cons hb hbs := h'
    rw [h _ hb, hi hbs]

theorem Holds.unique (h : Holds heap c v) (h' : Holds heap c w) : v = w := by
  induction h using Holds.induct generalizing w
  case scalar v => cases h'; rfl
  case array cs vs h hi =>
    have .array h' := h'
    congr 1
    exact forall₂_unique (hi.imp fun _ _ h _ => h.2) h'
  case object l es h hi =>
    have .object h' := h'
    congr 1
    refine forall₂_unique (hi.imp fun _ _ h f hf => ?_) h'
    have .intro h := h
    have .intro hf := hf
    rw [h.2 hf]

-- The vectors that a cell points to.
inductive Mentions : Cell → Nat → Prop
  | object (l : Nat) : Mentions (.object l) l
  | array {cs : List Cell} {c : Cell} {l : Nat} (hc : c ∈ cs) (h : Mentions c l) : Mentions (.array cs) l

-- The vectors that a cell points to, directly or through others.
inductive Reaches (heap : Nat → List (Bytes × Cell)) : Cell → Nat → Prop
  | object (l : Nat) : Reaches heap (.object l) l
  | array {cs : List Cell} {c : Cell} {l : Nat} (hc : c ∈ cs) (h : Reaches heap c l) : Reaches heap (.array cs) l
  | entry {e : Bytes × Cell} {l l' : Nat} (he : e ∈ heap l) (h : Reaches heap e.2 l') : Reaches heap (.object l) l'

theorem Reaches.mentions (h : Reaches heap c l) : Mentions c l ∨ ∃ l', ∃ e ∈ heap l',
    Mentions e.2 l := by
  induction h
  case object l => exact .inl (.object l)
  case array hc _ hi => exact hi.imp (.array hc) id
  case entry e l l' he _ hi =>
    refine .inr ?_
    rcases hi with hi | hi
    case inl => exact ⟨l, e, he, hi⟩
    case inr => exact hi

-- A value does not change if the vectors that it is stored in do not.
theorem Holds.frame (h : Holds heap c v) (hl : ∀ l, Reaches heap c l → heap' l = heap l) :
    Holds heap' c v := by
  induction h using Holds.induct
  case scalar v => exact .scalar v
  case array cs vs h hi =>
    have hcs : ∀ c ∈ cs, ∀ l, Reaches heap c l → heap' l = heap l := fun c hc l h => hl l (.array hc h)
    exact .array (((List.forall₂_and_left _ _).mpr ⟨hcs, hi⟩).imp fun c v ⟨hc, _, hi⟩ => hi hc)
  case object l es h hi =>
    have hes : ∀ e ∈ heap l, ∀ l', Reaches heap e.2 l' → heap' l' = heap l' := fun e he l' h => hl l' (.entry he h)
    refine .object ?_
    rw [hl l (.object l)]
    refine ((List.forall₂_and_left _ _).mpr ⟨hes, hi⟩).imp fun e f ⟨he, h⟩ => ?_
    have .intro h := h
    exact .intro (h.2 he)

variable {ν : Type} {s : Store ν} {x : Var ν} {m : ν} {es : List (Bytes × Cell)}

-- Where a pointer can be stored.
inductive Place (ν : Type)
  | var (x : Var ν)
  | vector (l : Nat)

def Store.mentions (s : Store ν) : Place ν → Nat → Prop
  | .var x, l     => Mentions (s.cell x) l
  | .vector l', l => ∃ e ∈ s.heap l', Mentions e.2 l

-- The variables contain independent values. The vector of a `mutable_variant_object` is its own.
structure Models (s : Store ν) (env : Var ν → Variant) : Prop where
  holds     : ∀ x, Holds s.heap (s.cell x) (env x)
  bounded   : ∀ {p l}, s.mentions p l → l < s.next
  exclusive : ∀ {m l p}, s.cell (.mutable m) = .object l → s.mentions p l → p = .var (.mutable m)

-- Another variable can get the cell.
def Shareable (s : Store ν) (c : Cell) : Prop :=
  ∀ l, Mentions c l → l < s.next ∧ ∀ m, s.cell (.mutable m) ≠ .object l

variable {env : Var ν → Variant}

theorem shareable_scalar (v : Scalar) : Shareable s (.scalar v) :=
  nofun

theorem Shareable.array {cs : List Cell} (h : ∀ c ∈ cs, Shareable s c) :
    Shareable s (.array cs) := by
  intro l hl
  have .array hc hl := hl
  exact h _ hc l hl

namespace Models

theorem shareable_var (h : Models s env) (hx : ∀ m, x ≠ .mutable m) : Shareable s (s.cell x) := by
  intro l hl
  refine ⟨h.bounded (p := .var x) hl, fun m hm => hx m ?_⟩
  have hp := h.exclusive (p := .var x) hm hl
  cases hp
  rfl

theorem shareable_entry (h : Models s env) {e : Bytes × Cell} (he : e ∈ s.heap l) :
    Shareable s e.2 := by
  intro l' hl'
  refine ⟨h.bounded (p := .vector l) ⟨e, he, hl'⟩, fun m hm => ?_⟩
  have hp := h.exclusive (p := .vector l) hm ⟨e, he, hl'⟩
  cases hp

theorem lt_of_reaches (h : Models s env) (hc : ∀ l, Mentions c l → l < s.next)
    (hl : Reaches s.heap c l) :
    l < s.next := by
  rcases hl.mentions with hl | ⟨l', he⟩
  case inl => exact hc l hl
  case inr => exact h.bounded (p := .vector l') he

-- Nothing but its variable reaches the vector of a `mutable_variant_object`.
theorem not_reaches (h : Models s env) (hm : s.cell (.mutable m) = .object l) (hc : ¬Mentions c l) :
    ¬Reaches s.heap c l := by
  intro hl
  rcases hl.mentions with hl | ⟨l', he⟩
  case inl => exact hc hl
  case inr => cases h.exclusive (p := .vector l') hm he

end Models

theorem Store.heap_write_self : (s.write l es).heap l = es :=
  Function.update_self ..

theorem Store.heap_write_of_ne (h : l' ≠ l) : (s.write l es).heap l' = s.heap l' :=
  Function.update_of_ne h ..

theorem Store.heap_alloc_self : (s.alloc es).heap s.next = es :=
  Function.update_self ..

theorem Store.heap_alloc_of_lt (h : l < s.next) : (s.alloc es).heap l = s.heap l :=
  Function.update_of_ne (Nat.ne_of_lt h) ..

-- What is written can be shared, so no pointer of a `mutable_variant_object` is.
theorem mentions_of_write {l' : Nat} {p : Place ν} (hes : ∀ e ∈ es, Shareable s e.2)
    (h : (s.write l' es).mentions p l) :
    s.mentions p l ∨ (l < s.next ∧ ∀ m, s.cell (.mutable m) ≠ .object l) := by
  cases p
  case var      => exact .inl h
  case vector k =>
    have ⟨e, he, hl⟩ := h
    by_cases hk : k = l'
    case pos =>
      rw [hk, Store.heap_write_self] at he
      exact .inr (hes e he l hl)
    case neg =>
      rw [Store.heap_write_of_ne hk] at he
      exact .inl ⟨e, he, hl⟩

theorem Models.alloc (h : Models s env) (hes : ∀ e ∈ es, Shareable s e.2) :
    Models (s.alloc es) env where
  holds y := by
    refine (h.holds y).frame fun l hl => Store.heap_alloc_of_lt ?_
    exact h.lt_of_reaches (fun l hl => h.bounded (p := .var y) hl) hl
  bounded := by
    intro p l hp
    rcases mentions_of_write hes hp with hp | hp
    case inl => exact Nat.lt_succ_of_lt (h.bounded hp)
    case inr => exact Nat.lt_succ_of_lt hp.1
  exclusive := by
    intro m l p hl hp
    rcases mentions_of_write hes hp with hp | hp
    case inl => exact h.exclusive hl hp
    case inr => exact absurd hl (hp.2 m)

variable [DecidableEq ν]

@[simp]
theorem Store.heap_assign (c : x.Content) : (s.assign x c).heap = s.heap :=
  rfl

@[simp]
theorem Store.next_assign (c : x.Content) : (s.assign x c).next = s.next :=
  rfl

@[simp]
theorem Store.cell_assign_self (c : x.Content) : (s.assign x c).cell x = x.cell c := by
  simp [Store.assign, Store.cell]

@[simp]
theorem Store.cell_assign_of_ne {y : Var ν} (c : x.Content) (h : y ≠ x) :
    (s.assign x c).cell y = s.cell y := by
  simp [Store.assign, Store.cell, h]

theorem mentions_of_assign {c : x.Content} {p : Place ν} (hp : p ≠ .var x)
    (h : (s.assign x c).mentions p l) :
    s.mentions p l := by
  cases p
  case vector => exact h
  case var y  =>
    have hy : y ≠ x := fun hy => hp (hy ▸ rfl)
    simpa [Store.mentions, hy] using h

namespace Models

theorem assign (h : Models s env) {c : x.Content} (hv : Holds s.heap (x.cell c) v)
    (hb : ∀ l, Mentions (x.cell c) l → l < s.next)
    (hx : ∀ m l, s.cell (.mutable m) = .object l → x ≠ .mutable m → ¬Mentions (x.cell c) l)
    (hm : ∀ m l, x = .mutable m → x.cell c = .object l → ∀ p, s.mentions p l → p = .var x) :
    Models (s.assign x c) (Function.update env x v) where
  holds := by
    intro y
    by_cases hy : y = x
    case pos => subst hy; simpa using hv
    case neg => simpa [hy] using h.holds y
  bounded := by
    intro p l hp
    cases p
    case vector l' => exact h.bounded (p := .vector l') hp
    case var y =>
      by_cases hy : y = x
      case pos => subst hy; exact hb l (by simpa [Store.mentions] using hp)
      case neg => exact h.bounded (mentions_of_assign (fun he => hy (Place.var.inj he)) hp)
  exclusive := by
    intro m l p hl hp
    by_cases hmx : x = .mutable m
    case pos =>
      subst hmx
      rw [Store.cell_assign_self] at hl
      by_cases hpx : p = .var (.mutable m)
      case pos => exact hpx
      case neg => exact hm m l rfl hl p (mentions_of_assign hpx hp)
    case neg =>
      rw [Store.cell_assign_of_ne c (Ne.symm hmx)] at hl
      by_cases hpx : p = .var x
      case pos =>
        subst hpx
        exact absurd (by simpa [Store.mentions] using hp) (hx m l hl hmx)
      case neg => exact h.exclusive hl (mentions_of_assign hpx hp)

-- A vector is overwritten that no other variable reaches.
theorem write (h : Models s env) {fs : List Entry} (hx : s.cell x = .object l)
    (hother : ∀ y, y ≠ x → ¬Reaches s.heap (s.cell y) l) (hes : ∀ e ∈ es, Shareable s e.2)
    (hl : ∀ e ∈ es, ¬Reaches s.heap e.2 l) (hfs : List.Forall₂ (EntryRel (Holds s.heap)) es fs) :
    Models (s.write l es) (Function.update env x (.object fs)) where
  holds y := by
    have hframe {c : Cell} {v : Variant} (hv : Holds s.heap c v) (hc : ¬Reaches s.heap c l) :
        Holds (s.write l es).heap c v :=
      hv.frame fun _ hl' => Store.heap_write_of_ne fun he => hc (he ▸ hl')
    by_cases hy : y = x
    case neg =>
      rw [Function.update_of_ne hy]
      exact hframe (h.holds y) (hother y hy)
    case pos =>
      have hcell : (s.write l es).cell y = .object l := by rw [hy]; exact hx
      rw [hcell, hy, Function.update_self]
      refine .object ?_
      rw [Store.heap_write_self]
      refine ((List.forall₂_and_left _ _).mpr ⟨hl, hfs⟩).imp fun e f ⟨he, h⟩ => ?_
      have .intro h := h
      exact .intro (hframe h he)
  bounded := by
    intro p l hp
    rcases mentions_of_write hes hp with hp | hp
    case inl => exact h.bounded hp
    case inr => exact hp.1
  exclusive := by
    intro m l p hl hp
    rcases mentions_of_write hes hp with hp | hp
    case inl => exact h.exclusive hl hp
    case inr => exact absurd hl (hp.2 m)

theorem assign_shareable (h : Models s env) {c : x.Content} (hx : ∀ m, x ≠ .mutable m)
    (hv : Holds s.heap (x.cell c) v) (hc : Shareable s (x.cell c)) :
    Models (s.assign x c) (Function.update env x v) :=
  h.assign hv (fun l hl => (hc l hl).1) (fun m l hm _ hl => (hc l hl).2 m hm) fun m _ he => absurd he (hx m)

theorem assign_null (h : Models s env) (m : ν) :
    Models (s.assign (.mutable m) none) (Function.update env (.mutable m) .null) :=
  h.assign (x := .mutable m) (.scalar .null) nofun nofun nofun

theorem assignNew (h : Models s env) (x : Var ν) {fs : List Entry} (hes : ∀ e ∈ es, Shareable s e.2)
    (hfs : List.Forall₂ (EntryRel (Holds s.heap)) es fs) :
    Models (s.assignNew x es) (Function.update env x (.object fs)) := by
  have hfresh {p : Place ν} : ¬(s.alloc es).mentions p s.next := by
    intro hp
    rcases mentions_of_write hes hp with hp | hp
    case inl => exact Nat.lt_irrefl _ (h.bounded hp)
    case inr => exact Nat.lt_irrefl _ hp.1
  refine (h.alloc hes).assign ?_ ?_ ?_ ?_
  all_goals rw [Var.cell_pointer]
  case refine_1 =>
    refine .object ?_
    rw [Store.heap_alloc_self]
    refine ((List.forall₂_and_left _ _).mpr ⟨hes, hfs⟩).imp fun e f ⟨he, hv⟩ => ?_
    have .intro hv := hv
    refine .intro (hv.frame fun l hl => Store.heap_alloc_of_lt ?_)
    exact h.lt_of_reaches (fun l hl => (he l hl).1) hl
  case refine_2 =>
    intro l hl
    have .object _ := hl
    exact Nat.lt_succ_self _
  case refine_3 =>
    intro m l hm _ hl
    have .object _ := hl
    exact hfresh (p := .var (.mutable m)) (by rw [Store.mentions, hm]; exact .object _)
  case refine_4 =>
    intro m l _ he p hp
    cases he
    exact absurd hp hfresh

end Models

end Shared
