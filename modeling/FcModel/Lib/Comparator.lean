import Mathlib.Order.Basic
import Mathlib.Order.Fin.Basic
import Mathlib.Tactic.Common

-- Comparisons that are assembled from others, and the laws they keep.

-- The operators `<` and `==` of a type.
@[ext]
structure Comparator (α : Type) where
  lt : α → α → Bool
  eq : α → α → Bool

namespace Comparator

variable {α β : Type}

-- A strict total order, of which the equality is that of the values.
structure Lawful (c : Comparator α) : Prop where
  eq_iff : ∀ {x y}, c.eq x y = true ↔ x = y
  irrefl : ∀ x, c.lt x x = false
  trans  : ∀ {x y z}, c.lt x y = true → c.lt y z = true → c.lt x z = true
  total  : ∀ {x y}, x ≠ y → c.lt x y = true ∨ c.lt y x = true

theorem Lawful.asymm {c : Comparator α} (h : c.Lawful) {x y : α} (hxy : c.lt x y = true) :
    c.lt y x = false := by
  by_contra hyx
  have hxx := h.trans hxy (Bool.not_eq_false _ ▸ hyx)
  rw [h.irrefl] at hxx
  cases hxx

-- Of the three comparisons of two values exactly one holds.
def ExactlyOne (c : Comparator α) (x y : α) : Prop :=
  (c.lt x y = true ∧ c.eq x y = false ∧ c.lt y x = false) ∨
  (c.lt x y = false ∧ c.eq x y = true ∧ c.lt y x = false) ∨
  (c.lt x y = false ∧ c.eq x y = false ∧ c.lt y x = true)

theorem Lawful.exactlyOne {c : Comparator α} (h : c.Lawful) (x y : α) : c.ExactlyOne x y := by
  by_cases he : x = y
  case pos =>
    subst he
    exact Or.inr (Or.inl ⟨h.irrefl x, h.eq_iff.mpr rfl, h.irrefl x⟩)
  case neg =>
    have hne : c.eq x y = false := Bool.eq_false_iff.mpr fun hx => he (h.eq_iff.mp hx)
    cases h.total he
    case inl hlt => exact Or.inl ⟨hlt, hne, h.asymm hlt⟩
    case inr hlt => exact Or.inr (Or.inr ⟨h.asymm hlt, hne, hlt⟩)

section LinearOrder

variable [LinearOrder α]

-- The built-in operators of a type.
def builtin : Comparator α where
  lt x y := decide (x < y)
  eq x y := decide (x = y)

theorem lawful_builtin : (builtin : Comparator α).Lawful where
  eq_iff  := decide_eq_true_iff
  irrefl x := decide_eq_false (lt_irrefl x)
  trans h₁ h₂ := decide_eq_true ((of_decide_eq_true h₁).trans (of_decide_eq_true h₂))
  total h := (lt_or_gt_of_ne h).imp decide_eq_true decide_eq_true

end LinearOrder

section Assembly

-- The comparison of what a value is made of.
def on (c : Comparator β) (f : α → β) : Comparator α where
  lt x y := c.lt (f x) (f y)
  eq x y := c.eq (f x) (f y)

theorem Lawful.on {c : Comparator β} (h : c.Lawful) {f : α → β} (hf : f.Injective) :
    (c.on f).Lawful where
  eq_iff  := h.eq_iff.trans hf.eq_iff
  irrefl x := h.irrefl (f x)
  trans   := h.trans
  total h' := h.total fun he => h' (hf he)

-- `std::lexicographical_compare`.
def lexicographical (c : Comparator α) : List α → List α → Bool
  | _, []           => false
  | [], _ :: _      => true
  | x :: xs, y :: ys =>
    if c.lt x y then true else if c.lt y x then false else lexicographical c xs ys

-- The operators of a container.
def container (c : Comparator α) : Comparator (List α) where
  lt := c.lexicographical
  eq xs ys := xs.length = ys.length ∧ (xs.zip ys).all fun p => c.eq p.1 p.2

theorem lexicographical_cons {c : Comparator α} (hc : c.Lawful) {x y : α} {xs ys : List α} :
    c.lexicographical (x :: xs) (y :: ys) = true ↔
      c.lt x y = true ∨ x = y ∧ c.lexicographical xs ys = true := by
  rw [lexicographical]
  by_cases he : x = y
  case pos =>
    subst he
    simp [hc.irrefl]
  case neg =>
    cases hc.total he
    case inl hlt => simp [hlt]
    case inr hlt => simp [hlt, hc.asymm hlt, he]

theorem container_eq_iff {c : Comparator α} (hc : c.Lawful) {xs ys : List α} :
    c.container.eq xs ys = true ↔ xs = ys := by
  rw [container, decide_eq_true_iff]
  induction xs generalizing ys
  case nil => cases ys <;> simp
  case cons x xs hi =>
    cases ys
    case nil       => simp
    case cons y ys =>
      rw [List.cons.injEq, ← hi, List.zip_cons_cons, List.all_cons, Bool.and_eq_true, hc.eq_iff,
        List.length_cons, List.length_cons, Nat.add_right_cancel_iff]
      exact and_left_comm

theorem Lawful.container {c : Comparator α} (hc : c.Lawful) : c.container.Lawful where
  eq_iff := container_eq_iff hc
  irrefl xs := by
    change c.lexicographical xs xs = false
    induction xs
    case nil          => rfl
    case cons x xs hi =>
      rw [lexicographical, hc.irrefl]
      exact hi
  trans := by
    intro xs ys zs hxy hyz
    change c.lexicographical xs zs = true
    induction xs generalizing ys zs
    case nil =>
      cases zs
      case nil  => cases ys <;> cases hyz
      case cons => rfl
    case cons x xs hi =>
      cases ys
      case nil       => cases hxy
      case cons y ys =>
        cases zs
        case nil       => cases hyz
        case cons z zs =>
          have hxy := (lexicographical_cons hc).mp hxy
          have hyz := (lexicographical_cons hc).mp hyz
          refine (lexicographical_cons hc).mpr ?_
          obtain hxy | ⟨rfl, hxs⟩ := hxy
          · obtain hyz | ⟨rfl, -⟩ := hyz
            · exact Or.inl (hc.trans hxy hyz)
            · exact Or.inl hxy
          · obtain hyz | ⟨rfl, hys⟩ := hyz
            · exact Or.inl hyz
            · exact Or.inr ⟨rfl, hi hxs hys⟩
  total := by
    intro xs ys hne
    change c.lexicographical xs ys = true ∨ c.lexicographical ys xs = true
    induction xs generalizing ys
    case nil =>
      cases ys
      case nil  => exact absurd rfl hne
      case cons => exact Or.inl rfl
    case cons x xs hi =>
      cases ys
      case nil       => exact Or.inr rfl
      case cons y ys =>
        rw [lexicographical_cons hc, lexicographical_cons hc]
        by_cases he : x = y
        case pos =>
          have hxs : xs ≠ ys := fun h => hne (by rw [he, h])
          exact (hi hxs).imp (fun h => Or.inr ⟨he, h⟩) fun h => Or.inr ⟨he.symm, h⟩
        case neg => exact (hc.total he).imp Or.inl Or.inl

-- `std::tie`: the second elements are compared where neither of the first is less.
def tie (c : Comparator α) (d : Comparator β) : Comparator (α × β) where
  lt x y := c.lt x.1 y.1 || (!c.lt y.1 x.1 && d.lt x.2 y.2)
  eq x y := c.eq x.1 y.1 && d.eq x.2 y.2

theorem tie_lt_iff {c : Comparator α} {d : Comparator β} (hc : c.Lawful) {x y : α × β} :
    (c.tie d).lt x y = true ↔ c.lt x.1 y.1 = true ∨ x.1 = y.1 ∧ d.lt x.2 y.2 = true := by
  change (c.lt x.1 y.1 || (!c.lt y.1 x.1 && d.lt x.2 y.2)) = true ↔ _
  rw [Bool.or_eq_true, Bool.and_eq_true, Bool.not_eq_true']
  constructor
  case mp =>
    intro h
    cases h
    case inl h => exact Or.inl h
    case inr h =>
      by_cases he : x.1 = y.1
      case pos => exact Or.inr ⟨he, h.right⟩
      case neg =>
        cases hc.total he
        case inl hlt => exact Or.inl hlt
        case inr hlt =>
          rw [h.left] at hlt
          cases hlt
  case mpr =>
    intro h
    cases h
    case inl h => exact Or.inl h
    case inr h =>
      refine Or.inr ⟨?_, h.right⟩
      rw [h.left]
      exact hc.irrefl y.1

theorem Lawful.tie {c : Comparator α} {d : Comparator β} (hc : c.Lawful) (hd : d.Lawful) :
    (c.tie d).Lawful where
  eq_iff := by
    intro x y
    change (c.eq x.1 y.1 && d.eq x.2 y.2) = true ↔ _
    rw [Bool.and_eq_true, hc.eq_iff, hd.eq_iff, Prod.ext_iff]
  irrefl x := by
    rw [Bool.eq_false_iff, ne_eq, tie_lt_iff hc]
    intro h
    cases h
    case inl h =>
      rw [hc.irrefl] at h
      cases h
    case inr h =>
      rw [hd.irrefl] at h
      cases h.right
  trans := by
    intro x y z hxy hyz
    rw [tie_lt_iff hc] at hxy hyz ⊢
    obtain hxy | ⟨hx, hxy⟩ := hxy
    · obtain hyz | ⟨hy, -⟩ := hyz
      · exact Or.inl (hc.trans hxy hyz)
      · exact Or.inl (hy ▸ hxy)
    · obtain hyz | ⟨hy, hyz⟩ := hyz
      · exact Or.inl (hx ▸ hyz)
      · exact Or.inr ⟨hx.trans hy, hd.trans hxy hyz⟩
  total := by
    intro x y hne
    rw [tie_lt_iff hc, tie_lt_iff hc]
    by_cases he : x.1 = y.1
    case pos =>
      have hne' : x.2 ≠ y.2 := fun h => hne (Prod.ext he h)
      exact (hd.total hne').imp (fun h => Or.inr ⟨he, h⟩) fun h => Or.inr ⟨he.symm, h⟩
    case neg => exact (hc.total he).imp Or.inl Or.inl

variable {n : Nat} {T : Fin n → Type}

-- The alternatives of a variant are compared by their index, and the values of one alternative by
-- its own comparison.
def alternatives (c : ∀ i, Comparator (T i)) : Comparator (Σ i, T i) where
  lt x y := decide (x.1 < y.1) || (if h : x.1 = y.1 then (c y.1).lt (h ▸ x.2) y.2 else false)
  eq x y := if h : x.1 = y.1 then (c y.1).eq (h ▸ x.2) y.2 else false

theorem alternatives_lt_iff {c : ∀ i, Comparator (T i)} {i j : Fin n} {x : T i} {y : T j} :
    (alternatives c).lt ⟨i, x⟩ ⟨j, y⟩ = true ↔
      i < j ∨ ∃ h : i = j, (c j).lt (h ▸ x) y = true := by
  change (decide (i < j) || (if h : i = j then (c j).lt (h ▸ x) y else false)) = true ↔ _
  rw [Bool.or_eq_true, decide_eq_true_iff]
  by_cases h : i = j
  case pos => simp [h]
  case neg => simp [h]

theorem lawful_alternatives {c : ∀ i, Comparator (T i)} (hc : ∀ i, (c i).Lawful) :
    (alternatives c).Lawful where
  eq_iff := by
    rintro ⟨i, x⟩ ⟨j, y⟩
    change (if h : i = j then (c j).eq (h ▸ x) y else false) = true ↔ _
    by_cases h : i = j
    case pos =>
      subst h
      rw [dif_pos rfl, (hc i).eq_iff]
      constructor
      case mp  => exact fun h => congrArg (Sigma.mk i) h
      case mpr => exact fun h => eq_of_heq (Sigma.mk.inj h).right
    case neg =>
      rw [dif_neg h]
      exact iff_of_false Bool.false_ne_true fun he => h (Sigma.mk.inj he).left
  irrefl := by
    rintro ⟨i, x⟩
    rw [Bool.eq_false_iff, ne_eq, alternatives_lt_iff]
    rintro (h | ⟨_, h⟩)
    · exact lt_irrefl i h
    · rw [(hc i).irrefl] at h
      cases h
  trans := by
    rintro ⟨i, x⟩ ⟨j, y⟩ ⟨k, z⟩ hxy hyz
    rw [alternatives_lt_iff] at hxy hyz ⊢
    obtain hxy | ⟨rfl, hxy⟩ := hxy
    · obtain hyz | ⟨rfl, -⟩ := hyz
      · exact Or.inl (hxy.trans hyz)
      · exact Or.inl hxy
    · obtain hyz | ⟨rfl, hyz⟩ := hyz
      · exact Or.inl hyz
      · exact Or.inr ⟨rfl, (hc i).trans hxy hyz⟩
  total := by
    rintro ⟨i, x⟩ ⟨j, y⟩ hne
    rw [alternatives_lt_iff, alternatives_lt_iff]
    obtain h | rfl | h := lt_trichotomy i j
    · exact Or.inl (Or.inl h)
    · have hxy : x ≠ y := fun he => hne (by rw [he])
      exact ((hc i).total hxy).imp (fun h => Or.inr ⟨rfl, h⟩) fun h => Or.inr ⟨rfl, h⟩
    · exact Or.inr (Or.inl h)

end Assembly

end Comparator
