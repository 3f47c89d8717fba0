import Mathlib

-- Containers with several indices over their elements. An element stays in its node until it is
-- erased, so the nodes serve as iterators.

variable {γ ι α κ ε : Type}

-- What a modification gives, where `rest` are the other nodes: an element that no index takes any
-- more is erased, and so is one whose modification throws.
def Modified (elements : γ → List (ι × α)) (i : ι) (rest : List (ι × α)) : Except ε α →
    Except ε Bool × γ → Prop
  | .ok a, (.ok true, c)     => (elements c).Perm ((i, a) :: rest)
  | .ok _, (.ok false, c)    => (elements c).Perm rest
  | .error e, (.error e', c) => e' = e ∧ (elements c).Perm rest
  | _, _                     => False

structure MultiIndex (γ ι α κ ε : Type) where
  -- The nodes in the order of the first index.
  elements : γ → List (ι × α)
  nodup    : ∀ c, ((elements c).map Prod.fst).Nodup
  empty    : γ
  insert   : α → γ → (ι × Bool) × γ
  modify   : ι → (α → Except ε α) → γ → Except ε Bool × γ
  erase    : ι → γ → γ
  -- A node that the first index has for the key.
  find     : κ → γ → Option ι
  elements_empty : elements empty = []
  insert_true : ∀ {a c i c'}, insert a c = ((i, true), c') → (elements c').Perm ((i, a) :: elements c)
  insert_false : ∀ {a c i c'}, insert a c = ((i, false), c') → (elements c').Perm (elements c)
  modify_modified : ∀ {i a c} (f : α → Except ε α), (i, a) ∈ elements c →
    ∃ rest, (elements c).Perm ((i, a) :: rest) ∧ Modified elements i rest (f a) (modify i f c)
  erase_perm : ∀ {i a c}, (i, a) ∈ elements c → (elements c).Perm ((i, a) :: elements (erase i c))
  find_mem : ∀ {k c i}, find k c = some i → ∃ a, (i, a) ∈ elements c

namespace MultiIndex

-- The element of a node.
def get [DecidableEq ι] (M : MultiIndex γ ι α κ ε) (c : γ) (i : ι) : Option α :=
  (M.elements c).lookup i

theorem lookup_of_mem [DecidableEq ι] {l : List (ι × α)} {i : ι} {a : α}
    (hl : (l.map Prod.fst).Nodup)
    (h : (i, a) ∈ l) : l.lookup i = some a := by
  induction l
  case nil => cases h
  case cons e l hi =>
    have ⟨hne, hl⟩ := List.nodup_cons.mp hl
    cases h
    case head => simp
    case tail h =>
      have he : i ≠ e.1 := fun he => hne (he ▸ List.mem_map_of_mem (f := Prod.fst) h)
      rw [List.lookup_cons, beq_false_of_ne he]
      exact hi hl h

theorem mem_of_lookup [DecidableEq ι] {l : List (ι × α)} {i : ι} {a : α} (h : l.lookup i = some a) :
    (i, a) ∈ l := by
  induction l
  case nil => cases h
  case cons e l hi =>
    rw [List.lookup_cons] at h
    by_cases he : i = e.1
    case pos =>
      subst he
      simp only [beq_self_eq_true, Option.some.injEq] at h
      exact h ▸ List.mem_cons_self ..
    case neg =>
      rw [beq_false_of_ne he] at h
      exact List.mem_cons_of_mem _ (hi h)

variable [DecidableEq ι] (M : MultiIndex γ ι α κ ε) {c : γ} {i : ι} {a : α}

theorem get_eq_some : M.get c i = some a ↔ (i, a) ∈ M.elements c :=
  ⟨mem_of_lookup, lookup_of_mem (M.nodup c)⟩

-- The elements in the order of the first index.
def values (M : MultiIndex γ ι α κ ε) (c : γ) : List α :=
  (M.elements c).map Prod.snd

-- Elements exclude each other when they have the same key in a unique index. An insertion or
-- modification takes place exactly if the element is not excluded.
structure Unique (M : MultiIndex γ ι α κ ε) (clash : α → α → Prop) : Prop where
  symm        : ∀ {a b}, clash a b → clash b a
  insert_iff  : ∀ {a c}, (M.insert a c).1.2 = true ↔ ∀ b ∈ M.values c, ¬clash b a
  modify_true : ∀ {i a b c c' f}, (i, a) ∈ M.elements c → f a = .ok b → M.modify i f c = (.ok true, c') →
    ∀ e ∈ M.elements c, e.1 ≠ i → ¬clash e.2 b

section Unique

variable {M} {clash : α → α → Prop} {c' : γ} {rest : List (ι × α)}

-- No element excludes another one.
def Distinct (M : MultiIndex γ ι α κ ε) (clash : α → α → Prop) (c : γ) : Prop :=
  (M.values c).Pairwise fun a b => ¬clash a b

namespace Unique

omit [DecidableEq ι]

theorem distinct_perm (hu : M.Unique clash) (hp : (M.elements c).Perm rest) :
    M.Distinct clash c ↔ (rest.map Prod.snd).Pairwise fun a b => ¬clash a b :=
  (hp.map _).pairwise_iff fun hab hba => hab (hu.symm hba)

theorem insert_distinct (hu : M.Unique clash) (h : M.Distinct clash c) (a : α) :
    M.Distinct clash (M.insert a c).2 := by
  match hi : M.insert a c with
  | ((i, false), c') =>
    refine (hu.distinct_perm (M.insert_false hi)).mpr ?_
    exact h
  | ((i, true), c') =>
    have hnew : ∀ b ∈ M.values c, ¬clash b a := hu.insert_iff.mp (congrArg (·.1.2) hi)
    refine (hu.distinct_perm (M.insert_true hi)).mpr (List.pairwise_cons.mpr ⟨fun b hb hc => ?_, h⟩)
    exact hnew b hb (hu.symm hc)

theorem rest_distinct (hu : M.Unique clash) (h : M.Distinct clash c)
    (hp : (M.elements c).Perm ((i, a) :: rest)) :
    (rest.map Prod.snd).Pairwise fun a b => ¬clash a b :=
  (List.pairwise_cons.mp ((hu.distinct_perm hp).mp h)).2

theorem erase_distinct (hu : M.Unique clash) (h : M.Distinct clash c) (ha : (i, a) ∈ M.elements c) :
    M.Distinct clash (M.erase i c) :=
  hu.rest_distinct h (M.erase_perm ha)

theorem modify_distinct (hu : M.Unique clash) (h : M.Distinct clash c) (ha : (i, a) ∈ M.elements c)
    (f : α → Except ε α) : M.Distinct clash (M.modify i f c).2 := by
  have ⟨rest, hp, hm⟩ := M.modify_modified f ha
  have hrest := hu.rest_distinct h hp
  match hr : M.modify i f c, hf : f a with
  | (.error e, c'), .error _ =>
    rw [hr, hf] at hm
    exact (hu.distinct_perm hm.2).mpr hrest
  | (.ok false, c'), .ok b =>
    rw [hr, hf] at hm
    exact (hu.distinct_perm hm).mpr hrest
  | (.ok true, c'), .ok b =>
    rw [hr, hf] at hm
    refine (hu.distinct_perm hm).mpr (List.pairwise_cons.mpr ⟨fun x hx hc => ?_, hrest⟩)
    obtain ⟨e, he, rfl⟩ := List.mem_map.mp hx
    -- The node is not among the others.
    have hne : e.1 ≠ i := by
      have hnodup := (hp.map Prod.fst).nodup_iff.mp (M.nodup c)
      exact fun hi => (List.nodup_cons.mp hnodup).1 (List.mem_map.mpr ⟨e, he, hi⟩)
    exact hu.modify_true ha hf hr e (hp.mem_iff.mpr (List.mem_cons_of_mem _ he)) hne (hu.symm hc)
  | (.error _, _), .ok _ => rw [hr, hf] at hm; cases hm
  | (.ok _, _), .error _ => rw [hr, hf] at hm; cases hm

end Unique

end Unique

end MultiIndex

-- A container with one unique index.
structure Nodes (α : Type) where
  next  : Nat
  nodes : List (Nat × α)
  nodup : (nodes.map Prod.fst).Nodup
  fresh : ∀ n ∈ nodes, n.1 < next

namespace Nodes

variable [DecidableEq κ] {c : Nodes α} {l : List (Nat × α)} {i : Nat} {a b : α}

def without (c : Nodes α) (i : Nat) : Nodes α where
  next  := c.next
  nodes := c.nodes.filter fun n => n.1 ≠ i
  nodup := c.nodup.sublist (List.filter_sublist.map _)
  fresh := fun n hn => c.fresh n (List.mem_of_mem_filter hn)

theorem perm_filter (hl : (l.map Prod.fst).Nodup) (h : (i, a) ∈ l) :
    l.Perm ((i, a) :: l.filter fun n => n.1 ≠ i) := by
  induction l
  case nil => cases h
  case cons e l hi =>
    have ⟨hne, hl⟩ := List.nodup_cons.mp hl
    cases h
    case head =>
      have hfilter : (l.filter fun n => n.1 ≠ i) = l := by
        refine List.filter_eq_self.mpr fun n hn => decide_eq_true fun he => hne ?_
        exact List.mem_map.mpr ⟨n, hn, he⟩
      rw [List.filter_cons_of_neg (by simp), hfilter]
    case tail h =>
      have he : e.1 ≠ i := fun he => hne (he ▸ List.mem_map_of_mem (f := Prod.fst) h)
      rw [List.filter_cons_of_pos (by simpa using he)]
      exact ((hi hl h).cons e).trans (.swap ..)

def updated (i : Nat) (b : α) (n : Nat × α) : Nat × α :=
  if n.1 = i then (i, b) else n

theorem updated_fst (n : Nat × α) : (updated i b n).1 = n.1 := by
  unfold updated
  split
  case isTrue h   => exact h.symm
  case isFalse    => rfl

def replace (c : Nodes α) (i : Nat) (b : α) : Nodes α where
  next  := c.next
  nodes := c.nodes.map (updated i b)
  nodup := by
    rw [List.map_map, show Prod.fst ∘ updated i b = Prod.fst from funext updated_fst]
    exact c.nodup
  fresh := by
    simp only [List.forall_mem_map, updated_fst]
    exact c.fresh

theorem perm_map (hl : (l.map Prod.fst).Nodup) (h : (i, a) ∈ l) :
    (l.map (updated i b)).Perm ((i, b) :: l.filter fun n => n.1 ≠ i) := by
  have hfilter : (l.filter fun n => n.1 ≠ i).map (updated i b) = l.filter fun n => n.1 ≠ i := by
    refine (List.map_congr_left fun n hn => ?_).trans (List.map_id _)
    exact if_neg (by simpa using List.of_mem_filter hn)
  have hperm := (perm_filter hl h).map (updated i b)
  rw [List.map_cons, hfilter] at hperm
  simpa [updated] using hperm

end Nodes

section UniqueIndex

variable [DecidableEq κ] (key : α → κ)

def Nodes.insert (a : α) (c : Nodes α) : (Nat × Bool) × Nodes α :=
  match c.nodes.find? fun n => key n.2 = key a with
  | some n => ((n.1, false), c)
  | none   => ((c.next, true), {
      next  := c.next + 1
      nodes := (c.next, a) :: c.nodes
      nodup := by
        refine List.nodup_cons.mpr ⟨fun h => ?_, c.nodup⟩
        have ⟨n, hn, he⟩ := List.mem_map.mp h
        exact Nat.lt_irrefl _ (he ▸ c.fresh n hn)
      fresh := List.forall_mem_cons.mpr ⟨Nat.lt_succ_self _, fun n hn => Nat.lt_succ_of_lt (c.fresh n hn)⟩
    })

def Nodes.modify (i : Nat) (f : α → Except ε α) (c : Nodes α) : Except ε Bool × Nodes α :=
  match c.nodes.lookup i with
  | none   => (.ok false, c)
  | some a =>
    match f a with
    | .error e => (.error e, c.without i)
    | .ok b    =>
      if c.nodes.any fun n => n.1 ≠ i ∧ key n.2 = key b then (.ok false, c.without i)
      else (.ok true, c.replace i b)

def uniqueIndex : MultiIndex (Nodes α) Nat α κ ε where
  elements := Nodes.nodes
  nodup    := Nodes.nodup
  empty    := ⟨0, [], List.nodup_nil, List.forall_mem_nil _⟩
  insert   := Nodes.insert key
  modify   := Nodes.modify key
  erase    := fun i c => c.without i
  find     := fun k c => (c.nodes.find? fun n => key n.2 = k).map Prod.fst
  elements_empty := rfl
  insert_true := by
    intro a c i c' h
    rw [Nodes.insert] at h
    split at h
    case h_1 => cases h
    case h_2 => cases h; exact .refl _
  insert_false := by
    intro a c i c' h
    rw [Nodes.insert] at h
    split at h
    case h_1 => cases h; exact .refl _
    case h_2 => cases h
  modify_modified := by
    intro i a c f h
    refine ⟨_, Nodes.perm_filter c.nodup h, ?_⟩
    simp only [Nodes.modify, MultiIndex.lookup_of_mem c.nodup h]
    cases f a
    case error e => exact ⟨rfl, .refl _⟩
    case ok b =>
      split
      case h_1 h => cases h
      case h_2 b' h =>
        cases h
        split_ifs
        case pos => exact .refl _
        case neg => exact Nodes.perm_map c.nodup h
  erase_perm := fun {_ _ c} h => Nodes.perm_filter c.nodup h
  find_mem := by
    intro k c i h
    have ⟨n, hn, hi⟩ := Option.map_eq_some_iff.mp h
    exact ⟨n.2, hi ▸ List.mem_of_find?_eq_some hn⟩

theorem uniqueIndex_unique : (uniqueIndex (ε := ε) key).Unique fun a b => key a = key b where
  symm       := Eq.symm
  insert_iff := by
    intro a c
    simp only [uniqueIndex, Nodes.insert, MultiIndex.values, List.forall_mem_map]
    cases hf : c.nodes.find? fun n => key n.2 = key a
    case none =>
      have hnone := List.find?_eq_none.mp hf
      simpa using hnone
    case some n =>
      have hn := List.mem_of_find?_eq_some hf
      have hk := List.find?_some hf
      simp only [Bool.false_eq_true, false_iff]
      exact fun h => h n hn (of_decide_eq_true hk)
  modify_true := by
    intro i a b c c' f ha hf hm e he hi hk
    have hany : (c.nodes.any fun n => n.1 ≠ i ∧ key n.2 = key b) = true :=
      List.any_eq_true.mpr ⟨e, he, decide_eq_true ⟨hi, hk⟩⟩
    simp only [uniqueIndex, Nodes.modify, MultiIndex.lookup_of_mem c.nodup ha, hf, hany] at hm
    cases hm

end UniqueIndex
