import Mathlib

-- Documents made of nested containers, and the events that a parser reports while it reads one.

namespace Sax

variable {β σ : Type}

inductive Document (β σ : Type)
  | basic (v : β)
  | string (s : σ)
  | array (elements : List (Document β σ))
  | object (members : List (σ × Document β σ))

inductive Event (β σ : Type)
  | basic (v : β)
  | string (s : σ)
  | key (s : σ)
  | startObject
  | endObject
  | startArray
  | endArray

namespace Document

@[elab_as_elim]
theorem induct {P : Document β σ → Prop} (basic : ∀ v, P (.basic v)) (string : ∀ s, P (.string s))
    (array : ∀ es, (∀ d ∈ es, P d) → P (.array es))
    (object : ∀ ms, (∀ m ∈ ms, P m.2) → P (.object ms))
    (d : Document β σ) : P d :=
  @Document.rec β σ P (fun es => ∀ d ∈ es, P d) (fun ms => ∀ m ∈ ms, P m.2) (fun m => P m.2) basic string array object
    (fun _ h => by cases h) (fun _ _ hd hes => List.forall_mem_cons.mpr ⟨hd, hes⟩)
    (fun _ h => by cases h) (fun _ _ hm hms => List.forall_mem_cons.mpr ⟨hm, hms⟩)
    (fun _ _ h => h) d

mutual

def events : Document β σ → List (Event β σ)
  | basic v   => [.basic v]
  | string s  => [.string s]
  | array es  => .startArray :: (elementEvents es ++ [.endArray])
  | object ms => .startObject :: (memberEvents ms ++ [.endObject])

def elementEvents : List (Document β σ) → List (Event β σ)
  | []      => []
  | d :: es => events d ++ elementEvents es

def memberEvents : List (σ × Document β σ) → List (Event β σ)
  | []           => []
  | (k, d) :: ms => .key k :: (events d ++ memberEvents ms)

end

mutual

-- How many containers are in each other.
def nesting : Document β σ → Nat
  | basic _   => 0
  | string _  => 0
  | array es  => 1 + elementNesting es
  | object ms => 1 + memberNesting ms

def elementNesting : List (Document β σ) → Nat
  | []      => 0
  | d :: es => max (nesting d) (elementNesting es)

def memberNesting : List (σ × Document β σ) → Nat
  | []           => 0
  | (_, d) :: ms => max (nesting d) (memberNesting ms)

end

end Document

namespace Event

def weight : Event β σ → Int
  | startObject => 1
  | startArray  => 1
  | endObject   => -1
  | endArray    => -1
  | _           => 0

end Event

-- How many containers are open after some events.
def level (es : List (Event β σ)) : Int :=
  (es.map Event.weight).sum

section Level

variable {n : Int} {p l l' : List (Event β σ)}

@[simp]
theorem level_nil : level ([] : List (Event β σ)) = 0 :=
  rfl

@[simp]
theorem level_cons (e : Event β σ) (l : List (Event β σ)) : level (e :: l) = e.weight + level l :=
  rfl

@[simp]
theorem level_append (l l' : List (Event β σ)) : level (l ++ l') = level l + level l' := by
  rw [level, level, level, List.map_append, List.sum_append]

-- The level stays between `0` and `n` at all times, and is `0` in the end.
structure Balanced (n : Int) (l : List (Event β σ)) : Prop where
  bounds  : ∀ p, p <+: l → 0 ≤ level p ∧ level p ≤ n
  settled : level l = 0

namespace Balanced

theorem nonneg (h : Balanced n l) : 0 ≤ n :=
  (h.bounds [] (List.nil_prefix)).2

theorem nil (hn : 0 ≤ n) : Balanced n ([] : List (Event β σ)) where
  bounds p hp := by
    rw [List.prefix_nil.mp hp]
    exact ⟨le_rfl, hn⟩
  settled := rfl

theorem mono {m : Int} (h : Balanced n l) (hm : n ≤ m) : Balanced m l where
  bounds p hp := ⟨(h.bounds p hp).1, (h.bounds p hp).2.trans hm⟩
  settled := h.settled

theorem append (h : Balanced n l) (h' : Balanced n l') : Balanced n (l ++ l') where
  bounds p hp := by
    cases List.prefix_or_prefix_of_prefix hp (List.prefix_append l l')
    case inl hl => exact h.bounds p hl
    case inr hl =>
      obtain ⟨t, rfl⟩ := hl
      rw [level_append, h.settled, zero_add]
      exact h'.bounds t ((List.prefix_append_right_inj l).mp hp)
  settled := by rw [level_append, h.settled, h'.settled, zero_add]

-- An event that is neither the start nor the end of a container.
theorem cons (h : Balanced n l) {e : Event β σ} (he : e.weight = 0) : Balanced n (e :: l) where
  bounds p hp := by
    cases List.prefix_cons_iff.mp hp
    case inl hp => rw [hp]; exact ⟨le_rfl, h.nonneg⟩
    case inr hp =>
      obtain ⟨t, rfl, ht⟩ := hp
      rw [level_cons, he, zero_add]
      exact h.bounds t ht
  settled := by rw [level_cons, he, zero_add, h.settled]

theorem container (h : Balanced n l) {e e' : Event β σ} (he : e.weight = 1) (he' : e'.weight = -1) :
    Balanced (1 + n) (e :: (l ++ [e'])) where
  bounds p hp := by
    have hn := h.nonneg
    cases List.prefix_cons_iff.mp hp
    case inl hp => rw [hp, level_nil]; omega
    case inr hp =>
      obtain ⟨t, rfl, ht⟩ := hp
      rw [level_cons, he]
      cases List.prefix_concat_iff.mp ht
      case inl ht => rw [ht, level_append, h.settled, level_cons, he', level_nil]; omega
      case inr ht =>
        have := h.bounds t ht
        omega
  settled := by rw [level_cons, level_append, h.settled, level_cons, he, he']; rfl

end Balanced

end Level

namespace Document

variable {d : Document β σ}

theorem elementEvents_balanced {es : List (Document β σ)}
    (h : ∀ d ∈ es, Balanced d.nesting d.events) :
    Balanced (elementNesting es) (elementEvents es) := by
  induction es
  case nil => rw [elementEvents]; exact .nil (Int.natCast_nonneg _)
  case cons d es hi =>
    obtain ⟨hd, hes⟩ := List.forall_mem_cons.mp h
    rw [elementEvents, elementNesting, Nat.cast_max]
    exact (hd.mono (le_max_left ..)).append ((hi hes).mono (le_max_right ..))

theorem memberEvents_balanced {ms : List (σ × Document β σ)}
    (h : ∀ m ∈ ms, Balanced m.2.nesting m.2.events) :
    Balanced (memberNesting ms) (memberEvents ms) := by
  induction ms
  case nil => rw [memberEvents]; exact .nil (Int.natCast_nonneg _)
  case cons m ms hi =>
    obtain ⟨hm, hms⟩ := List.forall_mem_cons.mp h
    obtain ⟨k, d⟩ := m
    rw [memberEvents, memberNesting, Nat.cast_max]
    exact ((hm.mono (le_max_left ..)).append ((hi hms).mono (le_max_right ..))).cons rfl

theorem events_balanced (d : Document β σ) : Balanced d.nesting d.events := by
  induction d using Document.induct
  case basic v     => rw [events]; exact (Balanced.nil (Int.natCast_nonneg _)).cons rfl
  case string s    => rw [events]; exact (Balanced.nil (Int.natCast_nonneg _)).cons rfl
  case array es h  => rw [events, nesting, Nat.cast_add]; exact (elementEvents_balanced h).container rfl rfl
  case object ms h => rw [events, nesting, Nat.cast_add]; exact (memberEvents_balanced h).container rfl rfl

-- The container that a document is stays open until its last event.
theorem level_pos {p : List (Event β σ)} {e : Event β σ} (h : p ++ [e] <+: d.events) (hp : p ≠ []) :
    1 ≤ level p := by
  have hcontainer {n : Int} {l : List (Event β σ)} {s t : Event β σ} (hl : Balanced n l) (hs : s.weight = 1)
      (h : p ++ [e] <+: s :: (l ++ [t])) : 1 ≤ level p := by
    obtain ⟨s', p', rfl⟩ := List.exists_cons_of_ne_nil hp
    obtain ⟨hs', h⟩ := List.cons_prefix_cons.mp h
    have hpl : p' <+: l := by
      cases List.prefix_concat_iff.mp h
      case inl h => exact (List.append_inj' h rfl).1 ▸ List.prefix_rfl
      case inr h => exact (List.prefix_append p' [e]).trans h
    rw [level_cons, hs', hs]
    have := (hl.bounds p' hpl).1
    omega
  have hsingle {s : Event β σ} (h : p ++ [e] <+: [s]) : 1 ≤ level p := by
    have hle := h.length_le
    have := List.length_pos_iff.mpr hp
    rw [List.length_append, List.length_singleton, List.length_singleton] at hle
    omega
  cases d
  case basic v   => rw [events] at h; exact hsingle h
  case string v  => rw [events] at h; exact hsingle h
  case array es  => rw [events] at h; exact hcontainer (elementEvents_balanced fun d _ => d.events_balanced) rfl h
  case object ms => rw [events] at h; exact hcontainer (memberEvents_balanced fun m _ => m.2.events_balanced) rfl h

end Document

end Sax
