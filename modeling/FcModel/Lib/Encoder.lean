import Mathlib

-- Programs that write to a stream, as the sequences of the calls they make on it.

-- The position of the first component of a tuple.
abbrev Fin.first (n : Nat) : Fin (n + 1) := 0

inductive Encoder (β ε : Type)
  | done
  | throw (e : ε)
  | write (bs : List β) (k : Encoder β ε)

namespace Encoder

variable {β ε σ α : Type}

def append : Encoder β ε → Encoder β ε → Encoder β ε
  | done, y       => y
  | throw e, _    => throw e
  | write bs k, y => write bs (k.append y)

instance : Append (Encoder β ε) := ⟨append⟩

-- Encodes the elements of a list one after the other.
def each (f : α → Encoder β ε) : List α → Encoder β ε
  | []      => done
  | a :: as => f a ++ each f as

-- Encodes a tuple component by component.
def pi : {n : Nat} → (Fin n → Encoder β ε) → Encoder β ε
  | 0, _     => done
  | n + 1, x => x (.first n) ++ pi fun i => x i.succ

def guard (p : Prop) [Decidable p] (e : ε) : Encoder β ε :=
  if p then done else throw e

-- The symbols that are written, unless the program throws.
def bytes : Encoder β ε → Except ε (List β)
  | done       => .ok []
  | throw e    => .error e
  | write bs k => k.bytes.map (bs ++ ·)

end Encoder

-- A stream an encoder can be run on.
abbrev Sink (β ε σ : Type) := List β → EStateM ε σ Unit

namespace Encoder

variable {β ε σ α : Type}

def run (S : Sink β ε σ) : Encoder β ε → EStateM ε σ Unit
  | done       => return
  | throw e    => EStateM.throw e
  | write bs k => do
    S bs
    k.run S

variable {x y : Encoder β ε} {b : List β}

@[simp]
theorem bytes_done : (done : Encoder β ε).bytes = .ok [] :=
  rfl

theorem bytes_write_eq_ok {bs : List β} :
    (write bs x).bytes = .ok b ↔ ∃ t, x.bytes = .ok t ∧ b = bs ++ t := by
  simp only [bytes]
  cases x.bytes <;> simp [Except.map, eq_comm]

theorem append_done (x : Encoder β ε) : x ++ done = x := by
  change x.append done = x
  induction x
  case done           => rfl
  case throw          => rfl
  case write bs k hi  => rw [append, hi]

theorem bytes_append_eq_ok :
    (x ++ y).bytes = .ok b ↔ ∃ s t, x.bytes = .ok s ∧ y.bytes = .ok t ∧ b = s ++ t := by
  change (x.append y).bytes = _ ↔ _
  induction x generalizing b
  case done  => simp [append, eq_comm]
  case throw => simp [append, bytes]
  case write bs k hi =>
    simp only [append, bytes_write_eq_ok, hi]
    constructor
    case mp =>
      intro ⟨_, ⟨s, t, hs, ht, he⟩, hb⟩
      exact ⟨bs ++ s, t, ⟨s, hs, rfl⟩, ht, by rw [hb, he, List.append_assoc]⟩
    case mpr =>
      intro ⟨_, t, ⟨s, hs, he⟩, ht, hb⟩
      exact ⟨s ++ t, ⟨s, t, hs, ht, rfl⟩, by rw [hb, he, List.append_assoc]⟩

theorem bytes_append_of_ok (h : x.bytes = .ok b) : (x ++ y).bytes = y.bytes.map (b ++ ·) := by
  change (x.append y).bytes = _
  induction x generalizing b
  case done =>
    cases h
    cases hy : y.bytes <;> simp [append, hy, Except.map]
  case throw => cases h
  case write bs k hi =>
    obtain ⟨t, ht, rfl⟩ := bytes_write_eq_ok.mp h
    rw [append, bytes, hi ht]
    cases y.bytes <;> simp [Except.map]

theorem bytes_guard_eq_ok {p : Prop} [Decidable p] {e : ε} :
    (guard p e : Encoder β ε).bytes = .ok b ↔ p ∧ b = [] := by
  by_cases h : p <;> simp [guard, h, bytes, eq_comm]

end Encoder

section Streams

variable {β ε σ : Type}

-- A stream that takes what it is given, as long as there is room for it: `rel s b` says that `b`
-- was written to get to the state `s`.
structure Sink.Faithful (S : Sink β ε σ) (room : Nat → Prop) (rel : σ → List β → Prop) : Prop where
  mono  : ∀ {m n}, m ≤ n → room n → room m
  write : ∀ {s b} bs, rel s b → room (b ++ bs).length → ∃ s', (S bs).run s = .ok () s' ∧ rel s' (b ++ bs)

variable {S : Sink β ε σ} {room : Nat → Prop} {rel : σ → List β → Prop} {x : Encoder β ε}

theorem Sink.Faithful.run (h : S.Faithful room rel) {b c : List β} {s : σ} (hb : x.bytes = .ok b)
    (hr : rel s c) (hroom : room (c ++ b).length) :
    ∃ s', (x.run S).run s = .ok () s' ∧ rel s' (c ++ b) := by
  induction x generalizing b c s
  case done =>
    cases hb
    exact ⟨s, rfl, by rwa [List.append_nil]⟩
  case throw => cases hb
  case write bs k hi =>
    have ⟨t, ht, hb⟩ := Encoder.bytes_write_eq_ok.mp hb
    rw [hb, ← List.append_assoc] at hroom ⊢
    have ⟨s', hs, hr'⟩ := h.write bs hr (h.mono (by simp) hroom)
    have ⟨s'', hs', hr''⟩ := hi ht hr' hroom
    exact ⟨s'', by simp only [Encoder.run, EStateM.run_bind, hs, hs'], hr''⟩

theorem Sink.Faithful.run_error (h : S.Faithful (fun _ => True) rel) {e : ε} {c : List β} {s : σ}
    (he : x.bytes = .error e) (hr : rel s c) : ∃ s', (x.run S).run s = .error e s' := by
  induction x generalizing c s
  case done     => cases he
  case throw e' => cases he; exact ⟨s, rfl⟩
  case write bs k hi =>
    have hk : k.bytes = .error e := by
      simp only [Encoder.bytes] at he
      cases hk : k.bytes <;> simp_all [Except.map]
    have ⟨s', hs, hr'⟩ := h.write bs hr trivial
    have ⟨s'', hs'⟩ := hi hk hr'
    exact ⟨s'', by simp only [Encoder.run, EStateM.run_bind, hs, hs']⟩

end Streams
