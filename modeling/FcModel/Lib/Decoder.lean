import FcModel.Lib.Machine
import FcModel.Lib.Encoder

-- Programs that read from a stream, as the trees of the calls they make on it, and the streams they
-- run on. What such a program does is fixed by the tree, whatever stream it is run on.

-- What memory is asked for: the symbols of a text, elements, or the entries of a record.
inductive Memory
  | symbols
  | elements
  | entries
deriving DecidableEq, Repr

-- `read old` asks for as many symbols as `old` has and is given the place they go to, which holds
-- `old`. `get` asks for one symbol. `reserve m n` asks for memory for `n` of `m` and reads nothing.
inductive Decoder (β ε α : Type)
  | pure (a : α)
  | throw (e : ε)
  | read (old : List β) (k : List β → Decoder β ε α)
  | get (k : β → Decoder β ε α)
  | reserve (m : Memory) (n : Nat) (k : Decoder β ε α)

namespace Decoder

variable {β ε α γ σ : Type}

def bind : Decoder β ε α → (α → Decoder β ε γ) → Decoder β ε γ
  | pure a, f        => f a
  | throw e, _       => throw e
  | read old k, f    => read old fun bs => (k bs).bind f
  | get k, f         => get fun b => (k b).bind f
  | reserve m n k, f => reserve m n (k.bind f)

instance : Monad (Decoder β ε) where
  pure := pure
  bind := bind

theorem bind_assoc {δ : Type} (x : Decoder β ε α) (f : α → Decoder β ε γ) (g : γ → Decoder β ε δ) :
    x >>= f >>= g = x >>= fun a => f a >>= g := by
  induction x
  case pure          => rfl
  case throw         => rfl
  case read old k hi => exact congrArg (Decoder.read old) (funext hi)
  case get k hi      => exact congrArg Decoder.get (funext hi)
  case reserve m n k hi => exact congrArg (Decoder.reserve m n) hi

def check (p : Prop) [Decidable p] (e : ε) : Decoder β ε Unit :=
  if p then return else throw e

theorem check_bind {p : Prop} [Decidable p] {e : ε} {f : Unit → Decoder β ε α} :
    (check p e >>= f) = if p then f () else throw e := by
  by_cases h : p <;> simp only [check, h] <;> rfl

end Decoder

-- A stream a decoder can be run on.
structure Source (β ε σ : Type) where
  read : List β → EStateM ε σ (List β)
  get  : EStateM ε σ β

namespace Decoder

variable {β ε α γ σ : Type}

def run (S : Source β ε σ) : Decoder β ε α → EStateM ε σ α
  | pure a        => return a
  | throw e       => EStateM.throw e
  | read old k    => do (k (← S.read old)).run S
  | get k         => do (k (← S.get)).run S
  | reserve _ _ k => k.run S

-- The reference: the decoder runs on the list of the symbols that are left in the stream, is given
-- exactly what it asks for, and fails with `short` when there is less than that.
def parse (short : ε) : Decoder β ε α → List β → Except ε (α × List β)
  | pure a, q        => .ok (a, q)
  | throw e, _       => .error e
  | read old k, q    =>
    if old.length ≤ q.length then (k (q.take old.length)).parse short (q.drop old.length)
    else .error short
  | get _, []        => .error short
  | get k, b :: q    => (k b).parse short q
  | reserve _ _ k, q => k.parse short q

variable {short : ε} {x : Decoder β ε α} {f : α → Decoder β ε γ} {q r : List β} {a : α}

@[simp]
theorem parse_pure : (Pure.pure a : Decoder β ε α).parse short q = .ok (a, q) :=
  rfl

theorem parse_bind :
    (x >>= f).parse short q = (x.parse short q).bind fun (a, r) => (f a).parse short r := by
  induction x generalizing q
  case pure         => rfl
  case throw        => rfl
  case reserve hi   => exact hi
  case read old k hi =>
    change (Decoder.read old fun bs => k bs >>= f).parse short q = _
    simp only [parse]
    split
    case isTrue   => exact hi _
    case isFalse  => rfl
  case get k hi =>
    cases q
    case nil  => rfl
    case cons => exact hi _

theorem parse_bind_ok (h : x.parse short q = .ok (a, r)) :
    (x >>= f).parse short q = (f a).parse short r := by
  rw [parse_bind, h]; rfl

theorem parse_bind_error {e : ε} (h : x.parse short q = .error e) :
    (x >>= f).parse short q = .error e := by
  rw [parse_bind, h]; rfl

theorem parse_bind_eq_ok {c : γ} (h : (x >>= f).parse short q = .ok (c, r)) :
    ∃ a t, x.parse short q = .ok (a, t) ∧ (f a).parse short t = .ok (c, r) := by
  rw [parse_bind] at h
  cases hx : x.parse short q
  case error  => simp [hx, Except.bind] at h
  case ok at' => exact ⟨at'.1, at'.2, rfl, by simpa [hx, Except.bind] using h⟩

-- A decoder that succeeds has looked at what it consumed and at nothing else.
theorem parse_consumes (h : x.parse short q = .ok (a, r)) :
    ∃ p, q = p ++ r ∧ ∀ t, x.parse short (p ++ t) = .ok (a, t) := by
  induction x generalizing q
  case pure =>
    simp only [parse, Except.ok.injEq, Prod.mk.injEq] at h
    have ⟨ha, hq⟩ := h
    exact ⟨[], hq, fun t => by rw [← ha]; rfl⟩
  case throw      => cases h
  case reserve hi => exact hi h
  case read old k hi =>
    simp only [parse] at h
    split at h
    case isFalse => cases h
    case isTrue hl =>
      have ⟨p, hp, ht⟩ := hi _ h
      have hlen : (q.take old.length).length = old.length := by
        rw [List.length_take, Nat.min_eq_left hl]
      refine ⟨q.take old.length ++ p, ?_, fun t => ?_⟩
      case refine_1 => rw [List.append_assoc, ← hp, List.take_append_drop]
      case refine_2 =>
        have hle : old.length ≤ (q.take old.length ++ (p ++ t)).length := by
          rw [List.length_append, hlen]
          exact Nat.le_add_right ..
        simp only [parse, List.append_assoc, if_pos hle, List.take_left' hlen, List.drop_left' hlen,
          ht]
  case get k hi =>
    cases q
    case nil => cases h
    case cons b q =>
      have ⟨p, hp, ht⟩ := hi b h
      exact ⟨b :: p, by rw [hp]; rfl, ht⟩

theorem parse_length_le (h : x.parse short q = .ok (a, r)) : r.length ≤ q.length := by
  have ⟨p, hp, _⟩ := parse_consumes h
  simp [hp]

section Loops

-- Decodes once for each element of a list, into that element.
def each (f : α → Decoder β ε α) : List α → Decoder β ε (List α)
  | []      => return []
  | a :: as => do
    let a'  ← f a
    let as' ← each f as
    return a' :: as'

-- Decodes `n` times and adds every result to an accumulator.
def fold (x : Decoder β ε α) (g : γ → α → γ) : Nat → γ → Decoder β ε γ
  | 0, c     => return c
  | n + 1, c => do
    let a ← x
    fold x g n (g c a)

-- Decodes a tuple component by component.
def pi : {n : Nat} → {δ : Fin n → Type} → (∀ i, Decoder β ε (δ i)) → Decoder β ε (∀ i, δ i)
  | 0, _, _     => return fun i => i.elim0
  | n + 1, δ, x => do
    let d  ← x (.first n)
    let ds ← pi (δ := fun i => δ i.succ) fun i => x i.succ
    return Fin.cons d ds

end Loops

section Requests

variable {P : Memory → Nat → Prop} {x : Decoder β ε α}

-- The memory a decoder asks for while it runs on the list of the symbols that are left.
def requests : Decoder β ε α → List β → List (Memory × Nat)
  | pure _, _        => []
  | throw _, _       => []
  | read old k, q    => if old.length ≤ q.length then (k (q.take old.length)).requests (q.drop old.length) else []
  | get _, []        => []
  | get k, b :: q    => (k b).requests q
  | reserve m n k, q => (m, n) :: k.requests q

-- Whatever a decoder reads, it only asks for memory that satisfies `P`.
def Asks (P : Memory → Nat → Prop) : Decoder β ε α → Prop
  | pure _        => True
  | throw _       => True
  | read _ k      => ∀ bs, (k bs).Asks P
  | get k         => ∀ b, (k b).Asks P
  | reserve m n k => P m n ∧ k.Asks P

namespace Asks

theorem of_mem_requests (h : x.Asks P) {q : List β} {r : Memory × Nat} (hr : r ∈ x.requests q) :
    P r.1 r.2 := by
  induction x generalizing q
  case pure  => cases hr
  case throw => cases hr
  case read old k hi =>
    rw [requests] at hr
    split at hr
    case isTrue  => exact hi _ (h _) hr
    case isFalse => cases hr
  case get k hi =>
    cases q
    case nil      => cases hr
    case cons b q => exact hi b (h b) hr
  case reserve m n k hi =>
    cases List.mem_cons.mp hr
    case inl hr => exact hr ▸ h.1
    case inr hr => exact hi h.2 hr

theorem bind {f : α → Decoder β ε γ} (hx : x.Asks P) (hf : ∀ a, (f a).Asks P) :
    (x >>= f).Asks P := by
  induction x
  case pure a       => exact hf a
  case throw        => trivial
  case read old k hi => exact fun bs => hi bs (hx bs)
  case get k hi     => exact fun b => hi b (hx b)
  case reserve hi   => exact ⟨hx.1, hi hx.2⟩

theorem check_bind {p : Prop} [Decidable p] {e : ε} {f : Unit → Decoder β ε γ}
    (hf : p → (f ()).Asks P) :
    (check p e >>= f).Asks P := by
  rw [Decoder.check_bind]
  split
  case isTrue h => exact hf h
  case isFalse  => trivial

theorem each {f : α → Decoder β ε α} (hf : ∀ a, (f a).Asks P) (as : List α) :
    (Decoder.each f as).Asks P := by
  induction as
  case nil          => trivial
  case cons a as hi => exact (hf a).bind fun _ => hi.bind fun _ => trivial

theorem fold {g : γ → α → γ} (hx : x.Asks P) (n : Nat) (c : γ) : (Decoder.fold x g n c).Asks P := by
  induction n generalizing c
  case zero      => trivial
  case succ n hi => exact hx.bind fun _ => hi _

theorem pi {n : Nat} {δ : Fin n → Type} {x : ∀ i, Decoder β ε (δ i)} (hx : ∀ i, (x i).Asks P) :
    (Decoder.pi x).Asks P := by
  induction n
  case zero      => trivial
  case succ n hi => exact (hx _).bind fun _ => (hi fun i => hx i.succ).bind fun _ => trivial

end Asks

end Requests

end Decoder

section Streams

variable {β ε σ α : Type}

-- A stream on which a decoder behaves as it does on the list of the symbols that are left: `rel s
-- q` says that `q` is left in the state `s`.
structure Source.Checked (S : Source β ε σ) (short : ε) (rel : σ → List β → Prop) : Prop where
  read      : ∀ {s q old}, rel s q → old.length ≤ q.length →
    ∃ s', (S.read old).run s = .ok (q.take old.length) s' ∧ rel s' (q.drop old.length)
  readShort : ∀ {s q} old, rel s q → q.length < old.length → ∃ s', (S.read old).run s = .error short s'
  get       : ∀ {s b q}, rel s (b :: q) → ∃ s', S.get.run s = .ok b s' ∧ rel s' q
  getShort  : ∀ {s}, rel s [] → ∃ s', S.get.run s = .error short s'

-- The result of a run, compared with that of the reference.
inductive Source.Agree (rel : σ → List β → Prop) :
    Except ε (α × List β) → EStateM.Result ε σ α → Prop
  | ok {a q s} (h : rel s q) : Agree rel (.ok (a, q)) (.ok a s)
  | error {e s} : Agree rel (.error e) (.error e s)

theorem Source.Checked.run {S : Source β ε σ} {short : ε} {rel : σ → List β → Prop}
    (h : S.Checked short rel) (x : Decoder β ε α) {s : σ} {q : List β} (hr : rel s q) :
    Source.Agree rel (x.parse short q) ((x.run S).run s) := by
  induction x generalizing s q
  case pure       => exact .ok hr
  case throw      => exact .error
  case reserve hi => exact hi hr
  case read old k hi =>
    simp only [Decoder.run, Decoder.parse, EStateM.run_bind]
    split
    case isTrue hl =>
      have ⟨s', hs, hr'⟩ := h.read hr hl
      simp only [hs]
      exact hi _ hr'
    case isFalse hl =>
      have ⟨s', hs⟩ := h.readShort old hr (Nat.lt_of_not_le hl)
      simp only [hs]
      exact .error
  case get k hi =>
    simp only [Decoder.run, EStateM.run_bind]
    cases q
    case nil =>
      have ⟨s', hs⟩ := h.getShort hr
      simp only [hs]
      exact .error
    case cons b q =>
      have ⟨s', hs, hr'⟩ := h.get hr
      simp only [hs]
      exact hi _ hr'

-- What the calls on a stream preserve, a decoder preserves.
theorem Decoder.run_invariant {S : Source β ε σ} {P : σ → Prop}
    (hread : ∀ old s, P s → P (Machine.state ((S.read old).run s)))
    (hget : ∀ s, P s → P (Machine.state (S.get.run s))) (x : Decoder β ε α) {s : σ} (hs : P s) :
    P (Machine.state ((x.run S).run s)) := by
  induction x generalizing s
  case pure       => exact hs
  case throw      => exact hs
  case reserve hi => exact hi hs
  case read old k hi =>
    have h := hread old s hs
    simp only [Decoder.run, EStateM.run_bind]
    cases hr : (S.read old).run s
    case ok     => rw [hr] at h; exact hi _ h
    case error  => rw [hr] at h; exact h
  case get k hi =>
    have h := hget s hs
    simp only [Decoder.run, EStateM.run_bind]
    cases hr : S.get.run s
    case ok     => rw [hr] at h; exact hi _ h
    case error  => rw [hr] at h; exact h

end Streams
