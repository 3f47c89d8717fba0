import Mathlib

-- Block ciphers: Feistel networks, and how a cipher of blocks is made one of sequences of blocks.

namespace BlockCipher

-- The only law of `^^^` that ciphers rest on.
class Cancels (α : Type) [XorOp α] : Prop where
  xor_cancel : ∀ a b : α, a ^^^ b ^^^ b = a

export Cancels (xor_cancel)

section Feistel

variable {α : Type} [XorOp α] (f : α → α) {k : α} {ks : List α} {b : α × α}

-- One half is changed by what `f` makes of the other one, and the halves change places.
def round (b : α × α) (k : α) : α × α :=
  (b.2 ^^^ (f b.1 ^^^ k), b.1)

def rounds (ks : List α) (b : α × α) : α × α :=
  ks.foldl (round f) b

-- The rounds stand between two keys that are added to one half alone. The halves do not change
-- places after the last round.
def network (first : α) (ks : List α) (last : α) (b : α × α) : α × α :=
  let b := rounds f ks (b.1 ^^^ first, b.2)
  (b.2 ^^^ last, b.1)

variable [Cancels α]

theorem swap_round : (round f (round f b k).swap k).swap = b := by
  simp [round, xor_cancel]

variable (ks) in
theorem rounds_swap_rounds : rounds f ks.reverse (rounds f ks b).swap = b.swap := by
  induction ks generalizing b
  case nil          => rfl
  case cons k ks hi =>
    have hs : rounds f (k :: ks) b = rounds f ks (round f b k) := rfl
    have hr : ∀ c, rounds f (k :: ks).reverse c = round f (rounds f ks.reverse c) k := by
      intro c
      simp [rounds]
    rw [hs, hr, hi, ← swap_round f (k := k) (b := b), Prod.swap_swap, swap_round]

-- The network with its keys in the other order takes back what it has done, whatever `f` is.
theorem network_network (first last : α) :
    network f last ks.reverse first (network f first ks last b) = b := by
  have h := rounds_swap_rounds f ks (b := (b.1 ^^^ first, b.2))
  simp only [Prod.swap_prod_mk] at h
  have hc : ((network f first ks last b).1 ^^^ last, (network f first ks last b).2) =
      (rounds f ks (b.1 ^^^ first, b.2)).swap := by
    simp [network, xor_cancel]
    rfl
  rw [network, hc, h]
  simp [xor_cancel]

end Feistel

-- A mode of operation turns each block into one block and keeps a state along the sequence.
abbrev Mode (σ β : Type) := σ → β → σ × β

namespace Mode

variable {σ β : Type}

def run (m : Mode σ β) : σ → List β → List β
  | _, []      => []
  | s, b :: bs => (m s b).2 :: run m (m s b).1 bs

-- The state that is left behind the sequence.
def final (m : Mode σ β) : σ → List β → σ
  | s, []      => s
  | s, b :: bs => final m (m s b).1 bs

variable {m m' : Mode σ β} {s : σ} {bs cs : List β}

@[simp]
theorem length_run : (m.run s bs).length = bs.length := by
  induction bs generalizing s
  case nil        => rfl
  case cons hi    => simp [run, hi]

-- A sequence can be cut, if the second part goes on from the state the first one leaves.
theorem run_append : m.run s (bs ++ cs) = m.run s bs ++ m.run (m.final s bs) cs := by
  induction bs generalizing s
  case nil      => rfl
  case cons hi  => simp [run, final, hi]

-- `m'` recovers the block, and it goes to the state that `m` goes to.
def Inverts (m' m : Mode σ β) : Prop :=
  ∀ s b, m' s (m s b).2 = ((m s b).1, b)

theorem Inverts.run (h : m'.Inverts m) : m'.run s (m.run s bs) = bs := by
  induction bs generalizing s
  case nil          => rfl
  case cons b _ hi  => simp [Mode.run, h s b, hi]

theorem Inverts.final (h : m'.Inverts m) : m'.final s (m.run s bs) = m.final s bs := by
  induction bs generalizing s
  case nil          => rfl
  case cons b _ hi  => simp [Mode.run, Mode.final, h s b, hi]

end Mode

section Modes

variable {β : Type} (e d : β → β)

def ecb : Mode β β := fun s b => (s, e b)

theorem ecb_inverts {e d : β → β} (h : ∀ b, d (e b) = b) : (ecb d).Inverts (ecb e) := by
  intro s b
  simp [ecb, h]

variable [XorOp β]

def cbc : Mode β β := fun s b => (e (b ^^^ s), e (b ^^^ s))

def cbcInverse : Mode β β := fun s b => (b, d b ^^^ s)

def cfb : Mode β β := fun s b => (b ^^^ e s, b ^^^ e s)

-- Both directions use the encryption of blocks.
def cfbInverse : Mode β β := fun s b => (b, b ^^^ e s)

variable {e d} [Cancels β]

theorem cbcInverse_inverts (h : ∀ b, d (e b) = b) : (cbcInverse d).Inverts (cbc e) := by
  intro s b
  simp [cbc, cbcInverse, h, xor_cancel]

theorem cbc_inverts (h : ∀ b, e (d b) = b) : (cbc e).Inverts (cbcInverse d) := by
  intro s b
  simp [cbc, cbcInverse, h, xor_cancel]

theorem cfbInverse_inverts : (cfbInverse e).Inverts (cfb e) := by
  intro s b
  simp [cfb, cfbInverse, xor_cancel]

theorem cfb_inverts : (cfb e).Inverts (cfbInverse e) := by
  intro s b
  simp [cfb, cfbInverse, xor_cancel]

end Modes

end BlockCipher
