import FcModel.Io.Datastream

-- How much the decoders of the varints take from a stream, and by how much they shift.

namespace Raw

variable {σ α : Type}

-- A stream that is read from, with the bytes it has delivered and the amounts that were shifted by.
structure Trace (σ : Type) where
  stream : σ
  taken  : Bytes
  shifts : List Nat
deriving DecidableEq, Repr

def Trace.start (s : σ) : Trace σ :=
  ⟨s, [], []⟩

abbrev Traced (σ : Type) := EStateM Failure (Trace σ)

-- A `get` of the stream.
def traceGet (S : Source UInt8 Failure σ) : Traced σ UInt8 := fun t =>
  match S.get.run t.stream with
  | .ok b s    => .ok b { t with stream := s, taken := t.taken ++ [b] }
  | .error e s => .error e { t with stream := s }

def traceShift (by' : Nat) : Traced σ Unit :=
  modify fun t => { t with shifts := t.shifts ++ [by'] }

-- The loop of the two decoders, on a stream and with its trace. They differ in when another round
-- follows, in what the processor makes of the amount, and in what they return.
def traceVarint (S : Source UInt8 Failure σ) (more : UInt8 → Nat → Bool) (amount : Nat → Nat)
    (result : Nat → α) : Nat → (v by' : Nat) → Traced σ α
  | 0, _, _       => throw .fuel
  | n + 1, v, by' => do
    let b ← traceGet S
    traceShift by'
    let v := v ||| ((b &&& 0x7f).toNat <<< amount by') % 2 ^ 32
    if more b (by' + 7) then traceVarint S more amount result n v (by' + 7) else return result v

def moreUnsignedInt (b : UInt8) (by' : Nat) : Bool :=
  b &&& 0x80 ≠ 0 ∧ by' < 32

def traceUnsignedInt (S : Source UInt8 Failure σ) : Traced σ UInt32 :=
  traceVarint S moreUnsignedInt id .ofNat 5 0 0

def moreSignedInt (b : UInt8) (_ : Nat) : Bool :=
  b &&& 0x80 ≠ 0

def traceSignedInt (S : Source UInt8 Failure σ) (fuel : Nat) : Traced σ (BitVec 32) :=
  traceVarint S moreSignedInt (· % 32) (fun v => unzigzag (.ofNat 32 v)) fuel 0 0

-- The run of which the trace is not kept.
def Trace.forget : EStateM.Result Failure (Trace σ) α → EStateM.Result Failure σ α
  | .ok a t    => .ok a t.stream
  | .error e t => .error e t.stream

section Traces

variable {S : Source UInt8 Failure σ} {s s' : σ} {t : Trace σ} {b : UInt8} {e : Failure}
    {f : UInt8 → Unpacker α}

theorem traceGet_ok (h : S.get.run t.stream = .ok b s') :
    (traceGet S).run t = .ok b { t with stream := s', taken := t.taken ++ [b] } := by
  simp only [traceGet, EStateM.run] at h ⊢
  rw [h]

theorem traceGet_error (h : S.get.run t.stream = .error e s') :
    (traceGet S).run t = .error e { t with stream := s' } := by
  simp only [traceGet, EStateM.run] at h ⊢
  rw [h]

@[simp]
theorem traceShift_run (by' : Nat) :
    (traceShift by').run t = .ok () { t with shifts := t.shifts ++ [by'] } :=
  rfl

theorem run_get_ok (h : S.get.run s = .ok b s') :
    ((Decoder.get f).run S).run s = ((f b).run S).run s' := by
  simp only [Decoder.run, EStateM.run_bind, h]

theorem run_get_error (h : S.get.run s = .error e s') :
    ((Decoder.get f).run S).run s = .error e s' := by
  simp only [Decoder.run, EStateM.run_bind, h]

-- With the trace the loops do what the decoders do.

theorem forget_traceUnsignedInt_go (n v by' : Nat) (t : Trace σ) :
    Trace.forget ((traceVarint S moreUnsignedInt id .ofNat n v by').run t) =
      ((unpackUnsignedInt.go n v by').run S).run t.stream := by
  induction n generalizing v by' t
  case zero => rfl
  case succ n hi =>
    simp only [traceVarint, unpackUnsignedInt.go, EStateM.run_bind]
    cases hg : S.get.run t.stream
    case error e s => rw [traceGet_error hg, run_get_error hg]; rfl
    case ok b s =>
      simp only [traceGet_ok hg, traceShift_run, run_get_ok hg, moreUnsignedInt, decide_eq_true_iff,
        id]
      split
      case isTrue  => exact hi ..
      case isFalse => rfl

theorem forget_traceUnsignedInt (s : σ) :
    Trace.forget ((traceUnsignedInt S).run (.start s)) = (unpackUnsignedInt.run S).run s :=
  forget_traceUnsignedInt_go 5 0 0 (.start s)

theorem forget_traceSignedInt_go (n v by' : Nat) (t : Trace σ) :
    Trace.forget ((traceVarint S moreSignedInt (· % 32) (fun v => unzigzag (.ofNat 32 v)) n v by').run t) =
      ((unpackSignedInt.go n v by').run S).run t.stream := by
  induction n generalizing v by' t
  case zero => rfl
  case succ n hi =>
    simp only [traceVarint, unpackSignedInt.go, EStateM.run_bind]
    cases hg : S.get.run t.stream
    case error e s => rw [traceGet_error hg, run_get_error hg]; rfl
    case ok b s =>
      simp only [traceGet_ok hg, traceShift_run, run_get_ok hg, moreSignedInt, decide_eq_true_iff]
      split
      case isTrue  => exact hi ..
      case isFalse => rfl

theorem forget_traceSignedInt (fuel : Nat) (s : σ) :
    Trace.forget ((traceSignedInt S fuel).run (.start s)) = ((unpackSignedInt fuel).run S).run s :=
  forget_traceSignedInt_go fuel 0 0 (.start s)

end Traces

-- The stream delivers `n` bytes after each of which the loop goes on, and one more.
def Endures (S : Source UInt8 Failure σ) (more : UInt8 → Nat → Bool) : Nat → (by' : Nat) → σ → Prop
  | 0, _, s       => ∃ b s', S.get.run s = .ok b s'
  | n + 1, by', s => ∃ b s', S.get.run s = .ok b s' ∧ more b (by' + 7) ∧ Endures S more n (by' + 7) s'

-- Five bytes that all announce another one, which follows.
def Overlong (S : Source UInt8 Failure σ) (s : σ) : Prop :=
  Endures S moreSignedInt 5 0 s

section Bounds

variable {S : Source UInt8 Failure σ} {more : UInt8 → Nat → Bool} {amount : Nat → Nat}
    {result : Nat → α}
variable {n fuel v by' : Nat} {s : σ} {t : Trace σ}

-- What a run adds to a trace: at most `n` bytes, and shifts that begin with `by'` and are 7 apart.
structure Within (n by' : Nat) (t t' : Trace σ) : Prop where
  taken  : t'.taken.length ≤ t.taken.length + n
  shifts : ∀ k ∈ t'.shifts, k ∈ t.shifts ∨ k + 7 ≤ by' + 7 * n

theorem traceVarint_within (h : ¬Endures S more n by' t.stream) :
    Within n by' t (Machine.state ((traceVarint S more amount result fuel v by').run t)) := by
  induction fuel generalizing n v by' t
  case zero => exact ⟨Nat.le_add_right .., fun _ => .inl⟩
  case succ fuel hi =>
    simp only [traceVarint, EStateM.run_bind]
    cases hg : S.get.run t.stream
    case error e s => rw [traceGet_error hg]; exact ⟨Nat.le_add_right .., fun _ => .inl⟩
    case ok b s =>
      simp only [traceGet_ok hg, traceShift_run]
      cases n
      case zero => exact absurd ⟨b, s, hg⟩ h
      case succ n =>
        -- What this round adds to the trace.
        have hround : ∀ k ∈ t.shifts ++ [by'], k ∈ t.shifts ∨ k + 7 ≤ by' + 7 * (n + 1) := by
          intro k hk
          rcases List.mem_append.mp hk with hk | hk
          case inl => exact .inl hk
          case inr => rw [List.mem_singleton.mp hk]; exact .inr (by omega)
        split
        case isFalse => exact ⟨by simp [Machine.state], hround⟩
        case isTrue hm =>
          have hw := @hi n (v ||| ((b &&& 0x7f).toNat <<< amount by') % 2 ^ 32) (by' + 7)
            ⟨s, t.taken ++ [b], t.shifts ++ [by']⟩ fun he => h ⟨b, s, hg, hm, he⟩
          refine ⟨Nat.le_trans hw.taken (by simp; omega), fun k hk => ?_⟩
          rcases hw.shifts k hk with hk | hk
          case inl => exact hround k hk
          case inr => exact .inr (by omega)

-- A run that is long enough takes all the bytes after which the loop goes on.
theorem traceVarint_endures (h : Endures S more n by' t.stream) :
    (Machine.state ((traceVarint S more amount result (n + 1) v by').run t)).taken.length =
      t.taken.length + n + 1 := by
  induction n generalizing v by' t
  case zero =>
    obtain ⟨b, s, hg⟩ := h
    simp only [traceVarint, EStateM.run_bind, traceGet_ok hg, traceShift_run]
    split
    case isTrue  => simp [Machine.state, throw, EStateM.run, throwThe, MonadExceptOf.throw, EStateM.throw]
    case isFalse => simp [Machine.state]
  case succ n hi =>
    obtain ⟨b, s, hg, hm, he⟩ := h
    rw [traceVarint]
    simp only [EStateM.run_bind, traceGet_ok hg, traceShift_run, if_pos hm]
    rw [hi he]
    simp
    omega

-- More rounds than that make no difference to the decoder.
theorem unpackSignedInt_go_run (h : ¬Endures S moreSignedInt n by' s) (hf : n < fuel) :
    ((unpackSignedInt.go fuel v by').run S).run s = ((unpackSignedInt.go (n + 1) v by').run S).run s := by
  induction n generalizing fuel v by' s
  all_goals
    obtain ⟨fuel, rfl⟩ := Nat.exists_eq_add_of_lt hf
    cases hg : S.get.run s
  case zero.error | succ.error => rw [unpackSignedInt.go, unpackSignedInt.go, run_get_error hg, run_get_error hg]
  case zero.ok b s'       => exact absurd ⟨b, s', hg⟩ h
  case succ.ok n hi b s'  =>
    rw [unpackSignedInt.go, unpackSignedInt.go, run_get_ok hg, run_get_ok hg]
    simp only
    split
    case isFalse   => rfl
    case isTrue hm => exact hi (fun he => h ⟨b, s', hg, by simpa [moreSignedInt] using hm, he⟩) (by omega)

theorem not_endures_unsignedInt (hb : by' + 7 * n = 28) :
    ¬Endures S moreUnsignedInt (n + 1) by' s := by
  induction n generalizing by' s
  case zero =>
    intro ⟨b, s', _, hm, _⟩
    simp [moreUnsignedInt] at hm
    omega
  case succ n hi =>
    intro ⟨b, s', _, _, he⟩
    exact hi (by omega) he

theorem unpackUnsignedInt_go_eq (k : Nat) (hb : by' + 7 * n = 28) :
    unpackUnsignedInt.go (n + 1 + k) v by' = unpackUnsignedInt.go (n + 1) v by' := by
  induction n generalizing v by'
  all_goals
    rw [Nat.add_right_comm, unpackUnsignedInt.go, unpackUnsignedInt.go]
    refine congrArg Decoder.get (funext fun b => ?_)
    simp only
  case zero       => rw [if_neg fun h => by omega, if_neg fun h => by omega]
  case succ n hi  => rw [hi (by omega)]

-- At most five bytes are consumed, and no shift is by more than 28 bits.
structure Trace.Bounded (t : Trace σ) : Prop where
  taken  : t.taken.length ≤ 5
  shifts : ∀ k ∈ t.shifts, k ≤ 28

theorem Within.bounded {t : Trace σ} (h : Within 5 0 (.start s) t) : t.Bounded where
  taken  := Nat.le_trans h.taken (Nat.le_of_eq (Nat.zero_add 5))
  shifts := by
    intro k hk
    rcases h.shifts k hk with hk | hk
    case inl => cases hk
    case inr => omega

-- On the stream `S` in the state `s` neither decoder goes beyond these bounds, however long it
-- runs, and both end: more rounds than five or six make no difference.
structure VarintsBounded (S : Source UInt8 Failure σ) (s : σ) : Prop where
  unsignedInt     : (Machine.state ((traceUnsignedInt S).run (.start s))).Bounded
  unsignedIntEnds : ∀ k, unpackUnsignedInt.go (5 + k) 0 0 = unpackUnsignedInt
  signedInt       : ∀ fuel, (Machine.state ((traceSignedInt S fuel).run (.start s))).Bounded
  signedIntEnds   : ∀ fuel, 6 ≤ fuel →
    ((unpackSignedInt fuel).run S).run s = ((unpackSignedInt 6).run S).run s

-- The decoder of `signed_int` lacks the test that ends the loop of the other one.
theorem varintsBounded_iff (S : Source UInt8 Failure σ) (s : σ) : VarintsBounded S s ↔
    ¬Overlong S s := by
  constructor
  case mp =>
    intro h ho
    have ht := (h.signedInt 6).taken
    rw [traceSignedInt, traceVarint_endures (t := .start s) ho] at ht
    simp [Trace.start] at ht
  case mpr =>
    intro h
    exact {
      unsignedInt     := (traceVarint_within (not_endures_unsignedInt (n := 4) rfl)).bounded
      unsignedIntEnds := fun k => unpackUnsignedInt_go_eq (n := 4) k rfl
      signedInt       := fun fuel => (traceVarint_within (t := .start s) h).bounded
      signedIntEnds   := fun fuel hf => unpackSignedInt_go_run h hf
    }

-- Five bytes with the highest bit set, and a sixth one.
theorem not_varintsBounded_six :
    ¬VarintsBounded Datastream.source ⟨[0x80, 0x80, 0x80, 0x80, 0x80, 0], 0⟩ := by
  intro h
  exact absurd (h.signedInt 6).taken (by decide)

-- A `datastream` over a stream buffer never reports the end of its input. Where every byte that is
-- left announces another one, also where none is left, the decoder of `signed_int` does not end.
theorem signedInt_streambuf_endless {q : Bytes} (hq : ∀ b ∈ q, b &&& 0x80 ≠ 0) (fuel : Nat) :
    ∃ q', ((unpackSignedInt fuel).run StreambufStream.source).run q = .error .fuel q' := by
  suffices h : ∀ v by', ∃ q', ((unpackSignedInt.go fuel v by').run StreambufStream.source).run q = .error .fuel q' from
    h 0 0
  induction fuel generalizing q
  case zero => exact fun _ _ => ⟨q, rfl⟩
  case succ fuel hi =>
    intro v by'
    cases q
    case nil =>
      have hg : StreambufStream.source.get.run [] = .ok 0xff [] := rfl
      rw [unpackSignedInt.go, run_get_ok hg]
      exact hi hq _ _
    case cons b q =>
      have hg : StreambufStream.source.get.run (b :: q) = .ok b q := rfl
      rw [unpackSignedInt.go, run_get_ok hg]
      simp only [if_pos (hq b (List.mem_cons_self ..))]
      exact hi (fun b hb => hq b (List.mem_cons_of_mem _ hb)) _ _

end Bounds

end Raw
