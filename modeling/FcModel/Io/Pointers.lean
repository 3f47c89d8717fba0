import FcModel.Io.Datastream

-- `datastream<const char*>` as three pointers. Its position can be moved anywhere in the address
-- space.

open Raw

structure PointerStream where
  bytes : Bytes
  start : UInt64
  pos   : UInt64
  -- The buffer does not reach beyond the last address.
  fits  : start.toNat + bytes.length < 2 ^ 64

namespace PointerStream

abbrev Action := EStateM Failure PointerStream

-- `_end`.
def stop (ds : PointerStream) : UInt64 :=
  ds.start + .ofNat ds.bytes.length

-- How far `_pos` is from `_start`.
def tellp (ds : PointerStream) : UInt64 :=
  ds.pos - ds.start

def remaining (ds : PointerStream) : UInt64 :=
  ds.stop - ds.pos

def skip (s : UInt64) : Action Unit :=
  modify fun ds => { ds with pos := ds.pos + s }

def seekp (p : UInt64) : Action Bool := do
  modify fun ds => { ds with pos := ds.start + p }
  return (← get).pos ≤ (← get).stop

-- Nothing is known about the memory outside of the buffer.
def read (s : UInt64) : Action Bytes := do
  let ds ← get
  if s ≤ ds.remaining then
    if s = 0 ∨ ds.tellp.toNat + s.toNat ≤ ds.bytes.length then
      set { ds with pos := ds.pos + s }
      return (ds.bytes.drop ds.tellp.toNat).take s.toNat
    else
      throw .access
  else
    throw .outOfRange

def getChar : Action UInt8 := do
  let ds ← get
  if ds.pos < ds.stop then
    match ds.bytes[ds.tellp.toNat]? with
    | some c => set { ds with pos := ds.pos + 1 }; return c
    | none   => throw .access
  else
    throw .outOfRange

inductive Call
  | skip (s : UInt64)
  | seekp (p : UInt64)
  | read (s : UInt64)
  | get
deriving DecidableEq, Repr

inductive Output
  | done
  | inRange (b : Bool)
  | bytes (bs : Bytes)
deriving DecidableEq, Repr

def step : Call → Action Output
  | .skip s  => do skip s; return .done
  | .seekp p => return .inRange (← seekp p)
  | .read s  => return .bytes (← read s)
  | .get     => return .bytes [← getChar]

-- A call delivers the bytes it wants if they are all in the buffer, and throws otherwise.
def Delivers (ds : PointerStream) (call : Call) : Option Bytes → Prop
  | some bs => ∃ ds', (step call).run ds = .ok (.bytes bs) ds'
  | none    => ∃ ds', (step call).run ds = .error .outOfRange ds'

def Bounded (ds : PointerStream) : Call → Prop
  | .skip _  => True
  | .seekp _ => True
  | .read s  => ds.Delivers (.read s) <|
    if s = 0 ∨ ds.tellp.toNat + s.toNat ≤ ds.bytes.length then some ((ds.bytes.drop ds.tellp.toNat).take s.toNat) else none
  | .get     => ds.Delivers .get (ds.bytes[ds.tellp.toNat]?.map ([·]))

-- The position is not beyond the end, or it is but so much is read that the difference of the
-- pointers is less. A single character is read through a comparison, which is deceived by a
-- position in front of the start only.
def Caught (ds : PointerStream) : Call → Prop
  | .skip _  => True
  | .seekp _ => True
  | .read s  => ds.tellp.toNat ≤ ds.bytes.length ∨ s = 0 ∨ 2 ^ 64 - (ds.tellp.toNat - ds.bytes.length) < s.toNat
  | .get     => ds.start ≤ ds.pos

variable {ds : PointerStream}

theorem toNat_stop : ds.stop.toNat = ds.start.toNat + ds.bytes.length := by
  have := ds.fits
  rw [stop, UInt64.toNat_add, UInt64.toNat_ofNat']
  omega

theorem toNat_tellp : ds.tellp.toNat = (2 ^ 64 + ds.pos.toNat - ds.start.toNat) % 2 ^ 64 := by
  have := ds.start.toNat_lt
  rw [tellp, UInt64.toNat_sub]
  omega

-- The position as an offset, which is how the other proofs about the stream see it.
def toDatastream (ds : PointerStream) : Datastream where
  bytes := ds.bytes
  pos   := ds.tellp.toNat

theorem toNat_remaining : ds.remaining.toNat = ds.toDatastream.remaining := by
  have := ds.fits
  have := ds.pos.toNat_lt
  rw [remaining, UInt64.toNat_sub, toNat_stop, Datastream.remaining, toDatastream, toNat_tellp]
  simp only
  split
  case isTrue  => omega
  case isFalse => omega

theorem read_inside {s : UInt64} (hs : s ≤ ds.remaining)
    (hi : s = 0 ∨ ds.tellp.toNat + s.toNat ≤ ds.bytes.length) :
    (read s).run ds = .ok ((ds.bytes.drop ds.tellp.toNat).take s.toNat) { ds with pos := ds.pos + s } := by
  simp only [read, EStateM.run_bind, EStateM.run_get, if_pos hs, if_pos hi]
  rfl

theorem read_outside {s : UInt64} (hs : s ≤ ds.remaining)
    (hi : ¬(s = 0 ∨ ds.tellp.toNat + s.toNat ≤ ds.bytes.length)) :
    (read s).run ds = .error .access ds := by
  simp only [read, EStateM.run_bind, EStateM.run_get, if_pos hs, if_neg hi]
  rfl

theorem read_short {s : UInt64} (hs : ¬s ≤ ds.remaining) :
    (read s).run ds = .error .outOfRange ds := by
  simp only [read, EStateM.run_bind, EStateM.run_get, if_neg hs]
  rfl

theorem getChar_inside {c : UInt8} (hs : ds.pos < ds.stop)
    (hc : ds.bytes[ds.tellp.toNat]? = some c) :
    getChar.run ds = .ok c { ds with pos := ds.pos + 1 } := by
  simp only [getChar, EStateM.run_bind, EStateM.run_get, if_pos hs, hc]
  rfl

theorem getChar_outside (hs : ds.pos < ds.stop) (hc : ds.bytes[ds.tellp.toNat]? = none) :
    getChar.run ds = .error .access ds := by
  simp only [getChar, EStateM.run_bind, EStateM.run_get, if_pos hs, hc]
  rfl

theorem getChar_short (hs : ¬ds.pos < ds.stop) : getChar.run ds = .error .outOfRange ds := by
  simp only [getChar, EStateM.run_bind, EStateM.run_get, if_neg hs]
  rfl

def Result.toDatastream {α : Type} : EStateM.Result Failure PointerStream α →
    EStateM.Result Failure Datastream α
  | .ok a ds    => .ok a ds.toDatastream
  | .error e ds => .error e ds.toDatastream

-- Reading from the pointers is reading at the offset.
theorem read_toDatastream {s : UInt64} {old : Bytes} (h : old.length = s.toNat) :
    (Datastream.read old).run ds.toDatastream = Result.toDatastream ((read s).run ds) := by
  have hle : old.length ≤ ds.toDatastream.remaining ↔ s ≤ ds.remaining := by
    rw [h, ← toNat_remaining, UInt64.le_iff_toNat_le]
  have hinside : (old.length = 0 ∨ ds.toDatastream.pos + old.length ≤ ds.toDatastream.bytes.length) ↔
      (s = 0 ∨ ds.tellp.toNat + s.toNat ≤ ds.bytes.length) := by
    rw [h, ← UInt64.toNat_inj]
    rfl
  simp only [Datastream.read, EStateM.run_bind, EStateM.run_get, hle, hinside]
  by_cases hs : s ≤ ds.remaining
  case neg => rw [if_neg hs, read_short hs]; rfl
  case pos =>
    rw [if_pos hs]
    by_cases hi : s = 0 ∨ ds.tellp.toNat + s.toNat ≤ ds.bytes.length
    case neg => rw [if_neg hi, read_outside hs hi]; rfl
    case pos =>
      have htellp : (tellp { ds with pos := ds.pos + s }).toNat = ds.tellp.toNat + s.toNat := by
        have := ds.fits
        have := ds.tellp.toNat_lt
        have hadd : ds.pos + s - ds.start = ds.tellp + s := by
          rw [tellp, UInt64.sub_eq_add_neg, UInt64.sub_eq_add_neg, UInt64.add_assoc,
            UInt64.add_assoc, UInt64.add_comm s]
        rw [tellp, hadd, UInt64.toNat_add]
        cases hi
        case inl hz => rw [hz]; simp
        case inr hl => omega
      have hmoved : toDatastream { ds with pos := ds.pos + s } = ⟨ds.bytes, ds.tellp.toNat + s.toNat⟩ :=
        congrArg (Datastream.mk ds.bytes) htellp
      rw [if_pos hi, read_inside hs hi, h, Result.toDatastream, hmoved]
      rfl

theorem read_bounded_iff (s : UInt64) : ds.Bounded (.read s) ↔ ds.Caught (.read s) := by
  have hrem : ds.remaining.toNat = if ds.tellp.toNat ≤ ds.bytes.length then ds.bytes.length - ds.tellp.toNat
      else 2 ^ 64 - (ds.tellp.toNat - ds.bytes.length) := toNat_remaining
  have := ds.tellp.toNat_lt
  have := s.toNat_lt
  simp only [Bounded, Caught]
  by_cases hi : s = 0 ∨ ds.tellp.toNat + s.toNat ≤ ds.bytes.length
  case pos =>
    -- What is in the buffer is delivered.
    have hs : s ≤ ds.remaining := by
      rw [UInt64.le_iff_toNat_le, hrem]
      cases hi
      case inl hz => rw [hz]; exact Nat.zero_le _
      case inr hl => rw [if_pos (by omega)]; omega
    have hcaught : ds.tellp.toNat ≤ ds.bytes.length ∨ s = 0 ∨ 2 ^ 64 - (ds.tellp.toNat - ds.bytes.length) < s.toNat := by
      cases hi
      case inl hz => exact .inr (.inl hz)
      case inr hl => exact .inl (by omega)
    rw [if_pos hi]
    refine iff_of_true ⟨{ ds with pos := ds.pos + s }, ?_⟩ hcaught
    rw [step, EStateM.run_bind, read_inside hs hi]
    rfl
  case neg =>
    have ⟨hz, hl⟩ := not_or.mp hi
    rw [if_neg hi]
    by_cases hs : s ≤ ds.remaining
    case pos =>
      have hle := UInt64.le_iff_toNat_le.mp hs
      rw [hrem] at hle
      have hpos : ¬ds.tellp.toNat ≤ ds.bytes.length := by
        intro hp
        rw [if_pos hp] at hle
        omega
      rw [if_neg hpos] at hle
      refine iff_of_false (fun ⟨ds', h⟩ => ?_) ?_
      · rw [step, EStateM.run_bind, read_outside hs hi] at h
        simp at h
      · simp only [hz, false_or, not_or]
        omega
    case neg =>
      have hlt : ds.remaining.toNat < s.toNat := by
        rw [UInt64.le_iff_toNat_le] at hs
        omega
      refine iff_of_true ⟨ds, by rw [step, EStateM.run_bind, read_short hs]⟩ ?_
      rw [hrem] at hlt
      by_cases hp : ds.tellp.toNat ≤ ds.bytes.length
      case pos => exact .inl hp
      case neg => rw [if_neg hp] at hlt; exact .inr (.inr hlt)

theorem get_bounded_iff : ds.Bounded .get ↔ ds.Caught .get := by
  have hfits := ds.fits
  have hlt : ds.pos < ds.stop ↔ ds.pos.toNat < ds.start.toNat + ds.bytes.length := by
    rw [UInt64.lt_iff_toNat_lt, toNat_stop]
  have htellp := @toNat_tellp ds
  have := ds.pos.toNat_lt
  simp only [Bounded, Caught, UInt64.le_iff_toNat_le]
  by_cases hpos : ds.start.toNat ≤ ds.pos.toNat
  case pos =>
    refine iff_of_true ?_ hpos
    by_cases hi : ds.tellp.toNat < ds.bytes.length
    case pos =>
      have hs : ds.pos < ds.stop := hlt.mpr (by omega)
      have hc := List.getElem?_eq_getElem hi
      rw [hc]
      refine ⟨{ ds with pos := ds.pos + 1 }, ?_⟩
      rw [step, EStateM.run_bind, getChar_inside hs hc]
      rfl
    case neg =>
      have hs : ¬ds.pos < ds.stop := by
        rw [hlt]
        omega
      rw [List.getElem?_eq_none (Nat.le_of_not_lt hi)]
      exact ⟨ds, by rw [step, EStateM.run_bind, getChar_short hs]⟩
  case neg =>
    -- The position is in front of the start, and less than the end.
    have hs : ds.pos < ds.stop := hlt.mpr (by omega)
    have hc : ds.bytes[ds.tellp.toNat]? = none := List.getElem?_eq_none (by omega)
    rw [hc]
    refine iff_of_false (fun ⟨ds', h⟩ => ?_) hpos
    rw [step, EStateM.run_bind, getChar_outside hs hc] at h
    simp at h

theorem bounded_iff_caught (call : Call) : ds.Bounded call ↔ ds.Caught call := by
  cases call
  case skip  => exact .rfl
  case seekp => exact .rfl
  case read  => exact read_bounded_iff _
  case get   => exact get_bounded_iff

-- All calls of a sequence are bounded exactly if each of them is made where a position outside of
-- the buffer is noticed.
theorem reading_bounded_iff (ds : PointerStream) (calls : List Call) :
    Machine.Admissible step Bounded ds calls ↔ Machine.Admissible step Caught ds calls := by
  induction calls generalizing ds
  case nil            => exact .rfl
  case cons c cs hi => exact and_congr (bounded_iff_caught c) (hi _)

-- A buffer of four bytes that is given as the addresses from `0x1000` on.
def fourBytes (pos : UInt64) : PointerStream where
  bytes := [1, 2, 3, 4]
  start := 0x1000
  pos   := pos
  fits  := by decide

-- The byte two bytes beyond the end is read.
theorem reading_beyond_end :
    ¬Machine.Admissible step Bounded (fourBytes 0x1000) [.skip 6, .read 1] ∧
      (read 1).run (Machine.after step (fourBytes 0x1000) [.skip 6]) = .error .access (fourBytes 0x1006) := by
  have hafter : Machine.after step (fourBytes 0x1000) [.skip 6] = fourBytes 0x1006 := rfl
  refine ⟨fun h => ?_, ?_⟩
  · have hcaught : (fourBytes 0x1006).Caught (.read 1) := (bounded_iff_caught _).mp h.2.1
    exact absurd hcaught (by decide : ¬(6 ≤ 4 ∨ (1 : UInt64) = 0 ∨ 2 ^ 64 - (6 - 4) < 1))
  · rw [hafter]
    exact read_outside (by decide) (by decide)

end PointerStream
