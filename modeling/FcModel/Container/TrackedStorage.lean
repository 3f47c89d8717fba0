import FcModel.Lib.MultiIndex
import FcModel.Lib.Machine
import FcModel.Lib.Run
import FcModel.Raw.Scalar

-- `fc::tracked_storage`: a container that counts the memory of its elements. The container, the
-- size of an element and how elements are read from a file are those of its type parameter.

structure TrackedStorage (γ : Type) where
  memorySize : UInt64 := 0
  index      : γ

namespace TrackedStorage

variable {γ ι α κ ε δ : Type} [DecidableEq ι]

-- What the type of the elements provides: `tracked::memory_size`, and `raw::unpack` from a file,
-- which the number of elements is read with as well.
structure Tracked (α ε δ : Type) where
  memorySize : α → UInt64
  unpackSize : EStateM ε δ UInt64
  unpack     : EStateM ε δ α

variable (M : MultiIndex γ ι α κ ε) (T : Tracked α ε δ)

def insert (obj : α) : EStateM ε (TrackedStorage γ) (ι × Bool) := do
  let s ← get
  let size := T.memorySize obj
  let (result, index) := M.insert obj s.index
  set { s with index }
  if result.2 then
    modifyGet fun s => ((), { s with memorySize := s.memorySize + size })
  return result

-- `tracked::memory_size(*itr)`
def memorySizeAt (index : γ) (itr : ι) : UInt64 :=
  ((M.get index itr).map T.memorySize).getD 0

def find (key : κ) : EStateM ε (TrackedStorage γ) (Option ι) := do
  return M.find key (← get).index

-- The memory is given back before the element is modified, and an exception of `lam` is not caught.
def modify (itr : ι) (lam : α → Except ε α) : EStateM ε (TrackedStorage γ) Unit := do
  let s ← get
  let memorySize := s.memorySize - memorySizeAt M T s.index itr
  match M.modify itr lam s.index with
  | (.error e, index)  =>
    set { memorySize, index : TrackedStorage γ }
    throw e
  | (.ok true, index)  =>
    set { memorySize := memorySize + memorySizeAt M T index itr, index : TrackedStorage γ }
  | (.ok false, index) => set { memorySize, index : TrackedStorage γ }

def erase (itr : ι) : EStateM ε (TrackedStorage γ) Unit := do
  let s ← get
  set { memorySize := s.memorySize - memorySizeAt M T s.index itr, index :=
    M.erase itr s.index : TrackedStorage γ }

def eraseKey (key : κ) : EStateM ε (TrackedStorage γ) Unit := do
  match M.find key (← get).index with
  | none     => return ()
  | some itr => erase M T itr

-- The loop of `read`. Elements that were inserted before an exception stay in the storage.
def readLoop (maxMemory : UInt64) : Nat → δ → EStateM ε (TrackedStorage γ) (Bool × δ)
  | 0, ds     => return (true, ds)
  | n + 1, ds => do
    if maxMemory ≤ (← get).memorySize then
      return (false, ds)
    else
      match T.unpack.run ds with
      | .error e _ => throw e
      | .ok v ds   =>
        let _ ← insert M T v
        readLoop maxMemory n ds

def read (ds : δ) (maxMemory : UInt64) : EStateM ε (TrackedStorage γ) (Bool × δ) :=
  match T.unpackSize.run ds with
  | .error e _           => throw e
  | .ok containerSize ds => readLoop M T maxMemory containerSize.toNat ds

inductive Operation (ι α κ ε δ : Type)
  | insert (obj : α)
  | modify (itr : ι) (lam : α → Except ε α)
  | eraseKey (key : κ)
  | erase (itr : ι)
  | read (ds : δ) (maxMemory : UInt64)

inductive Output (ι δ : Type)
  | inserted (itr : ι) (isNew : Bool)
  | done
  | read (complete : Bool) (ds : δ)

def step : Operation ι α κ ε δ → EStateM ε (TrackedStorage γ) (Output ι δ)
  | .insert obj        => do let (itr, isNew) ← insert M T obj; return .inserted itr isNew
  | .modify itr lam    => do modify M T itr lam; return .done
  | .eraseKey key      => do eraseKey M T key; return .done
  | .erase itr         => do erase M T itr; return .done
  | .read ds maxMemory => do let (complete, ds) ← read M T ds maxMemory; return .read complete ds

-- An iterator has to be one of the index.
def admissible (s : TrackedStorage γ) : Operation ι α κ ε δ → Prop
  | .modify itr _ | .erase itr => ∃ a, (itr, a) ∈ M.elements s.index
  | _                          => True

section Accounting

-- The memory of all the elements.
def total (index : γ) : Nat :=
  ((M.elements index).map fun e => (T.memorySize e.2).toNat).sum

-- A counter of type `size_t` that has counted to `n`.
def Counts (counter : UInt64) (n : Nat) : Prop :=
  counter.toNat = n % 2 ^ 64

theorem Counts.add {counter : UInt64} {n : Nat} (h : Counts counter n) (size : UInt64) :
    Counts (counter + size) (size.toNat + n) := by
  rw [Counts] at *
  rw [UInt64.toNat_add, h]
  omega

theorem Counts.sub {counter size : UInt64} {n : Nat} (h : Counts counter (size.toNat + n)) :
    Counts (counter - size) n := by
  rw [Counts] at *
  have := size.toNat_lt
  rw [UInt64.toNat_sub, h]
  omega

def Accounted (s : TrackedStorage γ) : Prop :=
  Counts s.memorySize (total M T s.index)

variable {M T} {s : TrackedStorage γ} {index : γ} {itr : ι} {a : α} {rest : List (ι × α)}

omit [DecidableEq ι] in
theorem total_perm (h : (M.elements index).Perm rest) :
    total M T index = (rest.map fun e => (T.memorySize e.2).toNat).sum :=
  (h.map _).sum_eq

theorem memorySizeAt_eq (h : (itr, a) ∈ M.elements index) :
    memorySizeAt M T index itr = T.memorySize a := by
  rw [memorySizeAt, M.get_eq_some.mpr h]
  rfl

omit [DecidableEq ι] in
theorem insert_accounted (h : Accounted M T s) (obj : α) :
    ∃ result s', (insert M T obj).run s = .ok result s' ∧ Accounted M T s' := by
  match hi : M.insert obj s.index with
  | ((itr, true), index) =>
    refine ⟨(itr, true), ⟨s.memorySize + T.memorySize obj, index⟩, ?_, ?_⟩
    · simp [insert, hi]
    · rw [Accounted, total_perm (M.insert_true hi)]
      exact h.add _
  | ((itr, false), index) =>
    refine ⟨(itr, false), ⟨s.memorySize, index⟩, ?_, ?_⟩
    · simp [insert, hi]
    · rw [Accounted, total_perm (M.insert_false hi)]
      exact h

theorem modify_accounted (h : Accounted M T s) (hitr : ∃ a, (itr, a) ∈ M.elements s.index)
    (lam : α → Except ε α) :
    Accounted M T (Machine.state ((modify M T itr lam).run s)) := by
  have ⟨a, ha⟩ := hitr
  have ⟨rest, hrest, hmod⟩ := M.modify_modified lam ha
  have hsize := @memorySizeAt_eq _ _ _ _ _ _ _ M T _ _ _ ha
  rw [Accounted, total_perm hrest] at h
  -- The counter while the element is not counted.
  have hcount : Counts (s.memorySize - T.memorySize a)
    (rest.map fun e => (T.memorySize e.2).toNat).sum := h.sub
  have hgone {index : γ} (hi : (M.elements index).Perm rest) :
      Accounted M T ⟨s.memorySize - T.memorySize a, index⟩ := by
    rw [Accounted, total_perm hi]
    exact hcount
  match hr : M.modify itr lam s.index, hl : lam a with
  | (.error e, index), .error _ =>
    rw [hr, hl] at hmod
    simpa [modify, hr, hsize, Machine.state] using hgone hmod.2
  | (.ok false, index), .ok b =>
    rw [hr, hl] at hmod
    simpa [modify, hr, hsize, Machine.state] using hgone hmod
  | (.ok true, index), .ok b =>
    rw [hr, hl] at hmod
    have hb : (itr, b) ∈ M.elements index := hmod.mem_iff.mpr (List.mem_cons_self ..)
    have hsize' := @memorySizeAt_eq _ _ _ _ _ _ _ M T _ _ _ hb
    have hback : Accounted M T ⟨s.memorySize - T.memorySize a + T.memorySize b, index⟩ := by
      rw [Accounted, total_perm hmod]
      exact hcount.add _
    simpa [modify, hr, hsize, hsize', Machine.state] using hback
  | (.error _, _), .ok _ => rw [hr, hl] at hmod; cases hmod
  | (.ok _, _), .error _ => rw [hr, hl] at hmod; cases hmod

theorem erase_accounted (h : Accounted M T s) (hitr : ∃ a, (itr, a) ∈ M.elements s.index) :
    Accounted M T (Machine.state ((erase M T itr).run s)) := by
  have ⟨a, ha⟩ := hitr
  have hsize := @memorySizeAt_eq _ _ _ _ _ _ _ M T _ _ _ ha
  rw [Accounted, total_perm (M.erase_perm ha)] at h
  have herase : Accounted M T ⟨s.memorySize - T.memorySize a, M.erase itr s.index⟩ := Counts.sub h
  simpa [erase, hsize, Machine.state] using herase

theorem eraseKey_accounted (h : Accounted M T s) (key : κ) :
    Accounted M T (Machine.state ((eraseKey M T key).run s)) := by
  cases hf : M.find key s.index
  case none     => simpa [eraseKey, hf, Machine.state] using h
  case some itr => simpa [eraseKey, hf] using erase_accounted h (M.find_mem hf)

omit [DecidableEq ι] in
theorem readLoop_accounted (h : Accounted M T s) {maxMemory : UInt64} {n : Nat} {ds : δ} :
    Accounted M T (Machine.state ((readLoop M T maxMemory n ds).run s)) := by
  induction n generalizing s ds
  case zero => exact h
  case succ n hi =>
    simp only [readLoop, EStateM.run_bind, EStateM.run_get]
    split
    case isTrue => exact h
    case isFalse =>
      cases T.unpack.run ds
      case error => exact h
      case ok v ds =>
        have ⟨result, s', hinsert, hs'⟩ := insert_accounted h v
        simp only [EStateM.run_bind, hinsert]
        exact hi hs'

-- What follows an operation does not change the storage.
theorem state_map {β β' : Type} (x : EStateM ε (TrackedStorage γ) β) (f : β → β')
    (s : TrackedStorage γ) :
    Machine.state ((do return f (← x)).run s) = Machine.state (x.run s) := by
  simp only [EStateM.run_bind]
  cases x.run s
  case ok    => rfl
  case error => rfl

theorem step_accounted {op : Operation ι α κ ε δ} (h : Accounted M T s) (ha : admissible M s op) :
    Accounted M T (Machine.state ((step M T op).run s)) := by
  cases op
  case insert obj =>
    have ⟨result, s', hr, hs'⟩ := insert_accounted h obj
    rw [step, state_map, hr]
    exact hs'
  case modify itr lam => rw [step, state_map]; exact modify_accounted h ha lam
  case eraseKey key   => rw [step, state_map]; exact eraseKey_accounted h key
  case erase itr      => rw [step, state_map]; exact erase_accounted h ha
  case read ds maxMemory =>
    rw [step, state_map, read]
    cases T.unpackSize.run ds
    case error => exact h
    case ok    => exact readLoop_accounted h

end Accounting

abbrev Reachable : TrackedStorage γ → Prop :=
  Machine.Reachable (step M T) (admissible M) ⟨0, M.empty⟩

variable {M T}

section Test

-- The elements of the tests: a key, and what is counted as the memory.
structure TestSize where
  key : UInt64
  s   : UInt64
deriving DecidableEq, Repr

def unpackUInt64 : EStateM Unit Bytes UInt64 := do
  let file ← get
  if file.length < 8 then throw ()
  else
    set (file.drop 8)
    return .ofNat (Raw.ofLE (file.take 8))

def testSize : Tracked TestSize Unit Bytes where
  memorySize := TestSize.s
  unpackSize := unpackUInt64
  unpack     := return ⟨← unpackUInt64, ← unpackUInt64⟩

def testIndex : MultiIndex (Nodes TestSize) Nat TestSize UInt64 Unit :=
  uniqueIndex TestSize.key

theorem reachable_insert {s : TrackedStorage (Nodes TestSize)} (h : Reachable testIndex testSize s)
    (obj : TestSize) :
    Reachable testIndex testSize (Machine.state ((step testIndex testSize (.insert obj)).run s)) :=
  h.step trivial

end Test

end TrackedStorage
