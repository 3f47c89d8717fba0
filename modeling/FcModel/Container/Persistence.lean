import FcModel.Container.TrackedStorage

-- `tracked_storage::write`, and what `read` makes of the file it gives.

namespace TrackedStorage

-- How elements are packed to a file and unpacked from it. A file that is too short is an error.
structure FileCodec (α ε : Type) where
  memorySize : α → UInt64
  short      : ε
  pack       : α → Bytes
  unpack     : EStateM ε Bytes α

variable {γ ι α κ ε : Type}

namespace FileCodec

-- The number of elements is read as it is in memory.
def unpackSize (C : FileCodec α ε) : EStateM ε Bytes UInt64 := do
  let file ← get
  if file.length < 8 then throw C.short
  else
    set (file.drop 8)
    return .ofNat (Raw.ofLE (file.take 8))

def tracked (C : FileCodec α ε) : Tracked α ε Bytes where
  memorySize := C.memorySize
  unpackSize := C.unpackSize
  unpack     := C.unpack

-- The element comes back from its bytes, whatever follows them.
def RoundTrips (C : FileCodec α ε) (a : α) : Prop :=
  ∀ rest, C.unpack.run (C.pack a ++ rest) = .ok a rest

theorem unpackSize_toLE (C : FileCodec α ε) (n : Nat) (rest : Bytes) :
    C.unpackSize.run (Raw.toLE 8 n ++ rest) = .ok (.ofNat n) rest := by
  have hlength : (Raw.toLE 8 n).length = 8 := Raw.length_toLE ..
  have htake : (Raw.toLE 8 n ++ rest).take 8 = Raw.toLE 8 n := List.take_left' hlength
  have hdrop : (Raw.toLE 8 n ++ rest).drop 8 = rest := List.drop_left' hlength
  have hlong : ¬(Raw.toLE 8 n ++ rest).length < 8 := by
    rw [List.length_append, hlength]
    omega
  simp only [unpackSize, EStateM.run_bind, EStateM.run_get, if_neg hlong, htake, hdrop,
    EStateM.run_set,
    EStateM.run_pure, Raw.ofLE_toLE]
  rw [show 256 ^ 8 = 2 ^ 64 from rfl, UInt64.ofNat_mod_size]

end FileCodec

def write (M : MultiIndex γ ι α κ ε) (C : FileCodec α ε) (s : TrackedStorage γ) : Bytes :=
  Raw.toLE 8 (M.values s.index).length ++ (M.values s.index).flatMap C.pack

variable [DecidableEq ι] {M : MultiIndex γ ι α κ ε} {C : FileCodec α ε} {s : TrackedStorage γ}
    {clash : α → α → Prop}

section Distinct

variable {δ : Type} {T : Tracked α ε δ} (hu : M.Unique clash)

omit [DecidableEq ι] in
theorem insert_run (obj : α) (s : TrackedStorage γ) :
    ∃ size,
    (insert M T obj).run s = .ok (M.insert obj s.index).1 ⟨size, (M.insert obj s.index).2⟩ := by
  match hi : M.insert obj s.index with
  | ((itr, true), index)  => exact ⟨s.memorySize + T.memorySize obj, by simp [insert, hi]⟩
  | ((itr, false), index) => exact ⟨s.memorySize, by simp [insert, hi]⟩

include hu

omit [DecidableEq ι] in
theorem readLoop_distinct (h : M.Distinct clash s.index) {maxMemory : UInt64} {n : Nat} {ds : δ} :
    M.Distinct clash (Machine.state ((readLoop M T maxMemory n ds).run s)).index := by
  induction n generalizing s ds
  case zero => exact h
  case succ n hi =>
    simp only [readLoop, EStateM.run_bind, EStateM.run_get]
    split
    case isTrue => exact h
    case isFalse =>
      cases T.unpack.run ds
      case error => exact h
      case ok v ds =>
        obtain ⟨size, hinsert⟩ := @insert_run _ _ _ _ _ M _ T v s
        simp only [EStateM.run_bind, hinsert]
        exact hi (hu.insert_distinct h v)

theorem erase_distinct (h : M.Distinct clash s.index) {itr : ι}
    (ha : ∃ a, (itr, a) ∈ M.elements s.index) :
    M.Distinct clash (Machine.state ((erase M T itr).run s)).index := by
  obtain ⟨a, ha⟩ := ha
  simpa [erase, Machine.state] using hu.erase_distinct h ha

theorem step_distinct {op : Operation ι α κ ε δ} (h : M.Distinct clash s.index)
    (ha : admissible M s op) :
    M.Distinct clash (Machine.state ((step M T op).run s)).index := by
  cases op
  case insert obj =>
    obtain ⟨size, hinsert⟩ := @insert_run _ _ _ _ _ M _ T obj s
    rw [step, state_map, hinsert]
    exact hu.insert_distinct h obj
  case modify itr lam =>
    obtain ⟨a, ha⟩ := ha
    have hm := hu.modify_distinct h ha lam
    rw [step, state_map, modify]
    simp only [EStateM.run_bind, EStateM.run_get]
    split
    case h_1 hr => rw [hr] at hm; exact hm
    case h_2 hr => rw [hr] at hm; exact hm
    case h_3 hr => rw [hr] at hm; exact hm
  case eraseKey key =>
    rw [step, state_map, eraseKey]
    simp only [EStateM.run_bind, EStateM.run_get]
    cases hf : M.find key s.index
    case none     => exact h
    case some itr => exact erase_distinct hu h (M.find_mem hf)
  case erase itr => rw [step, state_map]; exact erase_distinct hu h ha
  case read ds maxMemory =>
    rw [step, state_map, read]
    cases T.unpackSize.run ds
    case error => exact h
    case ok    => exact readLoop_distinct hu h

end Distinct

-- The memory of some elements.
def memory (memorySize : α → UInt64) (l : List α) : Nat :=
  (l.map fun a => (memorySize a).toNat).sum

omit [DecidableEq ι] in
theorem total_eq_memory (index : γ) :
    total M C.tracked index = memory C.memorySize (M.values index) := by
  rw [total, memory, MultiIndex.values, List.map_map]
  rfl

theorem memory_perm {l l' : List α} (h : l.Perm l') :
    memory C.memorySize l = memory C.memorySize l' :=
  (h.map _).sum_eq

theorem memory_take_le (l : List α) (k : Nat) :
    memory C.memorySize (l.take k) ≤ memory C.memorySize l := by
  rw [memory, memory, List.map_take]
  exact (List.take_sublist ..).sum_le_sum fun _ _ => Nat.zero_le _

omit [DecidableEq ι] in
theorem Accounted.counts_memory {l : List α} (h : Accounted M C.tracked s)
    (hl : (M.values s.index).Perm l) :
    s.memorySize.toNat = memory C.memorySize l % 2 ^ 64 := by
  rw [← memory_perm hl, ← total_eq_memory]
  exact h

omit [DecidableEq ι] in
-- An element that is not excluded is added to the others.
theorem insert_new (hu : M.Unique clash) (h : Accounted M C.tracked s) {a : α} {l : List α}
    (hl : (M.values s.index).Perm l) (ha : ∀ b ∈ l, ¬clash b a) :
    ∃ result s', (insert M C.tracked a).run s = .ok result s' ∧ Accounted M C.tracked s' ∧
      (M.values s'.index).Perm (l ++ [a]) := by
  obtain ⟨result, s', hrun, hs'⟩ := insert_accounted h a
  refine ⟨result, s', hrun, hs', ?_⟩
  have hnew : (M.insert a s.index).1.2 = true :=
    hu.insert_iff.mpr fun b hb => ha b (hl.mem_iff.mp hb)
  obtain ⟨size, hinsert⟩ := @insert_run _ _ _ _ _ M _ C.tracked a s
  obtain ⟨-, rfl⟩ : _ ∧ _ := EStateM.Result.ok.inj (hrun.symm.trans hinsert)
  match hi : M.insert a s.index with
  | ((itr, false), index) => rw [hi] at hnew; cases hnew
  | ((itr, true), index)  =>
    have hadd : (M.values index).Perm (a :: M.values s.index) := (M.insert_true hi).map _
    exact hadd.trans ((hl.cons a).trans (List.perm_append_singleton a l).symm)

omit [DecidableEq ι] in
-- Of the elements that are left in the file, `k` are read: as many as there are until the memory
-- reaches the limit.
theorem readLoop_values (hu : M.Unique clash) (before l : List α) (maxMemory : UInt64)
    (rest : Bytes)
    (h : Accounted M C.tracked s) (hs : (M.values s.index).Perm before)
    (hl : (before ++ l).Pairwise fun a b => ¬clash a b) (hround : ∀ a ∈ l, C.RoundTrips a) :
    ∃ k s', k ≤ l.length ∧
      (readLoop M C.tracked maxMemory l.length (l.flatMap C.pack ++ rest)).run s =
        .ok (decide (k = l.length), (l.drop k).flatMap C.pack ++ rest) s' ∧
      Accounted M C.tracked s' ∧ (M.values s'.index).Perm (before ++ l.take k) ∧
      (∀ j < k, memory C.memorySize (before ++ l.take j) % 2 ^ 64 < maxMemory.toNat) ∧
      (k < l.length → maxMemory ≤ s'.memorySize) := by
  induction l generalizing before s
  case nil =>
    refine ⟨0, s, le_rfl, rfl, h, by simpa using hs, fun _ hj => ?_, fun hk => ?_⟩
    · cases hj
    · cases hk
  case cons a l hi =>
    by_cases hmax : maxMemory ≤ s.memorySize
    case pos =>
      refine ⟨0, s, Nat.zero_le _, ?_, h, by simpa using hs, fun _ hj => ?_, fun _ => hmax⟩
      · simp [readLoop, hmax]
      · cases hj
    case neg =>
      have hround' : C.tracked.unpack.run (C.pack a ++ (l.flatMap C.pack ++ rest)) =
        .ok a (l.flatMap C.pack ++ rest) :=
        hround a (List.mem_cons_self ..) _
      have hclash : ∀ b ∈ before, ¬clash b a :=
        fun b hb => (List.pairwise_append.mp hl).2.2 b hb a (List.mem_cons_self ..)
      obtain ⟨result, s₁, hinsert, hs₁, hvalues⟩ := insert_new hu h hs hclash
      have hl' : (before ++ [a] ++ l).Pairwise fun a b => ¬clash a b := by
        rwa [List.append_assoc, List.singleton_append]
      obtain ⟨k, s', hk, hrun, hs', hperm, hbelow, hstop⟩ :=
        hi (before ++ [a]) hs₁ hvalues hl' fun b hb => hround b (List.mem_cons_of_mem _ hb)
      refine ⟨k + 1, s', Nat.succ_le_succ hk, ?_, hs', ?_, fun j hj => ?_, fun hlt =>
        hstop (Nat.lt_of_succ_lt_succ hlt)⟩
      · simp only [List.length_cons, readLoop, EStateM.run_bind, EStateM.run_get, if_neg hmax,
          List.flatMap_cons,
          List.append_assoc, hround', hinsert, hrun, List.drop_succ_cons, Nat.add_right_cancel_iff]
      · simpa using hperm
      · cases j
        case zero =>
          rw [List.take_zero, List.append_nil, ← h.counts_memory hs]
          exact UInt64.lt_iff_toNat_lt.mp (UInt64.not_le.mp hmax)
        case succ j =>
          have := hbelow j (Nat.lt_of_succ_lt_succ hj)
          rwa [List.append_assoc] at this

section Test

def testCodec : FileCodec TestSize Unit where
  memorySize := TestSize.s
  short      := ()
  pack       := fun t => Raw.toLE 8 t.key.toNat ++ Raw.toLE 8 t.s.toNat
  unpack     := return ⟨← unpackUInt64, ← unpackUInt64⟩

theorem testCodec_roundTrips (t : TestSize) : testCodec.RoundTrips t := by
  intro rest
  have hsize (n : Nat) (rest : Bytes) :
    unpackUInt64.run (Raw.toLE 8 n ++ rest) = .ok (.ofNat n) rest :=
    testCodec.unpackSize_toLE n rest
  simp [testCodec, hsize]

end Test

end TrackedStorage
