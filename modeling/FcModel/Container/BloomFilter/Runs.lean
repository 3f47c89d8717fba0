import Mathlib
import FcModel.Container.BloomFilter.Bounds
import FcModel.Lib.Machine

-- Programs that work on several filters: what a filter contains after any operations.

namespace BloomFilter

variable {rand : UInt32 → Nat → UInt32} {fuel : Nat}

-- The operations of a program on filters that have names.
inductive Op (ι : Type)
  | construct (i : ι) (p : BloomParameters) (o : OptimalParameters)
  | insert (i : ι) (key : List UInt8)
  | clear (i : ι)
  | assign (i j : ι)
  | andAssign (i j : ι)
  | orAssign (i j : ι)
  | xorAssign (i j : ι)

section Runs

variable {ι : Type} [DecidableEq ι]

abbrev Env (ι : Type) := ι → BloomFilter

-- What becomes of the filter that the operation changes.
def result (rand : UInt32 → Nat → UInt32) (fuel : Nat) (env : Env ι) : Op ι →
    Except Error BloomFilter
  | .construct _ p o => BloomFilter.construct rand fuel p o
  | .insert i key    => (env i).insert key
  | .clear i         => (env i).clear
  | .assign _ j      => (env j).assign
  | .andAssign i j   => (env i).andAssign (env j)
  | .orAssign i j    => (env i).orAssign (env j)
  | .xorAssign i j   => (env i).xorAssign (env j)

def Op.target : Op ι → ι
  | construct i _ _ | insert i _ | clear i | assign i _ | andAssign i _ | orAssign i _
  | xorAssign i _ => i

def step (rand : UInt32 → Nat → UInt32) (fuel : Nat) (op : Op ι) : EStateM Error (Env ι) Unit := do
  let env ← get
  match result rand fuel env op with
  | .error e => throw e
  | .ok f    => set (Function.update env op.target f)

-- What a filter owes to the operations: its sizes and its seed, and the keys it has to contain.
structure Promise where
  saltCount  : UInt32 := 0
  tableSize  : UInt64 := 0
  randomSeed : UInt64 := 0
  keys       : Set (List UInt8) := ∅

def Promise.Compatible (a b : Promise) : Prop :=
  a.saltCount = b.saltCount ∧ a.tableSize = b.tableSize ∧ a.randomSeed = b.randomSeed

open Classical in
noncomputable def Promise.combine (op : Set (List UInt8) → Set (List UInt8) → Set (List UInt8))
    (a b : Promise) : Promise :=
  if a.Compatible b then { a with keys := op a.keys b.keys } else a

-- Nothing is known of what is left of the keys after `^=`.
noncomputable def promised (t : ι → Promise) : Op ι → Promise
  | .construct _ p o => ⟨o.numberOfHashes, o.tableSize, p.randomSeed * 0xA5A5A5A5 + 1, ∅⟩
  | .insert i key    => { t i with keys := Insert.insert key (t i).keys }
  | .clear i         => { t i with keys := ∅ }
  | .assign _ j      => t j
  | .andAssign i j   => (t i).combine (· ∩ ·) (t j)
  | .orAssign i j    => (t i).combine (· ∪ ·) (t j)
  | .xorAssign i j   => (t i).combine (fun _ _ => ∅) (t j)

noncomputable def specStep (t : ι → Promise) (op : Op ι) : Unit × (ι → Promise) :=
  ((), Function.update t op.target (promised t op))

-- The constructor gets sizes that fit, and it returns.
def Adm (rand : UInt32 → Nat → UInt32) (fuel : Nat) (_ : Env ι) : Op ι → Prop
  | .construct _ p o =>
    (o.numberOfHashes = 0 ∨ Fits o.tableSize) ∧
      (generateUniqueSalt rand fuel o.numberOfHashes (p.randomSeed * 0xA5A5A5A5 + 1)).isSome = true
  | _ => True

-- A filter keeps its promise.
structure Keeps (rand : UInt32 → Nat → UInt32) (fuel : Nat) (f : BloomFilter) (t : Promise) : Prop
    extends InBounds f where
  generated  : generateUniqueSalt rand fuel f.saltCount f.randomSeed = some f.salt
  saltCount  : f.saltCount = t.saltCount
  tableSize  : f.tableSize = t.tableSize
  randomSeed : f.randomSeed = t.randomSeed
  keys       : ∀ key ∈ t.keys, f.positions key ⊆ f.bits

namespace Keeps

variable {f g a b : BloomFilter} {t u : Promise} {ks : Set (List UInt8)}

theorem initial : Keeps rand fuel {} {} where
  raw        := rfl
  length     := rfl
  fits h     := absurd rfl h
  generated  := rfl
  saltCount  := rfl
  tableSize  := rfl
  randomSeed := rfl
  keys _ h   := absurd h (Set.notMem_empty _)

theorem of_fresh {p : BloomParameters} {o : OptimalParameters} (h : Fresh rand fuel p o f)
    (hf : o.numberOfHashes = 0 ∨ Fits o.tableSize) :
    Keeps rand fuel f ⟨o.numberOfHashes, o.tableSize, p.randomSeed * 0xA5A5A5A5 + 1, ∅⟩ where
  toInBounds := h.inBounds hf
  generated  := h.salt
  saltCount  := h.saltCount
  tableSize  := h.tableSize
  randomSeed := h.randomSeed
  keys _ h   := absurd h (Set.notMem_empty _)

-- What the table has to hold afterwards is all that an operation on it has to show.
theorem of_like (hk : Keeps rand fuel f t) (hl : Like f g)
    (h : ∀ key ∈ ks, f.positions key ⊆ g.bits) : Keeps rand fuel g { t with keys := ks } where
  toInBounds := hl.inBounds hk.toInBounds
  generated  := by rw [hl.saltCount, hl.randomSeed, hl.salt, hk.generated]
  saltCount  := hl.saltCount.trans hk.saltCount
  tableSize  := hl.tableSize.trans hk.tableSize
  randomSeed := hl.randomSeed.trans hk.randomSeed
  keys key h' := hl.positions key ▸ h key h'

theorem compatible_iff (ha : Keeps rand fuel a t) (hb : Keeps rand fuel b u) :
    a.Compatible b ↔ t.Compatible u := by
  rw [BloomFilter.Compatible, ha.saltCount, ha.tableSize, ha.randomSeed, hb.saltCount, hb.tableSize,
    hb.randomSeed]
  rfl

-- Filters that belong together have the same salts, and a key needs the same bits of them.
theorem positions_eq (ha : Keeps rand fuel a t) (hb : Keeps rand fuel b u) (hc : a.Compatible b)
    (key : List UInt8) : a.positions key = b.positions key := by
  have hs : a.salt = b.salt := by
    have := ha.generated
    rw [hc.1, hc.2.2, hb.generated] at this
    exact (Option.some.inj this).symm
  simp only [positions, position, hs, hc.2.1]

theorem contains_eq_true (hk : Keeps rand fuel f t) {key : List UInt8} (h : key ∈ t.keys) :
    f.contains key = .ok true := by
  obtain ⟨r, hr, hiff⟩ := contains_eq key hk.toInBounds
  rw [hr, hiff.mpr (hk.keys key h)]

-- The operations with another filter, one of which is the intersection for instance.
theorem combine {op : UInt8 → UInt8 → UInt8}
    (kop : Set (List UInt8) → Set (List UInt8) → Set (List UInt8)) (ha : Keeps rand fuel a t)
    (hb : Keeps rand fuel b u)
    (h : a.Compatible b → ∃ g, combine op a b = .ok g ∧ Like a g ∧
      ∀ key ∈ kop t.keys u.keys, a.positions key ⊆ g.bits) :
    ∃ g, BloomFilter.combine op a b = .ok g ∧ Keeps rand fuel g (t.combine kop u) := by
  by_cases hc : a.Compatible b
  case pos =>
    obtain ⟨g, hg, hl, hk⟩ := h hc
    refine ⟨g, hg, ?_⟩
    rw [Promise.combine, if_pos ((ha.compatible_iff hb).mp hc)]
    exact ha.of_like hl hk
  case neg =>
    refine ⟨a, combine_of_not_compatible hc, ?_⟩
    rw [Promise.combine, if_neg (mt (ha.compatible_iff hb).mpr hc)]
    exact ha

end Keeps

variable {env : Env ι} {t : ι → Promise} {op : Op ι}

omit [DecidableEq ι] in
theorem keeps_result (hk : ∀ i, Keeps rand fuel (env i) (t i)) (ha : Adm rand fuel env op) :
    ∃ f, result rand fuel env op = .ok f ∧ Keeps rand fuel f (promised t op) := by
  cases op
  case construct i p o =>
    obtain ⟨hf, hs⟩ := ha
    obtain ⟨salt, hs⟩ := Option.isSome_iff_exists.mp hs
    have hc : ∃ f, construct rand fuel p o = .ok f := by
      simp only [construct, hs]
      exact ⟨_, rfl⟩
    obtain ⟨f, hc⟩ := hc
    exact ⟨f, hc, .of_fresh (fresh_of_construct hc) hf⟩
  case insert i key =>
    obtain ⟨g, hg, hl, hb⟩ := insert_eq key (hk i).toInBounds
    refine ⟨g, hg, (hk i).of_like hl fun k hm => ?_⟩
    rw [hb]
    rcases Set.mem_insert_iff.mp hm with rfl | hm
    case inl => exact Set.subset_union_right
    case inr => exact ((hk i).keys k hm).trans Set.subset_union_left
  case clear i =>
    obtain ⟨g, hg, hl, -⟩ := clear_eq (hk i).toSized
    exact ⟨g, hg, (hk i).of_like hl fun _ hm => absurd hm (Set.notMem_empty _)⟩
  case assign i j => exact ⟨env j, assign_eq (hk j).toSized, hk j⟩
  case andAssign i j =>
    refine (hk i).combine (· ∩ ·) (hk j) fun hc => ?_
    obtain ⟨g, hg, hl, hb⟩ := andAssign_eq (hk i).toSized (hk j).toSized hc
    refine ⟨g, hg, hl, fun k hm => hb ▸ Set.subset_inter ((hk i).keys k hm.1) ?_⟩
    rw [(hk i).positions_eq (hk j) hc]
    exact (hk j).keys k hm.2
  case orAssign i j =>
    refine (hk i).combine (· ∪ ·) (hk j) fun hc => ?_
    obtain ⟨g, hg, hl, hb⟩ := orAssign_eq (hk i).toSized (hk j).toSized hc
    refine ⟨g, hg, hl, fun k hm => ?_⟩
    rw [hb]
    rcases hm with hm | hm
    case inl => exact ((hk i).keys k hm).trans Set.subset_union_left
    case inr =>
      rw [(hk i).positions_eq (hk j) hc]
      exact ((hk j).keys k hm).trans Set.subset_union_right
  case xorAssign i j =>
    refine (hk i).combine (fun _ _ => ∅) (hk j) fun hc => ?_
    obtain ⟨g, hg, hl, -⟩ := xorAssign_eq (hk i).toSized (hk j).toSized hc
    exact ⟨g, hg, hl, fun _ hm => absurd hm (Set.notMem_empty _)⟩

-- Every operation keeps all promises, those of the filters it does not change as well.
theorem simulation : Machine.Simulation (step (ι := ι) rand fuel) (Adm rand fuel) specStep
    fun env t => ∀ i, Keeps rand fuel (env i) (t i) where
  step {env t op} hk ha := by
    obtain ⟨f, hf, hkf⟩ := keeps_result hk ha
    refine ⟨Function.update env op.target f, ?_, fun i => ?_⟩
    case refine_1 =>
      have : (step rand fuel op).run env = (match result rand fuel env op with
        | .error e => throw e
        | .ok f => set (Function.update env op.target f) : EStateM Error (Env ι) Unit).run env := rfl
      rw [this, hf]
      rfl
    case refine_2 =>
      by_cases hi : i = op.target
      case pos => subst hi; simpa [specStep] using hkf
      case neg => simpa [specStep, hi] using hk i

-- A program on two filters.
def twoFilters : List (Op Bool) :=
  [.construct false {} ⟨2, 16⟩, .insert false [1], .assign true false, .insert true [2],
    .andAssign false true]

theorem admissible_twoFilters :
    Machine.Admissible (step (fun _ _ => 0) 0) (Adm (fun _ _ => 0) 0) (fun _ => {}) twoFilters :=
  ⟨⟨.inr (by decide), rfl⟩, trivial, trivial, trivial, trivial, trivial⟩

end Runs

end BloomFilter
