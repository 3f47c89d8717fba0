import Mathlib
import FcModel.Container.BloomFilter

-- A filter as the set of the bits of its table that are set, and which of these bits a key needs.

namespace BloomFilter

def bitOf (table : List UInt8) (n : Nat) : Bool :=
  (table.getD (n / 8) 0).toNat.testBit (n % 8)

def bits (f : BloomFilter) : Set Nat :=
  { n | bitOf f.bitTable n }

def position (f : BloomFilter) (key : List UInt8) (s : UInt32) : Nat :=
  (hashAp s key).toNat % f.tableSize.toNat

def positions (f : BloomFilter) (key : List UInt8) : Set Nat :=
  { n | ∃ s ∈ f.salt, n = f.position key s }

-- The sizes of a table that no hash leads out of. Hashes have 32 bits, so the last byte of a large
-- table need not be complete.
def Fits (tableSize : UInt64) : Prop :=
  tableSize ≠ 0 ∧ (tableSize % 8 = 0 ∨ 2 ^ 32 ≤ tableSize)

instance (tableSize : UInt64) : Decidable (Fits tableSize) :=
  inferInstanceAs (Decidable (_ ∧ _))

-- The sizes are those that the constructor gives.
structure Sized (f : BloomFilter) : Prop where
  raw    : f.rawTableSize = f.tableSize / 8
  length : f.bitTable.length = f.rawTableSize.toNat

structure InBounds (f : BloomFilter) : Prop extends Sized f where
  fits : f.salt ≠ [] → Fits f.tableSize

section Byte

theorem testBit_or_bitMask : ∀ c : UInt8, ∀ b < 8, ∀ j < 8,
    (c ||| bitMask[b]!).toNat.testBit j = (c.toNat.testBit j || decide (j = b)) := by
  decide +kernel

theorem and_bitMask_ne_iff : ∀ c : UInt8, ∀ b < 8,
    c &&& bitMask[b]! ≠ bitMask[b]! ↔ c.toNat.testBit b = false := by
  decide +kernel

end Byte

section Positions

variable {f : BloomFilter} {key : List UInt8} {table : List UInt8} {n m : Nat}

theorem div_lt_of_fits (hf : Fits f.tableSize) (hs : Sized f) (h : UInt32) :
    h.toNat % f.tableSize.toNat / 8 < f.bitTable.length := by
  have hne : 0 < f.tableSize.toNat := by
    have : f.tableSize.toNat ≠ 0 := fun h0 => hf.1 (UInt64.toNat.inj h0)
    omega
  have hlt := Nat.mod_lt h.toNat hne
  have hle := Nat.mod_le h.toNat f.tableSize.toNat
  have h32 := h.toNat_lt
  rw [hs.length, hs.raw, UInt64.toNat_div, show (8 : UInt64).toNat = 8 from rfl]
  rcases hf.2 with h8 | hbig
  case inl =>
    have h8 := congrArg UInt64.toNat h8
    rw [UInt64.toNat_mod, show (8 : UInt64).toNat = 8 from rfl,
      show (0 : UInt64).toNat = 0 from rfl] at h8
    omega
  case inr =>
    have hbig := UInt64.le_iff_toNat_le.mp hbig
    rw [show ((2 ^ 32 : UInt64)).toNat = 2 ^ 32 from rfl] at hbig
    omega

theorem position_div_lt (hf : Fits f.tableSize) (hs : Sized f) (key : List UInt8) (s : UInt32) :
    f.position key s / 8 < f.bitTable.length :=
  div_lt_of_fits hf hs (hashAp s key)

theorem computeIndices_eq (h : f.tableSize ≠ 0) (key : List UInt8) (s : UInt32) :
    f.computeIndices (hashAp s key) = .ok (f.position key s, f.position key s % 8) := by
  rw [computeIndices, if_neg h]
  rfl

theorem bitOf_set (hn : n / 8 < table.length) (c : UInt8) :
    bitOf (table.set (n / 8) c) m =
      if m / 8 = n / 8 then c.toNat.testBit (m % 8) else bitOf table m := by
  unfold bitOf
  rw [List.getD_eq_getElem?_getD, List.getElem?_set]
  by_cases h : m / 8 = n / 8
  case pos => simp [h, hn]
  case neg => simp [h, Ne.symm h]

theorem setBit_eq (hn : n / 8 < table.length) :
    ∃ t, setBit table n (n % 8) = .ok t ∧ t.length = table.length ∧
      ∀ m, bitOf t m = (bitOf table m || decide (m = n)) := by
  refine ⟨table.set (n / 8) (table[n / 8] ||| bitMask[n % 8]!), ?_, List.length_set, fun m => ?_⟩
  case refine_1 => rw [setBit, List.getElem?_eq_getElem hn]; rfl
  case refine_2 =>
    rw [bitOf_set hn]
    by_cases h : m / 8 = n / 8
    case pos =>
      have hm : (m % 8 = n % 8) ↔ m = n := by omega
      rw [if_pos h, testBit_or_bitMask _ _ (by omega) _ (by omega), decide_eq_decide.mpr hm, bitOf,
        h,
        List.getD_eq_getElem _ _ hn]
    case neg =>
      have hm : m ≠ n := fun he => h (he ▸ rfl)
      rw [if_neg h, decide_eq_false hm, Bool.or_false]

end Positions

-- What an operation on the table leaves as it was.
structure Like (f g : BloomFilter) : Prop where
  salt       : g.salt = f.salt
  saltCount  : g.saltCount = f.saltCount
  tableSize  : g.tableSize = f.tableSize
  raw        : g.rawTableSize = f.rawTableSize
  randomSeed : g.randomSeed = f.randomSeed
  length     : g.bitTable.length = f.bitTable.length

namespace Like

variable {f g h : BloomFilter}

theorem refl (f : BloomFilter) : Like f f :=
  ⟨rfl, rfl, rfl, rfl, rfl, rfl⟩

theorem trans (hg : Like f g) (hh : Like g h) : Like f h where
  salt       := hh.salt.trans hg.salt
  saltCount  := hh.saltCount.trans hg.saltCount
  tableSize  := hh.tableSize.trans hg.tableSize
  raw        := hh.raw.trans hg.raw
  randomSeed := hh.randomSeed.trans hg.randomSeed
  length     := hh.length.trans hg.length

theorem of_table {t : List UInt8} {n : UInt32} (h : t.length = f.bitTable.length) :
    Like f { f with bitTable := t, insertedElementCount := n } :=
  ⟨rfl, rfl, rfl, rfl, rfl, h⟩

theorem inBounds (hg : Like f g) (hf : InBounds f) : InBounds g where
  raw    := by rw [hg.raw, hg.tableSize, hf.raw]
  length := by rw [hg.length, hg.raw, hf.length]
  fits   := by rw [hg.salt, hg.tableSize]; exact hf.fits

theorem position (hg : Like f g) (key : List UInt8) (s : UInt32) :
    g.position key s = f.position key s := by
  rw [BloomFilter.position, BloomFilter.position, hg.tableSize]

theorem positions (hg : Like f g) (key : List UInt8) : g.positions key = f.positions key := by
  simp only [BloomFilter.positions, hg.salt, hg.position]

end Like

section Operations

variable {f a b : BloomFilter} {key : List UInt8}

variable (key) in
theorem insertSalt_eq (hs : Sized f) (hf : Fits f.tableSize) (s : UInt32) :
    ∃ g, insertSalt key f s = .ok g ∧ Like f g ∧
      ∀ m, m ∈ g.bits ↔ m ∈ f.bits ∨ m = f.position key s := by
  obtain ⟨t, ht, hl, hb⟩ := setBit_eq (position_div_lt hf hs key s)
  refine ⟨{ f with bitTable := t }, ?_, .of_table hl, fun m => ?_⟩
  case refine_1 =>
    rw [insertSalt, computeIndices_eq hf.1, Except.ok_bind]
    simp only [ht, Except.ok_bind]
    rfl
  case refine_2 =>
    simp only [bits, Set.mem_ofPred_eq, hb, Bool.or_eq_true, decide_eq_true_eq]

theorem foldlM_insertSalt (hs : InBounds f) (hf : Fits f.tableSize) (ss : List UInt32) :
    ∃ g, ss.foldlM (insertSalt key) f = .ok g ∧ Like f g ∧
      ∀ m, m ∈ g.bits ↔ m ∈ f.bits ∨ ∃ s ∈ ss, m = f.position key s := by
  induction ss generalizing f
  case nil => exact ⟨f, rfl, .refl f, by simp⟩
  case cons s ss hi =>
    obtain ⟨g, hg, hl, hb⟩ := insertSalt_eq key hs.toSized hf s
    obtain ⟨k, hk, hl', hb'⟩ := hi (hl.inBounds hs) (hl.tableSize ▸ hf)
    refine ⟨k, ?_, hl.trans hl', fun m => ?_⟩
    case refine_1 => rw [List.foldlM_cons, hg, Except.ok_bind, hk]
    case refine_2 => simp only [hb', hb, hl.position, List.exists_mem_cons_iff, or_assoc]

-- An insertion sets the bits that the key needs.
variable (key) in
theorem insert_eq (hs : InBounds f) :
    ∃ g, f.insert key = .ok g ∧ Like f g ∧ g.bits = f.bits ∪ f.positions key := by
  have ⟨g, hg, hl, hb⟩ : ∃ g, f.salt.foldlM (insertSalt key) f = .ok g ∧ Like f g ∧
      ∀ m, m ∈ g.bits ↔ m ∈ f.bits ∨ ∃ s ∈ f.salt, m = f.position key s := by
    cases he : f.salt
    case nil => exact ⟨f, rfl, .refl f, by simp⟩
    case cons => exact he ▸ foldlM_insertSalt hs (hs.fits (by simp [he])) f.salt
  refine ⟨{ g with insertedElementCount := g.insertedElementCount + 1 }, ?_,
    hl.trans (.of_table rfl), Set.ext hb⟩
  rw [insert, hg, Except.ok_bind]
  rfl

theorem containsSalts_eq (hs : Sized f) (hf : Fits f.tableSize) (ss : List UInt32) :
    ∃ r, f.containsSalts key ss = .ok r ∧ (r = true ↔ ∀ s ∈ ss, f.position key s ∈ f.bits) := by
  induction ss
  case nil => exact ⟨true, rfl, by simp⟩
  case cons s ss hi =>
    have hlt := position_div_lt hf hs key s
    have hbit : f.position key s ∈ f.bits ↔
        (f.bitTable[f.position key s / 8]).toNat.testBit (f.position key s % 8) = true := by
      rw [bits, Set.mem_ofPred_eq, bitOf, List.getD_eq_getElem _ _ hlt]
    rw [containsSalts, computeIndices_eq hf.1, Except.ok_bind]
    simp only [List.getElem?_eq_getElem hlt,
      and_bitMask_ne_iff _ _ (Nat.mod_lt _ (by decide : 0 < 8))]
    split
    case isTrue h =>
      refine ⟨false, rfl, ?_⟩
      simp only [Bool.false_eq_true, false_iff, not_forall]
      exact ⟨s, List.mem_cons_self .., fun hm => by rw [hbit, h] at hm; cases hm⟩
    case isFalse h =>
      obtain ⟨r, hr, hiff⟩ := hi
      refine ⟨r, hr, ?_⟩
      rw [List.forall_mem_cons, hiff]
      exact (and_iff_right (hbit.mpr (by simpa using h))).symm

-- A query tells whether all bits that the key needs are set.
variable (key) in
theorem contains_eq (hs : InBounds f) :
    ∃ r, f.contains key = .ok r ∧ (r = true ↔ f.positions key ⊆ f.bits) := by
  have ⟨r, hr, hiff⟩ : ∃ r, f.contains key = .ok r ∧
      (r = true ↔ ∀ s ∈ f.salt, f.position key s ∈ f.bits) := by
    unfold contains
    cases he : f.salt
    case nil  => exact ⟨true, rfl, by simp⟩
    case cons => exact he ▸ containsSalts_eq hs.toSized (hs.fits (by simp [he])) f.salt
  refine ⟨r, hr, hiff.trans ⟨?_, fun h s hs => h ⟨s, hs, rfl⟩⟩⟩
  rintro h n ⟨s, hs, rfl⟩
  exact h s hs

end Operations

section Combination

variable {op : UInt8 → UInt8 → UInt8} {bop : Bool → Bool → Bool} {a b : BloomFilter}
    {table other : List UInt8} {n : Nat}

variable (op) in
theorem foldlM_combineByte (hn : n ≤ table.length) (hn' : n ≤ other.length) :
    ∃ t, (List.range n).foldlM (combineByte op other) table = .ok t ∧ t.length = table.length ∧
      ∀ i, t.getD i 0 = if i < n then op (table.getD i 0) (other.getD i 0) else table.getD i 0 := by
  induction n
  case zero => exact ⟨table, rfl, rfl, by simp⟩
  case succ n hi =>
    obtain ⟨t, ht, hl, hg⟩ := hi (by omega) (by omega)
    have htn : n < t.length := by omega
    have hon : n < other.length := by omega
    refine ⟨t.set n (op t[n] other[n]), ?_, by rw [List.length_set, hl], fun i => ?_⟩
    case refine_1 =>
      rw [List.range_succ, List.foldlM_append, ht, Except.ok_bind, List.foldlM_cons, combineByte,
        List.getElem?_eq_getElem htn, List.getElem?_eq_getElem hon]
      rfl
    case refine_2 =>
      have hgn := hg n
      rw [if_neg (lt_irrefl n)] at hgn
      rw [List.getD_eq_getElem?_getD, List.getElem?_set]
      by_cases h : n = i
      case pos =>
        subst h
        rw [if_pos rfl, if_pos htn, if_pos (by omega), Option.getD_some, ← hgn,
          List.getD_eq_getElem _ _ htn, List.getD_eq_getElem _ _ hon]
      case neg =>
        rw [if_neg h, ← List.getD_eq_getElem?_getD, hg i]
        simp only [show i < n + 1 ↔ i < n by omega]

theorem Compatible.rawTableSize (hc : Compatible a b) (ha : Sized a) (hb : Sized b) :
    a.rawTableSize = b.rawTableSize := by
  rw [ha.raw, hb.raw, hc.2.1]

-- An operation on the bytes of two tables, as the one on their bits.
variable (bop) in
theorem combine_eq
    (hop : ∀ c d j, (op c d).toNat.testBit j = bop (c.toNat.testBit j) (d.toNat.testBit j))
    (hz : bop false false = false) (ha : Sized a) (hb : Sized b) (hc : Compatible a b) :
    ∃ g, combine op a b = .ok g ∧ Like a g ∧
      ∀ m, bitOf g.bitTable m = bop (bitOf a.bitTable m) (bitOf b.bitTable m) := by
  have hbl : b.bitTable.length = a.bitTable.length := by
    rw [ha.length, hb.length, hc.rawTableSize ha hb]
  obtain ⟨t, ht, hl, hg⟩ := foldlM_combineByte op (n := a.rawTableSize.toNat)
    ha.length.ge (by rw [hbl, ha.length])
  refine ⟨{ a with bitTable := t }, ?_, .of_table hl, fun m => ?_⟩
  case refine_1 => rw [combine, if_pos hc, ht]; rfl
  case refine_2 =>
    rw [bitOf, hg]
    split
    case isTrue => exact hop ..
    case isFalse h =>
      -- Neither table has this bit.
      have hout {t : List UInt8} (h : t.length ≤ m / 8) : t.getD (m / 8) 0 = 0 := by simp [h]
      rw [bitOf, bitOf, hout (by rw [ha.length]; omega), hout (by rw [hbl, ha.length]; omega)]
      simpa using hz.symm

theorem andAssign_eq (ha : Sized a) (hb : Sized b) (hc : Compatible a b) :
    ∃ g, a.andAssign b = .ok g ∧ Like a g ∧ g.bits = a.bits ∩ b.bits := by
  obtain ⟨g, hg, hl, hm⟩ := combine_eq and
    (fun c d j => by rw [UInt8.toNat_and, Nat.testBit_and]) rfl ha hb hc
  exact ⟨g, hg, hl, Set.ext fun m => by simp [bits, hm]⟩

theorem orAssign_eq (ha : Sized a) (hb : Sized b) (hc : Compatible a b) :
    ∃ g, a.orAssign b = .ok g ∧ Like a g ∧ g.bits = a.bits ∪ b.bits := by
  obtain ⟨g, hg, hl, hm⟩ := combine_eq or
    (fun c d j => by rw [UInt8.toNat_or, Nat.testBit_or]) rfl ha hb hc
  exact ⟨g, hg, hl, Set.ext fun m => by simp [bits, hm]⟩

theorem xorAssign_eq (ha : Sized a) (hb : Sized b) (hc : Compatible a b) :
    ∃ g, a.xorAssign b = .ok g ∧ Like a g ∧ g.bits = symmDiff a.bits b.bits := by
  obtain ⟨g, hg, hl, hm⟩ := combine_eq xor
    (fun c d j => by rw [UInt8.toNat_xor, Nat.testBit_xor]) rfl ha hb hc
  refine ⟨g, hg, hl, Set.ext fun m => ?_⟩
  have := hm m
  cases ha : bitOf a.bitTable m <;> cases hb : bitOf b.bitTable m <;>
    simp_all [bits, Set.mem_symmDiff]

-- Filters that do not belong together stay as they are.
theorem combine_of_not_compatible (hc : ¬Compatible a b) : combine op a b = .ok a :=
  if_neg hc

end Combination

section Tables

variable {f : BloomFilter}

theorem bitOf_replicate (n m : Nat) : bitOf (List.replicate n 0) m = false := by
  have : (List.replicate n (0 : UInt8)).getD (m / 8) 0 = 0 := by
    rw [List.getD_eq_getElem?_getD, List.getElem?_replicate]
    split <;> rfl
  rw [bitOf, this]
  simp

theorem clear_eq (hs : Sized f) : ∃ g, f.clear = .ok g ∧ Like f g ∧ g.bits = ∅ := by
  have hd : f.bitTable.drop f.rawTableSize.toNat = [] := List.drop_of_length_le hs.length.le
  refine ⟨{ f with bitTable := List.replicate f.rawTableSize.toNat 0, insertedElementCount := 0 },
    ?_, .of_table (by rw [List.length_replicate, hs.length]), ?_⟩
  case refine_1 =>
    rw [clear, if_neg (by rw [hs.length]; omega), hd, List.append_nil]
    rfl
  case refine_2 =>
    ext m
    simp [bits, bitOf_replicate]

theorem assign_eq (hs : Sized f) : f.assign = .ok f := by
  have ht : f.bitTable.take f.rawTableSize.toNat = f.bitTable := List.take_of_length_le hs.length.le
  rw [assign, if_neg (by rw [hs.length]; omega), ht]
  rfl

end Tables

section Equality

-- A table is given by its bits.
theorem eq_of_bitOf {t u : List UInt8} (hl : t.length = u.length) (h : ∀ m, bitOf t m = bitOf u m) :
    t = u := by
  refine List.ext_getElem hl fun i hi hi' => UInt8.toNat.inj (Nat.eq_of_testBit_eq fun j => ?_)
  by_cases hj : j < 8
  case pos =>
    have hd : (8 * i + j) / 8 = i := by omega
    have hm : (8 * i + j) % 8 = j := by omega
    have := h (8 * i + j)
    rwa [bitOf, bitOf, hd, hm, List.getD_eq_getElem _ _ hi, List.getD_eq_getElem _ _ hi'] at this
  case neg =>
    have hout (c : UInt8) : c.toNat.testBit j = false :=
      Nat.testBit_lt_two_pow (c.toNat_lt.trans_le (Nat.pow_le_pow_right (by decide) (not_lt.mp hj)))
    rw [hout, hout]

theorem Like.bitTable_eq {f a b : BloomFilter} (ha : Like f a) (hb : Like f b)
    (h : a.bits = b.bits) :
    a.bitTable = b.bitTable :=
  eq_of_bitOf (ha.length.trans hb.length.symm) fun m => Bool.eq_iff_iff.mpr (Set.ext_iff.mp h m)

end Equality

-- Inserts keys one after the other.
def fill (f : BloomFilter) (keys : List (List UInt8)) : Except Error BloomFilter :=
  keys.foldlM insert f

theorem fill_eq {f : BloomFilter} (hs : InBounds f) (keys : List (List UInt8)) :
    ∃ g, f.fill keys = .ok g ∧ Like f g ∧
      ∀ m, m ∈ g.bits ↔ m ∈ f.bits ∨ ∃ key ∈ keys, m ∈ f.positions key := by
  induction keys generalizing f
  case nil => exact ⟨f, rfl, .refl f, by simp⟩
  case cons key keys hi =>
    obtain ⟨g, hg, hl, hb⟩ := insert_eq key hs
    obtain ⟨k, hk, hl', hb'⟩ := hi (hl.inBounds hs)
    refine ⟨k, ?_, hl.trans hl', fun m => ?_⟩
    case refine_1 => rw [fill, List.foldlM_cons, hg, Except.ok_bind, ← fill, hk]
    case refine_2 =>
      simp only [hb', hb, hl.positions, Set.mem_union, List.exists_mem_cons_iff, or_assoc]

end BloomFilter
