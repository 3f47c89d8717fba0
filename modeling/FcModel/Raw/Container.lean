import Mathlib
import FcModel.Raw.Scalar

-- The containers of the standard library that the codec is defined for, as far as it uses them.

namespace Raw

-- The comparison of an ordered container, `std::less<T>`.
structure Less (α : Type) where
  lt     : α → α → Bool
  irrefl : ∀ a, lt a a = false
  trans  : ∀ {a b c}, lt a b → lt b c → lt a c

namespace Less

variable {α β : Type}

theorem asymm (l : Less α) {a b : α} (h : l.lt a b) : l.lt b a = false := by
  cases hba : l.lt b a
  case false => rfl
  case true  => exact l.irrefl a ▸ (l.trans h hba).symm

-- A map compares its entries by their keys.
def fst (l : Less α) : Less (α × β) where
  lt a b := l.lt a.1 b.1
  irrefl a := l.irrefl a.1
  trans := l.trans

end Less

-- `std::set`, and `std::map` as a set of pairs: the elements in increasing order.
structure OrderedSet {α : Type} (l : Less α) where
  elems  : List α
  sorted : elems.Pairwise fun a b => l.lt a b

namespace OrderedSet

variable {α : Type} {l : Less α}

@[ext]
theorem ext {s t : OrderedSet l} (h : s.elems = t.elems) : s = t := by
  cases s; cases t; cases h; rfl

def empty : OrderedSet l where
  elems  := []
  sorted := .nil

def singleton (a : α) : OrderedSet l where
  elems  := [a]
  sorted := List.pairwise_singleton ..

theorem singleton_inj {a b : α} (h : (singleton a : OrderedSet l) = singleton b) : a = b :=
  List.singleton_inj.mp (congrArg elems h)

-- An element that is equivalent to the new one is kept.
def insertElem (l : Less α) (a : α) : List α → List α
  | []      => [a]
  | b :: bs => if l.lt a b then a :: b :: bs else if l.lt b a then b :: insertElem l a bs else b :: bs

theorem mem_insertElem {a b : α} {bs : List α} (h : b ∈ insertElem l a bs) : b = a ∨ b ∈ bs := by
  induction bs
  case nil => exact .inl (List.mem_singleton.mp h)
  case cons c bs hi =>
    simp only [insertElem] at h
    split at h
    case isTrue => exact List.mem_cons.mp h
    case isFalse =>
      split at h
      case isFalse => exact .inr h
      case isTrue =>
        cases List.mem_cons.mp h
        case inl h => exact .inr (h ▸ List.mem_cons_self ..)
        case inr h => exact (hi h).imp id (List.mem_cons_of_mem _)

theorem sorted_insertElem {a : α} {bs : List α} (h : bs.Pairwise fun a b => l.lt a b) :
    (insertElem l a bs).Pairwise fun a b => l.lt a b := by
  induction bs
  case nil => exact List.pairwise_singleton ..
  case cons b bs hi =>
    have ⟨hb, hbs⟩ := List.pairwise_cons.mp h
    simp only [insertElem]
    split
    case isTrue hab =>
      refine List.pairwise_cons.mpr ⟨?_, h⟩
      exact List.forall_mem_cons.mpr ⟨hab, fun c hc => l.trans hab (hb c hc)⟩
    case isFalse =>
      split
      case isFalse => exact h
      case isTrue hba =>
        refine List.pairwise_cons.mpr ⟨fun c hc => ?_, hi hbs⟩
        cases mem_insertElem hc
        case inl hc => exact hc ▸ hba
        case inr hc => exact hb c hc

def insert (s : OrderedSet l) (a : α) : OrderedSet l where
  elems  := insertElem l a s.elems
  sorted := sorted_insertElem s.sorted

theorem insertElem_of_lt {a : α} {bs : List α} (h : ∀ b ∈ bs, l.lt b a) :
    insertElem l a bs = bs ++ [a] := by
  induction bs
  case nil => rfl
  case cons b bs hi =>
    have hb := h b (List.mem_cons_self ..)
    have hi := hi fun c hc => h c (List.mem_cons_of_mem _ hc)
    simp [insertElem, l.asymm hb, hb, hi]

-- Inserting increasing elements one after the other appends them.
theorem foldl_insert (s : OrderedSet l) : s.elems.foldl insert empty = s := by
  suffices ∀ (t : OrderedSet l) (bs : List α), (t.elems ++ bs).Pairwise (fun a b => l.lt a b) →
      (bs.foldl insert t).elems = t.elems ++ bs from
    ext (this empty s.elems s.sorted)
  intro t bs hs
  induction bs generalizing t
  case nil => simp
  case cons b bs hi =>
    have hb : (t.insert b).elems = t.elems ++ [b] :=
      insertElem_of_lt fun a ha => (List.pairwise_append.mp hs).2.2 a ha b (List.mem_cons_self ..)
    rw [List.foldl_cons, hi _ (by rwa [hb, List.append_assoc]), hb, List.append_assoc]
    rfl

end OrderedSet

-- `std::unordered_set`, and `std::unordered_map` as a set of pairs: no two elements have the same
-- key. Two of them are equal when they have the same elements.
structure HashSet {α κ : Type} (key : α → κ) where
  elems : Multiset α
  nodup : (elems.map key).Nodup

-- The order in which a hash table is traversed. Nothing is known about it.
structure Traversal (α : Type) where
  toList : Multiset α → List α
  coe    : ∀ s, (toList s : Multiset α) = s

namespace Traversal

variable {α : Type}

theorem mem_toList {t : Traversal α} {s : Multiset α} {a : α} : a ∈ t.toList s ↔ a ∈ s := by
  rw [← Multiset.mem_coe, t.coe]

theorem toList_zero (t : Traversal α) : t.toList 0 = [] := by
  rw [← Multiset.coe_eq_zero, t.coe]

theorem toList_singleton (t : Traversal α) (a : α) : t.toList {a} = [a] := by
  rw [← Multiset.coe_eq_singleton, t.coe]

end Traversal

namespace HashSet

variable {α κ : Type} {key : α → κ}

@[ext]
theorem ext {s t : HashSet key} (h : s.elems = t.elems) : s = t := by
  cases s; cases t; cases h; rfl

def empty : HashSet key where
  elems := 0
  nodup := by simp

def singleton (a : α) : HashSet key where
  elems := {a}
  nodup := by simp

theorem singleton_inj {a b : α} (h : (singleton a : HashSet key) = singleton b) : a = b :=
  Multiset.singleton_inj.mp (congrArg elems h)

-- `eq` is the `std::equal_to` of the keys.
def insert (eq : DecidableEq κ) (s : HashSet key) (a : α) : HashSet key :=
  if h : key a ∈ s.elems.map key then s
  else ⟨a ::ₘ s.elems, by rw [Multiset.map_cons]; exact Multiset.nodup_cons.mpr ⟨h, s.nodup⟩⟩

theorem insert_of_not_mem (eq : DecidableEq κ) {s : HashSet key} {a : α}
    (h : key a ∉ s.elems.map key) : (s.insert eq a).elems = a ::ₘ s.elems := by
  rw [insert, dif_neg h]

theorem insert_empty (eq : DecidableEq κ) (a : α) :
    (empty : HashSet key).insert eq a = singleton a :=
  ext (insert_of_not_mem eq (by simp [empty]))

theorem foldl_insert (eq : DecidableEq κ) (s : HashSet key) {as : List α}
    (h : (as : Multiset α) = s.elems) : as.foldl (insert eq) empty = s := by
  suffices ∀ (t : HashSet key) (as : List α), ((t.elems + as).map key).Nodup →
      (as.foldl (insert eq) t).elems = t.elems + as from
    ext (by rw [this empty as (by simpa [empty, h] using s.nodup), h]; exact Multiset.zero_add _)
  clear h
  intro t as hn
  induction as generalizing t
  case nil => simp
  case cons a as hi =>
    have he : t.elems + ((a :: as : List α) : Multiset α) = a ::ₘ t.elems + as := by
      rw [← Multiset.cons_coe, Multiset.add_cons, Multiset.cons_add]
    have hnot : key a ∉ t.elems.map key := by
      rw [he, Multiset.cons_add, Multiset.map_cons, Multiset.nodup_cons, Multiset.map_add,
        Multiset.mem_add] at hn
      exact fun hm => hn.left (.inl hm)
    rw [List.foldl_cons, hi _ (by rwa [insert_of_not_mem eq hnot, ← he]), insert_of_not_mem eq hnot,
      he]

end HashSet

-- The types whose arrays are copied as they are in memory.
inductive Scalar : Type → Type 1
  | int (n : Nat) : Scalar (BitVec (8 * n))
  | bool : Scalar Bool

namespace Scalar

variable {α : Type}

def size : Scalar α → Nat
  | int n => n
  | bool  => 1

def zero : Scalar α → α
  | int _ => 0
  | bool  => false

def toBytes : Scalar α → α → Bytes
  | int n, v => toLE n v.toNat
  | bool, v  => [if v then 1 else 0]

-- A byte other than zero and one is not a value of `bool`. It is taken for `true`.
def ofBytes : Scalar α → Bytes → α
  | int _, bs => .ofNat _ (ofLE bs)
  | bool, bs  => ofLE bs ≠ 0

def arrayToBytes (s : Scalar α) : {n : Nat} → (Fin n → α) → Bytes
  | 0, _     => []
  | n + 1, v => s.toBytes (v (.first n)) ++ s.arrayToBytes fun i => v i.succ

def arrayOfBytes (s : Scalar α) : {n : Nat} → Bytes → Fin n → α
  | 0, _      => fun i => i.elim0
  | _ + 1, bs => Fin.cons (s.ofBytes (bs.take s.size)) (s.arrayOfBytes (bs.drop s.size))

@[simp]
theorem length_toBytes (s : Scalar α) (v : α) : (s.toBytes v).length = s.size := by
  cases s
  case int  => exact length_toLE ..
  case bool => rfl

@[simp]
theorem length_arrayToBytes (s : Scalar α) {n : Nat} (v : Fin n → α) :
    (s.arrayToBytes v).length = n * s.size := by
  induction n
  case zero       => simp [arrayToBytes]
  case succ n hi  => simp [arrayToBytes, hi, Nat.succ_mul, Nat.add_comm]

theorem ofBytes_toBytes (s : Scalar α) (v : α) : s.ofBytes (s.toBytes v) = v := by
  cases s
  case int n =>
    simp only [ofBytes, toBytes, ofLE_toLE]
    rw [show (256 : Nat) = 2 ^ 8 from rfl, ← Nat.pow_mul, Nat.mod_eq_of_lt v.isLt,
      BitVec.ofNat_toNat,
      BitVec.setWidth_eq]
  case bool => cases v <;> rfl

theorem arrayOfBytes_arrayToBytes (s : Scalar α) {n : Nat} (v : Fin n → α) :
    s.arrayOfBytes (s.arrayToBytes v) = v := by
  induction n
  case zero => exact funext fun i => i.elim0
  case succ n hi =>
    have hl := s.length_toBytes (v 0)
    rw [arrayOfBytes, arrayToBytes, List.take_left' hl, List.drop_left' hl, ofBytes_toBytes, hi]
    exact Fin.cons_self_tail v

end Scalar

end Raw
