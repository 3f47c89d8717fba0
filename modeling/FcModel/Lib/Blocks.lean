import Mathlib

-- A sequence that is stored in a chain of blocks of one size: positions in the sequence and
-- positions in the blocks.

-- Overwrites a part of a list, from position `p` on.
def List.overlay {α : Type} (l : List α) (p : Nat) (xs : List α) : List α :=
  l.take p ++ xs ++ l.drop (p + xs.length)

namespace List

variable {α : Type} {l xs : List α} {p : Nat}

theorem length_overlay (h : p + xs.length ≤ l.length) : (l.overlay p xs).length = l.length := by
  simp [overlay]
  omega

theorem overlay_nil : l.overlay p [] = l := by
  simp [overlay]

-- Adjacent parts are overwritten one after the other.
theorem overlay_overlay_append (l xs ys : List α) {p : Nat} (h : p + xs.length ≤ l.length) :
    (l.overlay p xs).overlay (p + xs.length) ys = l.overlay p (xs ++ ys) := by
  have hp : (l.take p).length = p := by simp; omega
  have ht : (l.overlay p xs).take (p + xs.length) = l.take p ++ xs := by
    rw [overlay, take_append_of_le_length (by simp [hp]), take_of_length_le (by simp [hp])]
  have hd : (l.overlay p xs).drop (p + xs.length + ys.length) =
      l.drop (p + xs.length + ys.length) := by
    rw [overlay, drop_append, drop_of_length_le (by simp [hp]), length_append, hp, nil_append,
      drop_drop]
    congr 1
    omega
  rw [overlay, ht, hd, overlay]
  simp [Nat.add_assoc]

theorem overlay_take_drop (l xs : List α) (k : Nat) (h : p + xs.length ≤ l.length) :
    (l.overlay p (xs.take k)).overlay (p + k) (xs.drop k) = l.overlay p xs := by
  by_cases hk : xs.length ≤ k
  case pos => rw [drop_of_length_le hk, overlay_nil, take_of_length_le hk]
  case neg =>
    have hl : (xs.take k).length = k := by simp; omega
    have := overlay_overlay_append l (xs.take k) (xs.drop k) (p := p) (by omega)
    rwa [hl, take_append_drop] at this

theorem take_overlay_of_le {k : Nat} (hk : k ≤ p) (hp : p ≤ l.length) :
    (l.overlay p xs).take k = l.take k := by
  rw [overlay, append_assoc, take_append_of_le_length (by simp; omega), take_take,
    Nat.min_eq_left hk]

theorem drop_overlay (h : p ≤ l.length) :
    (l.overlay p xs).drop p = xs ++ l.drop (p + xs.length) := by
  have hp : (l.take p).length = p := by simp; omega
  rw [overlay, append_assoc, drop_append_of_le_length (by omega), drop_of_length_le (by omega),
    nil_append]

end List

namespace Blocks

variable {α : Type} {n : Nat}

def flat (bs : List (Vector α n)) : List α :=
  bs.flatMap Vector.toList

variable {bs bs' : List (Vector α n)} {b : Vector α n} {i j k : Nat}

@[simp]
theorem flat_nil : flat ([] : List (Vector α n)) = [] := rfl

@[simp]
theorem flat_cons : flat (b :: bs) = b.toList ++ flat bs := rfl

@[simp]
theorem flat_append : flat (bs ++ bs') = flat bs ++ flat bs' := by
  simp [flat]

@[simp]
theorem length_flat : (flat bs).length = bs.length * n := by
  induction bs
  case nil          => simp
  case cons _ _ hi  => simp [hi, Nat.add_mul, Nat.add_comm]

theorem drop_flat (i : Nat) : (flat bs).drop (i * n) = flat (bs.drop i) := by
  induction bs generalizing i
  case nil => simp
  case cons b bs hi =>
    cases i
    case zero   => simp
    case succ i =>
      have : (i + 1) * n = b.toList.length + i * n := by simp [Nat.add_mul, Nat.add_comm]
      rw [this, flat_cons, List.drop_length_add_append, hi, List.drop_succ_cons]

-- A slice that does not cross a block boundary is a slice of that block.
theorem slice_flat (hb : bs[i]? = some b) (h : j + k ≤ n) :
    ((flat bs).drop (i * n + j)).take k = (b.toList.drop j).take k := by
  have ⟨hi, he⟩ := List.getElem?_eq_some_iff.mp hb
  rw [← List.drop_drop, drop_flat, List.drop_eq_getElem_cons hi, he, flat_cons,
    List.drop_append_of_le_length (by simp; omega), List.take_append_of_le_length (by simp; omega)]

-- Overwriting a part of one block overwrites the same part of the sequence.
theorem flat_modify {f : Vector α n → Vector α n} {xs : List α} (hi : i < bs.length)
    (hf : (f bs[i]).toList = bs[i].toList.overlay j xs) (h : j + xs.length ≤ n) :
    flat (bs.modify i f) = (flat bs).overlay (i * n + j) xs := by
  induction bs generalizing i
  case nil => simp at hi
  case cons b bs ih =>
    cases i
    case zero =>
      simp at hf
      simp only [List.modify_zero_cons, flat_cons, hf, List.overlay, Nat.zero_mul, Nat.zero_add]
      rw [List.take_append_of_le_length (by simp; omega),
        List.drop_append_of_le_length (by simp; omega)]
      simp
    case succ i =>
      simp at hi hf
      have : (i + 1) * n + j = b.toList.length + (i * n + j) := by simp [Nat.add_mul]; omega
      rw [List.modify_succ_cons, flat_cons, ih hi hf, flat_cons, this]
      simp only [List.overlay, Nat.add_assoc, List.take_length_add_append,
        List.drop_length_add_append, List.append_assoc]

end Blocks
