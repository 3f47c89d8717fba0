import FcModel.Utf8.Prune

-- The code points of a byte string, whether or not all of it is valid.

namespace Utf8

-- The string is read from the left. A byte at which no character starts does not count.
inductive CodePoints : Bytes → List Char → Prop
  | nil : CodePoints [] []
  | char (c : Char) {s : Bytes} {cs : List Char} (h : CodePoints s cs) :
      CodePoints (String.utf8EncodeChar c ++ s) (c :: cs)
  | drop {b : UInt8} {s : Bytes} {cs : List Char} (hb : ∀ c rest, b :: s ≠ String.utf8EncodeChar c ++ rest)
      (h : CodePoints s cs) : CodePoints (b :: s) cs

namespace CodePoints

theorem encode (cs : List Char) : CodePoints (Utf8.encode cs) cs := by
  induction cs
  case nil          => exact .nil
  case cons c cs hi => exact .char c hi

theorem prunes {s : Bytes} {cs : List Char} (h : CodePoints s cs) :
    Prunes s (cs.flatMap pruneChar) := by
  induction h
  case nil            => exact .nil
  case char c _ _ _ hi => exact .char c hi
  case drop hb _ hi   => exact .drop hb hi

theorem exists_of (s : Bytes) : ∃ cs, CodePoints s cs := by
  generalize hp : pruneInvalidUtf8 s = t
  have h : Prunes s t := hp ▸ prunes_pruneInvalidUtf8 s
  clear hp
  induction h
  case nil => exact ⟨[], .nil⟩
  case char c _ _ _ hi =>
    obtain ⟨cs, hcs⟩ := hi
    exact ⟨c :: cs, .char c hcs⟩
  case drop hb _ hi =>
    obtain ⟨cs, hcs⟩ := hi
    exact ⟨cs, .drop hb hcs⟩

theorem unique {s : Bytes} {cs ds : List Char} (h : CodePoints s cs) (h' : CodePoints s ds) :
    cs = ds := by
  induction h generalizing ds
  case nil =>
    generalize hs : ([] : Bytes) = s at h'
    cases h'
    case nil      => rfl
    case char     => simp at hs
    case drop     => cases hs
  case char c s _ _ hi =>
    generalize hs : String.utf8EncodeChar c ++ s = s' at h'
    cases h'
    case nil      => simp at hs
    case char h'  =>
      obtain ⟨rfl, rfl⟩ := Prunes.char_inj hs
      rw [hi h']
    case drop hb _ => exact absurd hs.symm (hb c s)
  case drop b s _ hb _ hi =>
    generalize hs : b :: s = s' at h'
    cases h'
    case nil      => cases hs
    case char     => exact absurd hs (hb _ _)
    case drop h'  =>
      cases hs
      exact hi h'

-- The code points of a string are determined.
theorem exists_unique (s : Bytes) : ∃! cs, CodePoints s cs := by
  obtain ⟨cs, hcs⟩ := exists_of s
  exact ⟨cs, hcs, fun _ h => h.unique hcs⟩

end CodePoints

-- The string is an encoding as a whole.
def Valid (s : Bytes) : Prop :=
  ∃ cs, s = encode cs

namespace Valid

theorem nil : Valid [] :=
  ⟨[], rfl⟩

theorem append {s t : Bytes} (hs : Valid s) (ht : Valid t) : Valid (s ++ t) := by
  obtain ⟨cs, rfl⟩ := hs
  obtain ⟨ds, rfl⟩ := ht
  exact ⟨cs ++ ds, (encode_append cs ds).symm⟩

theorem char (c : Char) : Valid (String.utf8EncodeChar c) :=
  ⟨[c], by rw [encode, List.flatMap_singleton]⟩

theorem of_lt {s : Bytes} (h : ∀ b ∈ s, b.toNat < 128) : Valid s := by
  obtain ⟨cs, hs, -⟩ := exists_encode_of_lt h
  exact ⟨cs, hs⟩

end Valid

end Utf8
