import FcModel.Raw.Codec.Basic
import FcModel.Raw.Varint.Minimal

-- `fixed_string`: a string in a memory of fixed size. What is not needed is filled with zeros.

namespace Raw.FixedString

variable {n : Nat} {s : Bytes}

-- The constructor from a `std::string`.
def ofString (n : Nat) (str : Bytes) : Vector UInt8 (n + 1) :=
  if str.length < n + 1 then storeFront (.replicate (n + 1) 0) str
  else .ofFn fun i => str.getD i.val 0

def size (v : Vector UInt8 (n + 1)) : UInt32 :=
  .ofNat (fixedStringSize v)

-- `operator std::string`.
def toString (v : Vector UInt8 (n + 1)) : Bytes :=
  v.toList.take (size v).toNat

section Contents

theorem ofString_eq (n : Nat) (s : Bytes) :
    ofString n s = storeFront (.replicate (n + 1) 0) (s.take (n + 1)) := by
  rw [ofString]
  split
  case isTrue h  => rw [List.take_of_length_le (Nat.le_of_lt h)]
  case isFalse h =>
    refine Vector.ext fun i hi => ?_
    simp only [storeFront, Vector.getElem_ofFn, List.getD_eq_getElem?_getD]
    rw [List.getElem?_take_of_lt hi, List.getElem?_eq_getElem (by omega), Option.getD_some,
      Option.getD_some]

-- The first bytes of the string, and zeros.
theorem toList_ofString (n : Nat) (s : Bytes) :
    (ofString n s).toList = s.take (n + 1) ++ List.replicate (n + 1 - s.length) 0 := by
  refine List.ext_getElem ?_ fun i hi _ => ?_
  case refine_1 =>
    rw [Vector.length_toList, List.length_append, List.length_take, List.length_replicate]
    omega
  case refine_2 =>
    rw [Vector.length_toList] at hi
    simp only [Vector.getElem_toList, List.getElem_append, ofString_eq, storeFront,
      Vector.getElem_ofFn, List.getD_eq_getElem?_getD]
    split
    case isTrue h  => rw [List.getElem?_eq_getElem h, Option.getD_some]
    case isFalse h =>
      rw [List.getElem?_eq_none (Nat.not_lt.mp h), Option.getD_none, List.getElem_replicate]
      simp

theorem takeWhile_zeros (hs : 0 ∉ s) (j : Nat) :
    (s ++ List.replicate j 0).takeWhile (· ≠ 0) = s := by
  have hne : ∀ c ∈ s, decide (c ≠ 0) = true := fun c hc =>
    decide_eq_true fun he => hs (he ▸ hc)
  rw [List.takeWhile_append_of_pos hne, List.takeWhile_replicate, if_neg (by decide),
    List.append_nil]

-- The last byte tells if all of them are in use.
theorem fixedStringSize_ofString (n : Nat) (hs : 0 ∉ s) :
    fixedStringSize (ofString n s) = min (n + 1) s.length := by
  rw [fixedStringSize]
  have hlast : (ofString n s).get (.last n) = (ofString n s).toList.getD n 0 := by
    rw [Vector.get_eq_getElem, List.getD_eq_getElem _ _ (by simp)]
    rfl
  rw [hlast, toList_ofString]
  by_cases h : n + 1 ≤ s.length
  case pos =>
    have hn : n < s.length := h
    have hget : (s.take (n + 1) ++ List.replicate (n + 1 - s.length) 0).getD n 0 = s[n] := by
      rw [List.getD_append _ _ _ _ (by rw [List.length_take]; omega),
        List.getD_eq_getElem _ _ (by rw [List.length_take]; omega), List.getElem_take]
    have hne : s[n] ≠ 0 := fun h0 => hs (h0 ▸ List.getElem_mem hn)
    rw [hget, if_pos hne, Nat.min_eq_left h]
  case neg =>
    have hlt : s.length ≤ n := by omega
    have hget : (s.take (n + 1) ++ List.replicate (n + 1 - s.length) 0).getD n 0 = 0 := by
      rw [List.getD_append_right _ _ _ _ (by rw [List.length_take]; omega)]
      simp
    rw [hget, if_neg (not_not.mpr rfl), List.take_of_length_le (by omega), takeWhile_zeros hs,
      Nat.min_eq_right (by omega)]

theorem toString_ofString (hs : 0 ∉ s) (h : min (n + 1) s.length < 2 ^ 32) :
    toString (ofString n s) = s.take (n + 1) := by
  rw [toString, size, fixedStringSize_ofString n hs, UInt32.toNat_ofNat_of_lt' h, toList_ofString]
  refine List.take_left' ?_
  rw [List.length_take]

end Contents

section Packing

theorem bytes_packBytes_of_lt {t : Bytes} (h : maxSizeOfByteArrays < t.length) :
    (packBytes t).bytes = .error .assert := by
  rw [packBytes, Encoder.guard, if_neg (by omega)]
  rfl

-- The size of a `fixed_string` is not checked when it is packed.
theorem bytes_packFixedString_ok (v : Vector UInt8 (n + 1)) :
    ∃ b, (packFixedString v).bytes = .ok b := by
  obtain ⟨b, hb, -⟩ := length_packUnsignedInt (.ofNat (fixedStringSize v))
  refine ⟨b ++ v.toList.take (UInt32.ofNat (fixedStringSize v)).toNat, ?_⟩
  rw [packFixedString, Encoder.bytes_append_of_ok hb, Encoder.bytes, Encoder.bytes, Except.map,
    Except.map, List.append_nil]

-- Nothing is written for an empty string, and no bytes for an empty `fixed_string`.
theorem bytes_packFixedString (hs : 0 ∉ s) (h : min (n + 1) s.length ≤ maxSizeOfByteArrays) :
    (packFixedString (ofString n s)).bytes = (packBytes (s.take (n + 1))).bytes := by
  have hlength : (s.take (n + 1)).length = min (n + 1) s.length := List.length_take ..
  have hfits : (UInt32.ofNat (min (n + 1) s.length)).toNat = (s.take (n + 1)).length :=
    (toNat_ofNat_of_le h (by decide)).trans hlength.symm
  obtain ⟨b, hb, -⟩ := length_packUnsignedInt (.ofNat (min (n + 1) s.length))
  have htake : (ofString n s).toList.take (s.take (n + 1)).length = s.take (n + 1) := by
    rw [toList_ofString]
    exact List.take_left
  have hdone : ∀ y : Packer, Encoder.done ++ y = y := fun _ => rfl
  rw [packFixedString, packBytes, fixedStringSize_ofString n hs, hfits, htake, Encoder.guard,
    if_pos (hlength ▸ h), hlength, hdone, Encoder.bytes_append_of_ok hb,
    Encoder.bytes_append_of_ok hb]
  by_cases h0 : min (n + 1) s.length = 0
  case pos =>
    have hnil : s.take (n + 1) = [] := List.length_eq_zero_iff.mp (hlength.trans h0)
    rw [if_pos h0, hnil]
    rfl
  case neg => rw [if_neg h0]

end Packing

section Unpacking

theorem parse_skipBlocks {fuel : Nat} {q : Bytes} (h : q.length < fuel) (rest : Bytes) :
    (skipBlocks fuel q.length).parse .outOfRange (q ++ rest) = .ok ((), rest) := by
  induction fuel generalizing q
  case zero => cases h
  case succ fuel hi =>
    rw [skipBlocks]
    split
    case isTrue hle =>
      have hrest := @hi (q.drop 1024) (by rw [List.length_drop]; omega)
      have hsize : (List.replicate 1024 (0 : UInt8)).length ≤ (q ++ rest).length := by
        rw [List.length_replicate, List.length_append]
        omega
      rw [Decoder.parse, if_pos hsize, List.length_replicate,
        List.drop_append_of_le_length hle]
      rw [List.length_drop] at hrest
      exact hrest
    case isFalse =>
      have hsize : (List.replicate q.length (0 : UInt8)).length ≤ (q ++ rest).length := by
        rw [List.length_replicate, List.length_append]
        omega
      rw [Decoder.parse, if_pos hsize, List.length_replicate, List.drop_left]
      rfl

-- The memory to read into has the right size.
theorem length_take_zeros {j : Nat} (h : j ≤ n + 1) :
    ((Vector.replicate (n + 1) (0 : UInt8)).toList.take j).length = j := by
  rw [List.length_take, Vector.length_toList, Nat.min_eq_left h]

-- What does not fit is read and dropped.
theorem reads_over_long (hlong : n + 1 < s.length) :
    Reads (fun _ => .read (Vector.replicate (n + 1) (0 : UInt8)).toList fun bs => do
        skipBlocks (s.length + 1) (s.length - (n + 1))
        return storeFront (.replicate (n + 1) 0) bs)
      (.write s .done) (ofString n s) := by
  intro b hb t g _
  obtain ⟨_, hdone, rfl⟩ := Encoder.bytes_write_eq_ok.mp hb
  cases hdone
  have hold : (Vector.replicate (n + 1) (0 : UInt8)).toList.length = n + 1 := Vector.length_toList
  have hfuel : (s.drop (n + 1)).length < s.length + 1 := by
    rw [List.length_drop]
    omega
  have hskip := parse_skipBlocks hfuel t
  rw [List.length_drop] at hskip
  have hle : (Vector.replicate (n + 1) (0 : UInt8)).toList.length ≤ (s ++ t).length := by
    rw [hold, List.length_append]
    omega
  rw [List.append_nil, Decoder.parse, if_pos hle, hold, List.take_append_of_le_length (by omega),
    List.drop_append_of_le_length (by omega), Decoder.parse_bind_ok hskip, ofString_eq]
  rfl

theorem reads_ofString (n : Nat) (s : Bytes) :
    Reads (fun _ => unpackFixedString (.replicate (n + 1) 0)) (packBytes s) (ofString n s) := by
  refine .guard fun hl => .bind (reads_unsignedInt _) ?_
  have hsize : (UInt32.ofNat s.length).toNat = s.length := toNat_ofNat_of_le hl (by decide)
  rw [hsize]
  by_cases h0 : s.length = 0
  case pos =>
    have hempty : ofString n s = .replicate (n + 1) 0 := by
      rw [List.length_eq_zero_iff.mp h0]
      exact Vector.toList_inj.mp ((toList_ofString n []).trans Vector.toList_replicate.symm)
    rw [if_neg (by omega), if_pos h0, hempty]
    exact .pure
  case neg =>
    rw [if_pos (Nat.pos_of_ne_zero h0), if_neg h0]
    by_cases hlong : n + 1 < s.length
    case pos =>
      rw [if_pos hlong]
      exact reads_over_long hlong
    case neg =>
      have hfits : s.take (n + 1) = s := List.take_of_length_le (Nat.not_lt.mp hlong)
      rw [if_neg hlong, ofString_eq, hfits]
      exact .read (length_take_zeros (Nat.not_lt.mp hlong)) .pure

end Unpacking

-- What is claimed of the conversion to `std::string` and of packing.
def LikeString (n : Nat) (s : Bytes) : Prop :=
  toString (ofString n s) = s.take (n + 1) ∧
    (packFixedString (ofString n s)).bytes = (packBytes (toString (ofString n s))).bytes

theorem likeString_iff (hs : 0 ∉ s) :
    LikeString n s ↔ min (n + 1) s.length ≤ maxSizeOfByteArrays := by
  refine ⟨fun ⟨hstring, hpack⟩ => ?_, fun h => ?_⟩
  case refine_1 =>
    obtain ⟨b, hb⟩ := bytes_packFixedString_ok (ofString n s)
    rw [hb, hstring] at hpack
    refine Nat.not_lt.mp fun hlong => ?_
    rw [bytes_packBytes_of_lt (by rwa [List.length_take])] at hpack
    cases hpack
  case refine_2 =>
    have hstring := toString_ofString hs (h.trans_lt (by decide))
    exact ⟨hstring, by rw [hstring, bytes_packFixedString hs h]⟩

-- A `fixed_string` is packed as the string it holds, unless it holds more than a string may: then
-- the string cannot be packed. What was packed as a string of any size is read to its end.
theorem fixedString_exact_iff (n : Nat) (s : Bytes) :
    (0 ∉ s → (LikeString n s ↔ min (n + 1) s.length ≤ maxSizeOfByteArrays)) ∧
    ∀ p, (packBytes s).bytes = .ok p → ∀ rest,
      (unpackFixedString (.replicate (n + 1) 0)).parse .outOfRange (p ++ rest) =
        .ok (ofString n s, rest) :=
  ⟨likeString_iff, fun p hp rest => reads_ofString n s p hp rest _ (Nat.lt_succ_self _)⟩

theorem fixedString_exact_iff_two :
    (LikeString 1 [7, 8, 9] ↔ min (1 + 1) [7, 8, 9].length ≤ maxSizeOfByteArrays) ∧
    (unpackFixedString (.replicate (1 + 1) 0)).parse .outOfRange ([3, 7, 8, 9] ++ [5]) =
      .ok (ofString 1 [7, 8, 9], [5]) :=
  ⟨(fixedString_exact_iff 1 [7, 8, 9]).left (by decide),
    (fixedString_exact_iff 1 [7, 8, 9]).right [3, 7, 8, 9] rfl [5]⟩

theorem not_likeString_full :
    ¬LikeString maxSizeOfByteArrays (List.replicate (maxSizeOfByteArrays + 1) 97) := by
  have hs : (0 : UInt8) ∉ List.replicate (maxSizeOfByteArrays + 1) 97 := fun h =>
    absurd (List.eq_of_mem_replicate h) (by decide)
  intro h
  have hle := (likeString_iff hs).mp h
  rw [List.length_replicate, Nat.min_self] at hle
  exact Nat.not_succ_le_self _ hle

end Raw.FixedString
