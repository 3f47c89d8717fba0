import FcModel.Io.Json.Generator
import FcModel.Io.Json.Stream
import FcModel.Lib.Run

-- The overload of `json::to_string` with a limit on the length of its output.

namespace Json

open Ascii Utf8

variable {L : LexicalCast} {format : OutputFormatting} {maxLen : UInt64}

def lengthExceeded : Error :=
  .assertion "s <= max_len"

-- The function that `to_string` passes on, for a deadline that never passes.
def lengthYield (maxLen : UInt64) : Yield Error := fun s =>
  if s ≤ maxLen.toNat then return () else throw lengthExceeded

def toStringWithin (L : LexicalCast) (format : OutputFormatting) (maxLen : UInt64) (v : Variant) :
    Except Error Bytes :=
  toString L (lengthYield maxLen) format v

-- `max_length_limit` does not limit any size.
def toStringUnlimited (L : LexicalCast) (format : OutputFormatting) (v : Variant) :
    Except Error Bytes :=
  toString L (fun _ => return ()) format v

section Strings

mutual

-- The strings of a variant that are escaped: its keys and what is written in quotes.
def strings : Variant → List Bytes
  | .string s  => [s]
  | .blob data => [blobToString data]
  | .array a   => elementsStrings a
  | .object o  => entriesStrings o
  | _          => []

def elementsStrings : List Variant → List Bytes
  | []     => []
  | v :: a => strings v ++ elementsStrings a

def entriesStrings : List (Bytes × Variant) → List Bytes
  | []            => []
  | (key, v) :: o => key :: strings v ++ entriesStrings o

end

-- The size of what is written for the first `j` characters.
def escapedSize (str : Bytes) (j : Nat) : Nat :=
  ((str.take j).flatMap (escapeChar true)).length

-- The largest size that is checked while a string is escaped: the size of all of it, and of what
-- has been written for the characters before the last check.
def checkedSize (str : Bytes) : Nat :=
  if str = [] then 0
  else str.length + escapedSize str ((str.length - 1) / escapeStringYieldCheckCount * escapeStringYieldCheckCount)

theorem escapedSize_cons (c : UInt8) (str : Bytes) (j : Nat) :
    escapedSize (c :: str) (j + 1) = (escapeChar true c).length + escapedSize str j := by
  simp [escapedSize]

theorem escapedSize_mono (str : Bytes) {i j : Nat} (h : i ≤ j) :
    escapedSize str i ≤ escapedSize str j := by
  induction str generalizing i j
  case nil => simp [escapedSize]
  case cons c str hi =>
    cases i
    case zero => simp [escapedSize]
    case succ i =>
      obtain ⟨j, rfl⟩ : ∃ k, j = k + 1 := ⟨j - 1, by omega⟩
      rw [escapedSize_cons, escapedSize_cons]
      exact Nat.add_le_add_left (hi (Nat.le_of_succ_le_succ h)) _

theorem lengthYield_ok {n : Nat} (h : n ≤ maxLen.toNat) : lengthYield maxLen n = .ok () :=
  if_pos h

theorem lengthYield_error {n : Nat} (h : ¬n ≤ maxLen.toNat) :
    lengthYield maxLen n = .error lengthExceeded :=
  if_neg h

-- The checks from the `i`th character on, where `r` has been written.
theorem escapeString_go_within {k i : Nat} {r str : Bytes} :
    escapeString.go (lengthYield maxLen) true k i r str =
      if ∀ j < str.length, (i + j) % escapeStringYieldCheckCount = 0 →
      k + r.length + escapedSize str j ≤ maxLen.toNat
      then .ok (r ++ str.flatMap (escapeChar true)) else .error lengthExceeded := by
  induction str generalizing i r
  case nil =>
    have hnone : ∀ j < ([] : Bytes).length, (i + j) % escapeStringYieldCheckCount = 0 →
        k + r.length + escapedSize [] j ≤ maxLen.toNat := fun j hj => absurd hj (Nat.not_lt_zero j)
    rw [if_pos hnone, List.flatMap_nil, List.append_nil]
    rfl
  case cons c str hi =>
    -- The check of this character, and those of the characters behind it.
    have hsplit : (∀ j < (c :: str).length, (i + j) % escapeStringYieldCheckCount = 0 →
        k + r.length + escapedSize (c :: str) j ≤ maxLen.toNat) ↔
        (i % escapeStringYieldCheckCount = 0 → k + r.length ≤ maxLen.toNat) ∧
        ∀ j < str.length, (i + 1 + j) % escapeStringYieldCheckCount = 0 →
          k + (r ++ escapeChar true c).length + escapedSize str j ≤ maxLen.toNat := by
      constructor
      case mp =>
        intro h
        refine ⟨fun h0 => ?_, fun j hj hm => ?_⟩
        · exact h 0 (Nat.succ_pos _) h0
        · have hle := h (j + 1) (Nat.succ_lt_succ hj) (by rw [← hm]; congr 1; omega)
          rw [escapedSize_cons] at hle
          rw [List.length_append]
          omega
      case mpr =>
        rintro ⟨h0, h⟩ j hj hm
        cases j
        case zero => exact h0 hm
        case succ j =>
          have hle := h j (Nat.lt_of_succ_lt_succ hj) (by rw [← hm]; congr 1; omega)
          rw [List.length_append] at hle
          rw [escapedSize_cons]
          omega
    rw [escapeString.go, List.flatMap_cons, ← List.append_assoc]
    by_cases h0 : i % escapeStringYieldCheckCount = 0 ∧ ¬k + r.length ≤ maxLen.toNat
    case pos =>
      rw [if_pos h0.1, lengthYield_error h0.2, if_neg fun h => h0.2 ((hsplit.mp h).1 h0.1)]
      rfl
    case neg =>
      have hcheck : i % escapeStringYieldCheckCount = 0 → k + r.length ≤ maxLen.toNat :=
        fun h => not_not.mp fun hn => h0 ⟨h, hn⟩
      have hrest : (∀ j < (c :: str).length, (i + j) % escapeStringYieldCheckCount = 0 →
          k + r.length + escapedSize (c :: str) j ≤ maxLen.toNat) ↔ _ := hsplit.trans (and_iff_right hcheck)
      rw [if_congr hrest rfl rfl, ← hi]
      split
      case isTrue h  => rw [lengthYield_ok (hcheck h)]; rfl
      case isFalse   => rfl

theorem checkedSize_le_iff {str : Bytes} {n : Nat} : checkedSize str ≤ n ↔
    ∀ j < str.length, j % escapeStringYieldCheckCount = 0 → str.length + escapedSize str j ≤ n := by
  rw [checkedSize]
  split
  case isTrue h => simp [h]
  case isFalse h =>
    have hpos := List.length_pos_iff.mpr h
    constructor
    case mpr =>
      intro hall
      refine hall _ ?_ (Nat.mul_mod_left ..)
      have := Nat.div_mul_le_self (str.length - 1) escapeStringYieldCheckCount
      omega
    case mp =>
      intro hle j hj hm
      refine le_trans (Nat.add_le_add_left (escapedSize_mono str ?_) _) hle
      rw [escapeStringYieldCheckCount] at *
      omega

theorem escapeString_within (str : Bytes) : escapeString (lengthYield maxLen) str true =
    if checkedSize str ≤ maxLen.toNat then .ok (escaped str) else .error lengthExceeded := by
  rw [escapeString, escapeString_go_within]
  simp only [Nat.zero_add, List.length_nil, Nat.add_zero, List.nil_append]
  rw [if_congr checkedSize_le_iff.symm rfl rfl]
  split
  case isTrue  => rfl
  case isFalse => rfl

end Strings

section Streams

-- Everything that is checked while a variant is written, but for the positions, is within the
-- limit.
def ChecksPass (maxLen : UInt64) (strs : List Bytes) : Prop :=
  ∀ str ∈ strs, checkedSize str ≤ maxLen.toNat

instance {strs : List Bytes} : Decidable (ChecksPass maxLen strs) :=
  inferInstanceAs (Decidable (∀ str ∈ strs, checkedSize str ≤ maxLen.toNat))

theorem checksPass_append {as bs : List Bytes} : ChecksPass maxLen (as ++ bs) ↔
    ChecksPass maxLen as ∧ ChecksPass maxLen bs :=
  List.forall_mem_append

-- A string that is escaped was checked.
theorem gives_escapeString (str : Bytes) :
    Gives (fun _ => checkedSize str ≤ maxLen.toNat) (escapeString (lengthYield maxLen) str true) := by
  rw [escapeString_within]
  split
  case isTrue h => exact h
  case isFalse  => exact trivial

theorem gives_elementsToStream {a : List Variant}
    (h : ∀ v ∈ a, ∀ os, Gives (fun _ => ChecksPass maxLen (strings v)) (toStream L (lengthYield maxLen) format v os))
    (os : Bytes) :
    Gives (fun _ => ChecksPass maxLen (elementsStrings a)) (elementsToStream L (lengthYield maxLen) format a os) := by
  induction a generalizing os
  case nil => exact List.forall_mem_nil _
  case cons v a hi =>
    obtain ⟨hv, ha⟩ := List.forall_mem_cons.mp h
    refine .bind (hv os) fun os' hv => ?_
    have hrest := hi ha (if a = [] then os' else os' ++ [comma])
    exact hrest.imp fun _ ha => checksPass_append.mpr ⟨hv, ha⟩

theorem gives_entriesToStream {o : List (Bytes × Variant)}
    (h : ∀ e ∈ o, ∀ os, Gives (fun _ => ChecksPass maxLen (strings e.2)) (toStream L (lengthYield maxLen) format e.2 os))
    (os : Bytes) :
    Gives (fun _ => ChecksPass maxLen (entriesStrings o)) (entriesToStream L (lengthYield maxLen) format o os) := by
  induction o generalizing os
  case nil => exact List.forall_mem_nil _
  case cons e o hi =>
    obtain ⟨hv, ho⟩ := List.forall_mem_cons.mp h
    refine .bind (gives_escapeString e.1) fun key hkey => .bind (hv _) fun os' hv => ?_
    have hrest := hi ho (if o = [] then os' else os' ++ [comma])
    exact hrest.imp fun _ ho => List.forall_mem_cons.mpr ⟨hkey, checksPass_append.mpr ⟨hv, ho⟩⟩

theorem gives_toStream (v : Variant) (os : Bytes) :
    Gives (fun _ => ChecksPass maxLen (strings v)) (toStream L (lengthYield maxLen) format v os) := by
  induction v using Variant.induct generalizing os
  case array a ha =>
    exact .seq fun _ => .seq fun _ => .bind (gives_elementsToStream ha _) fun _ h => h
  case object o ho =>
    exact .seq fun _ => .seq fun _ => .bind (gives_entriesToStream ho _) fun _ h => h
  case string s =>
    exact .seq fun _ => .bind (gives_escapeString s) fun _ h => List.forall_mem_singleton.mpr h
  case blob data =>
    exact .seq fun _ => .bind (gives_escapeString (blobToString data)) fun _ h => List.forall_mem_singleton.mpr h
  all_goals exact .seq fun _ => List.forall_mem_nil _

theorem escapeString_of_checksPass {str : Bytes} (h : checkedSize str ≤ maxLen.toNat) :
    escapeString (lengthYield maxLen) str true = .ok (escaped str) := by
  rw [escapeString_within, if_pos h]

theorem elementsToStream_within {a : List Variant}
    (h : ∀ v ∈ a, ChecksPass maxLen (strings v) → ∀ os, (os ++ text L format v).length ≤ maxLen.toNat →
      toStream L (lengthYield maxLen) format v os = .ok (os ++ text L format v))
    (hc : ChecksPass maxLen (elementsStrings a)) {os : Bytes}
    (hlen : (os ++ elementsText L format a).length ≤ maxLen.toNat) :
    elementsToStream L (lengthYield maxLen) format a os = .ok (os ++ elementsText L format a) := by
  induction a generalizing os
  case nil => rw [elementsText, List.append_nil]; rfl
  case cons v a hi =>
    obtain ⟨hv, ha⟩ := List.forall_mem_cons.mp h
    obtain ⟨hcv, hca⟩ := checksPass_append.mp hc
    have happ : os ++ elementsText L format (v :: a) =
        (if a = [] then os ++ text L format v else os ++ text L format v ++ [comma]) ++ elementsText L format a := by
      rw [elementsText]
      split
      case isTrue  => simp
      case isFalse => simp
    rw [happ] at hlen ⊢
    have hfirst : (os ++ text L format v).length ≤ maxLen.toNat := by
      refine le_trans ?_ hlen
      split
      case isTrue  => simp
      case isFalse => simp
    rw [elementsToStream, hv hcv os hfirst]
    exact hi ha hca hlen

theorem entriesToStream_within {o : List (Bytes × Variant)}
    (h : ∀ e ∈ o, ChecksPass maxLen (strings e.2) → ∀ os, (os ++ text L format e.2).length ≤ maxLen.toNat →
      toStream L (lengthYield maxLen) format e.2 os = .ok (os ++ text L format e.2))
    (hc : ChecksPass maxLen (entriesStrings o)) {os : Bytes}
    (hlen : (os ++ entriesText L format o).length ≤ maxLen.toNat) :
    entriesToStream L (lengthYield maxLen) format o os = .ok (os ++ entriesText L format o) := by
  induction o generalizing os
  case nil => rw [entriesText, List.append_nil]; rfl
  case cons e o hi =>
    obtain ⟨hv, ho⟩ := List.forall_mem_cons.mp h
    obtain ⟨hkey, hc⟩ := List.forall_mem_cons.mp hc
    obtain ⟨hcv, hco⟩ := checksPass_append.mp hc
    have happ : os ++ entriesText L format (e :: o) =
        (if o = [] then os ++ quoted (escaped e.1) ++ [colon] ++ text L format e.2
          else os ++ quoted (escaped e.1) ++ [colon] ++ text L format e.2 ++ [comma]) ++ entriesText L format o := by
      rw [entriesText]
      split
      case isTrue  => simp
      case isFalse => simp
    rw [happ] at hlen ⊢
    have hfirst : (os ++ quoted (escaped e.1) ++ [colon] ++ text L format e.2).length ≤ maxLen.toNat := by
      refine le_trans ?_ hlen
      split
      case isTrue  => simp
      case isFalse => simp
    rw [entriesToStream, escapeString_of_checksPass hkey]
    simp only [bind, Except.bind]
    rw [hv hcv _ hfirst]
    exact hi ho hco hlen

theorem toStream_within (v : Variant) (hc : ChecksPass maxLen (strings v)) (os : Bytes)
    (hlen : (os ++ text L format v).length ≤ maxLen.toNat) :
    toStream L (lengthYield maxLen) format v os = .ok (os ++ text L format v) := by
  have hstart : lengthYield maxLen os.length = .ok () := by
    rw [List.length_append] at hlen
    exact lengthYield_ok (by omega)
  induction v using Variant.induct generalizing os
  case array a ha =>
    have happ : os ++ text L format (.array a) = os ++ [openBracket] ++ elementsText L format a ++ [closeBracket] := by
      simp [text]
    rw [happ] at hlen ⊢
    rw [List.length_append] at hlen
    have hels := elementsToStream_within (fun v hv hc os hlen => ha v hv hc os hlen
      (lengthYield_ok (by rw [List.length_append] at hlen; omega))) hc (Nat.le_of_add_right_le hlen)
    rw [toStream, hstart]
    simp only [bind, Except.bind]
    rw [hels]
    rfl
  case object o ho =>
    have happ : os ++ text L format (.object o) = os ++ [openBrace] ++ entriesText L format o ++ [closeBrace] := by
      simp [text]
    rw [happ] at hlen ⊢
    rw [List.length_append] at hlen
    have hentries := entriesToStream_within (fun e he hc os hlen => ho e he hc os hlen
      (lengthYield_ok (by rw [List.length_append] at hlen; omega))) hc (Nat.le_of_add_right_le hlen)
    rw [toStream, hstart]
    simp only [bind, Except.bind]
    rw [hentries]
    rfl
  case string s =>
    rw [toStream, hstart, escapeString_of_checksPass (hc s (List.mem_singleton_self _))]
    rfl
  case blob data =>
    rw [toStream, hstart, escapeString_of_checksPass (hc _ (List.mem_singleton_self _))]
    rfl
  all_goals
    rw [toStream, hstart]
    rfl

theorem gives_lengthYield (n : Nat) : Gives (fun _ => n ≤ maxLen.toNat) (lengthYield maxLen n) := by
  rw [lengthYield]
  split
  case isTrue h => exact h
  case isFalse  => exact trivial

theorem gives_toString (v : Variant) :
    Gives (fun ss => ss.length ≤ maxLen.toNat ∧ ChecksPass maxLen (strings v)) (toString L (lengthYield maxLen) format v) :=
  .bind (gives_toStream v []) fun ss hc => .bind (gives_lengthYield ss.length) fun _ hlen => ⟨hlen, hc⟩

-- The limit is kept by the output and by all the sizes that are checked on the way.
theorem toStringWithin_eq (v : Variant) : toStringWithin L format maxLen v =
    if (text L format v).length ≤ maxLen.toNat ∧
    ChecksPass maxLen (strings v) then .ok (text L format v)
    else .error lengthExceeded := by
  split
  case isTrue h =>
    rw [toStringWithin, toString, toStream_within v h.2 [] h.1, List.nil_append]
    simp only [bind, Except.bind]
    rw [lengthYield_ok h.1]
    rfl
  case isFalse h =>
    have hgives := @gives_toString L format maxLen v
    have hemits := @emits_toString _ L (lengthYield maxLen) format v
    rw [toStringWithin]
    generalize toString L (lengthYield maxLen) format v = r at hemits hgives
    cases hemits
    case ok            => exact absurd hgives h
    case error e n he  =>
      rw [lengthYield] at he
      split at he
      case isTrue  => cases he
      case isFalse =>
        cases he
        rfl

theorem toStringUnlimited_eq (v : Variant) :
    toStringUnlimited L format v = .ok (text L format v) := by
  have hemits := @emits_toString _ L (fun _ => return () : Yield Error) format v
  rw [toStringUnlimited]
  generalize toString L (fun _ => return () : Yield Error) format v = r at hemits
  cases hemits
  case ok          => rfl
  case error h     => cases h

end Streams

section Statement

-- The output is that without a limit, unless it is too long.
def LengthExact (L : LexicalCast) (format : OutputFormatting) (maxLen : UInt64) (v : Variant) :
    Prop :=
  ∃ out, toStringUnlimited L format v = .ok out ∧
    toStringWithin L format maxLen v = if out.length ≤ maxLen.toNat then .ok out else .error lengthExceeded

theorem lengthExact_iff_imp {v : Variant} : LengthExact L format maxLen v ↔
    ((text L format v).length ≤ maxLen.toNat → ChecksPass maxLen (strings v)) := by
  rw [LengthExact, toStringUnlimited_eq, toStringWithin_eq]
  constructor
  case mp =>
    rintro ⟨out, hout, heq⟩ hlen
    cases hout
    by_contra hc
    rw [if_pos hlen, if_neg fun h => hc h.2] at heq
    cases heq
  case mpr =>
    intro h
    refine ⟨_, rfl, if_congr ?_ rfl rfl⟩
    exact ⟨fun h => h.1, fun hlen => ⟨hlen, h hlen⟩⟩

-- A string is taken to be as long as it is and as what has been written for it so far, taken
-- together.
theorem lengthExact_iff (L : LexicalCast) (format : OutputFormatting) (maxLen : UInt64)
    (v : Variant) :
    LengthExact L format maxLen v ↔
      maxLen.toNat < (text L format v).length ∨ ∀ str ∈ strings v,
      checkedSize str ≤ maxLen.toNat := by
  rw [lengthExact_iff_imp, ← Nat.not_le, ← imp_iff_not_or]
  rfl

-- Two hundred characters, and a limit that leaves room for fifty more.
theorem not_lengthExact_string :
    ¬LengthExact .decimal .legacyGenerator 250 (.string (.replicate 200 0x61)) := by
  rw [lengthExact_iff_imp]
  intro h
  have hlen : (text .decimal .legacyGenerator (.string (.replicate 200 0x61))).length ≤ (250 : UInt64).toNat := by
    decide +kernel
  exact absurd (h hlen) (by decide +kernel)

end Statement

end Json
