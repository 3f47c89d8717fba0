import FcModel.Utf8.Decode

-- What is left of a string by `prune_invalid_utf8`.

namespace Utf8

-- The C1 control characters are escaped.
def pruneChar (c : Char) : Bytes :=
  if 0x80 ≤ c.val ∧ c.val ≤ 0x9f then escape c.val.toNat else String.utf8EncodeChar c

theorem encode_cons (c : Char) (cs : List Char) :
    encode (c :: cs) = String.utf8EncodeChar c ++ encode cs :=
  rfl

theorem encode_append (as bs : List Char) : encode (as ++ bs) = encode as ++ encode bs :=
  List.flatMap_append

theorem flatMap_pruneChar {cs : List Char} (h : NoC1 cs) : cs.flatMap pruneChar = encode cs :=
  List.flatMap_congr fun c hc => if_neg (h c hc)

theorem toNat_c1 {c : Char} (hc : 0x80 ≤ c.val ∧ c.val ≤ 0x9f) : 0x80 ≤ c.val.toNat ∧
    c.val.toNat ≤ 0x9f :=
  ⟨UInt32.le_iff_toNat_le.mp hc.1, UInt32.le_iff_toNat_le.mp hc.2⟩

-- The character whose code is the byte.
theorem val_ofNat {b : UInt8} (h : b.toNat < 128) : (Char.ofNat b.toNat).val.toNat = b.toNat := by
  rw [← Char.toNat, Char.toNat_ofNat, if_pos (.inl (by omega))]

theorem utf8EncodeChar_ofNat {b : UInt8} (h : b.toNat < 128) :
    String.utf8EncodeChar (.ofNat b.toNat) = [b] := by
  rw [utf8EncodeChar_of_lt (by rwa [val_ofNat h]), val_ofNat h, UInt8.ofNat_toNat]

theorem exists_encode_of_lt {bs : Bytes} (h : ∀ b ∈ bs, b.toNat < 128) : ∃ cs, bs = encode cs ∧
    NoC1 cs := by
  induction bs
  case nil => exact ⟨[], rfl, List.forall_mem_nil _⟩
  case cons b bs hi =>
    obtain ⟨hb, hbs⟩ := List.forall_mem_cons.mp h
    obtain ⟨cs, rfl, hno⟩ := hi hbs
    have hval := val_ofNat hb
    refine ⟨.ofNat b.toNat :: cs, ?_, List.forall_mem_cons.mpr ⟨fun hc => ?_, hno⟩⟩
    · rw [encode_cons, utf8EncodeChar_ofNat hb, List.singleton_append]
    · have := (toNat_c1 hc).1
      omega

theorem exists_encode_escape {v : Nat} (hv : v < 256) : ∃ cs, escape v = encode cs ∧ NoC1 cs := by
  have hdigit : ∀ d : Fin 16, (hexDigit d).toNat < 128 := by decide
  refine exists_encode_of_lt fun b hb => ?_
  simp only [escape, List.mem_cons, List.not_mem_nil, or_false] at hb
  obtain rfl | rfl | rfl | rfl | rfl | rfl := hb
  · decide
  · decide
  · decide
  · decide
  · exact hdigit ⟨v / 16, by omega⟩
  · exact hdigit ⟨v % 16, by omega⟩

-- A string is decoded from the left. A byte at which no character starts is dropped.
inductive Prunes : Bytes → Bytes → Prop
  | nil : Prunes [] []
  | char (c : Char) {s t : Bytes} (h : Prunes s t) : Prunes (String.utf8EncodeChar c ++ s) (pruneChar c ++ t)
  | drop {b : UInt8} {s t : Bytes} (hb : ∀ c rest, b :: s ≠ String.utf8EncodeChar c ++ rest) (h : Prunes s t) :
      Prunes (b :: s) t

namespace Prunes

theorem encode {s t : Bytes} (h : Prunes s t) (cs : List Char) :
    Prunes (Utf8.encode cs ++ s) (cs.flatMap pruneChar ++ t) := by
  induction cs
  case nil          => exact h
  case cons c cs hi =>
    rw [encode_cons, List.flatMap_cons, List.append_assoc, List.append_assoc]
    exact .char c hi

-- Only one character can start at a place.
theorem char_inj {c d : Char} {s t : Bytes}
    (h : String.utf8EncodeChar c ++ s = String.utf8EncodeChar d ++ t) :
    c = d ∧ s = t := by
  have hc := validateNext_encode c s
  rw [h, validateNext_encode, Except.ok.injEq, Prod.mk.injEq] at hc
  exact ⟨Char.ext hc.1.symm, hc.2.symm⟩

theorem unique {s t t' : Bytes} (h : Prunes s t) (h' : Prunes s t') : t = t' := by
  induction h generalizing t'
  case nil =>
    generalize hs : ([] : Bytes) = s at h'
    cases h'
    case nil      => rfl
    case char c _ => simp at hs
    case drop     => cases hs
  case char c s t _ hi =>
    generalize hs : String.utf8EncodeChar c ++ s = s' at h'
    cases h'
    case nil           => simp at hs
    case char d s t h' =>
      obtain ⟨rfl, rfl⟩ := char_inj hs
      rw [hi h']
    case drop hb _     => exact absurd hs.symm (hb c s)
  case drop b s t hb _ hi =>
    generalize hs : b :: s = s' at h'
    cases h'
    case nil           => cases hs
    case char c s t _  => exact absurd hs (hb c s)
    case drop h'       =>
      cases hs
      exact hi h'

-- An octet that is a character by itself cannot be a part of another one.
theorem append_ascii {s t : Bytes} (h : Prunes s t) {b : UInt8} (hb : b.toNat < 128) :
    Prunes (s ++ [b]) (t ++ [b]) := by
  obtain ⟨cs, hcs, hno⟩ := exists_encode_of_lt (List.forall_mem_singleton.mpr hb)
  induction h
  case nil =>
    have hself := Prunes.nil.encode cs
    rwa [flatMap_pruneChar hno, ← hcs, List.append_nil] at hself
  case char c s t _ hi =>
    rw [List.append_assoc, List.append_assoc]
    exact .char c hi
  case drop b' s t hdrop _ hi =>
    refine .drop (fun c rest heq => ?_) hi
    have heq : (b' :: s) ++ [b] = String.utf8EncodeChar c ++ rest := heq
    rcases List.append_eq_append_iff.mp heq with ⟨a, henc, ha⟩ | ⟨a, hs, -⟩
    case inr => exact hdrop c a hs
    case inl =>
      have hne : a ≠ [] := fun h => hdrop c [] (by rw [henc, h]; simp)
      have hmem : b ∈ String.utf8EncodeChar c := by
        obtain ⟨x, a, rfl⟩ := List.exists_cons_of_ne_nil hne
        rw [henc, (List.cons.inj ha).1]
        simp
      by_cases hc : c.val.toNat < 128
      case neg => exact absurd (le_of_mem_utf8EncodeChar (by omega) hmem) (Nat.not_le.mpr hb)
      case pos =>
        have hlen := congrArg List.length henc
        have hpos := List.length_pos_iff.mpr hne
        rw [utf8EncodeChar_of_lt hc] at hlen
        simp only [List.length_append, List.length_cons, List.length_nil] at hlen
        omega

-- What is left is valid, and has no C1 control characters.
theorem valid {s t : Bytes} (h : Prunes s t) : ∃ cs, t = Utf8.encode cs ∧ NoC1 cs := by
  induction h
  case nil => exact ⟨[], rfl, List.forall_mem_nil _⟩
  case drop hi => exact hi
  case char c s t _ hi =>
    obtain ⟨cs, rfl, hno⟩ := hi
    by_cases hc : 0x80 ≤ c.val ∧ c.val ≤ 0x9f
    case neg => exact ⟨c :: cs, by rw [pruneChar, if_neg hc, encode_cons], List.forall_mem_cons.mpr ⟨hc, hno⟩⟩
    case pos =>
      obtain ⟨ds, hds, hno'⟩ := exists_encode_escape (show c.val.toNat < 256 by have := (toNat_c1 hc).2; omega)
      exact ⟨ds ++ cs, by rw [pruneChar, if_pos hc, hds, encode_append], List.forall_mem_append.mpr ⟨hno', hno⟩⟩

end Prunes

section FindInvalid

-- Where the search stops: at the end, at a C1 control character, or where no character starts.
inductive Stop : Bytes → Option UInt32 → Prop
  | last : Stop [] none
  | c1 {c : Char} (hc : 0x80 ≤ c.val ∧ c.val ≤ 0x9f) (s : Bytes) : Stop (String.utf8EncodeChar c ++ s) (some c.val)
  | invalid {b : UInt8} {s : Bytes} (hb : ∀ c rest, b :: s ≠ String.utf8EncodeChar c ++ rest) : Stop (b :: s) none

theorem findInvalid_go_spec {fuel : Nat} {s : Bytes} (hf : s.length ≤ fuel) : ∃ as, NoC1 as ∧
    s = encode as ++ (findInvalid.go 0x80 0x9f fuel s).1 ∧
      Stop (findInvalid.go 0x80 0x9f fuel s).1 (findInvalid.go 0x80 0x9f fuel s).2 := by
  induction fuel generalizing s
  case zero =>
    rw [List.length_eq_zero_iff.mp (Nat.le_zero.mp hf)]
    exact ⟨[], List.forall_mem_nil _, rfl, .last⟩
  case succ fuel hi =>
    cases s
    case nil => exact ⟨[], List.forall_mem_nil _, rfl, .last⟩
    case cons b s =>
      rw [findInvalid.go, if_neg (List.cons_ne_nil b s)]
      cases hnext : validateNext (b :: s)
      case error e => exact ⟨[], List.forall_mem_nil _, rfl, .invalid (validateNext_eq_error hnext)⟩
      case ok p =>
        obtain ⟨cp, rest⟩ := p
        obtain ⟨c, rfl, hs⟩ := validateNext_sound hnext
        simp only
        split
        case isTrue hc =>
          rw [hs]
          exact ⟨[], List.forall_mem_nil _, rfl, .c1 hc rest⟩
        case isFalse hc =>
          have hpos : 0 < (String.utf8EncodeChar c).length := List.length_pos_iff.mpr (by simp)
          have hlen : rest.length ≤ fuel := by
            rw [hs, List.length_append] at hf
            omega
          obtain ⟨as, hno, hrest, hstop⟩ := hi hlen
          refine ⟨c :: as, List.forall_mem_cons.mpr ⟨hc, hno⟩, ?_, hstop⟩
          rw [encode_cons, List.append_assoc, ← hrest, hs]

theorem findInvalid_spec (s : Bytes) : ∃ as, NoC1 as ∧
    s = encode as ++ (findInvalid s 0x80 0x9f).1 ∧
    Stop (findInvalid s 0x80 0x9f).1 (findInvalid s 0x80 0x9f).2 :=
  findInvalid_go_spec (Nat.le_refl _)

theorem utf8EncodeChar_c1 {c : Char} (hc : 0x80 ≤ c.val ∧ c.val ≤ 0x9f) :
    ∃ lead trail, String.utf8EncodeChar c = [lead, trail] ∧ 128 ≤ trail.toNat ∧
    trail.toNat < 192 := by
  have hv := toNat_c1 hc
  refine ⟨_, _, by rw [String.utf8EncodeChar, if_neg (by omega), if_pos (by omega)], ?_⟩
  rw [toNat_ofNat_octet (by omega)]
  omega

-- A trail octet cannot start a sequence.
theorem findInvalid_trail {b : UInt8} (hb : 128 ≤ b.toNat ∧ b.toNat < 192) (q : Bytes) :
    findInvalid (b :: q) 0x80 0x9f = (b :: q, none) := by
  have hlen : sequenceLength b = 0 := by
    rw [sequenceLength_eq]
    split_ifs
    all_goals omega
  have hnext : validateNext (b :: q) = .error .invalidLead := by
    simp only [validateNext, hlen]
    rfl
  rw [findInvalid, List.length_cons, findInvalid.go, if_neg (List.cons_ne_nil b q), hnext]

end FindInvalid

section Loop

-- The loop, from where the rest of the string is searched.
def pruneFrom (fuel : Nat) (result start : Bytes) : Bytes :=
  let found := findInvalid start 0x80 0x9f
  pruneInvalidUtf8.go fuel (result ++ pruned start found.1 found.2) found.1

theorem pruneInvalidUtf8_go_cons (fuel : Nat) (result : Bytes) (b : UInt8) (start : Bytes) :
    pruneInvalidUtf8.go (fuel + 1) result (b :: start) = pruneFrom fuel result start :=
  rfl

-- Two rounds of the loop skip the character that was escaped.
theorem pruneInvalidUtf8_go_c1 {c : Char} (hc : 0x80 ≤ c.val ∧ c.val ≤ 0x9f) (fuel : Nat)
    (result s : Bytes) :
    pruneInvalidUtf8.go (fuel + 2) result (String.utf8EncodeChar c ++ s) = pruneFrom fuel result s := by
  obtain ⟨lead, trail, henc, htrail⟩ := utf8EncodeChar_c1 hc
  have hstay : pruned (trail :: s) (trail :: s) none = [] := by simp [pruned]
  rw [henc, List.cons_append, List.singleton_append, pruneInvalidUtf8_go_cons, pruneFrom,
    findInvalid_trail htrail, hstay, List.append_nil, pruneInvalidUtf8_go_cons]

theorem pruned_append (as : List Char) (itr : Bytes) (v : Option UInt32) :
    pruned (encode as ++ itr) itr v = encode as ++ (v.map fun v => escape v.toNat).getD [] := by
  simp [pruned]

theorem pruneFrom_eq {as : List Char} {itr : Bytes} {v : Option UInt32}
    (hfind : findInvalid (encode as ++ itr) 0x80 0x9f = (itr, v)) (fuel : Nat) (result : Bytes) :
    pruneFrom fuel result (encode as ++ itr) =
      pruneInvalidUtf8.go fuel (result ++ (encode as ++ (v.map fun v => escape v.toNat).getD [])) itr := by
  rw [pruneFrom, hfind]
  simp only [pruned_append]

theorem pruneFrom_spec (s : Bytes) : ∃ t, Prunes s t ∧
    ∀ fuel, s.length < fuel → ∀ result, pruneFrom fuel result s = result ++ t := by
  induction hn : s.length using Nat.strong_induction_on generalizing s
  case h n hi =>
    obtain ⟨as, hno, hs, hstop⟩ := findInvalid_spec s
    generalize hfind : findInvalid s 0x80 0x9f = found at hs hstop
    obtain ⟨itr, v⟩ := found
    simp only at hs hstop
    subst hs
    have hkeep := flatMap_pruneChar hno
    cases hstop
    case last =>
      refine ⟨encode as, ?_, fun fuel _ result => ?_⟩
      · have h := Prunes.nil.encode as
        rw [hkeep] at h
        rwa [List.append_nil] at h ⊢
      · rw [pruneFrom_eq hfind, Option.map_none, Option.getD_none, List.append_nil]
        cases fuel
        case zero => rfl
        case succ => rfl
    case c1 c hc s =>
      obtain ⟨lead, trail, henc, -⟩ := utf8EncodeChar_c1 hc
      have hlen : n = (encode as).length + s.length + 2 := by
        rw [← hn, List.length_append, List.length_append, henc]
        simp only [List.length_cons, List.length_nil]
        omega
      obtain ⟨t, ht, hrun⟩ := hi s.length (by omega) s rfl
      have hpc : pruneChar c = escape c.val.toNat := if_pos hc
      refine ⟨encode as ++ (escape c.val.toNat ++ t), ?_, fun fuel hf result => ?_⟩
      · have h := (Prunes.char c ht).encode as
        rwa [hkeep, hpc] at h
      · obtain ⟨fuel, rfl⟩ : ∃ m, fuel = m + 2 := ⟨fuel - 2, by omega⟩
        rw [pruneFrom_eq hfind, pruneInvalidUtf8_go_c1 hc, hrun _ (by omega)]
        simp only [Option.map_some, Option.getD_some, List.append_assoc]
    case invalid b s hb =>
      have hlen : n = (encode as).length + s.length + 1 := by
        rw [← hn, List.length_append, List.length_cons]
        omega
      obtain ⟨t, ht, hrun⟩ := hi s.length (by omega) s rfl
      refine ⟨encode as ++ t, ?_, fun fuel hf result => ?_⟩
      · have h := (Prunes.drop hb ht).encode as
        rwa [hkeep] at h
      · obtain ⟨fuel, rfl⟩ : ∃ m, fuel = m + 1 := ⟨fuel - 1, by omega⟩
        rw [pruneFrom_eq hfind, pruneInvalidUtf8_go_cons, hrun _ (by omega)]
        simp only [Option.map_none, Option.getD_none, List.append_nil, List.append_assoc]

end Loop

theorem pruneInvalidUtf8_eq (str : Bytes) :
    pruneInvalidUtf8 str =
      if (findInvalid str 0x80 0x9f).1 = [] then str else pruneFrom (str.length + 1) [] str := by
  rw [pruneInvalidUtf8, pruneFrom]
  simp only [List.nil_append]

-- A valid string is pruned to itself.
theorem isValidUtf8_iff {s : Bytes} : isValidUtf8 s = true ↔ ∃ cs, s = encode cs ∧ NoC1 cs := by
  constructor
  case mpr =>
    rintro ⟨cs, rfl, hno⟩
    exact isValidUtf8_encode hno
  case mp =>
    intro h
    obtain ⟨as, hno, hs, -⟩ := findInvalid_spec s
    rw [of_decide_eq_true h, List.append_nil] at hs
    exact ⟨as, hs, hno⟩

theorem prunes_self {cs : List Char} (h : NoC1 cs) : Prunes (encode cs) (encode cs) := by
  have hp := Prunes.nil.encode cs
  rwa [flatMap_pruneChar h, List.append_nil] at hp

theorem prunes_pruneInvalidUtf8 (s : Bytes) : Prunes s (pruneInvalidUtf8 s) := by
  rw [pruneInvalidUtf8_eq]
  split
  case isTrue hend =>
    obtain ⟨cs, rfl, hno⟩ := isValidUtf8_iff.mp (decide_eq_true hend)
    exact prunes_self hno
  case isFalse =>
    obtain ⟨t, ht, hrun⟩ := pruneFrom_spec s
    rwa [hrun _ (Nat.lt_succ_self _), List.nil_append]

theorem pruneInvalidUtf8_of_prunes {s t : Bytes} (h : Prunes s t) : pruneInvalidUtf8 s = t :=
  (prunes_pruneInvalidUtf8 s).unique h

theorem pruneInvalidUtf8_encode (cs : List Char) :
    pruneInvalidUtf8 (encode cs) = cs.flatMap pruneChar := by
  have h := Prunes.nil.encode cs
  rw [List.append_nil, List.append_nil] at h
  exact pruneInvalidUtf8_of_prunes h

theorem pruneInvalidUtf8_of_isValidUtf8 {s : Bytes} (h : isValidUtf8 s = true) :
    pruneInvalidUtf8 s = s := by
  obtain ⟨cs, rfl, hno⟩ := isValidUtf8_iff.mp h
  exact pruneInvalidUtf8_of_prunes (prunes_self hno)

-- What is left is valid, so that it is left as it is.
theorem pruneInvalidUtf8_spec (s : Bytes) :
    (∃ cs, pruneInvalidUtf8 s = encode cs ∧ NoC1 cs) ∧
      (∀ t, Prunes s t ↔ pruneInvalidUtf8 s = t) ∧
      (pruneInvalidUtf8 s = s ↔ isValidUtf8 s = true) ∧
      pruneInvalidUtf8 (pruneInvalidUtf8 s) = pruneInvalidUtf8 s := by
  have hvalid := (prunes_pruneInvalidUtf8 s).valid
  refine ⟨hvalid, fun t => ⟨pruneInvalidUtf8_of_prunes, ?_⟩, ⟨fun h => ?_, pruneInvalidUtf8_of_isValidUtf8⟩, ?_⟩
  · rintro rfl
    exact prunes_pruneInvalidUtf8 s
  · rw [← h]
    exact isValidUtf8_iff.mpr hvalid
  · exact pruneInvalidUtf8_of_isValidUtf8 (isValidUtf8_iff.mpr hvalid)

end Utf8
