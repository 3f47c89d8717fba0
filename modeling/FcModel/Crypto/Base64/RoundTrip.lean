import FcModel.Crypto.Base64

-- What is encoded is decoded again, whatever padding follows, and what is not of the alphabet is
-- refused.

namespace Base64

-- The two alphabets, with their functions.
inductive Alphabet
  | base64
  | base64url
deriving DecidableEq, Repr

namespace Alphabet

def chars : Alphabet → Bytes
  | base64    => base64Chars
  | base64url => base64urlChars

def encode : Alphabet → Bytes → Bytes
  | base64    => base64Encode
  | base64url => base64urlEncode

def decode : Alphabet → Bytes → Except String Bytes
  | base64    => base64Decode
  | base64url => base64urlDecode

end Alphabet

variable {a : Alphabet} {x : Bytes}

-- The encoding without its padding.
def symbols (chars : Bytes) : Bytes → Bytes
  | []               => []
  | [a]              => digits chars ((indices a 0 0).take 2)
  | [a, b]           => digits chars ((indices a b 0).take 3)
  | a :: b :: c :: q => digits chars (indices a b c) ++ symbols chars q

section Groups

theorem encodeImpl_eq (chars x : Bytes) :
    ∃ j ≤ 2, base64EncodeImpl chars x = symbols chars x ++ List.replicate j padding := by
  induction x using base64EncodeImpl.induct
  case case1 => exact ⟨0, by decide, rfl⟩
  case case2 a => exact ⟨2, by decide, rfl⟩
  case case3 a b => exact ⟨1, by decide, rfl⟩
  case case4 a b c q hi =>
    obtain ⟨j, hle, hj⟩ := hi
    exact ⟨j, hle, by rw [base64EncodeImpl, symbols, hj, List.append_assoc]⟩

theorem length_symbols (chars x : Bytes) : (symbols chars x).length = (4 * x.length + 2) / 3 := by
  induction x using base64EncodeImpl.induct
  case case1     => rfl
  case case2 a   => simp [symbols, digits, indices]
  case case3 a b => simp [symbols, digits, indices]
  case case4 a b c q hi =>
    rw [symbols, List.length_append, hi, digits, List.length_map, indices]
    simp only [List.length_cons, List.length_nil]
    omega

theorem length_encodeImpl (chars x : Bytes) :
    (base64EncodeImpl chars x).length = 4 * ((x.length + 2) / 3) := by
  induction x using base64EncodeImpl.induct
  case case1     => rfl
  case case2 a   => simp [base64EncodeImpl, digits, indices, ascii]
  case case3 a b => simp [base64EncodeImpl, digits, indices, ascii]
  case case4 a b c q hi =>
    rw [base64EncodeImpl, List.length_append, hi, digits, List.length_map, indices]
    simp only [List.length_cons, List.length_nil]
    omega

theorem length_decodeGroups (chars ds : Bytes) :
    (decodeGroups chars ds).length = 3 * ds.length / 4 := by
  induction ds using decodeGroups.induct
  case case1       => rfl
  case case2 c     => simp [decodeGroups]
  case case3 a b   => simp [decodeGroups, decodeGroup, octets]
  case case4 a b c => simp [decodeGroups, decodeGroup, octets]
  case case5 a b c d q hi =>
    rw [decodeGroups, List.length_append, hi, decodeGroup, octets]
    simp only [List.length_cons, List.length_nil]
    omega

theorem sextet_char (a : Alphabet) {i : UInt8} (h : i < 64) :
    sextet a.chars (a.chars.getD i.toNat 0) = i := by
  have hall : ∀ i : UInt8, i < 64 → sextet base64Chars (base64Chars.getD i.toNat 0) = i ∧
      sextet base64urlChars (base64urlChars.getD i.toNat 0) = i := by decide +kernel
  cases a
  case base64    => exact (hall i h).1
  case base64url => exact (hall i h).2

-- The indices, as numbers.
theorem indices_spec (a b c : UInt8) : ∃ i j k l : UInt8, indices a b c = [i, j, k, l] ∧
    i.toNat = a.toNat / 4 ∧ j.toNat = a.toNat % 4 * 16 + b.toNat / 16 ∧
    k.toNat = b.toNat % 16 * 4 + c.toNat / 64 ∧ l.toNat = c.toNat % 64 := by
  have h : ∀ a : UInt8, ((a &&& 0xfc) >>> 2).toNat = a.toNat / 4 ∧
      ((a &&& 0x03) <<< 4).toNat = a.toNat % 4 * 16 ∧ ((a &&& 0xf0) >>> 4).toNat = a.toNat / 16 ∧
      ((a &&& 0x0f) <<< 2).toNat = a.toNat % 16 * 4 ∧ ((a &&& 0xc0) >>> 6).toNat = a.toNat / 64 ∧
      (a &&& 0x3f).toNat = a.toNat % 64 := by decide +kernel
  have ha := a.toNat_lt
  have hb := b.toNat_lt
  have hc := c.toNat_lt
  refine ⟨_, _, _, _, rfl, (h a).1, ?_, ?_, (h c).2.2.2.2.2⟩
  case refine_1 =>
    rw [UInt8.toNat_add, (h a).2.1, (h b).2.2.1]
    omega
  case refine_2 =>
    rw [UInt8.toNat_add, (h b).2.2.2.1, (h c).2.2.2.2.1]
    omega

-- The bytes that indices give, where the first, the second and the third need two of them each.
theorem octets_spec {a b c : UInt8} {i j k l : UInt8} (hi : i.toNat = a.toNat / 4)
    (hj : j.toNat = a.toNat % 4 * 16 + b.toNat / 16) :
    (octets i j k l).take 1 = [a] ∧
    (k.toNat = b.toNat % 16 * 4 + c.toNat / 64 → (octets i j k l).take 2 = [a, b] ∧
      (l.toNat = c.toNat % 64 → octets i j k l = [a, b, c])) := by
  have h : ∀ a : UInt8, a < 64 → (a <<< 2).toNat = a.toNat * 4 ∧
      ((a &&& 0x30) >>> 4).toNat = a.toNat / 16 ∧ ((a &&& 0xf) <<< 4).toNat = a.toNat % 16 * 16 ∧
      ((a &&& 0x3c) >>> 2).toNat = a.toNat / 4 ∧ ((a &&& 0x3) <<< 6).toNat = a.toNat % 4 * 64 := by
    decide +kernel
  have ha := a.toNat_lt
  have hb := b.toNat_lt
  have hc := c.toNat_lt
  have hi' : i < 64 := UInt8.lt_iff_toNat_lt.mpr (by change i.toNat < 64; omega)
  have hj' : j < 64 := UInt8.lt_iff_toNat_lt.mpr (by change j.toNat < 64; omega)
  have h1 : (i <<< 2) + ((j &&& 0x30) >>> 4) = a := UInt8.toNat_inj.mp (by
    rw [UInt8.toNat_add, (h i hi').1, (h j hj').2.1]
    omega)
  refine ⟨by rw [octets, h1]; rfl, fun hk => ?_⟩
  have hk' : k < 64 := UInt8.lt_iff_toNat_lt.mpr (by change k.toNat < 64; omega)
  have h2 : ((j &&& 0xf) <<< 4) + ((k &&& 0x3c) >>> 2) = b := UInt8.toNat_inj.mp (by
    rw [UInt8.toNat_add, (h j hj').2.2.1, (h k hk').2.2.2.1]
    omega)
  refine ⟨by rw [octets, h1, h2]; rfl, fun hl => ?_⟩
  have h3 : ((k &&& 0x3) <<< 6) + l = c := UInt8.toNat_inj.mp (by
    rw [UInt8.toNat_add, (h k hk').2.2.2.2]
    omega)
  rw [octets, h1, h2, h3]

theorem lt_of_toNat {i : UInt8} {n : Nat} (hi : i.toNat = n) (hn : n < 64) : i < 64 :=
  UInt8.lt_iff_toNat_lt.mpr (hi ▸ hn)

theorem decodeGroups_symbols (a : Alphabet) (x : Bytes) :
    decodeGroups a.chars (symbols a.chars x) = x := by
  induction x using base64EncodeImpl.induct
  case case1 => rfl
  case case2 b =>
    obtain ⟨i, j, k, l, he, hi, hj, -, -⟩ := indices_spec b 0 0
    have hb := b.toNat_lt
    rw [symbols, he, digits]
    simp only [List.take_succ_cons, List.take_zero, List.map_cons, List.map_nil, decodeGroups,
      decodeGroup, sextet_char a (lt_of_toNat hi (by omega)),
      sextet_char a (lt_of_toNat hj (by simp; omega))]
    exact (octets_spec (c := 0) hi hj).1
  case case3 b c =>
    obtain ⟨i, j, k, l, he, hi, hj, hk, -⟩ := indices_spec b c 0
    have hb := b.toNat_lt
    have hc := c.toNat_lt
    rw [symbols, he, digits]
    simp only [List.take_succ_cons, List.take_zero, List.map_cons, List.map_nil, decodeGroups,
      decodeGroup, sextet_char a (lt_of_toNat hi (by omega)),
      sextet_char a (lt_of_toNat hj (by omega)), sextet_char a (lt_of_toNat hk (by simp; omega))]
    exact ((octets_spec hi hj).2 hk).1
  case case4 b c d q ih =>
    obtain ⟨i, j, k, l, he, hi, hj, hk, hl⟩ := indices_spec b c d
    have hb := b.toNat_lt
    have hc := c.toNat_lt
    have hd := d.toNat_lt
    rw [symbols, he, digits]
    simp only [List.map_cons, List.map_nil, List.cons_append, List.nil_append, decodeGroups,
      decodeGroup, sextet_char a (lt_of_toNat hi (by omega)),
      sextet_char a (lt_of_toNat hj (by omega)), sextet_char a (lt_of_toNat hk (by omega)),
      sextet_char a (lt_of_toNat hl (by omega)), ih, ((octets_spec hi hj).2 hk).2 hl]

-- The characters of the alphabet are those that pass the check.
theorem isBase64_iff (a : Alphabet) (c : UInt8) : isBase64 a.chars c = true ↔ c ∈ a.chars := by
  have hall : ∀ c : UInt8, (isBase64 base64Chars c = true ↔ c ∈ base64Chars) ∧
      (isBase64 base64urlChars c = true ↔ c ∈ base64urlChars) := by decide +kernel
  cases a
  case base64    => exact (hall c).1
  case base64url => exact (hall c).2

theorem padding_not_mem (a : Alphabet) : padding ∉ a.chars := by
  cases a
  case base64    => decide +kernel
  case base64url => decide +kernel

theorem getD_mem (a : Alphabet) {i : UInt8} (h : i < 64) : a.chars.getD i.toNat 0 ∈ a.chars := by
  have hall : ∀ i : UInt8, i < 64 → base64Chars.getD i.toNat 0 ∈ base64Chars ∧
      base64urlChars.getD i.toNat 0 ∈ base64urlChars := by decide +kernel
  cases a
  case base64    => exact (hall i h).1
  case base64url => exact (hall i h).2

theorem mem_digits (a : Alphabet) {b c d e : UInt8}
    (h : e ∈ digits a.chars (indices b c d)) : e ∈ a.chars := by
  obtain ⟨i, j, k, l, he, hi, hj, hk, hl⟩ := indices_spec b c d
  have hb := b.toNat_lt
  have hc := c.toNat_lt
  have hd := d.toNat_lt
  rw [he] at h
  obtain ⟨n, hn, rfl⟩ := List.mem_map.mp h
  refine getD_mem a ?_
  simp only [List.mem_cons, List.not_mem_nil, or_false] at hn
  obtain rfl | rfl | rfl | rfl := hn
  · exact lt_of_toNat hi (by omega)
  · exact lt_of_toNat hj (by omega)
  · exact lt_of_toNat hk (by omega)
  · exact lt_of_toNat hl (by omega)

theorem mem_symbols (a : Alphabet) {e : UInt8} (h : e ∈ symbols a.chars x) : e ∈ a.chars := by
  have htake {is : List UInt8} {n : Nat} (h : e ∈ digits a.chars (is.take n)) :
      e ∈ digits a.chars is := by
    rw [digits, List.map_take] at h
    exact List.mem_of_mem_take h
  induction x using base64EncodeImpl.induct
  case case1 => exact absurd h List.not_mem_nil
  case case2 b => exact mem_digits a (htake h)
  case case3 b c => exact mem_digits a (htake h)
  case case4 b c d q ih =>
    rw [symbols] at h
    cases List.mem_append.mp h
    case inl h => exact mem_digits a h
    case inr h => exact ih h

end Groups

section Counting

variable {chars ds rest : Bytes} {inLen : Int} {c : UInt8} {m : Nat}

-- Whether the loop that starts with `in_len` looks at the character at an index, and whether it
-- ends behind as many characters as there are.
def Reaches (inLen : Int) (i : Nat) : Prop :=
  0 ≤ inLen ∧ i < inLen ∨ inLen < 0 ∧ i < inLen + 2 ^ 31

def Counts (inLen : Int) (m : Nat) : Prop :=
  0 ≤ inLen ∧ m ≤ inLen ∨ inLen < 0 ∧ m < inLen + 2 ^ 31

theorem decrement (h : IntegerType.int.min < inLen) (hu : inLen ≤ IntegerType.int.max) :
    IntegerType.int.arith (inLen - 1) = some (inLen - 1) :=
  IntegerType.arith_of_represents ⟨by omega, by omega⟩

theorem decrement_min : IntegerType.int.arith (IntegerType.int.min - 1) = none :=
  IntegerType.arith_signed_of_not (by decide)

-- A round of the loop, where the counter is not zero and does not overflow.
theorem collect_cons (q : Bytes) (h0 : inLen ≠ 0)
    (hd : IntegerType.int.arith (inLen - 1) = some (inLen - 1)) :
    collect chars inLen (c :: q) =
      if c = padding then .ok []
      else if isBase64 chars c then (collect chars (inLen - 1) q).map (c :: ·)
      else .error notBase64 := by
  rw [collect, if_neg h0, hd]

theorem collect_zero (s : Bytes) : collect chars 0 s = .ok [] := by
  cases s
  case nil  => exact if_pos rfl
  case cons => exact if_pos rfl

theorem collect_min (s : Bytes) : collect chars IntegerType.int.min s = .error intOverflow := by
  have h0 : IntegerType.int.min ≠ 0 := by decide
  cases s
  case nil  => rw [collect, if_neg h0, if_pos decrement_min]
  case cons => rw [collect, if_neg h0, decrement_min]

-- All the characters are looked at.
theorem collect_append (hl : IntegerType.int.Represents inLen)
    (hds : ∀ c ∈ ds, c ≠ padding ∧ isBase64 chars c = true) (h : ∀ i < ds.length, Reaches inLen i) :
    collect chars inLen (ds ++ rest) =
      (collect chars (inLen - ds.length) rest).map (ds ++ ·) := by
  induction ds generalizing inLen
  case nil =>
    rw [List.nil_append, List.length_nil, show inLen - ((0 : Nat) : Int) = inLen by omega]
    cases collect chars inLen rest
    case error => rfl
    case ok    => rfl
  case cons c ds hi =>
    obtain ⟨hp, hb⟩ := hds c (List.mem_cons_self ..)
    have hr := h 0 (Nat.succ_pos _)
    have hrange : inLen ≠ 0 ∧ IntegerType.int.min < inLen := by
      unfold Reaches at hr
      change inLen ≠ 0 ∧ (-2 ^ 31 : Int) < inLen
      omega
    have hd := decrement hrange.2 hl.2
    have hi := @hi (inLen - 1) ⟨by omega, by have := hl.2; omega⟩
      (fun c hc => hds c (List.mem_cons_of_mem _ hc)) fun i hlt => by
        have hr := h (i + 1) (Nat.succ_lt_succ hlt)
        unfold Reaches at hr ⊢
        omega
    rw [List.cons_append, collect_cons _ hrange.1 hd, if_neg hp, if_pos hb, hi, List.length_cons,
      show inLen - 1 - ds.length = inLen - (ds.length + 1 : Nat) by omega]
    cases collect chars (inLen - (ds.length + 1 : Nat)) rest
    case error => rfl
    case ok    => rfl

-- The counter reaches zero before the characters end, or it overflows.
theorem collect_stops (hl : IntegerType.int.Represents inLen)
    (hds : ∀ c ∈ ds, c ≠ padding ∧ isBase64 chars c = true) (h : ¬Reaches inLen ds.length) :
    collect chars inLen (ds ++ rest) = .error intOverflow ∨
      0 ≤ inLen ∧ collect chars inLen (ds ++ rest) = .ok (ds.take inLen.toNat) := by
  have hmin : (-2 ^ 31 : Int) ≤ inLen := hl.1
  have hcut (k : Nat) (hk : k ≤ ds.length) (hr : ∀ i < k, Reaches inLen i) :
      collect chars inLen (ds ++ rest) =
        (collect chars (inLen - k) (ds.drop k ++ rest)).map (ds.take k ++ ·) := by
    have hlen : (ds.take k).length = k := List.length_take_of_le hk
    have happ := @collect_append _ (ds.take k) (ds.drop k ++ rest) _ hl
      (fun c hc => hds c (List.mem_of_mem_take hc)) (by rwa [hlen])
    rwa [hlen, ← List.append_assoc, List.take_append_drop] at happ
  unfold Reaches at h
  by_cases h0 : 0 ≤ inLen
  case pos =>
    refine Or.inr ⟨h0, ?_⟩
    have hc := hcut inLen.toNat (by omega) fun i hi => by
      unfold Reaches
      omega
    rw [hc, Int.toNat_of_nonneg h0, Int.sub_self, collect_zero, Except.map, List.append_nil]
  case neg =>
    refine Or.inl ?_
    have hc := hcut (inLen + 2 ^ 31).toNat (by omega) fun i hi => by
      unfold Reaches
      omega
    have he : inLen - (inLen + 2 ^ 31).toNat = IntegerType.int.min := by
      change _ = (-2 ^ 31 : Int)
      omega
    rw [hc, he, collect_min]
    rfl

theorem Counts.reaches (h : Counts inLen m) {i : Nat} (hi : i < m) : Reaches inLen i := by
  unfold Counts at h
  unfold Reaches
  omega

-- The characters of the alphabet up to the padding, or up to the end.
theorem collect_counts (hl : IntegerType.int.Represents inLen)
    (hds : ∀ c ∈ ds, c ≠ padding ∧ isBase64 chars c = true) (h : Counts inLen ds.length)
    (hrest : rest.head? = some padding ∨ rest = [] ∧ inLen = ds.length) :
    collect chars inLen (ds ++ rest) = .ok ds := by
  have hend : collect chars (inLen - ds.length) rest = .ok [] := by
    by_cases h0 : inLen - ds.length = 0
    case pos => rw [h0, collect_zero]
    case neg =>
      cases hrest
      case inr hrest => omega
      case inl hrest =>
        obtain ⟨q, rfl⟩ := List.head?_eq_some_iff.mp hrest
        have hmin : IntegerType.int.min < inLen - ds.length := by
          unfold Counts at h
          change (-2 ^ 31 : Int) < _
          omega
        rw [collect_cons _ h0 (decrement hmin (by have := hl.2; omega)), if_pos rfl]
  rw [collect_append hl hds fun i hi => h.reaches hi, hend, Except.map, List.append_nil]

-- A character that is not of the alphabet.
theorem collect_refused (hl : IntegerType.int.Represents inLen)
    (hds : ∀ c ∈ ds, c ≠ padding ∧ isBase64 chars c = true) (hp : c ≠ padding)
    (hc : isBase64 chars c = false) (h : Reaches inLen ds.length) (q : Bytes) :
    collect chars inLen (ds ++ c :: q) = .error notBase64 := by
  have hreach (i : Nat) (hi : i < ds.length) : Reaches inLen i := by
    unfold Reaches at h ⊢
    omega
  have hrange : inLen - ds.length ≠ 0 ∧ IntegerType.int.min < inLen - ds.length := by
    unfold Reaches at h
    change _ ∧ (-2 ^ 31 : Int) < _
    omega
  rw [collect_append hl hds hreach,
    collect_cons q hrange.1 (decrement hrange.2 (by have := hl.2; omega)),
    if_neg hp, if_neg (by simp [hc])]
  rfl

end Counting

section Texts

variable {ds : Bytes} {t : Bytes}

-- The texts that an encoding may be decoded from: itself, and with padding removed or appended.
inductive Padded (s : Bytes) : Bytes → Prop
  | same             : Padded s s
  | removed          : Padded s (s.rdropWhile (· = padding))
  | appended (j : Nat) : Padded s (s ++ List.replicate j padding)

-- The loop ends where the padding begins, or the text.
def Counted (t : Bytes) : Prop :=
  Counts (IntegerType.int.convert t.length) (t.takeWhile (· ≠ padding)).length

-- The loop looks at the first character that is not of the alphabet.
def Reached (a : Alphabet) (t : Bytes) : Prop :=
  Reaches (IntegerType.int.convert t.length)
    (t.takeWhile fun c => c ≠ padding ∧ c ∈ a.chars).length

theorem decode_eq (a : Alphabet) (t : Bytes) : a.decode t =
    (collect a.chars (IntegerType.int.convert t.length) t).map (decodeGroups a.chars) := by
  cases a
  case base64    => rfl
  case base64url => rfl

theorem encode_eq (a : Alphabet) (x : Bytes) :
    a.encode x = base64EncodeImpl a.chars (x.take (x.length % 2 ^ 32)) := by
  cases a
  case base64    => rfl
  case base64url => rfl

theorem plain_symbols (a : Alphabet) (y : Bytes) :
    ∀ c ∈ symbols a.chars y, c ≠ padding ∧ isBase64 a.chars c = true := by
  intro c hc
  have hm := mem_symbols a hc
  exact ⟨fun hp => padding_not_mem a (hp ▸ hm), (isBase64_iff a c).mpr hm⟩

theorem takeWhile_symbols (a : Alphabet) (y : Bytes) (j : Nat) :
    (symbols a.chars y ++ List.replicate j padding).takeWhile (· ≠ padding) =
      symbols a.chars y := by
  rw [List.takeWhile_append_of_pos fun c hc => by simpa using (plain_symbols a y c hc).1]
  cases j
  case zero   => simp
  case succ j => simp [List.replicate_succ]

theorem rdropWhile_symbols (a : Alphabet) (y : Bytes) (j : Nat) :
    (symbols a.chars y ++ List.replicate j padding).rdropWhile (· = padding) =
      symbols a.chars y := by
  have hz : (List.replicate j padding).dropWhile (· = padding) = [] := by
    rw [List.dropWhile_eq_nil_iff]
    intro c hc
    simpa using (List.mem_replicate.mp hc).2
  rw [List.rdropWhile, List.reverse_append, List.reverse_replicate, List.dropWhile_append, hz]
  have hs : (symbols a.chars y).reverse.dropWhile (· = padding) = (symbols a.chars y).reverse := by
    cases he : (symbols a.chars y).reverse
    case nil => rfl
    case cons c q =>
      have hc := (plain_symbols a y c (List.mem_reverse.mp (he ▸ List.mem_cons_self ..))).1
      simp [hc]
  rw [List.isEmpty_nil, if_pos rfl, hs, List.reverse_reverse]

theorem Padded.symbols (h : Padded (a.encode x) t) :
    ∃ j, t = symbols a.chars (x.take (x.length % 2 ^ 32)) ++ List.replicate j padding := by
  obtain ⟨k, -, hk⟩ := encodeImpl_eq a.chars (x.take (x.length % 2 ^ 32))
  rw [encode_eq, hk] at h
  cases h
  case same       => exact ⟨k, rfl⟩
  case removed    => exact ⟨0, by rw [rdropWhile_symbols]; simp⟩
  case appended j => exact ⟨k + j, by rw [List.append_assoc, List.replicate_append_replicate]⟩

-- A text of less than `2 ^ 31` characters is counted down to its end.
theorem counted_of_lt (h : t.length < 2 ^ 31) : Counted t := by
  have hle := (List.takeWhile_prefix (fun c => decide (c ≠ padding)) (l := t)).length_le
  have hc := IntegerType.int_convert t.length
  rw [if_pos (by omega)] at hc
  unfold Counted Counts
  omega

-- With no more padding than a blob has, it is counted in no other case.
theorem counted_symbols_iff {y : Bytes} {j : Nat} (hj : j ≤ 3)
    (ht : t = symbols a.chars y ++ List.replicate j padding) : Counted t ↔ t.length < 2 ^ 31 := by
  refine ⟨fun h => ?_, counted_of_lt⟩
  have hlen : t.length = (symbols a.chars y).length + j := by
    rw [ht, List.length_append, List.length_replicate]
  have hs := length_symbols a.chars y
  have hc := IntegerType.int_convert t.length
  unfold Counted at h
  rw [ht, takeWhile_symbols, ← ht] at h
  unfold Counts at h
  split at hc
  case isTrue  => omega
  case isFalse => omega

-- Where the loop does not end behind the last symbol, less is decoded, if anything is.
theorem decode_symbols (a : Alphabet) (y : Bytes) (j : Nat)
    (ht : t = symbols a.chars y ++ List.replicate j padding) :
    (Counted t → a.decode t = .ok y) ∧
    (¬Counted t → ∀ z, a.decode t = .ok z → z.length < y.length) := by
  have hlen : t.length = (symbols a.chars y).length + j := by
    rw [ht, List.length_append, List.length_replicate]
  have hl := IntegerType.convert_represents .int t.length
  have hc := IntegerType.int_convert t.length
  unfold Counted
  rw [decode_eq, ht, takeWhile_symbols, ← ht]
  generalize IntegerType.int.convert t.length = inLen at hl hc
  constructor
  case left =>
    intro h
    have hrest : (List.replicate j padding).head? = some padding ∨
        List.replicate j padding = [] ∧ inLen = (symbols a.chars y).length := by
      cases j
      case succ j => exact Or.inl rfl
      case zero =>
        refine Or.inr ⟨rfl, ?_⟩
        unfold Counts at h
        split at hc
        case isTrue  => omega
        case isFalse => omega
    rw [ht, collect_counts hl (plain_symbols a y) h hrest, Except.map, decodeGroups_symbols]
  case right =>
    intro h z hz
    have hreach : ¬Reaches inLen (symbols a.chars y).length := by
      unfold Counts at h
      unfold Reaches
      omega
    rw [ht] at hz
    obtain hs | ⟨h0, hs⟩ := @collect_stops _ _ (List.replicate j padding) _ hl
      (plain_symbols a y) hreach
    case inl =>
      rw [hs] at hz
      cases hz
    case inr =>
      unfold Counts at h
      have hsym := length_symbols a.chars y
      rw [hs] at hz
      cases hz
      rw [length_decodeGroups, List.length_take]
      omega

theorem decode_padded_iff (h : Padded (a.encode x) t) :
    a.decode t = .ok x ↔ x.length < 2 ^ 32 ∧ Counted t := by
  obtain ⟨j, hj⟩ := h.symbols
  obtain ⟨hyes, hno⟩ := decode_symbols a _ j hj
  constructor
  case mp =>
    intro hd
    have hle : x.length ≤ (x.take (x.length % 2 ^ 32)).length := by
      by_cases hc : Counted t
      case pos => rw [Except.ok.inj ((hyes hc).symm.trans hd)]
      case neg => exact (hno hc x hd).le
    rw [List.length_take] at hle
    have hx : x.length < 2 ^ 32 := by omega
    rw [Nat.mod_eq_of_lt hx, List.take_length] at hno
    by_cases hc : Counted t
    case pos => exact And.intro hx hc
    case neg => exact absurd (hno hc x hd) (Nat.lt_irrefl _)
  case mpr =>
    intro hc
    have hd := hyes hc.right
    rwa [Nat.mod_eq_of_lt hc.left, List.take_length] at hd

-- A character outside the alphabet is refused if the loop looks at it.
theorem decode_refused_iff (hc : ∃ c ∈ t.takeWhile (· ≠ padding), c ∉ a.chars) :
    a.decode t = .error notBase64 ↔ Reached a t := by
  have hl := IntegerType.convert_represents .int t.length
  have hds : ∀ c ∈ t.takeWhile (fun c => c ≠ padding ∧ c ∈ a.chars),
      c ≠ padding ∧ isBase64 a.chars c = true := by
    intro c hm
    have hp : c ≠ padding ∧ c ∈ a.chars := by simpa using List.mem_takeWhile_imp hm
    exact And.intro hp.left ((isBase64_iff a c).mpr hp.right)
  unfold Reached
  rw [decode_eq]
  generalize IntegerType.int.convert t.length = inLen at hl
  have hsplit : t.takeWhile (fun c => c ≠ padding ∧ c ∈ a.chars) ++
      t.dropWhile (fun c => c ≠ padding ∧ c ∈ a.chars) = t := List.takeWhile_append_dropWhile
  cases hrest : t.dropWhile fun c => c ≠ padding ∧ c ∈ a.chars
  case nil =>
    obtain ⟨c, hm, hn⟩ := hc
    rw [hrest, List.append_nil] at hsplit
    have hmem := (List.takeWhile_prefix _).subset hm
    rw [← hsplit] at hmem
    exact absurd ((isBase64_iff a c).mp (hds c hmem).right) hn
  case cons c q =>
    have hfirst : ¬(c ≠ padding ∧ c ∈ a.chars) := by
      have := List.head?_dropWhile_not (fun c => decide (c ≠ padding ∧ c ∈ a.chars)) t
      rw [hrest] at this
      exact of_decide_eq_false (by simpa using this)
    rw [hrest] at hsplit
    have hp : c ≠ padding := by
      intro hp
      obtain ⟨d, hm, hn⟩ := hc
      rw [← hsplit, List.takeWhile_append_of_pos fun c hc => by simpa using (hds c hc).left] at hm
      simp only [hp, ne_eq, not_true_eq_false, decide_false, Bool.false_eq_true,
        not_false_eq_true, List.takeWhile_cons_of_neg, List.append_nil] at hm
      exact hn ((isBase64_iff a d).mp (hds d hm).right)
    have hb : isBase64 a.chars c = false := by
      rw [Bool.eq_false_iff]
      exact fun hb => hfirst (And.intro hp ((isBase64_iff a c).mp hb))
    rw [← hsplit]
    constructor
    case mp =>
      intro he
      by_contra hr
      rw [hsplit] at hr
      obtain hs | ⟨_, hs⟩ := @collect_stops _ _ (c :: q) _ hl hds hr
      case inl =>
        rw [hs] at he
        exact absurd (Except.error.inj he) (by decide)
      case inr =>
        rw [hs] at he
        cases he
    case mpr =>
      intro hr
      rw [hsplit] at hr
      rw [collect_refused hl hds hp hb hr]
      rfl

end Texts

-- The texts of an encoding are decoded, and those with a character that is not of the alphabet are
-- refused, where the loop gets as far as it has to.
theorem base64_exact_iff (a : Alphabet) :
    (∀ x t, Padded (a.encode x) t → (a.decode t = .ok x ↔ x.length < 2 ^ 32 ∧ Counted t)) ∧
    ∀ t, (∃ c ∈ t.takeWhile (· ≠ padding), c ∉ a.chars) →
      (a.decode t = .error notBase64 ↔ Reached a t) :=
  ⟨fun _ _ h => decode_padded_iff h, fun _ h => decode_refused_iff h⟩

theorem base64_exact_iff_ab :
    (Alphabet.base64.decode (Alphabet.base64.encode (ascii "ab")) = .ok (ascii "ab") ↔
      (ascii "ab").length < 2 ^ 32 ∧ Counted (Alphabet.base64.encode (ascii "ab"))) ∧
    (Alphabet.base64.decode (ascii "YW$=") = .error notBase64 ↔ Reached .base64 (ascii "YW$=")) :=
  ⟨(base64_exact_iff .base64).1 _ _ .same,
    (base64_exact_iff .base64).2 _ ⟨0x24, by decide +kernel, by decide +kernel⟩⟩

-- A string of 4 GiB is encoded as the empty string.
theorem not_base64_exact :
    ¬base64Decode (base64Encode (List.replicate (2 ^ 32) 0)) = .ok (List.replicate (2 ^ 32) 0) := by
  intro h
  have hlt := (@decode_padded_iff .base64 (List.replicate (2 ^ 32) 0) _ .same).mp h
  rw [List.length_replicate] at hlt
  exact Nat.lt_irrefl _ hlt.left

end Base64
