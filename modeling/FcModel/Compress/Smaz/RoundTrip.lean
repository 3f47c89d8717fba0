import FcModel.Compress.Smaz
import FcModel.Lib.Except

-- What is compressed is decompressed again, and nothing is written behind the output.

namespace Smaz

-- What the compressed bytes consist of: the code of some bytes, or verbatim bytes.
inductive Token
  | code (c : UInt8)
  | single (b : UInt8)
  | run (v : Bytes)

namespace Token

def bytes : Token → Bytes
  | code c   => [c]
  | single b => [254, b]
  | run v    => 255 :: .ofNat (v.length - 1) :: v

def text : Token → Bytes
  | code c   => rcb.getD c.toNat []
  | single b => [b]
  | run v    => v

def Valid : Token → Prop
  | code c   => c < 254
  | single _ => True
  | run v    => 0 < v.length ∧ v.length ≤ 256

end Token

abbrev bytes (ts : List Token) : Bytes :=
  ts.flatMap Token.bytes

abbrev text (ts : List Token) : Bytes :=
  ts.flatMap Token.text

section Codebook

-- The entries of a slot are those of the reverse codebook.
def consistent : Nat → Bytes → Bool
  | _, []            => true
  | 0, _ :: _        => false
  | n + 1, l :: slot =>
    l.toNat < slot.length ∧ slot.getD l.toNat 0 < 254 ∧
      rcb.getD (slot.getD l.toNat 0).toNat [] = slot.take l.toNat ∧
      consistent n (slot.drop (l.toNat + 1))

theorem cb_consistent : ∀ slot ∈ cb, consistent slot.length slot = true := by
  decide +kernel

variable {n j : Nat} {slot inp : Bytes} {code : UInt8}

theorem lookup_spec (hc : consistent n slot = true) (h : lookup j inp slot = some code) :
    code < 254 ∧ rcb.getD code.toNat [] = inp.take j ∧ j ≤ inp.length := by
  induction n generalizing slot
  case zero =>
    cases slot
    case nil  => simp [lookup] at h
    case cons => cases hc
  case succ n hi =>
    cases slot
    case nil         => simp [lookup] at h
    case cons l slot =>
      rw [consistent, decide_eq_true_eq] at hc
      obtain ⟨hlen, hcode, hrcb, hc⟩ := hc
      rw [lookup] at h
      split at h
      case isTrue he =>
        obtain ⟨hl, hm⟩ := he
        cases h
        rw [hl] at hlen hcode hrcb
        refine ⟨hcode, hrcb.trans hm, ?_⟩
        have := congrArg List.length hm
        rw [List.length_take, List.length_take] at this
        omega
      case isFalse => exact hi hc h

theorem slotAt_consistent (h : UInt32) : consistent (slotAt h).length (slotAt h) = true := by
  rw [slotAt, List.getD_eq_getElem?_getD]
  cases he : cb[(h % 241).toNat]?
  case none      => rfl
  case some slot => exact cb_consistent slot (List.mem_of_getElem? he)

theorem search_spec {h1 h2 h3 : UInt32} (h : search h1 h2 h3 inp n = some (j, code)) :
    j ≤ n ∧ code < 254 ∧ rcb.getD code.toNat [] = inp.take j ∧ j ≤ inp.length := by
  induction n
  case zero      => cases h
  case succ n hi =>
    rw [search] at h
    split at h
    case h_1 c hl =>
      cases h
      exact And.intro (Nat.le_refl _) (lookup_spec (slotAt_consistent _) hl)
    case h_2 =>
      obtain ⟨hj, hrest⟩ := hi h
      exact And.intro (Nat.le_succ_of_le hj) hrest

end Codebook

section Decompression

variable {t : Token} {ts : List Token} {rest : Bytes} {m : Nat}

theorem decompressLoop_zero (c : Bytes) : decompressLoop c 0 = .ok [] := by
  rw [decompressLoop.eq_def, if_pos rfl]

-- A token is what a round of the loop reads.
theorem decompressLoop_token {inlen : UInt32} (ht : t.Valid) (h0 : inlen ≠ 0) :
    decompressLoop (t.bytes ++ rest) inlen =
      (t.text ++ ·) <$> decompressLoop rest (inlen - .ofNat t.bytes.length) := by
  cases t
  case code c =>
    have hother : ∀ c : UInt8, c < 254 → c ≠ 254 ∧ c ≠ 255 := by decide +kernel
    obtain ⟨h254, h255⟩ := hother c ht
    change decompressLoop (c :: rest) inlen = _
    rw [decompressLoop.eq_def, if_neg h0]
    dsimp only
    rw [if_neg h254, if_neg h255]
    rfl
  case single b =>
    change decompressLoop (254 :: b :: rest) inlen = _
    rw [decompressLoop.eq_def, if_neg h0]
    dsimp only
    rw [if_pos rfl]
    rfl
  case run v =>
    obtain ⟨hpos, hmax⟩ := ht
    have hl : (UInt8.ofNat (v.length - 1)).toNat + 1 = v.length := by
      rw [UInt8.toNat_ofNat_of_lt' (Nat.lt_of_le_of_lt (Nat.sub_le_sub_right hmax 1) (by decide))]
      omega
    have hsub : inlen - 2 - .ofNat v.length = inlen - .ofNat (v.length + 1 + 1) := by
      have h2 : UInt32.ofNat (v.length + 1 + 1) = 2 + .ofNat v.length := by
        rw [UInt32.ofNat_add, UInt32.ofNat_add, UInt32.add_assoc, UInt32.add_comm]
        rfl
      rw [h2]
      grind
    change decompressLoop (255 :: .ofNat (v.length - 1) :: (v ++ rest)) _ = _
    rw [decompressLoop.eq_def, if_neg h0]
    dsimp only
    rw [if_neg (by decide), if_pos rfl, hl, if_neg (by rw [List.length_append]; omega),
      List.take_left, List.drop_left, hsub]
    rfl

theorem ofNat_ne_zero (h0 : m ≠ 0) (hm : m < 2 ^ 32) : UInt32.ofNat m ≠ 0 := by
  intro h
  have := congrArg UInt32.toNat h
  rw [UInt32.toNat_ofNat_of_lt' hm] at this
  exact h0 this

theorem ofNat_sub (a b : Nat) : UInt32.ofNat (a + b) - .ofNat a = .ofNat b := by
  rw [UInt32.ofNat_add, UInt32.add_comm, UInt32.add_sub_cancel]

theorem length_bytes_pos (t : Token) : 0 < t.bytes.length := by
  cases t
  case code   => exact Nat.zero_lt_succ _
  case single => exact Nat.zero_lt_succ _
  case run    => exact Nat.zero_lt_succ _

theorem decompressLoop_tokens (hts : ∀ t ∈ ts, t.Valid) (hlen : (bytes ts).length < 2 ^ 32) :
    decompressLoop (bytes ts ++ rest) (.ofNat (bytes ts).length) = .ok (text ts) := by
  induction ts
  case nil          => exact decompressLoop_zero _
  case cons t ts hi =>
    obtain ⟨ht, hts⟩ := List.forall_mem_cons.mp hts
    have happ : bytes (t :: ts) = t.bytes ++ bytes ts := List.flatMap_cons
    rw [happ, List.length_append] at hlen ⊢
    have hpos := length_bytes_pos t
    rw [List.append_assoc, decompressLoop_token ht (ofNat_ne_zero (by omega) hlen), ofNat_sub,
      hi hts (by omega)]
    rfl

theorem decompress_tokens (hts : ∀ t ∈ ts, t.Valid) (hlen : (bytes ts).length < 2 ^ 32) :
    decompress (bytes ts) = .ok (text ts) :=
  decompressLoop_tokens hts hlen

end Decompression

section Compression

variable {start s t : State} {ts : List Token} {h3 : UInt32} {j : Nat} {code c : UInt8}
  {inp : Bytes}

-- What holds before every round of the loop: the output begins with tokens, whose text is followed
-- by the verbatim bytes and by what is left of the input, and its rest is as it was.
structure Invariant (start s : State) (ts : List Token) : Prop where
  valid   : ∀ t ∈ ts, t.Valid
  text    : text ts ++ s.verb ++ s.inp = start.inp
  count   : s.inp.length - s.inlen = start.inp.length - start.inlen
  nonneg  : 0 ≤ start.inlen → 0 ≤ s.inlen
  verb    : s.verb.length < 256
  pending : s.inlen = 0 → s.verb = []
  output  : ∃ rest, s.mem = bytes ts ++ rest ∧ s.out = (bytes ts).length ∧
    rest = start.mem.drop s.out
  room    : s.out + s.outlen = start.outlen
  written : 0 < s.out → 0 ≤ s.outlen

-- The token for verbatim bytes.
def verbatim (v : Bytes) : Token :=
  if v.length = 1 then .single (v.headD 0) else .run v

theorem verbatim_spec {v : Bytes} (hpos : v.length ≠ 0) (hmax : v.length ≤ 256) :
    (verbatim v).Valid ∧ (verbatim v).text = v ∧ (verbatim v).bytes = flushed v ∧
      (flushed v).length = needed v.length := by
  rw [verbatim, flushed, needed]
  split
  case isTrue h =>
    obtain ⟨b, rfl⟩ := List.length_eq_one_iff.mp h
    exact ⟨trivial, rfl, rfl, rfl⟩
  case isFalse h =>
    refine ⟨And.intro (Nat.pos_of_ne_zero hpos) hmax, rfl, rfl, ?_⟩
    rw [List.length_cons, List.length_cons]
    omega

theorem arith_ok {x y : Int} (h : arith x = .ok y) :
    y = x ∧ IntegerType.int.Represents x := by
  rw [arith, IntegerType.int, IntegerType.arith] at h
  split at h
  case h_2 => cases h
  case h_1 a he =>
    split at he
    case isFalse   => cases he
    case isTrue hr =>
      cases he
      cases h
      exact And.intro rfl hr

theorem arith_error {x : Int} {e : Error} (h : arith x = .error e) : e = .overflow := by
  rw [arith] at h
  split at h
  case h_1 => cases h
  case h_2 =>
    cases h
    rfl

-- Tokens are written where the output begins that is not written yet.
theorem write_append (a b d rest : Bytes) (h : d.length = b.length) :
    write (a ++ (d ++ rest)) a.length b = .ok (a ++ (b ++ rest)) := by
  rw [write, if_pos (by simp only [List.length_append]; omega), List.take_left,
    ← List.append_assoc, List.drop_left' (by rw [List.length_append, h]), List.append_assoc]

-- The tokens of the verbatim bytes, if there are any.
def pendingTokens (v : Bytes) : List Token :=
  if v.length ≠ 0 then [verbatim v] else []

def pendingLength (v : Bytes) : Nat :=
  if v.length ≠ 0 then needed v.length else 0

theorem pendingTokens_spec {v : Bytes} (hmax : v.length ≤ 256) :
    (∀ t ∈ pendingTokens v, t.Valid) ∧ Smaz.text (pendingTokens v) = v ∧
      (bytes (pendingTokens v)).length = pendingLength v := by
  rw [pendingTokens, pendingLength]
  split
  case isTrue h =>
    obtain ⟨hvalid, htext, hbytes, hlen⟩ := verbatim_spec h hmax
    refine ⟨by simpa using hvalid, ?_, ?_⟩
    case refine_1 => rw [Smaz.text, List.flatMap_singleton, htext]
    case refine_2 => rw [bytes, List.flatMap_singleton, hbytes, hlen]
  case isFalse h =>
    have hnil : v = [] := List.eq_nil_of_length_eq_zero (by omega)
    subst hnil
    exact ⟨by simp, rfl, rfl⟩

theorem flush_append {a d rest v : Bytes} (hmax : v.length ≤ 256)
    (hd : d.length = pendingLength v) :
    flush (a ++ (d ++ rest)) a.length v = .ok (a ++ (bytes (pendingTokens v) ++ rest)) := by
  rw [pendingLength] at hd
  rw [flush, pendingTokens]
  split at hd
  case isTrue h =>
    obtain ⟨-, -, hbytes, hlen⟩ := verbatim_spec h hmax
    rw [if_pos h, if_pos h, write_append _ _ _ _ (hd.trans hlen.symm), bytes,
      List.flatMap_singleton, hbytes]
  case isFalse h =>
    have hnil := List.eq_nil_of_length_eq_zero hd
    subst hnil
    rw [if_neg h, if_neg h]
    rfl

-- A round that appends tokens.
theorem Invariant.next {us : List Token} (h : Invariant start s ts) (hvalid : ∀ t ∈ us, t.Valid)
    (htext : Smaz.text us ++ t.verb ++ t.inp = s.verb ++ s.inp)
    (hcount : (t.inp.length : Int) - t.inlen = s.inp.length - s.inlen)
    (hnonneg : 0 ≤ s.inlen → 0 ≤ t.inlen) (hverb : t.verb.length < 256)
    (hpending : t.inlen = 0 → t.verb = [])
    (hmem : t.mem = bytes ts ++ (bytes us ++ start.mem.drop t.out))
    (hout : t.out = s.out + (bytes us).length) (hroom : t.out + t.outlen = s.out + s.outlen)
    (hwritten : 0 < t.out → 0 ≤ t.outlen) : Invariant start t (ts ++ us) := by
  obtain ⟨rest, -, hlen, -⟩ := h.output
  have happ : bytes (ts ++ us) = bytes ts ++ bytes us := List.flatMap_append
  constructor
  case valid   => exact List.forall_mem_append.mpr ⟨h.valid, hvalid⟩
  case text    =>
    rw [Smaz.text, List.flatMap_append, List.append_assoc, List.append_assoc,
      ← List.append_assoc (us.flatMap _), htext, ← List.append_assoc]
    exact h.text
  case count   => exact hcount.trans h.count
  case nonneg  => exact fun h0 => hnonneg (h.nonneg h0)
  case verb    => exact hverb
  case pending => exact hpending
  case room    => exact hroom.trans h.room
  case written => exact hwritten
  case output  =>
    refine ⟨_, ?_, ?_, rfl⟩
    · rw [hmem, happ, List.append_assoc]
    · rw [hout, hlen, happ, List.length_append]

-- What a round leaves: the invariant, or the output as it was, but no write outside of a buffer.
def Kept (start s : State) : Except Error Round → Prop
  | .ok (.next t)   => ∃ ts, Invariant start t ts
  | .ok (.full mem) => mem = s.mem
  | .error e        => e ≠ .write

theorem kept_bind_arith {x : Int} {f : Int → Except Error Round}
    (h : Kept start s (f x)) : Kept start s (arith x >>= f) := by
  cases hx : arith x
  case error e =>
    rw [arith_error hx]
    exact (by decide : Error.overflow ≠ .write)
  case ok y =>
    rw [Except.ok_bind, (arith_ok hx).left]
    exact h

-- A code is written behind the place of the verbatim bytes, and then these are.
theorem Invariant.write_code (h : Invariant start s ts) (hfits : start.outlen ≤ start.mem.length)
    (code : UInt8) (h0 : pendingLength s.verb < s.outlen) :
    ∃ mem, write s.mem (s.out + pendingLength s.verb) [code] = .ok mem ∧
      flush mem s.out s.verb = .ok (bytes ts ++ (bytes (pendingTokens s.verb) ++
        ([code] ++ start.mem.drop (s.out + pendingLength s.verb + 1)))) := by
  obtain ⟨rest, hmem, hout, hrest⟩ := h.output
  have hroom := h.room
  have hlt : pendingLength s.verb < rest.length := by
    rw [hrest, List.length_drop]
    omega
  have hsplit : rest = rest.take (pendingLength s.verb) ++
      ([rest.get ⟨_, hlt⟩] ++ rest.drop (pendingLength s.verb + 1)) := by
    rw [List.singleton_append, List.get_eq_getElem, ← List.drop_eq_getElem_cons hlt,
      List.take_append_drop]
  have htake : (rest.take (pendingLength s.verb)).length = pendingLength s.verb :=
    List.length_take_of_le (Nat.le_of_lt hlt)
  have hdrop : rest.drop (pendingLength s.verb + 1) =
      start.mem.drop (s.out + pendingLength s.verb + 1) := by
    rw [hrest, List.drop_drop, Nat.add_assoc]
  generalize rest.take (pendingLength s.verb) = d at hsplit htake
  generalize rest.get ⟨_, hlt⟩ = x at hsplit
  rw [hdrop] at hsplit
  generalize start.mem.drop (s.out + pendingLength s.verb + 1) = rest' at hsplit
  refine ⟨bytes ts ++ (d ++ ([code] ++ rest')), ?_, ?_⟩
  case refine_1 =>
    have := write_append (bytes ts ++ d) [code] [x] rest' rfl
    rwa [List.length_append, htake, ← hout, List.append_assoc, ← hsplit, ← hmem,
      List.append_assoc] at this
  case refine_2 =>
    rw [hout]
    exact flush_append (Nat.le_of_lt h.verb) htake

theorem Invariant.write_flushed (h : Invariant start s ts)
    (hfits : start.outlen ≤ start.mem.length) {v : Bytes} (h0 : v.length ≤ s.outlen) :
    write s.mem s.out v = .ok (bytes ts ++ (v ++ start.mem.drop (s.out + v.length))) := by
  obtain ⟨rest, hmem, hout, hrest⟩ := h.output
  have hroom := h.room
  have hle : v.length ≤ rest.length := by
    rw [hrest, List.length_drop]
    omega
  have hdrop : rest.drop v.length = start.mem.drop (s.out + v.length) := by
    rw [hrest, List.drop_drop]
  rw [← hdrop, hmem, hout, ← write_append (bytes ts) _ _ _ (List.length_take_of_le hle),
    List.take_append_drop]

theorem kept_matched (h : Invariant start s ts) (hfits : start.outlen ≤ start.mem.length)
    (hj : j ≤ (min 7 s.inlen).toNat) (hpos : 0 < j)
    (hs : code < 254 ∧ rcb.getD code.toNat [] = s.inp.take j ∧ j ≤ s.inp.length) :
    Kept start s (matched s h3 j code) := by
  obtain ⟨hcode, hrcb, hlen⟩ := hs
  obtain ⟨hvalid, htext, hbytes⟩ := pendingTokens_spec (Nat.le_of_lt h.verb)
  have hroom := h.room
  refine kept_bind_arith ?_
  change Kept start s (if s.outlen - pendingLength s.verb ≤ 0 then _ else _)
  split
  case isTrue     => rfl
  case isFalse h0 =>
    obtain ⟨mem, hwrite, hflush⟩ := h.write_code hfits code (by omega)
    change Kept start s (write s.mem (s.out + pendingLength s.verb) [code] >>= _)
    rw [hwrite, Except.ok_bind, hflush, Except.ok_bind]
    have hus : bytes (pendingTokens s.verb ++ [.code code]) =
        bytes (pendingTokens s.verb) ++ [code] := by
      simp [bytes, Token.bytes]
    refine ⟨ts ++ (pendingTokens s.verb ++ [.code code]), h.next ?_ ?_ ?_ ?_ ?_ ?_ ?_ ?_ ?_ ?_⟩
    case refine_1 => exact List.forall_mem_append.mpr ⟨hvalid, List.forall_mem_singleton.mpr hcode⟩
    case refine_2 =>
      have hcodeText : Smaz.text (pendingTokens s.verb ++ [.code code]) =
          s.verb ++ s.inp.take j := by
        rw [Smaz.text, List.flatMap_append, List.flatMap_singleton, Token.text, hrcb]
        exact congrArg (· ++ _) htext
      rw [hcodeText, List.append_nil, List.append_assoc, List.take_append_drop]
    case refine_3 =>
      dsimp only
      rw [List.length_drop]
      omega
    case refine_4 =>
      intro
      dsimp only
      omega
    case refine_5 => exact Nat.zero_lt_succ _
    case refine_6 => exact fun _ => rfl
    case refine_7 =>
      dsimp only
      rw [hus, List.append_assoc]
      rfl
    case refine_8 =>
      rw [hus, List.length_append, hbytes]
      rfl
    case refine_9 =>
      change ((s.out + pendingLength s.verb + 1 : Nat) : Int) +
        (s.outlen - pendingLength s.verb - 1) = _
      omega
    case refine_10 =>
      intro
      change 0 ≤ s.outlen - pendingLength s.verb - 1
      omega

theorem kept_unmatched (h : Invariant start s ts) (hfits : start.outlen ≤ start.mem.length)
    (hinp : s.inp = c :: inp) (hinlen : s.inlen ≠ 0) : Kept start s (unmatched s h3 c inp) := by
  have hverb := h.verb
  obtain ⟨rest, hmem, hout, hrest⟩ := h.output
  have hroom := h.room
  have hlen : (s.verb ++ [c]).length = s.verb.length + 1 := by
    rw [List.length_append, List.length_singleton]
  change Kept start s (push s.verb c >>= _)
  rw [push, if_pos hverb, Except.ok_bind]
  refine kept_bind_arith ?_
  split
  case isTrue =>
    obtain ⟨hvalid, htext, hbytes, hlength⟩ :=
      verbatim_spec (v := s.verb ++ [c]) (by omega) (by omega)
    refine kept_bind_arith ?_
    split
    case isTrue => rfl
    case isFalse h0 =>
      have hwrite := h.write_flushed hfits (v := flushed (s.verb ++ [c])) (by omega)
      rw [hlength] at hwrite
      have hus : bytes [verbatim (s.verb ++ [c])] = flushed (s.verb ++ [c]) := by
        rw [bytes, List.flatMap_singleton, hbytes]
      rw [hwrite, Except.ok_bind]
      refine ⟨ts ++ [verbatim (s.verb ++ [c])], h.next ?_ ?_ ?_ ?_ ?_ ?_ ?_ ?_ ?_ ?_⟩
      case refine_1 => exact List.forall_mem_singleton.mpr hvalid
      case refine_2 =>
        rw [Smaz.text, List.flatMap_singleton, htext, hinp]
        simp
      case refine_3 =>
        rw [hinp, List.length_cons]
        push_cast
        omega
      case refine_4 =>
        intro
        change 0 ≤ s.inlen - 1
        omega
      case refine_5 => exact Nat.zero_lt_succ _
      case refine_6 => exact fun _ => rfl
      case refine_7 => rw [hus]
      case refine_8 => rw [hus, hlength]
      case refine_9 =>
        change ((s.out + needed (s.verb ++ [c]).length : Nat) : Int) +
          (s.outlen - needed (s.verb ++ [c]).length) = _
        omega
      case refine_10 =>
        intro
        change 0 ≤ s.outlen - needed (s.verb ++ [c]).length
        omega
  case isFalse hmore =>
    refine ⟨ts ++ [], h.next ?_ ?_ ?_ ?_ ?_ ?_ ?_ ?_ ?_ ?_⟩
    case refine_1 => simp
    case refine_2 => simp [hinp]
    case refine_3 =>
      rw [hinp, List.length_cons]
      push_cast
      omega
    case refine_4 =>
      intro
      change 0 ≤ s.inlen - 1
      omega
    case refine_5 =>
      change (s.verb ++ [c]).length < 256
      omega
    case refine_6 =>
      intro h0
      exact absurd (Or.inr (And.intro (by omega) h0)) hmore
    case refine_7 => rw [hmem, hrest]; rfl
    case refine_8 => rfl
    case refine_9 => rfl
    case refine_10 => exact h.written

theorem kept_round (h : Invariant start s ts) (hfits : start.outlen ≤ start.mem.length)
    (hinlen : s.inlen ≠ 0) : Kept start s (round s) := by
  rw [round]
  split
  case h_1 => exact (by decide : Error.read ≠ .write)
  case h_2 c inp hinp =>
    dsimp only
    split
    case h_1 j code hs =>
      obtain ⟨hj, hspec⟩ := search_spec hs
      exact kept_matched h hfits hj (search_pos hs) hspec
    case h_2 => exact kept_unmatched h hfits hinp hinlen

theorem loop_of_next (h0 : s.inlen ≠ 0) (h : round s = .ok (.next t)) : loop s = loop t := by
  rw [loop, if_neg h0]
  split
  case h_1 t' ht =>
    rw [h] at ht
    cases ht
    rfl
  case h_2 hn => exact absurd h (hn t)

theorem loop_of_other (h0 : s.inlen ≠ 0) (h : ∀ t, round s ≠ .ok (.next t)) :
    loop s = round s := by
  rw [loop, if_neg h0]
  split
  case h_1 t ht => exact absurd ht (h t)
  case h_2      => rfl

-- What the loop leaves: the invariant, with no input left or not, but no write outside of a buffer.
def Left (start : State) : Except Error Round → Prop
  | .ok (.next t)   => t.inlen = 0 ∧ ∃ ts, Invariant start t ts
  | .ok (.full mem) => ∃ t ts, Invariant start t ts ∧ t.mem = mem
  | .error e        => e ≠ .write

theorem left_loop (h : Invariant start s ts) (hfits : start.outlen ≤ start.mem.length) :
    Left start (loop s) := by
  induction s using loop.induct generalizing ts
  case case1 s h0 =>
    rw [loop, if_pos h0]
    exact And.intro h0 ⟨ts, h⟩
  case case2 s h0 t hround hi =>
    have hkept := kept_round h hfits h0
    rw [hround] at hkept
    obtain ⟨us, ht⟩ := hkept
    rw [loop_of_next h0 hround]
    exact hi ht
  case case3 s h0 hround =>
    have hkept := kept_round h hfits h0
    rw [loop_of_other h0 hround]
    cases hr : round s
    case error e =>
      rw [hr] at hkept
      exact hkept
    case ok r =>
      cases r
      case next t   => exact absurd hr (hround t)
      case full mem =>
        rw [hr] at hkept
        exact ⟨s, ts, h, hkept.symm⟩

-- The state that the loop begins with.
def initial (inp : Bytes) (inlen : Int) (out : Bytes) (outlen : Int) : State :=
  ⟨inp, inlen, 0, [], 0, outlen, out⟩

theorem invariant_initial (inp : Bytes) (inlen : Int) (out : Bytes) (outlen : Int) :
    Invariant (initial inp inlen out outlen) (initial inp inlen out outlen) [] where
  valid   := by simp
  text    := rfl
  count   := rfl
  nonneg  := id
  verb    := Nat.zero_lt_succ _
  pending := fun _ => rfl
  output  := ⟨out, rfl, rfl, rfl⟩
  room    := Int.zero_add _
  written := fun h => absurd h (Nat.lt_irrefl 0)

-- Nothing is written before the output has begun, or behind its end.
theorem Invariant.untouched (h : Invariant start s ts)
    (hfits : start.outlen ≤ start.mem.length) : s.mem.length = start.mem.length ∧
      s.mem.drop start.outlen.toNat = start.mem.drop start.outlen.toNat := by
  obtain ⟨rest, hmem, hout, hrest⟩ := h.output
  have hroom := h.room
  have hwritten := h.written
  have hle : s.out ≤ start.outlen.toNat := by omega
  constructor
  case left =>
    rw [hmem, List.length_append, hrest, List.length_drop, ← hout]
    omega
  case right =>
    rw [hmem, List.drop_append, List.drop_of_length_le (hout ▸ hle), ← hout, hrest, List.drop_drop,
      Nat.add_sub_cancel' hle, List.nil_append]

end Compression

section Output

variable {s : Bytes} {ts : List Token} {inp out mem : Bytes} {inlen outlen : Int} {r : UInt32}

theorem smazCompress_eq : smazCompress inp inlen out outlen =
    loop (initial inp inlen out outlen) >>= fun
      | .next s   => return (.ofNat s.out, s.mem)
      | .full mem => return (.ofInt (← arith (outlen + 1)), mem) :=
  rfl

-- The output of which the invariant holds, with the size that is returned for it.
theorem smazCompress_ok (hfits : outlen ≤ out.length)
    (h : smazCompress inp inlen out outlen = .ok (r, mem)) :
    ∃ t ts, Invariant (initial inp inlen out outlen) t ts ∧ t.mem = mem ∧
      (t.inlen = 0 ∧ r = .ofNat t.out ∨ IntegerType.int.Represents (outlen + 1) ∧
        r = .ofInt (outlen + 1)) := by
  have hleft := left_loop (invariant_initial inp inlen out outlen) hfits
  rw [smazCompress_eq] at h
  obtain ⟨round, hl, h⟩ := Except.bind_eq_ok h
  rw [hl] at hleft
  cases round
  case next t =>
    cases h
    obtain ⟨h0, us, ht⟩ := hleft
    exact ⟨t, us, ht, rfl, Or.inl (And.intro h0 rfl)⟩
  case full mem' =>
    obtain ⟨ret, hr, h⟩ := Except.bind_eq_ok h
    obtain ⟨hx, hrep⟩ := arith_ok hr
    cases h
    obtain ⟨t, us, ht, he⟩ := hleft
    exact ⟨t, us, ht, he, Or.inr (And.intro hrep (by rw [hx]))⟩

-- The function writes no more than the length of its output.
theorem smazCompress_writes (hfits : outlen ≤ out.length) :
    smazCompress inp inlen out outlen ≠ .error .write ∧
    ∀ r mem, smazCompress inp inlen out outlen = .ok (r, mem) →
      mem.length = out.length ∧ mem.drop outlen.toNat = out.drop outlen.toNat := by
  constructor
  case left =>
    have hleft := left_loop (invariant_initial inp inlen out outlen) hfits
    intro h
    rw [smazCompress_eq] at h
    cases hl : loop (initial inp inlen out outlen)
    case error e =>
      rw [hl] at hleft h
      exact hleft (Except.error.inj h)
    case ok round =>
      rw [hl, Except.ok_bind] at h
      cases round
      case next t   => cases h
      case full mem =>
        dsimp only at h
        cases ha : arith (outlen + 1)
        case error e =>
          rw [ha, arith_error ha] at h
          cases h
        case ok x =>
          rw [ha] at h
          cases h
  case right =>
    intro r mem h
    obtain ⟨t, us, ht, rfl, -⟩ := smazCompress_ok hfits h
    exact ht.untouched hfits

theorem bytes_zeros (z : Nat) : bytes (.replicate z (.code 0)) = .replicate z 0 := by
  induction z
  case zero      => rfl
  case succ z hi =>
    rw [List.replicate_succ, List.replicate_succ, bytes, List.flatMap_cons]
    exact congrArg (0 :: ·) hi

theorem length_text_zeros (z : Nat) : (text (.replicate z (.code 0))).length = z := by
  have hspace : (Token.code 0).text.length = 1 := by decide +kernel
  induction z
  case zero      => rfl
  case succ z hi =>
    rw [List.replicate_succ, text, List.flatMap_cons, List.length_append, hspace, hi]
    exact Nat.add_comm 1 z

-- The zeros that a string is resized with are decompressed too.
theorem decompress_zeros {z : Nat} (hts : ∀ t ∈ ts, t.Valid)
    (hlen : (bytes ts).length + z < 2 ^ 32) :
    ∃ y, decompress (bytes ts ++ .replicate z 0) = .ok y ∧ y.length = (text ts).length + z := by
  have hvalid : ∀ t ∈ ts ++ .replicate z (.code 0), t.Valid := by
    refine List.forall_mem_append.mpr ⟨hts, fun t ht => ?_⟩
    rw [List.eq_of_mem_replicate ht]
    exact (by decide : (0 : UInt8) < 254)
  have hbytes : bytes (ts ++ .replicate z (.code 0)) = bytes ts ++ .replicate z 0 := by
    rw [bytes, List.flatMap_append]
    exact congrArg _ (bytes_zeros z)
  have hd := decompress_tokens hvalid (by
    rwa [hbytes, List.length_append, List.length_replicate])
  rw [hbytes] at hd
  refine ⟨_, hd, ?_⟩
  rw [text, List.flatMap_append, List.length_append]
  exact congrArg _ (length_text_zeros z)

theorem length_text_le {t : State} (h : Invariant (initial inp inlen out outlen) t ts) :
    (text ts).length + t.inp.length ≤ inp.length := by
  have htext := congrArg List.length h.text
  rw [List.length_append, List.length_append] at htext
  change _ = inp.length at htext
  omega

theorem text_of_bytes_nil (h : bytes ts = []) : text ts = [] := by
  cases ts
  case nil       => rfl
  case cons t ts =>
    rw [bytes, List.flatMap_cons] at h
    have ht := (List.append_eq_nil_iff.mp h).left
    cases t
    case code   => cases ht
    case single => cases ht
    case run    => cases ht

end Output

section RoundTrip

variable {s t : Bytes} {k : Int} {r : UInt32} {mem : Bytes}

-- The output for a string of which the size is taken as `k`.
theorem output_spec (hk : k ≤ s.length)
    (h : smazCompress (s ++ [0]) k (.replicate s.length 0) k = .ok (r, mem)) :
    ∃ u ts, Invariant (initial (s ++ [0]) k (.replicate s.length 0) k) u ts ∧
      mem = bytes ts ++ .replicate (s.length - u.out) 0 ∧ u.out = (bytes ts).length ∧
      (u.inp.length : Int) - u.inlen = s.length + 1 - k ∧ (u.out : Int) + u.outlen = k ∧
      (0 ≤ k → 0 ≤ u.inlen) ∧ (u.inlen = 0 ∧ r = .ofNat u.out ∨
        IntegerType.int.Represents (k + 1) ∧ r = .ofInt (k + 1)) := by
  have hlen : (List.replicate s.length (0 : UInt8)).length = s.length := List.length_replicate
  obtain ⟨u, ts, hu, rfl, hret⟩ := smazCompress_ok (by rw [hlen]; exact hk) h
  obtain ⟨rest, hmem, hout, hrest⟩ := hu.output
  have hcount : (u.inp.length : Int) - u.inlen = ((s ++ [0]).length : Int) - k := hu.count
  rw [List.length_append, List.length_singleton] at hcount
  change rest = (List.replicate s.length 0).drop u.out at hrest
  rw [List.drop_replicate] at hrest
  exact ⟨u, ts, hu, hrest ▸ hmem, hout, by omega, hu.room, hu.nonneg, hret⟩

variable {u : State} {ts : List Token} {n : Nat}

-- The size as an `int`.
def Converted (n : Nat) (k : Int) : Prop :=
  k = if n % 2 ^ 32 < 2 ^ 31 then (n % 2 ^ 32 : Int) else n % 2 ^ 32 - 2 ^ 32

-- All that is taken for the string has been compressed.
theorem decompress_done_iff (hk : Converted s.length k)
    (hu : Invariant (initial (s ++ [0]) k (.replicate s.length 0) k) u ts)
    (hcount : (u.inp.length : Int) - u.inlen = s.length + 1 - k) (h0 : u.inlen = 0) :
    text ts = s ↔ s.length < 2 ^ 32 - 1 := by
  have htext := hu.text
  rw [hu.pending h0, List.append_nil] at htext
  change text ts ++ u.inp = s ++ [0] at htext
  have hlen := congrArg List.length htext
  rw [List.length_append, List.length_append, List.length_singleton] at hlen
  unfold Converted at hk
  constructor
  case mp =>
    intro hs
    rw [hs] at hlen
    split at hk
    case isTrue  => omega
    case isFalse => omega
  case mpr =>
    intro hs
    have hone : u.inp.length = [(0 : UInt8)].length := by
      change u.inp.length = 1
      split at hk
      case isTrue  => omega
      case isFalse => omega
    exact (List.append_inj' htext hone).left

theorem toNat_ofInt_add_one (hr : r = .ofInt (k + 1)) : (r.toNat : Int) = (k + 1) % 2 ^ 32 := by
  rw [hr, UInt32.ofInt, UInt32.toNat_ofNat_of_lt' (by change _ < 2 ^ 32; omega)]
  omega

-- Less has been compressed, and what is decompressed is shorter than the string.
theorem decompress_full (hk : Converted s.length k) (hs : 2 ^ 32 - 1 ≤ s.length)
    (hu : Invariant (initial (s ++ [0]) k (.replicate s.length 0) k) u ts)
    (hcount : (u.inp.length : Int) - u.inlen = s.length + 1 - k)
    (hout : u.out = (bytes ts).length) (hroom : (u.out : Int) + u.outlen = k)
    (hle : 0 ≤ k → 0 ≤ u.inlen) (hr : r = .ofInt (k + 1)) (hrep : k + 1 < 2 ^ 31) :
    decompress ((bytes ts ++ .replicate (s.length - u.out) 0).take r.toNat) ≠ .ok s := by
  have hwritten := hu.written
  have htext := length_text_le hu
  rw [List.length_append, List.length_singleton] at htext
  have hnil (h : u.out = 0) : (text ts).length = 0 := by
    rw [text_of_bytes_nil (List.eq_nil_of_length_eq_zero (hout.symm.trans h))]
    rfl
  have hret := toNat_ofInt_add_one hr
  have hmax := r.toNat_lt
  have hge : u.out ≤ r.toNat := by omega
  have htake : (bytes ts ++ .replicate (s.length - u.out) 0).take r.toNat =
      bytes ts ++ .replicate (r.toNat - u.out) 0 := by
    rw [List.take_append, ← hout, List.take_of_length_le (hout ▸ hge), List.take_replicate,
      Nat.min_eq_left (by omega)]
  obtain ⟨y, hy, hlen⟩ := @decompress_zeros ts (r.toNat - u.out) hu.valid (by
    rw [← hout, Nat.add_sub_cancel' hge]
    exact hmax)
  rw [htake, hy]
  intro he
  cases he
  unfold Converted at hk
  by_cases h0 : u.out = 0
  case pos =>
    have := hnil h0
    split at hk
    case isTrue  => omega
    case isFalse => omega
  case neg =>
    have := hwritten (Nat.pos_of_ne_zero h0)
    have := hle (by omega)
    omega

theorem decompress_compress_iff (h : compress s = .ok t) :
    decompress t = .ok s ↔ s.length < 2 ^ 32 - 1 := by
  obtain ⟨⟨r, mem⟩, hc, h⟩ := Except.bind_eq_ok h
  dsimp only at h
  have hconv : Converted s.length (IntegerType.int.convert s.length) :=
    IntegerType.int_convert s.length
  rw [List.length_replicate] at hc
  generalize IntegerType.int.convert s.length = k at hconv hc
  have hk : k ≤ s.length := by
    unfold Converted at hconv
    split at hconv
    case isTrue  => omega
    case isFalse => omega
  obtain ⟨u, ts, hu, rfl, hout, hcount, hroom, hle, hret⟩ := output_spec hk hc
  split at h
  case isFalse => cases h
  case isTrue hr =>
    cases h
    obtain ⟨h0, rfl⟩ | ⟨hrep, hofInt⟩ := hret
    · have hsize : (UInt32.ofNat u.out).toNat = u.out := by
        refine UInt32.toNat_ofNat_of_lt' ?_
        have := hu.written
        unfold Converted at hconv
        change u.out < 2 ^ 32
        split at hconv
        case isTrue  => omega
        case isFalse => omega
      have hd := decompress_tokens hu.valid (by
        rw [← hout, ← hsize]
        exact UInt32.toNat_lt _)
      rw [hsize, hout, List.take_left, hd, Except.ok.injEq]
      exact decompress_done_iff hconv hu hcount h0
    · have hlt := Int.lt_of_le_sub_one hrep.right
      by_cases hs : 2 ^ 32 - 1 ≤ s.length
      case pos =>
        exact iff_of_false (decompress_full hconv hs hu hcount hout hroom hle hofInt hlt)
          (Nat.not_lt.mpr hs)
      case neg =>
        have hret := toNat_ofInt_add_one hofInt
        have hwritten := hu.written
        rw [List.length_append, List.length_replicate, ← hout] at hr
        unfold Converted at hconv
        split at hconv
        case isTrue  => omega
        case isFalse => omega

-- Where the size becomes zero, there is no round.
theorem compress_of_convert (h : IntegerType.int.convert s.length = 0) : compress s = .ok [] := by
  rw [compress, List.length_replicate, h]
  have hloop : smazCompress (s ++ [0]) 0 (.replicate s.length 0) 0 =
      .ok (0, .replicate s.length 0) := by
    have h0 : (initial (s ++ [0]) 0 (.replicate s.length 0) 0).inlen = 0 := rfl
    rw [smazCompress_eq, loop, if_pos h0]
    rfl
  dsimp only
  rw [hloop, Except.ok_bind]
  rfl

end RoundTrip

-- What is compressed is decompressed again if its size is not one that an `unsigned int` loses, and
-- nothing is written behind the output, of which the length is given.
theorem smaz_exact_iff (s t inp out : Bytes) (inlen outlen : Int) :
    (compress s = .ok t → (decompress t = .ok s ↔ s.length < 2 ^ 32 - 1)) ∧
    (outlen ≤ out.length →
      smazCompress inp inlen out outlen ≠ .error .write ∧
      ∀ r mem, smazCompress inp inlen out outlen = .ok (r, mem) →
        mem.length = out.length ∧ mem.drop outlen.toNat = out.drop outlen.toNat) :=
  ⟨decompress_compress_iff, smazCompress_writes⟩

theorem smaz_exact_iff_the :
    (decompress [1] = .ok (ascii "the") ↔ (ascii "the").length < 2 ^ 32 - 1) ∧
    smazCompress [] 0 [7] 1 ≠ .error .write :=
  ⟨(smaz_exact_iff (ascii "the") [1] [] [] 0 0).left (by decide +kernel),
    ((smaz_exact_iff [] [] [] [7] 0 1).right (by decide)).left⟩

-- Nothing is taken for a string of 4 GiB.
theorem not_smaz_exact :
    ¬∀ s t : Bytes, compress s = .ok t → decompress t = .ok s := by
  intro h
  have hc := compress_of_convert (s := .replicate (2 ^ 32) 0) (by
    rw [List.length_replicate]
    decide)
  have hlt := (decompress_compress_iff hc).mp (h _ _ hc)
  rw [List.length_replicate] at hlt
  exact absurd hlt (by decide)

end Smaz
