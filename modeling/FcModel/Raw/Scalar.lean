import FcModel.Variant.Basic
import FcModel.Lib.Codec

-- `fc::raw::pack` and `fc::raw::unpack` for the types the others are made of: integers, `bool`, the
-- two varints, byte strings.

namespace Raw

-- The ways in which packing and unpacking do not return. All but the last three are exceptions. An
-- operation of the buffer below a stream may exit or leave its memory, and `fuel` is what a loop of
-- this model runs into when it was given too little of it.
inductive Failure
  | outOfRange
  | assert
  | parseError (t : UInt8)
  | init
  | exit
  | access
  | fuel
deriving DecidableEq, Repr

-- Whether an exception is thrown.
def Failure.IsException : Failure → Prop
  | outOfRange | assert | parseError _ | init => True
  | exit | access | fuel                      => False

instance : DecidablePred Failure.IsException
  | .outOfRange | .assert | .parseError _ | .init => isTrue trivial
  | .exit | .access | .fuel                       => isFalse id

abbrev Packer := Encoder UInt8 Failure

abbrev Unpacker := Decoder UInt8 Failure

def maxNumArrayElements : Nat := 1024 * 1024

def maxSizeOfByteArrays : Nat := 20 * 1024 * 1024

-- `FC_ASSERT`.
abbrev check (p : Prop) [Decidable p] : Unpacker Unit :=
  Decoder.check p .assert

-- The object representation of an integer on a little-endian machine.
def toLE : Nat → Nat → Bytes
  | 0, _     => []
  | n + 1, v => .ofNat v :: toLE n (v / 256)

def ofLE : Bytes → Nat
  | []      => 0
  | b :: bs => b.toNat + 256 * ofLE bs

-- An integer of `n` bytes, signed or not, is copied as it is in memory.
def packInt {n : Nat} (v : BitVec (8 * n)) : Packer :=
  .write (toLE n v.toNat) .done

def unpackInt {n : Nat} (v : BitVec (8 * n)) : Unpacker (BitVec (8 * n)) :=
  .read (toLE n v.toNat) fun bs => return .ofNat _ (ofLE bs)

def packBool (v : Bool) : Packer :=
  packInt (n := 1) (if v then 1 else 0)

-- The byte is read into an uninitialised local variable. What it holds does not matter on a stream
-- that delivers what it is asked for; it is taken to be zero here and below.
def unpackBool : Unpacker Bool := do
  let b ← unpackInt (n := 1) 0
  check (b &&& ~~~1 = 0)
  return b ≠ 0

-- The loop both varints are written by: seven bits at a time, each round in a `write` of its own.
def packVarint : Nat → Nat → Packer
  | 0, _          => .done
  | n + 1, val    =>
    let b := UInt8.ofNat val &&& 0x7f
    let val := val >>> 7
    .write [b ||| (if 0 < val then 0x80 else 0)] (if val = 0 then .done else packVarint n val)

-- Five rounds write all the bits of a `uint32_t`.
def packUnsignedInt (v : UInt32) : Packer :=
  packVarint 5 v.toNat

-- `by` is 7, 14, 21, 28 or 35 when it is compared with 32, so there are at most five rounds.
def unpackUnsignedInt.go : Nat → (v by' : Nat) → Unpacker UInt32
  | 0, _, _       => .throw .fuel
  | n + 1, v, by' => .get fun b =>
    let v := v ||| ((b &&& 0x7f).toNat <<< by') % 2 ^ 32
    if b &&& 0x80 ≠ 0 ∧ by' + 7 < 32 then unpackUnsignedInt.go n v (by' + 7) else return .ofNat v

def unpackUnsignedInt : Unpacker UInt32 :=
  unpackUnsignedInt.go 5 0 0

-- A `signed_int` is given by its bits in two's complement.
def zigzag (v : BitVec 32) : BitVec 32 :=
  (v <<< 1) ^^^ v.sshiftRight 31

def unzigzag (v : BitVec 32) : BitVec 32 :=
  (v >>> 1) ^^^ (~~~(v &&& 1) + 1)

def packSignedInt (v : BitVec 32) : Packer :=
  packVarint 5 (zigzag v).toNat

-- Here nothing bounds the number of rounds. From the sixth on the shift is by 32 or more: the
-- processor takes the amount modulo 32.
def unpackSignedInt.go : Nat → (v by' : Nat) → Unpacker (BitVec 32)
  | 0, _, _       => .throw .fuel
  | n + 1, v, by' => .get fun b =>
    let v := v ||| ((b &&& 0x7f).toNat <<< (by' % 32)) % 2 ^ 32
    if b &&& 0x80 ≠ 0 then unpackSignedInt.go n v (by' + 7) else return unzigzag (.ofNat 32 v)

def unpackSignedInt (fuel : Nat) : Unpacker (BitVec 32) :=
  unpackSignedInt.go fuel 0 0

-- The bytes of a string or of a `std::vector<char>`; an empty one makes no call.
def packBytes (v : Bytes) : Packer :=
  .guard (v.length ≤ maxSizeOfByteArrays) .assert ++
    (packUnsignedInt (.ofNat v.length) ++ if v.length = 0 then .done else .write v .done)

-- Brings a vector to the given size: what is missing is value-initialised.
def resize {α : Type} (value : List α) (size : Nat) (fill : α) : List α :=
  value.take size ++ List.replicate (size - value.length) fill

def unpackBytes (value : Bytes) : Unpacker Bytes := do
  let size ← unpackUnsignedInt
  check (size.toNat ≤ maxSizeOfByteArrays)
  .reserve .symbols size.toNat do
    let value := resize value size.toNat 0
    if value.length = 0 then return value else .read value fun bs => return bs

section Relations

variable {α γ : Type}

abbrev Reads (x : Nat → Unpacker α) (y : Packer) (a : α) : Prop :=
  Decoder.Reads .outOfRange x y a

abbrev Exhausts (x : Unpacker α) (y : Packer) (P : α → Prop) : Prop :=
  Decoder.Exhausts .outOfRange x y P

abbrev Fuelled (n : Nat) (x : Nat → Unpacker α) : Prop :=
  Decoder.Fuelled .outOfRange Failure.IsException n x

end Relations

@[simp]
theorem length_toLE (n v : Nat) : (toLE n v).length = n := by
  induction n generalizing v
  case zero       => rfl
  case succ n hi  => simp [toLE, hi]

theorem ofLE_toLE (n v : Nat) : ofLE (toLE n v) = v % 256 ^ n := by
  induction n generalizing v
  case zero       => simp [toLE, ofLE, Nat.mod_one]
  case succ n hi  => simp [toLE, ofLE, hi, Nat.pow_succ', Nat.mod_mul]

theorem toLE_ofLE (bs : Bytes) : toLE bs.length (ofLE bs) = bs := by
  induction bs
  case nil          => rfl
  case cons b bs hi =>
    have hb := b.toNat_lt
    have hhead : UInt8.ofNat (b.toNat + 256 * ofLE bs) = b := by
      apply UInt8.toNat_inj.mp
      rw [UInt8.toNat_ofNat']
      omega
    rw [List.length_cons, toLE, ofLE, hhead,
      show (b.toNat + 256 * ofLE bs) / 256 = ofLE bs by omega, hi]

theorem ofLE_lt (bs : Bytes) : ofLE bs < 256 ^ bs.length := by
  induction bs
  case nil          => decide
  case cons b bs hi =>
    have hb := b.toNat_lt
    rw [ofLE, List.length_cons, Nat.pow_succ']
    omega

theorem reads_int {n : Nat} (d v : BitVec (8 * n)) :
    Reads (fun _ => unpackInt d) (packInt v) v := by
  have hv : BitVec.ofNat (8 * n) (ofLE (toLE n v.toNat)) = v := by
    rw [ofLE_toLE, show (256 : Nat) = 2 ^ 8 from rfl, ← Nat.pow_mul, Nat.mod_eq_of_lt v.isLt,
      BitVec.ofNat_toNat, BitVec.setWidth_eq]
  refine .read (by simp) ?_
  rw [hv]
  exact .pure

theorem fuelled_int {m n : Nat} (d : BitVec (8 * n)) : Fuelled m fun _ => unpackInt d :=
  .read (by decide) fun _ => .pure

theorem reads_bool (v : Bool) : Reads (fun _ => unpackBool) (packBool v) v := by
  cases v <;> exact (reads_int _ _).map (.check_bind (by decide) .pure)

theorem fuelled_bool {m : Nat} : Fuelled m fun _ => unpackBool :=
  (fuelled_int 0).bind fun _ => .check_bind (by decide) .pure

-- The parts of a byte of a varint.

theorem and_0x7f_toNat (val : Nat) : (UInt8.ofNat val &&& 0x7f).toNat = val % 128 := by
  rw [UInt8.toNat_and, UInt8.toNat_ofNat', show UInt8.toNat 0x7f = 2 ^ 7 - 1 from rfl,
    Nat.and_two_pow_sub_one_eq_mod, Nat.mod_mod_of_dvd _ (by decide)]

theorem varint_low (x : UInt8) (c : Prop) [Decidable c] :
    (x &&& 0x7f ||| if c then 0x80 else 0) &&& 0x7f = x &&& 0x7f := by
  have h : ∀ x : BitVec 8, (x &&& 0x7f ||| 0x80) &&& 0x7f = x &&& 0x7f ∧
      (x &&& 0x7f ||| 0) &&& 0x7f = x &&& 0x7f := by decide
  split <;> apply UInt8.eq_of_toBitVec_eq
  case isTrue   => exact (h x.toBitVec).left
  case isFalse  => exact (h x.toBitVec).right

theorem varint_high (x : UInt8) (c : Prop) [Decidable c] :
    (x &&& 0x7f ||| if c then 0x80 else 0) &&& 0x80 ≠ 0 ↔ c := by
  have h : ∀ x : BitVec 8, (x &&& 0x7f ||| 0x80) &&& 0x80 ≠ 0 ∧ (x &&& 0x7f ||| 0) &&& 0x80 = 0 := by
    decide
  by_cases hc : c
  case pos =>
    have := (h x.toBitVec).left
    simp only [hc, if_true, iff_true]
    exact fun he => this (congrArg UInt8.toBitVec he)
  case neg =>
    have := (h x.toBitVec).right
    simp only [hc, if_false, iff_false, not_not]
    exact UInt8.eq_of_toBitVec_eq this

-- One round of a decoding loop adds seven bits above those that are there.
theorem varint_round {v val by' : Nat} (hv : v < 2 ^ by') (hval : val * 2 ^ by' < 2 ^ 32) :
    v ||| ((UInt8.ofNat val &&& 0x7f).toNat <<< by') % 2 ^ 32 = v + val % 128 * 2 ^ by' := by
  have hle : val % 128 * 2 ^ by' ≤ val * 2 ^ by' := Nat.mul_le_mul_right _ (Nat.mod_le ..)
  rw [and_0x7f_toNat, Nat.shiftLeft_eq, Nat.mod_eq_of_lt (by omega), ← Nat.shiftLeft_eq,
    Nat.or_comm,
    ← Nat.shiftLeft_add_eq_or_of_lt hv, Nat.add_comm]

theorem varint_rest (val by' : Nat) :
    val % 128 * 2 ^ by' + val / 128 * 2 ^ (by' + 7) = val * 2 ^ by' := by
  have : 2 ^ (by' + 7) = 128 * 2 ^ by' := by rw [Nat.pow_add, Nat.mul_comm]
  rw [this, ← Nat.mul_assoc, ← Nat.add_mul, Nat.mod_add_div']

theorem varint_next {v val by' : Nat} (hv : v < 2 ^ by') (hval : val * 2 ^ by' < 2 ^ 32) :
    v + val % 128 * 2 ^ by' < 2 ^ (by' + 7) ∧ val / 128 * 2 ^ (by' + 7) < 2 ^ 32 := by
  have hr := varint_rest val by'
  have hm : val % 128 * 2 ^ by' ≤ 127 * 2 ^ by' :=
    Nat.mul_le_mul_right _ (Nat.le_of_lt_succ (Nat.mod_lt _ (by decide)))
  have hp : 2 ^ (by' + 7) = 128 * 2 ^ by' := by rw [Nat.pow_add, Nat.mul_comm]
  omega

theorem reads_unsignedInt_go {n v val by' : Nat} (hb : by' + 7 * n = 28) (hv : v < 2 ^ by')
    (hval : val * 2 ^ by' < 2 ^ 32) :
    Reads (fun _ => unpackUnsignedInt.go (n + 1) v by') (packVarint (n + 1) val)
      (.ofNat (v + val * 2 ^ by')) := by
  induction n generalizing v val by'
  all_goals
    simp only [unpackUnsignedInt.go, packVarint]
    refine .get ?_
    simp only [varint_low, varint_high, varint_round hv hval]
  case zero =>
    -- Four bits are left for the last round.
    have hb : by' = 28 := by omega
    have h0 : val >>> 7 = 0 := by
      rw [hb] at hval
      rw [Nat.shiftRight_eq_div_pow]
      omega
    have hm : val % 128 = val := by rw [hb] at hval; omega
    simp only [h0, Nat.lt_irrefl, false_and, if_false, if_true, hm]
    exact .pure
  case succ n hi =>
    rw [Nat.shiftRight_eq_div_pow, show 2 ^ 7 = 128 from rfl]
    by_cases h0 : val / 128 = 0
    case pos =>
      have hm : val % 128 = val := by omega
      simp only [h0, Nat.lt_irrefl, false_and, if_false, if_true, hm]
      exact .pure
    case neg =>
      have ⟨hv', hval'⟩ := varint_next hv hval
      have hi := hi (by omega) hv' hval'
      rw [Nat.add_assoc, varint_rest] at hi
      rw [if_pos ⟨Nat.pos_of_ne_zero h0, by omega⟩, if_neg h0]
      exact hi

theorem reads_unsignedInt (v : UInt32) :
    Reads (fun _ => unpackUnsignedInt) (packUnsignedInt v) v := by
  have h := @reads_unsignedInt_go 4 0 v.toNat 0 rfl (by decide) (by simpa using v.toNat_lt)
  rwa [Nat.zero_add, Nat.pow_zero, Nat.mul_one, UInt32.ofNat_toNat] at h

theorem fuelled_unsignedInt_go {m n v by' : Nat} (hb : by' + 7 * n = 28) :
    Fuelled m fun _ => unpackUnsignedInt.go (n + 1) v by' := by
  induction n generalizing v by'
  all_goals
    refine .get (by decide) fun b => ?_
    simp only
  case zero =>
    rw [if_neg fun h => by omega]
    exact .pure
  case succ n hi =>
    split
    case isTrue   => exact hi (by omega)
    case isFalse  => exact .pure

theorem fuelled_unsignedInt {m : Nat} : Fuelled m fun _ => unpackUnsignedInt :=
  @fuelled_unsignedInt_go m 4 0 0 rfl

theorem and_one_eq (v : BitVec 32) : v &&& 1 = if v.getLsbD 0 then 1 else 0 := by
  apply BitVec.eq_of_getLsbD_eq
  intro i hi
  cases h : v.getLsbD 0 <;> cases i <;> simp_all

theorem not_and_one_add_one (v : BitVec 32) :
    ~~~(v &&& 1) + 1 = if v.getLsbD 0 then BitVec.allOnes 32 else 0 := by
  rw [and_one_eq]
  cases v.getLsbD 0 <;> rfl

theorem getLsbD_sshiftRight_31 (v : BitVec 32) {i : Nat} (hi : i < 32) :
    (v.sshiftRight 31).getLsbD i = v.msb := by
  rw [BitVec.getLsbD_sshiftRight, decide_eq_false (by omega), Bool.not_false, Bool.true_and]
  split
  case isTrue h => rw [show i = 0 by omega, BitVec.msb_eq_getLsbD_last]
  case isFalse  => rfl

theorem getLsbD_zigzag (v : BitVec 32) {i : Nat} (hi : i < 32) :
    (zigzag v).getLsbD i = ((decide (0 < i) && v.getLsbD (i - 1)) ^^ v.msb) := by
  rw [zigzag, BitVec.getLsbD_xor, getLsbD_sshiftRight_31 v hi, BitVec.getLsbD_shiftLeft]
  cases i <;> simp [hi]

theorem unzigzag_zigzag (v : BitVec 32) : unzigzag (zigzag v) = v := by
  apply BitVec.eq_of_getLsbD_eq
  intro i hi
  -- The lowest bit holds the sign, and flips all the others.
  have hs : (if (zigzag v).getLsbD 0 then BitVec.allOnes 32 else 0).getLsbD i = v.msb := by
    rw [getLsbD_zigzag v (by omega)]
    cases v.msb
    case false => simp
    case true  => simpa using BitVec.getLsbD_allOnes ▸ decide_eq_true hi
  rw [unzigzag, not_and_one_add_one, BitVec.getLsbD_xor, BitVec.getLsbD_ushiftRight, hs]
  by_cases h : i = 31
  case pos =>
    rw [h, BitVec.msb_eq_getLsbD_last, BitVec.getLsbD_of_ge _ _ (by omega), Bool.false_xor]
  case neg =>
    rw [getLsbD_zigzag v (by omega), decide_eq_true (by omega), Nat.add_sub_cancel_left]
    simp

theorem reads_signedInt_go {n v val by' : Nat} (hb : by' + 7 * n = 28) (hv : v < 2 ^ by')
    (hval : val * 2 ^ by' < 2 ^ 32) :
    Reads (fun g => unpackSignedInt.go g v by') (packVarint (n + 1) val)
      (unzigzag (.ofNat 32 (v + val * 2 ^ by'))) := by
  induction n generalizing v val by'
  all_goals
    simp only [packVarint]
    refine .get_succ (fun _ => rfl) ?_
    simp only [varint_low, varint_high, Nat.mod_eq_of_lt (show by' < 32 by omega),
      varint_round hv hval]
  case zero =>
    have hb : by' = 28 := by omega
    have h0 : val >>> 7 = 0 := by
      rw [hb] at hval
      rw [Nat.shiftRight_eq_div_pow]
      omega
    have hm : val % 128 = val := by rw [hb] at hval; omega
    simp only [h0, Nat.lt_irrefl, if_false, if_true, hm]
    exact .pure
  case succ n hi =>
    rw [Nat.shiftRight_eq_div_pow, show 2 ^ 7 = 128 from rfl]
    by_cases h0 : val / 128 = 0
    case pos =>
      have hm : val % 128 = val := by omega
      simp only [h0, Nat.lt_irrefl, if_false, if_true, hm]
      exact .pure
    case neg =>
      have ⟨hv', hval'⟩ := varint_next hv hval
      have hi := hi (by omega) hv' hval'
      rw [Nat.add_assoc, varint_rest] at hi
      simp only [if_pos (Nat.pos_of_ne_zero h0), if_neg h0]
      exact hi

theorem reads_signedInt (v : BitVec 32) : Reads unpackSignedInt (packSignedInt v) v := by
  have h := @reads_signedInt_go 4 0 (zigzag v).toNat 0 rfl (by decide) (by simpa using (zigzag v).isLt)
  rw [Nat.zero_add, Nat.pow_zero, Nat.mul_one, BitVec.ofNat_toNat, BitVec.setWidth_eq,
    unzigzag_zigzag] at h
  exact h

theorem exhausts_signedInt_go {n g v val by' : Nat} (hval : val < 128 ^ (n + 1)) :
    Exhausts (unpackSignedInt.go g v by') (packVarint (n + 1) val) fun _ => True := by
  induction n generalizing g v val by'
  all_goals
    cases g
    case zero => exact .throw
    simp only [unpackSignedInt.go, packVarint]
    refine .get ?_
    simp only [varint_high]
    rw [Nat.shiftRight_eq_div_pow, show 2 ^ 7 = 128 from rfl]
  case zero =>
    rw [Nat.div_eq_of_lt (by simpa using hval)]
    exact .pure trivial
  case succ n hi _ =>
    by_cases h0 : val / 128 = 0
    case pos =>
      simp only [h0, Nat.lt_irrefl, if_false, if_true]
      exact .pure trivial
    case neg =>
      simp only [if_pos (Nat.pos_of_ne_zero h0), if_neg h0]
      exact hi (Nat.div_lt_of_lt_mul (by rwa [Nat.pow_succ'] at hval))

theorem exhausts_signedInt (g : Nat) (v : BitVec 32) :
    Exhausts (unpackSignedInt g) (packSignedInt v) fun _ => True :=
  @exhausts_signedInt_go 4 g 0 _ 0 (Nat.lt_trans (zigzag v).isLt (by decide))

theorem fuelled_signedInt_go {m v by' : Nat} : Fuelled m fun g => unpackSignedInt.go g v by' := by
  induction m generalizing v by'
  case zero => exact .zero
  case succ m hi =>
    refine .get_succ (by decide) (fun _ => rfl) fun b => ?_
    by_cases hc : b &&& 0x80 ≠ 0
    case pos => simpa only [if_pos hc] using hi
    case neg => simpa only [if_neg hc] using .pure

theorem fuelled_signedInt {m : Nat} : Fuelled m unpackSignedInt :=
  fuelled_signedInt_go

@[simp]
theorem length_resize {α : Type} (value : List α) (size : Nat) (fill : α) :
    (resize value size fill).length = size := by
  simp only [resize, List.length_append, List.length_take, List.length_replicate]
  omega

theorem toNat_ofNat_of_le {n limit : Nat} (h : n ≤ limit) (hl : limit < 2 ^ 32) :
    (UInt32.ofNat n).toNat = n :=
  UInt32.toNat_ofNat_of_lt' (show n < 2 ^ 32 by omega)

theorem reads_bytes (d v : Bytes) : Reads (fun _ => unpackBytes d) (packBytes v) v := by
  refine .guard fun hl => .bind (reads_unsignedInt _) (.check_bind ?_ (.reserve ?_))
  all_goals
    rw [toNat_ofNat_of_le hl (by decide)]
  case refine_1 => exact hl
  case refine_2 =>
    simp only [length_resize]
    split
    case isTrue h0 =>
      have : resize d v.length 0 = v := by rw [List.length_eq_zero_iff.mp h0]; simp [resize]
      rw [this]
      exact .pure
    case isFalse => exact .read (length_resize ..) .pure

theorem fuelled_bytes {m : Nat} (d : Bytes) : Fuelled m fun _ => unpackBytes d := by
  refine fuelled_unsignedInt.bind fun _ => .check_bind (by decide) (.reserve ?_)
  simp only
  split
  case isTrue   => exact .pure
  case isFalse  => exact .read (by decide) fun _ => .pure

end Raw
