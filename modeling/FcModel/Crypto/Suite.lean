import FcModel.Crypto.Base58
import FcModel.Lib.Except
import FcModel.Raw.Codec.RoundTrip
import FcModel.Variant.ByteVector

-- The texts of keys and signatures: the checksum over the packed data and the name of a suite, and
-- how a text is given to the suite that it names.

namespace Suite

open Raw
open Base58 (decodeBase58 encodeBase58 decodeBase58_encodeBase58 encodeBase58_ne_nil)

inductive Error
  | raw (e : Failure)
  -- "Unable to decode base58 string ${base58_str}"
  | parse
  -- A conversion between a byte vector and a variant.
  | vector (e : ByteVector.Error)
  | assert (message : String)
deriving DecidableEq, Repr

-- The first word of a digest.
abbrev Checksum := BitVec (8 * 4)

-- The data of a key, and how they are packed and unpacked into new ones.
structure DataType (α : Type) where
  pack   : α → Packer
  unpack : Nat → Unpacker α

-- `FC_ASSERT`.
def assert (p : Prop) [Decidable p] (message : String) : Except Error Unit :=
  if p then .ok () else .error (.assert message)

-- `raw::pack`, which gives any stream the same bytes.
def packed (x : Packer) : Except Error Bytes :=
  match x.bytes with
  | .ok b    => .ok b
  | .error e => .error (.raw e)

def fromBase58 (str : Bytes) : Except Error Bytes :=
  match decodeBase58 str with
  | some bin => .ok bin
  | none     => .error .parse

namespace DataType

variable {α : Type} (T : DataType α)

-- `calculate_checksum`. The default suite has no prefix.
def calculateChecksum (ripemd160 : Bytes → Checksum) (data : α) (suite : Option Bytes) :
    Except Error Checksum := do
  return ripemd160 ((← packed (T.pack data)) ++ suite.getD [])

-- `checksummed_data`.
def packChecksummed (wrapper : α × Checksum) : Packer :=
  T.pack wrapper.1 ++ packInt wrapper.2

def unpackChecksummed (fuel : Nat) : Unpacker (α × Checksum) := do
  let data ← T.unpack fuel
  let check ← unpackInt (n := 4) 0
  return (data, check)

-- What is unpacked from the bytes, and the stream afterwards.
def unpackFrom (bin : Bytes) : EStateM.Result Failure Datastream (α × Checksum) :=
  ((T.unpackChecksummed (bin.length + 1)).run Datastream.source).run ⟨bin, 0⟩

def unpacked (bin : Bytes) : Except Error ((α × Checksum) × Datastream) :=
  match T.unpackFrom bin with
  | .ok wrapped ds => .ok (wrapped, ds)
  | .error e _     => .error (.raw e)

end DataType

-- The alternatives of a variant, each with the prefix of its suite.
structure Suites {n : Nat} (T : Fin n → Type) where
  dataType : ∀ i, DataType (T i)
  prefixes : Fin n → Bytes

def underscore : UInt8 :=
  0x5f

def withSuite (suite : Option Bytes) (dataStr : Bytes) : Bytes :=
  match suite with
  | some suite => suite ++ [underscore] ++ dataStr
  | none       => dataStr

-- What is before the first underscore, and what is after it.
def splitUnderscore (str : Bytes) : Option (Bytes × Bytes) :=
  if underscore ∈ str then some (str.takeWhile (· ≠ underscore), (str.dropWhile (· ≠ underscore)).drop 1) else none

namespace Suites

variable {n : Nat} {T : Fin n → Type} (S : Suites T) (ripemd160 : Bytes → Checksum)

-- `base58str_visitor`.
def print (defaultPosition : Option (Fin n)) (key : Σ i, T i) : Except Error Bytes := do
  let suite := if defaultPosition = some key.1 then none else some (S.prefixes key.1)
  let check ← (S.dataType key.1).calculateChecksum ripemd160 key.2 suite
  let bytes ← packed ((S.dataType key.1).packChecksummed (key.2, check))
  return withSuite suite (encodeBase58 bytes)

def parseData (i : Fin n) (dataStr : Bytes) : Except Error (Σ i, T i) := do
  let bin ← fromBase58 dataStr
  let (wrapped, unpacker) ← (S.dataType i).unpacked bin
  assert (unpacker.remaining = 0) "!unpacker.remaining(): decoded base58 length too long"
  let checksum ← (S.dataType i).calculateChecksum ripemd160 wrapped.1 (some (S.prefixes i))
  assert (checksum = wrapped.2) "checksum == wrapped.check: "
  return ⟨i, wrapped.1⟩

-- `base58_str_parser_impl`, from a position on.
def parseFrom (positions : List (Fin n)) (prefixStr dataStr : Bytes) : Except Error (Σ i, T i) :=
  match positions with
  | []             => .error
    (.assert "false: No matching suite type for $\x7bprefix\x7d_$\x7bdata\x7d")
  | i :: positions =>
    if S.prefixes i = prefixStr then S.parseData ripemd160 i dataStr else parseFrom positions prefixStr dataStr

-- `base58_str_parser`.
def parse (base58str : Bytes) : Except Error (Σ i, T i) :=
  match splitUnderscore base58str with
  | none                     =>
    .error (.assert "pivot != std::string::npos: No delimiter in data, cannot determine suite type: $\x7bstr\x7d")
  | some (prefixStr, dataStr) => do
    assert (dataStr ≠ []) "!data_str.empty(): Data only has suite type prefix: $\x7bstr\x7d"
    S.parseFrom ripemd160 (List.finRange n) prefixStr dataStr

end Suites

-- The whole payload that the digits stand for is unpacked, and gives the data.
def DataType.Consumes {α : Type} (T : DataType α) (digits : Bytes) (a : α) : Prop :=
  ∃ bin check ds, fromBase58 digits = .ok bin ∧ T.unpackFrom bin = .ok (a, check) ds ∧
    ds.unread = []

-- The data are packed, and unpacked from what is packed for them.
structure DataType.Carries {α : Type} (T : DataType α) (a : α) : Prop where
  packs : Packs (T.pack a)
  reads : Reads T.unpack (T.pack a) a

section Steps

variable {α β : Type}

theorem assert_bind {p : Prop} [Decidable p] {message : String} {f : Unit → Except Error β}
    (h : p) :
    (assert p message >>= f) = f () := by
  rw [assert, if_pos h]
  rfl

end Steps

section Payload

variable {α : Type} {T : DataType α} {a : α} {check : Checksum} {b : Bytes}
    {ripemd160 : Bytes → Checksum}
  {suite : Option Bytes}

theorem packed_of_bytes {x : Packer} (h : x.bytes = .ok b) : packed x = .ok b := by
  rw [packed, h]

theorem fromBase58_encode (b : Bytes) : fromBase58 (encodeBase58 b) = .ok b := by
  rw [fromBase58, decodeBase58_encodeBase58]

theorem calculateChecksum_of_bytes (h : (T.pack a).bytes = .ok b) :
    T.calculateChecksum ripemd160 a suite = .ok (ripemd160 (b ++ suite.getD [])) := by
  rw [DataType.calculateChecksum, packed_of_bytes h]
  rfl

theorem packChecksummed_bytes (h : (T.pack a).bytes = .ok b) :
    (T.packChecksummed (a, check)).bytes = .ok (b ++ toLE 4 check.toNat) := by
  refine Encoder.bytes_append_eq_ok.mpr ⟨b, _, h, ?_, rfl⟩
  rw [packInt, Encoder.bytes_write_eq_ok]
  exact ⟨[], rfl, (List.append_nil _).symm⟩

theorem unpackFrom_of_bytes (h : T.Carries a) (hb : (T.packChecksummed (a, check)).bytes = .ok b) :
    ∃ ds, T.unpackFrom b = .ok (a, check) ds ∧ ds.Unread [] := by
  have hreads : Reads T.unpackChecksummed (T.packChecksummed (a, check)) (a, check) :=
    h.reads.bind (.map (reads_int 0 check) .pure)
  have hagree := Datastream.checked.run (T.unpackChecksummed (b.length + 1)) (.start b)
  rw [← List.append_nil b, hreads b hb [] _ (Nat.lt_succ_self _), List.append_nil] at hagree
  rw [DataType.unpackFrom]
  generalize ((T.unpackChecksummed (b.length + 1)).run Datastream.source).run ⟨b, 0⟩ = r at hagree
  cases hagree
  case ok ds hu => exact ⟨ds, rfl, hu⟩

theorem unpacked_payload (h : T.Carries a) (hb : (T.pack a).bytes = .ok b) :
    ∃ ds : Datastream, T.unpacked (b ++ toLE 4 check.toNat) = .ok ((a, check), ds) ∧
    ds.remaining = 0 := by
  obtain ⟨ds, hunpack, hunread⟩ := unpackFrom_of_bytes h (packChecksummed_bytes hb)
  exact ⟨ds, by rw [DataType.unpacked, hunpack], hunread.remaining⟩

theorem consumes_payload (h : T.Carries a) (hb : (T.pack a).bytes = .ok b) :
    T.Consumes (encodeBase58 (b ++ toLE 4 check.toNat)) a := by
  obtain ⟨ds, hunpack, hunread⟩ := @unpackFrom_of_bytes _ _ _ check _ h (packChecksummed_bytes hb)
  exact ⟨_, check, ds, fromBase58_encode _, hunpack, hunread.unread⟩

theorem encode_payload_ne_nil : encodeBase58 (b ++ toLE 4 check.toNat) ≠ [] :=
  encodeBase58_ne_nil (List.append_ne_nil_of_right_ne_nil _ (List.cons_ne_nil _ _))

end Payload

section Split

variable {p d : Bytes}

theorem splitUnderscore_append (h : underscore ∉ p) :
    splitUnderscore (p ++ [underscore] ++ d) = some (p, d) := by
  have hmem : underscore ∈ p ++ [underscore] ++ d := by simp
  have hp : ∀ c ∈ p, decide (c ≠ underscore) = true := by
    intro c hc
    exact decide_eq_true fun he => h (he ▸ hc)
  rw [splitUnderscore, if_pos hmem, List.append_assoc, List.takeWhile_append_of_pos hp,
    List.dropWhile_append_of_pos hp]
  simp

end Split

section RoundTrip

variable {n : Nat} {T : Fin n → Type} {S : Suites T} {ripemd160 : Bytes → Checksum} {i : Fin n}
    {a : T i} {b : Bytes}

theorem print_of_bytes {defaultPosition : Option (Fin n)} {suite : Option Bytes}
    (hsuite : (if defaultPosition = some i then none else some (S.prefixes i)) = suite)
    (hb : ((S.dataType i).pack a).bytes = .ok b) :
    S.print ripemd160 defaultPosition ⟨i, a⟩ =
      .ok (withSuite suite
          (encodeBase58 (b ++ toLE 4 (ripemd160 (b ++ suite.getD [])).toNat))) := by
  rw [Suites.print]
  dsimp only
  rw [hsuite, calculateChecksum_of_bytes hb, Except.ok_bind,
    packed_of_bytes (packChecksummed_bytes hb),
    Except.ok_bind]
  rfl

-- What is not packed is not printed.
theorem print_of_error {defaultPosition : Option (Fin n)} {e : Failure}
    (he : ((S.dataType i).pack a).bytes = .error e) :
    S.print ripemd160 defaultPosition ⟨i, a⟩ = .error (.raw e) := by
  simp only [Suites.print, DataType.calculateChecksum, packed, he]
  rfl

-- The position is found by the name of its suite.
theorem parseFrom_of_mem {positions : List (Fin n)} {digits : Bytes} (hi : i ∈ positions)
    (hinj : ∀ j, S.prefixes j = S.prefixes i → j = i) :
    S.parseFrom ripemd160 positions (S.prefixes i) digits = S.parseData ripemd160 i digits := by
  induction positions
  case nil => cases hi
  case cons j positions h =>
    rw [Suites.parseFrom]
    by_cases hj : S.prefixes j = S.prefixes i
    case pos => rw [if_pos hj, hinj j hj]
    case neg =>
      have hne : i ≠ j := fun he => hj (he ▸ rfl)
      rw [if_neg hj, h (List.mem_of_ne_of_mem hne hi)]

theorem parseData_payload (h : (S.dataType i).Carries a)
    (hb : ((S.dataType i).pack a).bytes = .ok b) :
    S.parseData ripemd160 i (encodeBase58 (b ++ toLE 4 (ripemd160 (b ++ S.prefixes i)).toNat)) =
        .ok ⟨i, a⟩ := by
  obtain ⟨ds, hunpack, hremaining⟩ := @unpacked_payload _ _ _ (ripemd160 (b ++ S.prefixes i)) _ h hb
  have hchecksum := @calculateChecksum_of_bytes _ _ _ _ ripemd160 (some (S.prefixes i)) hb
  rw [Suites.parseData, fromBase58_encode, Except.ok_bind, hunpack, Except.ok_bind]
  dsimp only
  rw [assert_bind hremaining, hchecksum, Except.ok_bind]
  exact assert_bind rfl

-- Printing with the name of the suite, and parsing.
theorem parse_print {defaultPosition : Option (Fin n)} (hdefault : defaultPosition ≠ some i)
    (hinj : ∀ j, S.prefixes j = S.prefixes i → j = i) (hname : underscore ∉ S.prefixes i)
    (h : (S.dataType i).Carries a) : ∃ digits,
      S.print ripemd160 defaultPosition ⟨i, a⟩ = .ok (S.prefixes i ++ [underscore] ++ digits) ∧
      S.parse ripemd160 (S.prefixes i ++ [underscore] ++ digits) = .ok ⟨i, a⟩ ∧
      (S.dataType i).Consumes digits a := by
  obtain ⟨b, hb⟩ := h.packs
  refine ⟨encodeBase58 (b ++ toLE 4 (ripemd160 (b ++ S.prefixes i)).toNat),
    print_of_bytes (if_neg hdefault) hb,
    ?_, consumes_payload h hb⟩
  rw [Suites.parse, splitUnderscore_append hname]
  dsimp only
  rw [assert_bind encode_payload_ne_nil, parseFrom_of_mem (List.mem_finRange i) hinj]
  exact parseData_payload h hb

end RoundTrip

end Suite
