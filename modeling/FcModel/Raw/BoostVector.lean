import FcModel.Raw.Codec.Allocation
import FcModel.Raw.Codec.RoundTrip

-- The codec of `boost::container::vector`.

namespace Raw.BoostVector

variable {α : Type}

-- The types of the elements, as the overloads tell them apart: `char`, the other fundamental types,
-- and any other, given by the value it is initialised with and by its codec.
inductive Element : Type → Type 1
  | char : Element UInt8
  | fundamental {α : Type} (s : Scalar α) (hs : 0 < s.size) : Element α
  | other {α : Type} (fresh : α) (pack : α → Packer) (unpack : Nat → α → Unpacker α) : Element α

-- The elements as they are in memory.
def memory (s : Scalar α) (value : List α) : Bytes :=
  s.arrayToBytes fun i : Fin value.length => value.get i

-- `value.size()` bytes are written, whatever the size of an element is.
def packScalars (s : Scalar α) (value : List α) : Packer :=
  .guard (value.length ≤ maxNumArrayElements) .assert ++
    (packUnsignedInt (.ofNat value.length) ++
      if value.length = 0 then .done else .write ((memory s value).take value.length) .done)

def pack : {α : Type} → Element α → List α → Packer
  | _, .char, value            => packBytes value
  | _, .fundamental s _, value => packScalars s value
  | _, .other _ f _, value     => packSequence f value

-- The vector is cleared before its size is set.
def unpack (fuel : Nat) : {α : Type} → Element α → List α → Unpacker (List α)
  | _, .char, _            => unpackBytes []
  | _, .fundamental s _, _ => unpackScalars s
  | _, .other fresh _ x, _ => unpackInPlace (x fuel) fresh []

-- A vector is packed, and unpacked from what was packed into one that holds `d`, whatever follows
-- in the stream.
def RoundTrips (T : Element α) (d v : List α) : Prop :=
  ∃ b, (pack T v).bytes = .ok b ∧ ∀ rest, ∃ ds,
    ((unpack ((b ++ rest).length + 1) T d).run Datastream.source).run ⟨b ++ rest, 0⟩ = .ok v ds ∧ ds.unread = rest

-- The elements are packed, and read back from what was packed.
def ElementsRoundTrip : {α : Type} → Element α → List α → Prop
  | _, .other fresh f x, v => ∀ a ∈ v, Packs (f a) ∧ Reads (fun g => x g fresh) (f a) a
  | _, _, _                => True

-- The bytes that are not written are zero.
def Covered : {α : Type} → Element α → List α → Prop
  | _, .fundamental s _, v => ∀ b ∈ (memory s v).drop v.length, b = 0
  | _, _, _                => True

theorem toBytes_ofBytes_int {n : Nat} {bs : Bytes} (h : bs.length = n) :
    (Scalar.int n).toBytes ((Scalar.int n).ofBytes bs) = bs := by
  subst h
  have hlt : ofLE bs < 2 ^ (8 * bs.length) := by
    rw [Nat.pow_mul]
    exact ofLE_lt bs
  simp only [Scalar.toBytes, Scalar.ofBytes]
  rw [BitVec.toNat_ofNat, Nat.mod_eq_of_lt hlt, toLE_ofLE]

-- Any bytes are the memory of integers.
theorem arrayToBytes_arrayOfBytes_int {n size : Nat} {bs : Bytes} (h : bs.length = size * n) :
    (Scalar.int n).arrayToBytes ((Scalar.int n).arrayOfBytes bs : Fin size → _) = bs := by
  induction size generalizing bs
  case zero         =>
    have hnil : bs = [] := List.length_eq_zero_iff.mp (by simpa using h)
    rw [hnil]
    rfl
  case succ size hi =>
    have htake : (bs.take n).length = n := by
      rw [List.length_take, h]
      exact Nat.min_eq_left (Nat.le_mul_of_pos_left n (Nat.succ_pos _))
    have hdrop : (bs.drop n).length = size * n := by
      rw [List.length_drop, h, Nat.succ_mul]
      omega
    rw [Scalar.arrayToBytes, Scalar.arrayOfBytes]
    change (Scalar.int n).toBytes ((Scalar.int n).ofBytes (bs.take n)) ++
      (Scalar.int n).arrayToBytes ((Scalar.int n).arrayOfBytes (bs.drop n) : Fin size → _) = bs
    rw [toBytes_ofBytes_int htake, hi hdrop, List.take_append_drop]

section Fundamental

variable {s : Scalar α} {v : List α}

-- What is in memory after as many bytes as there are elements were read into zeros.
def received (s : Scalar α) (v : List α) : Bytes :=
  (memory s v).take v.length ++ List.replicate (v.length * s.size - v.length) 0

-- The elements that are decoded.
def decoded (s : Scalar α) (v : List α) : List α :=
  .ofFn (n := v.length) (s.arrayOfBytes (received s v))

theorem length_memory : (memory s v).length = v.length * s.size :=
  s.length_arrayToBytes _

theorem length_take_memory (hs : 0 < s.size) : ((memory s v).take v.length).length = v.length := by
  rw [List.length_take, length_memory]
  exact Nat.min_eq_left (Nat.le_mul_of_pos_right _ hs)

theorem length_received (hs : 0 < s.size) : (received s v).length = v.length * s.size := by
  have hle : v.length ≤ v.length * s.size := Nat.le_mul_of_pos_right _ hs
  rw [received, List.length_append, length_take_memory hs, List.length_replicate]
  omega

theorem reads_scalars (hs : 0 < s.size) :
    Reads (fun _ => unpackScalars s) (packScalars s v) (decoded s v) := by
  refine .guard fun hl => ?_
  have hsize : Reads (fun _ => unpackSize) (packUnsignedInt (.ofNat v.length)) v.length := by
    refine .map (reads_unsignedInt _) (.check_bind ?_ ?_)
    all_goals
      rw [toNat_ofNat_of_le hl (by decide)]
    case refine_1 => exact hl
    case refine_2 => exact .pure
  refine hsize.bind (.reserve ?_)
  split
  case isTrue h =>
    have hnil : decoded s v = [] := List.length_eq_zero_iff.mp (by rw [decoded, List.length_ofFn, h])
    rw [hnil]
    exact .pure
  case isFalse => exact .read (by rw [List.length_replicate, length_take_memory hs]) .pure

theorem packs_scalars (hl : v.length ≤ maxNumArrayElements) : Packs (packScalars s v) := by
  refine (Packs.guard hl).append ((Packs.varint ..).append ?_)
  split
  case isTrue   => exact .done
  case isFalse  => exact Packs.done.write

-- The memory is received as it was, if what was not written is zero.
theorem received_eq_iff : received s v = memory s v ↔ ∀ b ∈ (memory s v).drop v.length, b = 0 := by
  have hlength : ((memory s v).drop v.length).length = v.length * s.size - v.length := by
    rw [List.length_drop, length_memory]
  have hparts : memory s v = (memory s v).take v.length ++ (memory s v).drop v.length :=
    (List.take_append_drop ..).symm
  rw [← List.eq_replicate_iff.trans (and_iff_right hlength)]
  constructor
  · intro h
    rw [received] at h
    exact (List.append_cancel_left (h.trans hparts)).symm
  · intro h
    rw [received, ← h]
    exact hparts.symm

theorem decoded_eq_of_received (h : received s v = memory s v) : decoded s v = v := by
  rw [decoded, h, memory, s.arrayOfBytes_arrayToBytes]
  exact List.ofFn_get v

theorem memory_decoded_int {n : Nat} {v : List (BitVec (8 * n))} (hn : 0 < n) :
    (Scalar.int n).arrayToBytes ((Scalar.int n).arrayOfBytes (received (.int n) v) : Fin v.length → _) =
      received (.int n) v :=
  arrayToBytes_arrayOfBytes_int (length_received (s := .int n) hn)

theorem decoded_eq_iff (hs : 0 < s.size) : decoded s v = v ↔ ∀ b ∈ (memory s v).drop v.length,
    b = 0 := by
  rw [← received_eq_iff]
  refine ⟨fun h => ?_, decoded_eq_of_received⟩
  cases s
  case bool =>
    rw [received, Scalar.size, Nat.mul_one, Nat.sub_self, List.replicate_zero, List.append_nil]
    exact List.take_of_length_le (by rw [length_memory, Scalar.size, Nat.mul_one])
  case int n =>
    have hget : ((Scalar.int n).arrayOfBytes (received (.int n) v) : Fin v.length → _) = v.get := by
      apply List.ofFn_injective
      rw [List.ofFn_get]
      exact h
    have hmemory := @memory_decoded_int n v hs
    rw [hget] at hmemory
    exact hmemory.symm

end Fundamental

-- Unpacking runs on a stream as on what is unread of it.
theorem roundTrips_iff {T : Element α} {d v w : List α} (hp : Packs (pack T v))
    (hr : Reads (fun g => unpack g T d) (pack T v) w) : RoundTrips T d v ↔ w = v := by
  have hrun : ∀ b, (pack T v).bytes = .ok b → ∀ rest, ∃ ds,
      ((unpack ((b ++ rest).length + 1) T d).run Datastream.source).run ⟨b ++ rest, 0⟩ = .ok w ds ∧
        ds.unread = rest := by
    intro b hb rest
    have hagree := Datastream.checked.run (unpack ((b ++ rest).length + 1) T d) (.start (b ++ rest))
    rw [hr b hb rest _ (Nat.lt_succ_self _)] at hagree
    generalize ((unpack ((b ++ rest).length + 1) T d).run Datastream.source).run ⟨b ++ rest, 0⟩ = r at hagree
    cases hagree
    case ok ds hu => exact ⟨ds, rfl, hu.unread⟩
  constructor
  · intro ⟨b, hb, h⟩
    obtain ⟨ds, hv, _⟩ := h []
    obtain ⟨ds', hw, _⟩ := hrun b hb []
    rw [hv] at hw
    cases hw
    rfl
  · intro hw
    obtain ⟨b, hb⟩ := hp
    exact ⟨b, hb, hw ▸ hrun b hb⟩

-- What is unpacked is what was packed exactly if the bytes of its memory after the first `v.size()`
-- ones, which are not written, are zero.
theorem roundTrips_iff_covered (T : Element α) (d v : List α) (hl : v.length ≤ maxNumArrayElements)
    (he : ElementsRoundTrip T v) : RoundTrips T d v ↔ Covered T v := by
  cases T
  case char =>
    have hpacks : Packs (pack .char v) := .bytes (Nat.le_trans hl (by decide))
    exact (roundTrips_iff hpacks (reads_bytes [] v)).trans (iff_of_true rfl trivial)
  case fundamental s hs =>
    have hpacks : Packs (pack (.fundamental s hs) v) := packs_scalars hl
    exact (roundTrips_iff hpacks (reads_scalars hs)).trans (decoded_eq_iff hs)
  case other fresh f x =>
    have hpacks : Packs (pack (.other fresh f x) v) := .sequence hl fun a ha => (he a ha).1
    have hread : Reads (fun g => unpackInPlace (x g) fresh []) (packSequence f v) v :=
      reads_inPlace fun d hd a ha => by
        have hfresh : d = fresh := by
          simp only [resize, List.take_nil, List.nil_append] at hd
          exact List.eq_of_mem_replicate hd
        exact hfresh ▸ (he a ha).2
    exact (roundTrips_iff hpacks hread).trans (iff_of_true rfl trivial)

-- A vector of strings.
theorem roundTrips_iff_covered_strings :
    RoundTrips (.other [] packBytes fun _ => unpackBytes) [[7]] [[1, 2], []] ↔
      Covered (.other [] packBytes fun _ => unpackBytes) [[1, 2], []] :=
  roundTrips_iff_covered _ _ _ (by decide) fun a ha =>
    ⟨.bytes (by revert a; decide), reads_bytes [] a⟩

-- The second of two 32-bit integers is lost.
theorem not_roundTrips_int :
    ¬RoundTrips (.fundamental (.int 4) (by decide)) [] [(1 : BitVec (8 * 4)), 2] := by
  have hpacks : Packs (pack (.fundamental (.int 4) (by decide)) [(1 : BitVec (8 * 4)), 2]) := packs_scalars (by decide)
  rw [roundTrips_iff hpacks (reads_scalars (by decide)), decoded_eq_iff (by decide)]
  decide

end Raw.BoostVector
