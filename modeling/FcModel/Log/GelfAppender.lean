import FcModel.Lib.Pieces
import FcModel.Raw.Scalar

-- `fc::gelf_appender`: how a compressed message is sent in datagrams.

namespace GelfAppender

open Raw

def maxPayloadSize : UInt32 := 512

-- Two bytes of magic, eight of the message id, the sequence number and the sequence count.
def headerLength : UInt32 := 2 + 8 + 1 + 1

def bodyLength : UInt32 := maxPayloadSize - headerLength

def chunk (messageId : UInt64) (sequence total : UInt32) (body : Bytes) : Bytes :=
  [0x1e, 0x0f] ++ toLE 8 messageId.toNat ++ [sequence.toUInt8, total.toUInt8] ++ body

-- The loop, with what is sent and how many packets there are. There is no result if it does not
-- end within the fuel.
def sendChunks (messageId : UInt64) (message : Bytes) (total : UInt32) :
    (fuel : Nat) → (bytesSent numberOfPacketsSent : UInt32) → Option (List Bytes × UInt32)
  | 0, _, _                                  => none
  | fuel + 1, bytesSent, numberOfPacketsSent =>
    if bytesSent.toNat < message.length then
      let rest := UInt32.ofNat message.length - bytesSent
      let bytesToSend := if bodyLength < rest then bodyLength else rest
      let body := (message.drop bytesSent.toNat).take bytesToSend.toNat
      (sendChunks messageId message total fuel (bytesSent + bytesToSend) (numberOfPacketsSent + 1)).map
        fun (datagrams, n) => (chunk messageId numberOfPacketsSent total body :: datagrams, n)
    else some ([], numberOfPacketsSent)

-- What is sent, and whether the assertion after the loop holds. The hash for the message id can be
-- any function.
def send (cityHash64 : Bytes → UInt64) (message : Bytes) (fuel : Nat) :
    Option (List Bytes × Bool) :=
  if message.length ≤ maxPayloadSize.toNat then some ([message], true)
  else
    let messageId := cityHash64 message
    let total : UInt32 := .ofNat ((message.length + bodyLength.toNat - 1) % 2 ^ 64 / bodyLength.toNat)
    (sendChunks messageId message total fuel 0 0).map fun (datagrams, n) => (datagrams, n = total)

section Receiver

def messageId (datagram : Bytes) : Bytes :=
  (datagram.drop 2).take 8

def sequenceNumber (datagram : Bytes) : UInt8 :=
  datagram.getD 10 0

def sequenceCount (datagram : Bytes) : UInt8 :=
  datagram.getD 11 0

def body (datagram : Bytes) : Bytes :=
  datagram.drop 12

-- A receiver can put the chunks of the message together.
structure Lossless (message : Bytes) (datagrams : List Bytes) : Prop where
  magic    : ∀ d ∈ datagrams, d.take 2 = [0x1e, 0x0f]
  id       : ∀ d ∈ datagrams, ∀ d' ∈ datagrams, messageId d = messageId d'
  sequence : datagrams.map (fun d => (sequenceNumber d).toNat) = List.range datagrams.length
  count    : ∀ d ∈ datagrams, (sequenceCount d).toNat = datagrams.length
  limit    : ∀ d ∈ datagrams, d.length ≤ maxPayloadSize.toNat
  bodies   : datagrams.flatMap body = message

-- No two chunks have the same number.
theorem Lossless.distinct {message : Bytes} {datagrams : List Bytes}
    (h : Lossless message datagrams) : (datagrams.map sequenceNumber).Nodup := by
  refine List.Nodup.of_map UInt8.toNat ?_
  rw [List.map_map]
  exact h.sequence ▸ List.nodup_range

end Receiver

-- What is asked of the sender, for a message that does not fit in one datagram: the chunks are
-- those of the message, or nothing is sent if a byte cannot count them.
def Intact (cityHash64 : Bytes → UInt64) (message : Bytes) : Prop :=
  ∃ fuel datagrams asserted, send cityHash64 message fuel = some (datagrams, asserted) ∧
    (Pieces.count 500 message ≤ 255 → Lossless message datagrams ∧ asserted = true) ∧
    (255 < Pieces.count 500 message → datagrams = [] ∨ Lossless message datagrams)

section Chunks

variable {message : Bytes} {id : UInt64} {total : UInt32} {i k m n : Nat}

-- The chunk with the number `i`.
def chunkOf (id : UInt64) (message : Bytes) (total : UInt32) (i : Nat) : Bytes :=
  chunk id (.ofNat i) total (Pieces.piece 500 message i)

theorem length_chunk (id : UInt64) (sequence total : UInt32) (b : Bytes) :
    (chunk id sequence total b).length = 12 + b.length := by
  rw [chunk, List.length_append, List.length_append, List.length_append, length_toLE]
  rfl

theorem header_chunk (id : UInt64) (sequence total : UInt32) (b : Bytes) :
    (chunk id sequence total b).take 2 = [0x1e, 0x0f] ∧
      messageId (chunk id sequence total b) = toLE 8 id.toNat ∧
      sequenceNumber (chunk id sequence total b) = sequence.toUInt8 ∧
      sequenceCount (chunk id sequence total b) = total.toUInt8 ∧
      body (chunk id sequence total b) = b :=
  ⟨rfl, rfl, rfl, rfl, rfl⟩

-- What is sent in the next round, as long as something is left of the message.
theorem toNat_bytesToSend {rest : UInt32} :
    (if bodyLength < rest then bodyLength else rest).toNat = min 500 rest.toNat := by
  have hbody : bodyLength.toNat = 500 := rfl
  split
  case isTrue h =>
    have hlt : 500 < rest.toNat := h
    rw [hbody, Nat.min_eq_left (Nat.le_of_lt hlt)]
  case isFalse h => exact (Nat.min_eq_right (Nat.not_lt.mp h)).symm

-- From the chunk `k` on there are `m` more.
theorem sendChunks_eq (hn : Pieces.count 500 message = k + m) (hsize : message.length < 2 ^ 32) :
    sendChunks id message total (m + 1) (.ofNat (min (500 * k) message.length)) (.ofNat k) =
      some ((List.range' k m).map (chunkOf id message total), .ofNat (k + m)) := by
  have hlength := @Pieces.length_le _ 500 message (by decide)
  rw [hn] at hlength
  have hofNat : ∀ j, j ≤ message.length → (UInt32.ofNat j).toNat = j :=
    fun j hj => UInt32.toNat_ofNat_of_lt' (Nat.lt_of_le_of_lt hj hsize)
  induction m generalizing k
  case zero =>
    have hend : min (500 * k) message.length = message.length := Nat.min_eq_right hlength
    rw [hend, sendChunks, hofNat _ (Nat.le_refl _), if_neg (Nat.lt_irrefl _)]
    rfl
  case succ m hi =>
    have hmore : 500 * k < message.length := (Pieces.lt_count_iff (by decide)).mp (by omega)
    have hmin : min (500 * k) message.length = 500 * k := Nat.min_eq_left (Nat.le_of_lt hmore)
    have hsent := hofNat _ (Nat.le_of_lt hmore)
    have hrest : (UInt32.ofNat message.length - UInt32.ofNat (500 * k)).toNat =
        message.length - 500 * k := by
      rw [UInt32.toNat_sub_of_le, hofNat _ (Nat.le_refl _), hsent]
      rw [UInt32.le_iff_toNat_le, hofNat _ (Nat.le_refl _), hsent]
      exact Nat.le_of_lt hmore
    rw [hmin, sendChunks, hsent, if_pos hmore]
    dsimp only
    generalize htake : (if bodyLength < UInt32.ofNat message.length - UInt32.ofNat (500 * k)
      then bodyLength else UInt32.ofNat message.length - UInt32.ofNat (500 * k)) = bytesToSend
    have hbytes : bytesToSend.toNat = min 500 (message.length - 500 * k) := by
      rw [← htake, toNat_bytesToSend, hrest]
    have hnext : UInt32.ofNat (500 * k) + bytesToSend =
        .ofNat (min (500 * (k + 1)) message.length) := by
      refine UInt32.toNat_inj.mp ?_
      rw [UInt32.toNat_add, hsent, hbytes, hofNat _ (Nat.min_le_right ..)]
      omega
    have hpiece : (message.drop (500 * k)).take bytesToSend.toNat = Pieces.piece 500 message k := by
      rw [Pieces.piece, List.take_eq_take_iff, List.length_drop, hbytes]
      omega
    have hone : UInt32.ofNat k + 1 = .ofNat (k + 1) := UInt32.ofNat_add k 1 |>.symm
    rw [hnext, hpiece, hone, hi (by omega) (by omega), Option.map_some, List.range'_succ,
      List.map_cons, Nat.add_right_comm]
    rfl

theorem toNat_toUInt8 (h : i ≤ 255) : (UInt32.ofNat i).toUInt8.toNat = i := by
  rw [UInt32.toNat_toUInt8, UInt32.toNat_ofNat_of_lt' (show i < 2 ^ 32 by omega)]
  exact Nat.mod_eq_of_lt (by omega)

theorem lossless_chunks (hn : Pieces.count 500 message ≤ 255) :
    Lossless message ((List.range (Pieces.count 500 message)).map
      (chunkOf id message (.ofNat (Pieces.count 500 message)))) where
  magic d hd := by
    obtain ⟨i, -, rfl⟩ := List.mem_map.mp hd
    exact (header_chunk ..).1
  id d hd d' hd' := by
    obtain ⟨i, -, rfl⟩ := List.mem_map.mp hd
    obtain ⟨j, -, rfl⟩ := List.mem_map.mp hd'
    exact (header_chunk ..).2.1.trans (header_chunk ..).2.1.symm
  sequence := by
    rw [List.map_map, List.length_map, List.length_range]
    refine (List.map_congr_left fun i hi => ?_).trans (List.map_id _)
    rw [List.mem_range] at hi
    change (sequenceNumber (chunkOf ..)).toNat = i
    rw [chunkOf, (header_chunk ..).2.2.1, toNat_toUInt8 (by omega)]
  count d hd := by
    obtain ⟨i, -, rfl⟩ := List.mem_map.mp hd
    rw [chunkOf, (header_chunk ..).2.2.2.1, toNat_toUInt8 hn, List.length_map, List.length_range]
  limit d hd := by
    obtain ⟨i, -, rfl⟩ := List.mem_map.mp hd
    have hpiece := Pieces.length_piece_le 500 message i
    rw [chunkOf, length_chunk]
    exact Nat.add_le_add_left hpiece 12
  bodies := by
    rw [List.flatMap_map]
    exact Pieces.flatMap_range (by decide)

-- Any chunks that a receiver can put together are at most as many as a byte can count.
theorem Lossless.length_le {datagrams : List Bytes} (h : Lossless message datagrams) :
    message.length ≤ 255 * 500 := by
  have hlength : message.length ≤ datagrams.length * 500 := by
    rw [← h.bodies, List.length_flatMap, ← smul_eq_mul]
    refine (List.sum_le_card_nsmul _ 500 fun n hn => ?_).trans_eq (by rw [List.length_map])
    obtain ⟨d, hd, rfl⟩ := List.mem_map.mp hn
    have hlimit : d.length ≤ 512 := h.limit d hd
    rw [body, List.length_drop]
    omega
  have hcount : datagrams.length ≤ 255 := by
    cases datagrams
    case nil       => exact Nat.zero_le _
    case cons d ds =>
      rw [← h.count d (List.mem_cons_self ..)]
      exact Nat.le_of_lt_succ (sequenceCount d).toNat_lt
  exact hlength.trans (Nat.mul_le_mul_right 500 hcount)

-- The chunks of a message of less than four gibibytes.
theorem send_eq (cityHash64 : Bytes → UInt64) (h : 512 < message.length)
    (hsize : message.length < 2 ^ 32) :
    send cityHash64 message (Pieces.count 500 message + 1) =
      some ((List.range (Pieces.count 500 message)).map
        (chunkOf (cityHash64 message) message (.ofNat (Pieces.count 500 message))), true) := by
  have htotal : (message.length + bodyLength.toNat - 1) % 2 ^ 64 / bodyLength.toNat =
      Pieces.count 500 message := by
    have hbody : bodyLength.toNat = 500 := rfl
    rw [hbody, Nat.mod_eq_of_lt (by omega), Pieces.count]
  have hchunks := @sendChunks_eq message (cityHash64 message) (.ofNat (Pieces.count 500 message)) 0
    (Pieces.count 500 message) (Nat.zero_add _).symm hsize
  rw [Nat.mul_zero, Nat.zero_min, Nat.zero_add, ← List.range_eq_range'] at hchunks
  have hlong : ¬message.length ≤ maxPayloadSize.toNat := Nat.not_le.mpr h
  rw [send, if_neg hlong]
  dsimp only
  rw [htotal]
  refine (congrArg (Option.map _) hchunks).trans ?_
  rw [Option.map_some, decide_eq_true rfl]

-- Something is sent before the loop ends.
theorem ne_nil_of_send {cityHash64 : Bytes → UInt64} {fuel : Nat} {datagrams : List Bytes}
    {asserted : Bool} (h : 512 < message.length)
    (hs : send cityHash64 message fuel = some (datagrams, asserted)) : datagrams ≠ [] := by
  have hlong : ¬message.length ≤ maxPayloadSize.toNat := Nat.not_le.mpr h
  have hfirst : (0 : UInt32).toNat < message.length := Nat.zero_lt_of_lt h
  rw [send, if_neg hlong] at hs
  dsimp only at hs
  obtain ⟨⟨ds, n⟩, hds, he⟩ := Option.map_eq_some_iff.mp hs
  cases he
  cases fuel
  case zero => cases hds
  case succ fuel =>
    rw [sendChunks, if_pos hfirst] at hds
    dsimp only at hds
    obtain ⟨⟨ds, n⟩, -, he⟩ := Option.map_eq_some_iff.mp hds
    cases he
    intro hnil
    cases hnil

end Chunks

theorem not_intact {cityHash64 : Bytes → UInt64} {message : Bytes}
    (h : 255 * 500 < message.length) :
    ¬Intact cityHash64 message := by
  rintro ⟨fuel, datagrams, asserted, hsend, -, hmany⟩
  have hcount : 255 < Pieces.count 500 message := (Pieces.lt_count_iff (by decide)).mpr (by omega)
  cases hmany hcount
  case inl hnil      => exact ne_nil_of_send (by omega) hsend hnil
  case inr hlossless => exact absurd hlossless.length_le (by omega)

-- The chunks can be put together again exactly if there are at most 255 of them.
theorem intact_iff (cityHash64 : Bytes → UInt64) (message : Bytes) (h : 512 < message.length) :
    Intact cityHash64 message ↔ message.length ≤ 255 * 500 := by
  constructor
  case mp =>
    intro hintact
    by_contra hlong
    exact not_intact (Nat.not_le.mp hlong) hintact
  case mpr =>
    intro hle
    have hcount : Pieces.count 500 message ≤ 255 := by
      rw [Pieces.count]
      omega
    exact ⟨_, _, _, send_eq cityHash64 h (by omega), fun _ => ⟨lossless_chunks hcount, rfl⟩,
      fun hmany => absurd hcount (Nat.not_le.mpr hmany)⟩

theorem intact_iff_three :
    Intact (fun _ => 0) (List.replicate 1001 0) ↔ 1001 ≤ 255 * 500 := by
  have h := intact_iff (fun _ => 0) (List.replicate 1001 0) (by rw [List.length_replicate]; decide)
  rwa [List.length_replicate] at h

-- The count of 256 chunks is sent as zero.
theorem not_intact_count : ¬Intact (fun _ => 0) (List.replicate 127501 0) ∧
    ∃ fuel datagrams, send (fun _ => 0) (List.replicate 127501 0) fuel = some (datagrams, true) ∧
      datagrams.length = 256 ∧ ∀ d ∈ datagrams, sequenceCount d = 0 := by
  have hlength : (List.replicate 127501 (0 : UInt8)).length = 127501 := List.length_replicate ..
  have hcount : Pieces.count 500 (List.replicate 127501 (0 : UInt8)) = 256 := by
    rw [Pieces.count, hlength]
  have hsend := send_eq (fun _ => 0) (show 512 < (List.replicate 127501 (0 : UInt8)).length by omega)
    (by omega)
  rw [hcount] at hsend
  refine ⟨not_intact (by omega), _, _, hsend, by rw [List.length_map, List.length_range], ?_⟩
  intro d hd
  obtain ⟨i, -, rfl⟩ := List.mem_map.mp hd
  exact (header_chunk ..).2.2.2.1

end GelfAppender
