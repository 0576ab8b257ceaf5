import Velo.Lib.Codec
import Velo.Wire.Protocol

/-! The codecs of `engine/src/protocol.cpp`, which store into a buffer that the caller has and read
from one. -/
namespace Velo
open BigEndian Reader Writer

namespace Out

def putU8 (v : UInt8) : Writer Unit := put v

def putU32 (v : UInt32) : Writer Unit :=
  downFrom 24 8 fun shift => put ((v >>> UInt32.ofInt shift) &&& 0xFF).toUInt8

def putU64 (v : UInt64) : Writer Unit :=
  downFrom 56 8 fun shift => put ((v >>> UInt64.ofInt shift) &&& 0xFF).toUInt8

def encodeClientOrder (msg : ClientOrderMsg) : Writer Unit := do
  putU64 msg.clientOrderId
  putU8 msg.side
  putU8 msg.orderType
  putU64 msg.priceTicks.toUInt64
  putU32 msg.quantity

def encodeCancel (msg : CancelMsg) : Writer Unit := putU64 msg.clientOrderId

def encodeFill (msg : FillWireMsg) : Writer Unit := do
  putU64 msg.restingOrderId
  putU64 msg.incomingOrderId
  putU8 msg.restingSide
  putU64 msg.priceTicks.toUInt64
  putU32 msg.quantity
  putU64 msg.timestamp

def encodeAck (msg : AckMsg) : Writer Unit := do
  putU64 msg.clientOrderId
  putU8 msg.requestType
  putU8 msg.status

/-- What `send_ack` and `send_fill` do to their buffers. -/
def fillBuffer : ServerMsg → Writer Unit
  | .ack msg => do
    put MsgType.ack.tag
    encodeAck msg
  | .fill msg => do
    put MsgType.fill.tag
    encodeFill msg

def bufferSize : ServerMsg → ℕ
  | .ack _ => 1 + ackMsgSize
  | .fill _ => 1 + fillWireMsgSize

end Out

def decodeAck : Reader AckMsg := do
  let clientOrderId ← getU64
  let requestType ← getU8
  let status ← getU8
  return ⟨clientOrderId, requestType, status⟩

namespace Out

theorem writes_putU8 (v : UInt8) : Writes (putU8 v) (Velo.putU8 v) := put_writes v

theorem writes_putU32 (v : UInt32) : Writes (putU32 v) (Velo.putU32 v) :=
  downFrom_writes 8 (fun shift => ((v >>> UInt32.ofInt shift) &&& 0xFF).toUInt8) 4

theorem writes_putU64 (v : UInt64) : Writes (putU64 v) (Velo.putU64 v) :=
  downFrom_writes 8 (fun shift => ((v >>> UInt64.ofInt shift) &&& 0xFF).toUInt8) 8

theorem writes_encodeClientOrder (msg : ClientOrderMsg) :
    Writes (encodeClientOrder msg) (Velo.encodeClientOrder msg) := by
  have hwrites := (writes_putU64 msg.clientOrderId).bind <| (writes_putU8 msg.side).bind <|
    (writes_putU8 msg.orderType).bind <| (writes_putU64 msg.priceTicks.toUInt64).bind <|
    writes_putU32 msg.quantity
  simp only [Velo.encodeClientOrder, List.append_assoc]
  exact hwrites

theorem writes_encodeFill (msg : FillWireMsg) :
    Writes (encodeFill msg) (Velo.encodeFill msg) := by
  have hwrites := (writes_putU64 msg.restingOrderId).bind <|
    (writes_putU64 msg.incomingOrderId).bind <| (writes_putU8 msg.restingSide).bind <|
    (writes_putU64 msg.priceTicks.toUInt64).bind <| (writes_putU32 msg.quantity).bind <|
    writes_putU64 msg.timestamp
  simp only [Velo.encodeFill, List.append_assoc]
  exact hwrites

theorem writes_encodeAck (msg : AckMsg) : Writes (encodeAck msg) (Velo.encodeAck msg) := by
  have hwrites := (writes_putU64 msg.clientOrderId).bind <|
    (writes_putU8 msg.requestType).bind <| writes_putU8 msg.status
  simp only [Velo.encodeAck, List.append_assoc]
  exact hwrites

theorem fillBuffer_eq (r : ServerMsg) {buf : List UInt8} (h : buf.length = bufferSize r) :
    fillBuffer r ⟨[], buf⟩ = some ((), ⟨r.bytes, []⟩) := by
  have hwrites : Writes (fillBuffer r) r.bytes := by
    cases r with
    | ack msg => exact (put_writes _).bind (writes_encodeAck msg)
    | fill msg => exact (put_writes _).bind (writes_encodeFill msg)
  have hlen : r.bytes.length = buf.length := by
    rw [h]
    cases r with
    | ack msg => rfl
    | fill msg => rfl
  rw [hwrites.exact _ hlen.le, List.nil_append, List.drop_eq_nil_of_le hlen.ge]

theorem codec_u8 : Codec Set.univ putU8 getU8 1 := by
  apply Codec.of_bytes Velo.putU8 getU8_takes (fun _ => rfl)
  · intro l hl
    obtain ⟨b, rfl⟩ := List.length_eq_one_iff.mp hl
    exact ⟨b, rfl⟩
  · exact writes_putU8
  · exact fun b m => rfl

theorem codec_u32 : Codec Set.univ putU32 getU32 4 := by
  apply Codec.of_bytes (fun v : UInt32 => toBytes 4 v.toNat) getU32_takes
    (fun v => length_toBytes 4 v.toNat)
  · exact fun l hl => exists_u32 hl
  · intro v
    rw [← putU32_eq]
    exact writes_putU32 v
  · exact getU32_toBytes

theorem codec_u64 : Codec Set.univ putU64 getU64 8 := by
  apply Codec.of_bytes (fun v : UInt64 => toBytes 8 v.toNat) getU64_takes
    (fun v => length_toBytes 8 v.toNat)
  · exact fun l hl => exists_u64 hl
  · intro v
    rw [← putU64_eq]
    exact writes_putU64 v
  · exact getU64_toBytes

theorem codec_clientOrder :
    Codec Set.univ encodeClientOrder decodeClientOrder (8 + (1 + (1 + (8 + 4)))) := by
  unfold encodeClientOrder decodeClientOrder
  apply codec_u64.field ClientOrderMsg.clientOrderId
  intro id
  apply codec_u8.field ClientOrderMsg.side
  intro side
  apply codec_u8.field ClientOrderMsg.orderType
  intro type
  apply codec_u64.field (fun msg : ClientOrderMsg => msg.priceTicks.toUInt64)
  intro price
  apply codec_u32.last ClientOrderMsg.quantity
  intro msg quantity
  constructor
  · rintro ⟨⟨⟨⟨⟨-, rfl⟩, rfl⟩, rfl⟩, rfl⟩, rfl⟩
    rw [Int64.toInt64_toUInt64]
  · rintro rfl
    simp

theorem codec_cancel : Codec Set.univ encodeCancel decodeCancel 8 := by
  unfold encodeCancel decodeCancel
  apply codec_u64.last CancelMsg.clientOrderId
  intro msg id
  constructor
  · rintro ⟨-, rfl⟩
    rfl
  · rintro rfl
    exact ⟨trivial, rfl⟩

theorem codec_fill :
    Codec Set.univ encodeFill decodeFill (8 + (8 + (1 + (8 + (4 + 8))))) := by
  unfold encodeFill decodeFill
  apply codec_u64.field FillWireMsg.restingOrderId
  intro restingId
  apply codec_u64.field FillWireMsg.incomingOrderId
  intro incomingId
  apply codec_u8.field FillWireMsg.restingSide
  intro side
  apply codec_u64.field (fun msg : FillWireMsg => msg.priceTicks.toUInt64)
  intro price
  apply codec_u32.field FillWireMsg.quantity
  intro quantity
  apply codec_u64.last FillWireMsg.timestamp
  intro msg timestamp
  constructor
  · rintro ⟨⟨⟨⟨⟨⟨-, rfl⟩, rfl⟩, rfl⟩, rfl⟩, rfl⟩, rfl⟩
    rw [Int64.toInt64_toUInt64]
  · rintro rfl
    simp

theorem codec_ack : Codec Set.univ encodeAck decodeAck (8 + (1 + 1)) := by
  unfold encodeAck decodeAck
  apply codec_u64.field AckMsg.clientOrderId
  intro id
  apply codec_u8.field AckMsg.requestType
  intro requestType
  apply codec_u8.last AckMsg.status
  intro msg status
  constructor
  · rintro ⟨⟨⟨-, rfl⟩, rfl⟩, rfl⟩
    rfl
  · rintro rfl
    simp

/-- Every message of each type is stored in exactly the payload size of its type and decoded from
exactly these bytes as it was, and every byte string of this size is decoded as a message that is
stored as these bytes. -/
theorem codecs_bijective :
    (payloadSize MsgType.newOrder.tag = some clientOrderMsgSize ∧
      Codec Set.univ encodeClientOrder decodeClientOrder clientOrderMsgSize) ∧
    (payloadSize MsgType.cancel.tag = some cancelMsgSize ∧
      Codec Set.univ encodeCancel decodeCancel cancelMsgSize) ∧
    (payloadSize MsgType.fill.tag = some fillWireMsgSize ∧
      Codec Set.univ encodeFill decodeFill fillWireMsgSize) ∧
    payloadSize MsgType.ack.tag = some ackMsgSize ∧
      Codec Set.univ encodeAck decodeAck ackMsgSize :=
  ⟨⟨rfl, codec_clientOrder⟩, ⟨rfl, codec_cancel⟩, ⟨rfl, codec_fill⟩, rfl, codec_ack⟩

end Out
end Velo
