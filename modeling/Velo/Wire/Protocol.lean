import Velo.Book.Order
import Velo.Lib.BigEndian
import Velo.Lib.Bytes

/-! The wire protocol: `engine/include/orderbook/protocol.hpp` and `engine/src/protocol.cpp`. A
message is a tag byte and a payload whose size the tag fixes. -/
namespace Velo
open BigEndian Reader

inductive MsgType
  | newOrder
  | cancel
  | subscribeFills
  | fill
  | ack
  deriving DecidableEq, Repr

def MsgType.tag : MsgType → UInt8
  | .newOrder => 0x01
  | .cancel => 0x02
  | .subscribeFills => 0x03
  | .fill => 0x10
  | .ack => 0x11

/-- The message type a tag byte stands for, if any. -/
def MsgType.ofTag? (tag : UInt8) : Option MsgType :=
  [newOrder, cancel, subscribeFills, fill, ack].find? (·.tag = tag)

structure ClientOrderMsg where
  clientOrderId : UInt64
  side : UInt8
  orderType : UInt8
  priceTicks : Int64
  quantity : UInt32
  deriving DecidableEq

def clientOrderMsgSize : ℕ := 8 + 1 + 1 + 8 + 4

structure CancelMsg where
  clientOrderId : UInt64
  deriving DecidableEq

def cancelMsgSize : ℕ := 8

structure FillWireMsg where
  restingOrderId : UInt64
  incomingOrderId : UInt64
  restingSide : UInt8
  priceTicks : Int64
  quantity : UInt32
  timestamp : UInt64
  deriving DecidableEq

def fillWireMsgSize : ℕ := 8 + 8 + 1 + 8 + 4 + 8

structure AckMsg where
  clientOrderId : UInt64
  requestType : UInt8
  status : UInt8
  deriving DecidableEq

def ackMsgSize : ℕ := 8 + 1 + 1

/-- `none` for an unknown tag; an empty payload is a size like any other. -/
def payloadSize (tag : UInt8) : Option ℕ :=
  (MsgType.ofTag? tag).map fun
    | .newOrder => clientOrderMsgSize
    | .cancel => cancelMsgSize
    | .subscribeFills => 0
    | .fill => fillWireMsgSize
    | .ack => ackMsgSize

def getU32 : Reader UInt32 :=
  (List.foldl (fun v b => (v <<< 8) ||| b.toUInt32) 0) <$> getBytes 4

def getU64 : Reader UInt64 :=
  (List.foldl (fun v b => (v <<< 8) ||| b.toUInt64) 0) <$> getBytes 8

def decodeClientOrder : Reader ClientOrderMsg := do
  let clientOrderId ← getU64
  let side ← getU8
  let orderType ← getU8
  let priceTicks ← getU64
  let quantity ← getU32
  return ⟨clientOrderId, side, orderType, priceTicks.toInt64, quantity⟩

def decodeCancel : Reader CancelMsg := do
  let clientOrderId ← getU64
  return ⟨clientOrderId⟩

def decodeFill : Reader FillWireMsg := do
  let restingOrderId ← getU64
  let incomingOrderId ← getU64
  let restingSide ← getU8
  let priceTicks ← getU64
  let quantity ← getU32
  let timestamp ← getU64
  return ⟨restingOrderId, incomingOrderId, restingSide, priceTicks.toInt64, quantity, timestamp⟩

/-- What a client may ask for. -/
inductive ClientMsg
  | newOrder (msg : ClientOrderMsg)
  | cancel (msg : CancelMsg)
  | subscribeFills
  deriving DecidableEq

/-- What the server answers with. -/
inductive ServerMsg
  | ack (msg : AckMsg)
  | fill (msg : FillWireMsg)
  deriving DecidableEq

def putU8 (v : UInt8) : List UInt8 := [v]

def putU32 (v : UInt32) : List UInt8 :=
  ([24, 16, 8, 0] : List UInt32).map fun shift => ((v >>> shift) &&& 0xFF).toUInt8

def putU64 (v : UInt64) : List UInt8 :=
  ([56, 48, 40, 32, 24, 16, 8, 0] : List UInt64).map fun shift => ((v >>> shift) &&& 0xFF).toUInt8

def encodeClientOrder (msg : ClientOrderMsg) : List UInt8 :=
  putU64 msg.clientOrderId ++ putU8 msg.side ++ putU8 msg.orderType ++
    putU64 msg.priceTicks.toUInt64 ++ putU32 msg.quantity

def encodeFill (msg : FillWireMsg) : List UInt8 :=
  putU64 msg.restingOrderId ++ putU64 msg.incomingOrderId ++ putU8 msg.restingSide ++
    putU64 msg.priceTicks.toUInt64 ++ putU32 msg.quantity ++ putU64 msg.timestamp

def encodeAck (msg : AckMsg) : List UInt8 :=
  putU64 msg.clientOrderId ++ putU8 msg.requestType ++ putU8 msg.status

/-- The buffer that `send_ack` or `send_fill` writes. -/
def ServerMsg.bytes : ServerMsg → List UInt8
  | .ack msg => MsgType.ack.tag :: encodeAck msg
  | .fill msg => MsgType.fill.tag :: encodeFill msg

theorem getU32_takes : Takes getU32 4 := (getBytes_takes 4).map _

theorem getU64_takes : Takes getU64 8 := (getBytes_takes 8).map _

theorem decodeClientOrder_takes : Takes decodeClientOrder clientOrderMsgSize :=
  getU64_takes.bind fun _ => getU8_takes.bind fun _ => getU8_takes.bind fun _ =>
    getU64_takes.bind fun _ => getU32_takes.bind fun _ => Takes.pure _

theorem decodeCancel_takes : Takes decodeCancel cancelMsgSize :=
  getU64_takes.bind fun _ => Takes.pure _

theorem putU32_eq (v : UInt32) : putU32 v = toBytes 4 v.toNat := shift_out_u32 v

theorem putU64_eq (v : UInt64) : putU64 v = toBytes 8 v.toNat := shift_out_u64 v

theorem getU64_toBytes (v : UInt64) (m : List UInt8) :
    getU64 (toBytes 8 v.toNat ++ m) = some (v, m) := by
  have hread := getBytes_append (toBytes 8 v.toNat) m
  have hfold := shift_in_u64 (toBytes 8 v.toNat)
  rw [ofBytes_toBytes v.toNat_lt, UInt64.ofNat_toNat] at hfold
  rw [length_toBytes] at hread
  rw [getU64, map_apply hread, hfold]

theorem getU32_toBytes (v : UInt32) (m : List UInt8) :
    getU32 (toBytes 4 v.toNat ++ m) = some (v, m) := by
  have hread := getBytes_append (toBytes 4 v.toNat) m
  have hfold := shift_in_u32 (toBytes 4 v.toNat)
  rw [ofBytes_toBytes v.toNat_lt, UInt32.ofNat_toNat] at hfold
  rw [length_toBytes] at hread
  rw [getU32, map_apply hread, hfold]

theorem payloadSize_le {tag : UInt8} {n : ℕ} (h : payloadSize tag = some n) : n ≤ 37 := by
  obtain ⟨type, -, rfl⟩ := Option.map_eq_some_iff.mp h
  cases type <;> decide

end Velo
