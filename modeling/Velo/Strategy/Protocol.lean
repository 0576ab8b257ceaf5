import Velo.Lib.Socket
import Velo.Lib.Struct
import Velo.Wire.Protocol

/-! `strategy/orderbook_client/protocol.py` and the reader thread of `client.py`. Exceptions are
`none`. -/
namespace Velo.Strategy
open BigEndian Socket Struct

/-- The value of a member of `MsgType`. -/
def msgTypeValue : MsgType → UInt8
  | .newOrder => 0x01
  | .cancel => 0x02
  | .subscribeFills => 0x03
  | .fill => 0x10
  | .ack => 0x11

/-- The member of `MsgType` with a value. -/
def msgType? (tag : UInt8) : Option MsgType :=
  [MsgType.newOrder, .cancel, .subscribeFills, .fill, .ack].find? (msgTypeValue · = tag)

def sideValue : Side → ℤ
  | .buy => 0
  | .sell => 1

/-- The member of `Side` with a value. -/
def side? (v : ℤ) : Option Side := [Side.buy, .sell].find? (sideValue · = v)

def orderTypeValue : OrderType → ℤ
  | .limit => 0
  | .market => 1

/-- The member of `OrderType` with a value. -/
def orderType? (v : ℤ) : Option OrderType :=
  [OrderType.limit, .market].find? (orderTypeValue · = v)

def newOrderFmt : Format := [.Q, .B, .B, .q, .I]
def cancelFmt : Format := [.Q]
def fillFmt : Format := [.Q, .Q, .B, .q, .I, .Q]
def ackFmt : Format := [.Q, .B, .B]

/-- The dictionary `PAYLOAD_SIZE`, looked up by tag. -/
def payloadSize (tag : UInt8) : Option ℕ :=
  (msgType? tag).map fun
    | .newOrder => calcsize newOrderFmt
    | .cancel => calcsize cancelFmt
    | .subscribeFills => 0
    | .fill => calcsize fillFmt
    | .ack => calcsize ackFmt

/-- The dataclass `ClientOrderMsg`. -/
structure OrderMsg where
  clientOrderId : ℤ
  side : Side
  orderType : OrderType
  priceTicks : ℤ
  quantity : ℤ
  deriving DecidableEq

structure FillEvent where
  restingOrderId : ℤ
  incomingOrderId : ℤ
  restingSide : Side
  priceTicks : ℤ
  quantity : ℤ
  timestamp : ℤ
  deriving DecidableEq

def FillEvent.incomingSide (f : FillEvent) : Side := if f.restingSide = .buy then .sell else .buy

structure AckEvent where
  clientOrderId : ℤ
  requestType : ℤ
  status : ℤ
  deriving DecidableEq

inductive Event
  | fill (f : FillEvent)
  | ack (a : AckEvent)
  deriving DecidableEq

def encodeNewOrder (msg : OrderMsg) : Option (List UInt8) := do
  let body ← pack newOrderFmt [msg.clientOrderId, sideValue msg.side,
    orderTypeValue msg.orderType, msg.priceTicks, msg.quantity]
  return msgTypeValue .newOrder :: body

def decodeNewOrder (payload : List UInt8) : Option OrderMsg := do
  match ← unpack newOrderFmt payload with
  | [clientOrderId, side, orderType, priceTicks, quantity] =>
    return ⟨clientOrderId, ← side? side, ← orderType? orderType, priceTicks, quantity⟩
  | _ => none

def encodeCancel (clientOrderId : ℤ) : Option (List UInt8) := do
  let body ← pack cancelFmt [clientOrderId]
  return msgTypeValue .cancel :: body

def encodeSubscribeFills : List UInt8 := [msgTypeValue .subscribeFills]

def decodeFill (payload : List UInt8) : Option FillEvent := do
  match ← unpack fillFmt payload with
  | [restingId, incomingId, restingSide, priceTicks, quantity, timestamp] =>
    return ⟨restingId, incomingId, ← side? restingSide, priceTicks, quantity, timestamp⟩
  | _ => none

def decodeAck (payload : List UInt8) : Option AckEvent := do
  match ← unpack ackFmt payload with
  | [clientOrderId, requestType, status] => return ⟨clientOrderId, requestType, status⟩
  | _ => none

def decodeEvent (tag : UInt8) (payload : List UInt8) : Option Event :=
  if tag = msgTypeValue .fill then (decodeFill payload).map .fill
  else if tag = msgTypeValue .ack then (decodeAck payload).map .ack
  else none

/-- What the reader thread puts on the queue, until the stream ends or it meets something it
cannot decode. -/
def readLoop (s : List (List UInt8)) : List Event :=
  readTagged payloadSize decodeEvent (s.flatten.length + 1) s

/-- The event of a fill with resting side `side` on the wire. -/
def ofFill (side : Side) (msg : FillWireMsg) : FillEvent :=
  ⟨msg.restingOrderId.toNat, msg.incomingOrderId.toNat, side, msg.priceTicks.toInt,
    msg.quantity.toNat, msg.timestamp.toNat⟩

def ofAck (msg : AckMsg) : AckEvent :=
  ⟨msg.clientOrderId.toNat, msg.requestType.toNat, msg.status.toNat⟩

theorem pack_fill (msg : FillWireMsg) : pack fillFmt [msg.restingOrderId.toNat,
    msg.incomingOrderId.toNat, msg.restingSide.toNat, msg.priceTicks.toInt, msg.quantity.toNat,
    msg.timestamp.toNat] = some (encodeFill msg) := by
  simp [pack, fillFmt, pack_Q, pack_B, pack_q, pack_I, encodeFill, putU64_eq, putU32_eq, putU8]

theorem pack_ack (msg : AckMsg) :
    pack ackFmt [msg.clientOrderId.toNat, msg.requestType.toNat, msg.status.toNat] =
      some (encodeAck msg) := by
  simp [pack, ackFmt, pack_Q, pack_B, encodeAck, putU64_eq, putU8]

theorem decodeFill_encodeFill {msg : FillWireMsg} {side : Side}
    (h : side? msg.restingSide.toNat = some side) :
    decodeFill (encodeFill msg) = some (ofFill side msg) := by
  simp [decodeFill, unpack_pack (pack_fill msg), h, ofFill]

theorem decodeAck_encodeAck (msg : AckMsg) : decodeAck (encodeAck msg) = some (ofAck msg) := by
  simp [decodeAck, unpack_pack (pack_ack msg), ofAck]

end Velo.Strategy
