import Velo.Lib.Socket
import Velo.Risk.Engine

/-! `risk/src/protocol.rs`, and the reading half of the loop of `risk/src/main.rs`. Slices and
indices past the end of a payload panic, which is `none` here. -/
namespace Velo.Risk.Protocol
open BigEndian Socket

/-- `MsgType::from_tag`. -/
def fromTag (tag : UInt8) : Option MsgType :=
  match tag with
  | 0x01 => some .newOrder
  | 0x02 => some .cancel
  | 0x03 => some .subscribeFills
  | 0x10 => some .fill
  | 0x11 => some .ack
  | _ => none

/-- The cast of a message type to `u8`. -/
def asU8 : MsgType → UInt8
  | .newOrder => 0x01
  | .cancel => 0x02
  | .subscribeFills => 0x03
  | .fill => 0x10
  | .ack => 0x11

def newOrderSize : ℕ := 8 + 1 + 1 + 8 + 4
def cancelSize : ℕ := 8
def subscribeFillsSize : ℕ := 0
def fillSize : ℕ := 8 + 8 + 1 + 8 + 4 + 8
def ackSize : ℕ := 8 + 1 + 1

def payloadSize (tag : UInt8) : Option ℕ := do
  match ← fromTag tag with
  | .newOrder => return newOrderSize
  | .cancel => return cancelSize
  | .subscribeFills => return subscribeFillsSize
  | .fill => return fillSize
  | .ack => return ackSize

def sideAsU8 : Side → UInt8
  | .buy => 0
  | .sell => 1

def sideFromU8 (v : UInt8) : Side := if v = 0 then .buy else .sell

def orderTypeAsU8 : OrderType → UInt8
  | .limit => 0
  | .market => 1

def encodeNewOrder (msg : OrderMsg) : List UInt8 :=
  asU8 .newOrder :: (toBytes 8 msg.clientOrderId.toNat ++ [sideAsU8 msg.side] ++
    [orderTypeAsU8 msg.orderType] ++ toBytes 8 msg.priceTicks.toUInt64.toNat ++
    toBytes 4 msg.quantity.toNat)

def encodeCancel (clientOrderId : UInt64) : List UInt8 :=
  asU8 .cancel :: toBytes 8 clientOrderId.toNat

def encodeSubscribeFills : List UInt8 := [asU8 .subscribeFills]

/-- `payload[start..stop]`, for bounds in order. -/
def slice (payload : List UInt8) (start stop : ℕ) : Option (List UInt8) :=
  if stop ≤ payload.length then some ((payload.take stop).drop start) else none

def u64FromBeBytes (l : List UInt8) : UInt64 := UInt64.ofNat (ofBytes l)

def u32FromBeBytes (l : List UInt8) : UInt32 := UInt32.ofNat (ofBytes l)

def decodeNewOrder (payload : List UInt8) : Option OrderMsg := do
  let clientOrderId := u64FromBeBytes (← slice payload 0 8)
  let side := sideFromU8 (← payload[8]?)
  let orderType := if (← payload[9]?) = 0 then .limit else .market
  let priceTicks := (u64FromBeBytes (← slice payload 10 18)).toInt64
  let quantity := u32FromBeBytes (← slice payload 18 22)
  return ⟨clientOrderId, side, orderType, priceTicks, quantity⟩

def decodeFill (payload : List UInt8) : Option FillEvent := do
  let restingOrderId := u64FromBeBytes (← slice payload 0 8)
  let incomingOrderId := u64FromBeBytes (← slice payload 8 16)
  let restingSide := sideFromU8 (← payload[16]?)
  let priceTicks := (u64FromBeBytes (← slice payload 17 25)).toInt64
  let quantity := u32FromBeBytes (← slice payload 25 29)
  let timestamp := u64FromBeBytes (← slice payload 29 37)
  return ⟨restingOrderId, incomingOrderId, restingSide, priceTicks, quantity, timestamp⟩

def decodeAck (payload : List UInt8) : Option AckMsg := do
  let clientOrderId := u64FromBeBytes (← slice payload 0 8)
  let requestType ← payload[8]?
  let status ← payload[9]?
  return ⟨clientOrderId, requestType, status⟩

/-- A tag and the payload read after it. -/
structure Frame where
  tag : UInt8
  payload : List UInt8
  deriving DecidableEq

/-- The messages that the loop of `main` reads, until the stream ends or a tag is unknown. -/
def readLoop (s : List (List UInt8)) : List Frame :=
  readTagged payloadSize (fun tag payload => some ⟨tag, payload⟩) (s.flatten.length + 1) s

/-- What a frame holds. The loop itself decodes fills only, and leaves acknowledgements at their
tag. -/
def decode (m : Frame) : Option Incoming :=
  if m.tag = asU8 .fill then (decodeFill m.payload).map .fill
  else if m.tag = asU8 .ack then (decodeAck m.payload).map .ack
  else none

theorem u64FromBeBytes_toBytes (v : UInt64) : u64FromBeBytes (toBytes 8 v.toNat) = v := by
  rw [u64FromBeBytes, ofBytes_toBytes v.toNat_lt, UInt64.ofNat_toNat]

theorem u32FromBeBytes_toBytes (v : UInt32) : u32FromBeBytes (toBytes 4 v.toNat) = v := by
  rw [u32FromBeBytes, ofBytes_toBytes v.toNat_lt, UInt32.ofNat_toNat]

/-- The fill a wire message is decoded to. -/
def ofWire (msg : FillWireMsg) : FillEvent :=
  ⟨msg.restingOrderId, msg.incomingOrderId, sideFromU8 msg.restingSide, msg.priceTicks,
    msg.quantity, msg.timestamp⟩

theorem decodeFill_encodeFill (msg : FillWireMsg) :
    decodeFill (encodeFill msg) = some (ofWire msg) := by
  have hbytes : encodeFill msg = toBytes 8 msg.restingOrderId.toNat ++
      (toBytes 8 msg.incomingOrderId.toNat ++ (msg.restingSide ::
        (toBytes 8 msg.priceTicks.toUInt64.toNat ++ (toBytes 4 msg.quantity.toNat ++
          toBytes 8 msg.timestamp.toNat)))) := by
    simp [encodeFill, putU64_eq, putU32_eq, putU8]
  rw [hbytes]
  simp [decodeFill, slice, List.take_append, List.drop_append, List.take_of_length_le,
    List.drop_eq_nil_of_le, u64FromBeBytes_toBytes, u32FromBeBytes_toBytes, ofWire]

theorem decodeAck_encodeAck (msg : AckMsg) : decodeAck (encodeAck msg) = some msg := by
  have hbytes : encodeAck msg = toBytes 8 msg.clientOrderId.toNat ++
      [msg.requestType, msg.status] := by
    simp [encodeAck, putU64_eq, putU8]
  rw [hbytes]
  simp [decodeAck, slice, u64FromBeBytes_toBytes]

end Velo.Risk.Protocol
