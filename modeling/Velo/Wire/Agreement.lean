import Velo.Risk.Protocol
import Velo.Server.Reading
import Velo.Strategy.Protocol

/-! The three implementations of the wire protocol, against each other. -/
namespace Velo.Wire
open BigEndian Reader Struct

/-- What a client asks for, with every field at its width on the wire. -/
inductive Message
  | newOrder (msg : Risk.OrderMsg)
  | cancel (clientOrderId : UInt64)
  | subscribeFills

namespace Message

/-- As `strategy/orderbook_client` writes it, from integers. -/
def pythonBytes : Message → Option (List UInt8)
  | .newOrder msg => Strategy.encodeNewOrder ⟨msg.clientOrderId.toNat, msg.side, msg.orderType,
      msg.priceTicks.toInt, msg.quantity.toNat⟩
  | .cancel clientOrderId => Strategy.encodeCancel clientOrderId.toNat
  | .subscribeFills => some Strategy.encodeSubscribeFills

/-- As the risk engine writes it. -/
def rustBytes : Message → List UInt8
  | .newOrder msg => Risk.Protocol.encodeNewOrder msg
  | .cancel clientOrderId => Risk.Protocol.encodeCancel clientOrderId
  | .subscribeFills => Risk.Protocol.encodeSubscribeFills

/-- As the server holds it. -/
def toClientMsg : Message → ClientMsg
  | .newOrder msg => .newOrder ⟨msg.clientOrderId, msg.side.toUInt8,
      Risk.Protocol.orderTypeAsU8 msg.orderType, msg.priceTicks, msg.quantity⟩
  | .cancel clientOrderId => .cancel ⟨clientOrderId⟩
  | .subscribeFills => .subscribeFills

end Message

/-- What the Python client makes of a message of the server. -/
def pythonEvent : ServerMsg → Strategy.Event
  | .ack msg => .ack (Strategy.ofAck msg)
  | .fill msg => .fill (Strategy.ofFill (Risk.Protocol.sideFromU8 msg.restingSide) msg)

/-- What the risk engine makes of it. -/
def rustEvent : ServerMsg → Risk.Incoming
  | .ack msg => .ack msg
  | .fill msg => .fill (Risk.Protocol.ofWire msg)

variable {m : Message} {r : ServerMsg}

theorem pythonBytes_eq (m : Message) : m.pythonBytes = some m.rustBytes := by
  cases m with
  | newOrder msg =>
    have hside : Code.B.pack (Strategy.sideValue msg.side) =
        some [Risk.Protocol.sideAsU8 msg.side] := by
      cases msg.side
      · exact pack_B 0
      · exact pack_B 1
    have htype : Code.B.pack (Strategy.orderTypeValue msg.orderType) =
        some [Risk.Protocol.orderTypeAsU8 msg.orderType] := by
      cases msg.orderType
      · exact pack_B 0
      · exact pack_B 1
    simp [Message.pythonBytes, Strategy.encodeNewOrder, Strategy.newOrderFmt, pack, pack_Q, pack_q,
      pack_I, hside, htype, Message.rustBytes, Risk.Protocol.encodeNewOrder, Strategy.msgTypeValue,
      Risk.Protocol.asU8]
  | cancel clientOrderId =>
    simp [Message.pythonBytes, Strategy.encodeCancel, Strategy.cancelFmt, pack, pack_Q,
      Message.rustBytes, Risk.Protocol.encodeCancel, Strategy.msgTypeValue, Risk.Protocol.asU8]
  | subscribeFills => rfl

theorem clientNext_frame {tag : UInt8} {body rest : List UInt8} {msg : ClientMsg}
    (hsize : payloadSize tag = some body.length) (hmsg : clientMsg? tag (body ++ rest) = some msg) :
    clientNext (tag :: body ++ rest) = .item msg rest := by
  simp [clientNext, hsize, hmsg]

/-- The server reads the bytes of one message as this message. -/
theorem clientNext_rustBytes (m : Message) (rest : List UInt8) :
    clientNext (m.rustBytes ++ rest) = .item m.toClientMsg rest := by
  cases m with
  | newOrder msg =>
    have hside : Risk.Protocol.sideAsU8 msg.side = msg.side.toUInt8 := by
      cases msg.side <;> rfl
    refine clientNext_frame ?_ ?_
    · simp [toBytes]
      rfl
    · have hmsg : ∀ body, clientMsg? (Risk.Protocol.asU8 .newOrder) body =
          (decodeClientOrder body).map fun r => .newOrder r.1 := fun _ => rfl
      simp only [hmsg, List.append_assoc, List.cons_append, List.nil_append]
      rw [decodeClientOrder, bind_apply (getU64_toBytes _ _), bind_apply (getU8_cons _ _),
        bind_apply (getU8_cons _ _), bind_apply (getU64_toBytes _ _),
        bind_apply (getU32_toBytes _ _), hside]
      rfl
  | cancel clientOrderId =>
    refine clientNext_frame ?_ ?_
    · simp [toBytes]
      rfl
    · have hmsg : ∀ body, clientMsg? (Risk.Protocol.asU8 .cancel) body =
          (decodeCancel body).map fun r => .cancel r.1 := fun _ => rfl
      rw [hmsg, decodeCancel, bind_apply (getU64_toBytes _ _)]
      rfl
  | subscribeFills => rfl

/-- The payload after the tag. -/
def payload : ServerMsg → List UInt8
  | .ack msg => encodeAck msg
  | .fill msg => encodeFill msg

def tag : ServerMsg → UInt8
  | .ack _ => MsgType.ack.tag
  | .fill _ => MsgType.fill.tag

theorem bytes_eq (r : ServerMsg) : r.bytes = tag r :: payload r := by
  cases r <;> rfl

theorem length_payload (r : ServerMsg) : Strategy.payloadSize (tag r) = some (payload r).length ∧
    Risk.Protocol.payloadSize (tag r) = some (payload r).length := by
  cases r with
  | ack msg =>
    have hlen : (payload (.ack msg)).length = 10 := by
      simp [payload, encodeAck, putU64_eq, putU8]
    rw [hlen]
    exact ⟨rfl, rfl⟩
  | fill msg =>
    have hlen : (payload (.fill msg)).length = 37 := by
      simp [payload, encodeFill, putU64_eq, putU32_eq, putU8]
    rw [hlen]
    exact ⟨rfl, rfl⟩

theorem decodeEvent_payload (h : ∀ f, r = .fill f → f.restingSide = 0 ∨ f.restingSide = 1) :
    Strategy.decodeEvent (tag r) (payload r) = some (pythonEvent r) := by
  cases r with
  | ack msg =>
    have hfill : tag (.ack msg) ≠ Strategy.msgTypeValue .fill := by
      simp [tag, Strategy.msgTypeValue, MsgType.tag]
    have hack : tag (.ack msg) = Strategy.msgTypeValue .ack := rfl
    rw [Strategy.decodeEvent, if_neg hfill, if_pos hack]
    simp [payload, Strategy.decodeAck_encodeAck, pythonEvent]
  | fill msg =>
    have hside : Strategy.side? msg.restingSide.toNat =
        some (Risk.Protocol.sideFromU8 msg.restingSide) := by
      rcases h msg rfl with hs | hs
      · rw [hs]
        rfl
      · rw [hs]
        rfl
    have hfill : tag (.fill msg) = Strategy.msgTypeValue .fill := rfl
    rw [Strategy.decodeEvent, if_pos hfill]
    simp [payload, Strategy.decodeFill_encodeFill hside, pythonEvent]

theorem decode_payload (r : ServerMsg) :
    Risk.Protocol.decode ⟨tag r, payload r⟩ = some (rustEvent r) := by
  cases r with
  | ack msg =>
    have hfill : tag (.ack msg) ≠ Risk.Protocol.asU8 .fill := by
      simp [tag, Risk.Protocol.asU8, MsgType.tag]
    have hack : tag (.ack msg) = Risk.Protocol.asU8 .ack := rfl
    simp only [Risk.Protocol.decode, if_neg hfill, if_pos hack]
    simp [payload, Risk.Protocol.decodeAck_encodeAck, rustEvent]
  | fill msg =>
    have hfill : tag (.fill msg) = Risk.Protocol.asU8 .fill := rfl
    simp only [Risk.Protocol.decode, if_pos hfill]
    simp [payload, Risk.Protocol.decodeFill_encodeFill, rustEvent]

end Velo.Wire
