import Velo.Book.OrderBook
import Velo.Wire.Protocol

/-! `engine/src/server.cpp`. The server runs on one thread, so each of its functions is a step from
state to state; what it writes to its sockets is returned beside the new state. -/
namespace Velo
open Iteration

/-- A descriptor number. -/
abbrev Fd := ℕ

structure Connection where
  fd : Fd
  readBuf : List UInt8
  subscribedToFills : Bool
  deriving DecidableEq

/-- One call of `send_all`. -/
structure Send where
  fd : Fd
  msg : ServerMsg
  deriving DecidableEq

structure OrderBookServer where
  book : OrderBook
  connections : List Connection
  orderOwnerFd : Finmap fun _ : UInt64 => Fd

def Side.toUInt8 : Side → UInt8
  | .buy => 0
  | .sell => 1

def Fill.toWire (f : Fill) : FillWireMsg :=
  ⟨f.restingOrderId, f.incomingOrderId, f.restingSide.toUInt8, f.priceTicks, f.quantity,
    f.timestamp⟩

/-- The order a `NewOrder` stands for. -/
def ClientOrderMsg.toOrder (msg : ClientOrderMsg) : Order :=
  ⟨msg.clientOrderId, if msg.side = 0 then .buy else .sell,
    if msg.orderType = 0 then .limit else .market, msg.priceTicks, msg.quantity, 0⟩

def sendAck (fd : Fd) (orderId : UInt64) (requestType status : UInt8) : Send :=
  ⟨fd, .ack ⟨orderId, requestType, status⟩⟩

def sendFill (fd : Fd) (fill : Fill) : Send := ⟨fd, .fill fill.toWire⟩

namespace OrderBookServer

def start : OrderBookServer := ⟨.empty, [], ∅⟩

/-- One round of `accept_new_connections`. -/
def acceptConnection (s : OrderBookServer) (fd : Fd) : OrderBookServer :=
  { s with connections := s.connections ++ [⟨fd, [], false⟩] }

/-- Orders of the connection stay in the book, and their entries in `order_owner_fd`. -/
def removeConnection (s : OrderBookServer) (fd : Fd) : OrderBookServer :=
  { s with connections := s.connections.filter (·.fd ≠ fd) }

def connection? (s : OrderBookServer) (fd : Fd) : Option Connection :=
  s.connections.find? (·.fd = fd)

/-- An assignment through the reference to the connection with this descriptor. -/
def updateConnection (s : OrderBookServer) (fd : Fd) (f : Connection → Connection) :
    OrderBookServer :=
  { s with connections := s.connections.map fun c => if c.fd = fd then f c else c }

def broadcastFillToSubscribers (s : OrderBookServer) (fill : Fill) (alreadySentTo : List Fd) :
    List Send :=
  (s.connections.filter fun c => c.subscribedToFills ∧ c.fd ∉ alreadySentTo).map
    fun c => sendFill c.fd fill

/-- The recorded owner of a fill's resting order, where it is not the submitter. -/
def otherOwner (s : OrderBookServer) (fd : Fd) (fill : Fill) : List Fd :=
  match s.orderOwnerFd.lookup fill.restingOrderId with
  | none => []
  | some owner => if owner = fd then [] else [owner]

/-- What one fill makes the server write. -/
def fillSends (s : OrderBookServer) (fd : Fd) (fill : Fill) : List Send :=
  let alreadySentTo := fd :: s.otherOwner fd fill
  alreadySentTo.map (sendFill · fill) ++ s.broadcastFillToSubscribers fill alreadySentTo

/-- The owner's entry goes with its order. -/
def settle (s : OrderBookServer) (fill : Fill) : OrderBookServer :=
  if s.book.contains fill.restingOrderId then s
  else { s with orderOwnerFd := s.orderOwnerFd.erase fill.restingOrderId }

/-- The loop of `dispatch_new_order` over the fills. -/
def routeFills (s : OrderBookServer) (fd : Fd) : List Fill → List Send × OrderBookServer
  | [] => ([], s)
  | fill :: fills =>
    let rest := (s.settle fill).routeFills fd fills
    (s.fillSends fd fill ++ rest.1, rest.2)

/-- The book and the owner map after an accepted submission, before its fills are looked at. -/
def afterSubmit (s : OrderBookServer) (fd : Fd) (order : Order) : OrderBookServer :=
  let book := (s.book.submit order).2
  { s with
    book := book
    orderOwnerFd :=
      if book.contains order.id then s.orderOwnerFd.insert order.id fd else s.orderOwnerFd }

def dispatchNewOrder (s : OrderBookServer) (fd : Fd) (msg : ClientOrderMsg) :
    List Send × OrderBookServer :=
  if s.book.contains msg.clientOrderId then
    ([sendAck fd msg.clientOrderId MsgType.newOrder.tag 1], s)
  else
    let fills := (s.book.submit msg.toOrder).1
    let routed := (s.afterSubmit fd msg.toOrder).routeFills fd fills
    (sendAck fd msg.clientOrderId MsgType.newOrder.tag 0 :: routed.1, routed.2)

def dispatchCancel (s : OrderBookServer) (fd : Fd) (msg : CancelMsg) :
    List Send × OrderBookServer :=
  let (ok, book) := s.book.cancel msg.clientOrderId
  let owners := if ok then s.orderOwnerFd.erase msg.clientOrderId else s.orderOwnerFd
  ([sendAck fd msg.clientOrderId MsgType.cancel.tag (if ok then 0 else 1)],
    { s with book := book, orderOwnerFd := owners })

/-- A complete message of the connection with descriptor `fd`. -/
def dispatch (s : OrderBookServer) (fd : Fd) : ClientMsg → List Send × OrderBookServer
  | .newOrder msg => s.dispatchNewOrder fd msg
  | .cancel msg => s.dispatchCancel fd msg
  | .subscribeFills => ([], s.updateConnection fd fun c => { c with subscribedToFills := true })

end OrderBookServer

/-- The `switch` on the tag of a complete message: what it dispatches, or its default case. -/
def clientMsg? (tag : UInt8) (body : List UInt8) : Option ClientMsg :=
  match MsgType.ofTag? tag with
  | some .newOrder => (decodeClientOrder body).map fun r => .newOrder r.1
  | some .cancel => (decodeCancel body).map fun r => .cancel r.1
  | some .subscribeFills => some .subscribeFills
  | _ => none

/-- The server inside `handle_readable`, and the messages dispatched so far with what each of them
made the server write. -/
structure ReadState where
  server : OrderBookServer
  dispatched : List (ClientMsg × List Send)

/-- One round of the loop of `handle_readable`; its returns are `none`, those that close the
connection a round later. -/
def readStep (fd : Fd) (st : ReadState) : Option ReadState :=
  match st.server.connection? fd with
  | none => none
  | some conn =>
    match conn.readBuf with
    | [] => none
    | tag :: body =>
      match payloadSize tag with
      | none => some { st with server := st.server.removeConnection fd }
      | some payload =>
        if conn.readBuf.length < 1 + payload then none
        else
          match clientMsg? tag body with
          | none => some { st with server := st.server.removeConnection fd }
          | some msg =>
            let (sends, server) := st.server.dispatch fd msg
            some
              { server := server.updateConnection fd fun c =>
                  { c with readBuf := c.readBuf.drop (1 + payload) }
                dispatched := st.dispatched ++ [(msg, sends)] }

/-- The answer of `recv`: bytes, where none at all are the end of the stream, or an error, where
`EAGAIN` and `EWOULDBLOCK` only mean that there is nothing yet. -/
inductive Recv
  | bytes (chunk : List UInt8)
  | wouldBlock
  | failed

namespace OrderBookServer

/-- The loop, with a fuel that the buffered bytes bound. -/
def readLoop (s : OrderBookServer) (fd : Fd) : ReadState :=
  iterate (readStep fd) ((s.connection? fd).elim 0 (·.readBuf.length + 1)) ⟨s, []⟩

def handleReadable (s : OrderBookServer) (fd : Fd) : Recv → ReadState
  | .failed | .bytes [] => ⟨s.removeConnection fd, []⟩
  | .wouldBlock => s.readLoop fd
  | .bytes chunk =>
    (s.updateConnection fd fun c => { c with readBuf := c.readBuf ++ chunk }).readLoop fd

end OrderBookServer
end Velo
