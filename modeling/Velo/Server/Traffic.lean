import Velo.Book.Commute
import Velo.Server.MarketData

/-! How much the server writes: every fill takes an order off the book or is the last of the order
that came in. -/
namespace Velo
open Machine

variable {s : Side} {o : Order} {t : UInt64} {queue : List Order} {q : Queues} {b : OrderBook}
  {L : List Order} {id : UInt64}

/-- All fills of a pass but the last take their order off the queue, and the last one too if
something of the incoming order is left. -/
theorem sweep_count (s : Side) (o : Order) (t : UInt64) (queue : List Order) :
    let w := sweep s o t queue
    w.fills.length + w.queue.length ≤ queue.length + 1 ∧
      (0 < w.incoming.quantity → w.fills.length + w.queue.length = queue.length) := by
  induction queue generalizing o t with
  | nil => simp [sweep]
  | cons r queue ih =>
    rw [sweep]
    by_cases hgo : 0 < o.quantity ∧ (o.type = .market ∨ limitReaches s o.priceTicks r.priceTicks)
    · rw [if_pos hgo]
      by_cases hdone : r.quantity - traded o r = 0
      · obtain ⟨hle, heq⟩ := ih (o.minus (traded o r)) (t + 1)
        simp only [if_pos hdone, List.length_cons]
        refine ⟨by omega, fun hleft => ?_⟩
        have hrest := heq hleft
        omega
      · have hused : o.quantity - traded o r = 0 := (traded_exhausts o r).resolve_right hdone
        simp only [if_neg hdone, List.length_cons, List.length_nil]
        refine ⟨by omega, fun hleft => ?_⟩
        simp [Order.minus, hused] at hleft
    · rw [if_neg hgo]
      simp

theorem length_enqueue (s : Side) (o : Order) (queue : List Order) :
    (enqueue s o queue).length = queue.length + 1 := by
  induction queue with
  | nil => rfl
  | cons r queue ih =>
    rw [enqueue]
    split
    · rfl
    · rw [List.length_cons, ih, List.length_cons]

namespace Queues

def size (q : Queues) : ℕ := q.bids.length + q.asks.length

theorem size_eq (q : Queues) (s : Side) :
    q.size = (q.side s).length + (q.side s.opposite).length := by
  cases s
  · rfl
  · exact Nat.add_comm _ _

theorem submit_count (hid : o.id ∉ q.ids) :
    (q.submit o).1.length + (q.submit o).2.size ≤ q.size + 1 := by
  obtain ⟨hfills, hopposite, hown, -⟩ := submit_eq hid
  obtain ⟨hle, heq⟩ := sweep_count o.side.opposite { o with timestamp := q.clock } (q.clock + 1)
    (q.side o.side.opposite)
  rw [size_eq _ o.side, size_eq q o.side, hfills, hopposite, hown]
  split
  · rename_i hrests
    have hexact := heq hrests.1
    rw [length_enqueue]
    omega
  · omega

theorem cancel_count (q : Queues) (id : UInt64) : (q.cancel id).2.size ≤ q.size :=
  Nat.add_le_add (List.filter_sublist.length_le) (List.filter_sublist.length_le)

end Queues

/-- A submission that is accepted. -/
def OrderBook.accepts (b : OrderBook) : Request → ℕ
  | .submit o => if b.contains o.id then 0 else 1
  | .cancel _ => 0

theorem Represents.apply_count (h : Represents b L) (r : Request) :
    (b.apply r).1.fillList.length + (b.apply r).2.resting.length ≤
      b.resting.length + b.accepts r := by
  have hsize : ∀ b : OrderBook, b.queues.size = b.resting.length := fun b => by
    rw [OrderBook.resting, List.length_append]
    rfl
  have happly := h.apply_queues r
  rw [← hsize, ← hsize]
  cases r with
  | submit o =>
    obtain ⟨hreply, hqueues⟩ := Prod.mk.inj happly
    have hfills : (b.queues.submit o).1 = (b.submit o).1 := Reply.fills.inj hreply
    rw [← hqueues]
    by_cases hid : b.contains o.id
    · have hrej : b.queues.submit o = ([], b.queues) := if_pos (h.mem_ids.mpr hid)
      simp only [OrderBook.apply, Reply.fillList, ← hfills, hrej, OrderBook.accepts,
        if_pos hid]
      simp
    · have hcount := Queues.submit_count (mt h.mem_ids.mp hid)
      simp only [OrderBook.apply, Reply.fillList, ← hfills, OrderBook.accepts,
        if_neg hid]
      exact hcount
  | cancel id =>
    obtain ⟨-, hqueues⟩ := Prod.mk.inj happly
    rw [← hqueues]
    have hcount := b.queues.cancel_count id
    simpa [OrderBook.apply, Queues.apply, Reply.fillList, OrderBook.accepts] using hcount

/-- A new order that is acknowledged with success. -/
def Dispatch.accepted (d : Dispatch) : Bool :=
  match d.msg with
  | .newOrder m => (d.sender, .ack ⟨m.clientOrderId, MsgType.newOrder.tag, 0⟩) ∈ d.delivered
  | _ => false

namespace Session

variable {s u : Session} {fd : Fd} {k j : ConnId} {m : ClientMsg}

/-- What a message makes the server deliver. -/
def outcome (s : Session) (fd : Fd) (k : ConnId) (m : ClientMsg) : Dispatch :=
  ⟨k, m, s.deliver (s.server.dispatch fd m).1⟩

theorem Sound.accepted_iff (h : s.Sound) (hk : s.holder fd = some k) (m : ClientOrderMsg) :
    (s.outcome fd k (.newOrder m)).accepted ↔ ¬ s.server.book.Rests m.clientOrderId := by
  obtain ⟨⟨fills, hdelivered, -⟩, -⟩ := (h.acknowledged hk (.newOrder m)).1
  have hout : (s.outcome fd k (.newOrder m)).delivered = _ := hdelivered
  have hack : (s.outcome fd k (.newOrder m)).accepted ↔ (k, .ack ⟨m.clientOrderId,
      MsgType.newOrder.tag, 0⟩) ∈ (s.outcome fd k (.newOrder m)).delivered := decide_eq_true_iff
  rw [hack, hout]
  by_cases hid : s.server.book.Rests m.clientOrderId <;> simp [dueAck, hid]

/-- Fills and resting orders together grow by at most the accepted order. -/
theorem Sound.dispatch_count (h : s.Sound) (hk : s.holder fd = some k) (m : ClientMsg) :
    (s.server.book.fillsOf m.toRequest.toList).length +
        (s.dispatch fd k m).server.book.resting.length ≤
      s.server.book.resting.length + (s.outcome fd k m).accepted.toNat := by
  obtain ⟨L, hL⟩ := h.book
  rw [h.book_dispatch hk]
  cases m with
  | newOrder m =>
    have hcount := hL.apply_count (.submit m.toOrder)
    have haccepts : s.server.book.accepts (.submit m.toOrder) =
        (s.outcome fd k (.newOrder m)).accepted.toNat := by
      have hiff := h.accepted_iff hk m
      rw [hL.rests_iff] at hiff
      cases hacc : (s.outcome fd k (.newOrder m)).accepted with
      | true => exact if_neg (hiff.mp hacc)
      | false =>
        refine if_pos ?_
        by_contra hfresh
        rw [hiff.mpr hfresh] at hacc
        cases hacc
    rw [← haccepts]
    simpa [OrderBook.fillsOf, OrderBook.run, ClientMsg.toRequest] using hcount
  | cancel m =>
    have hcount := hL.apply_count (.cancel m.clientOrderId)
    simpa [OrderBook.fillsOf, OrderBook.run, ClientMsg.toRequest, OrderBook.accepts,
      Dispatch.accepted, outcome] using hcount
  | subscribeFills => exact (Nat.zero_add _).le.trans (Nat.le_add_right _ _)

/-- A connection is sent a fill once at most, and no acknowledgement but its own. -/
theorem Sound.received_count (h : s.Sound) (hk : s.holder fd = some k) (m : ClientMsg)
    (j : ConnId) : (received j (s.outcome fd k m).delivered).length ≤
      (if k = j then m.toRequest.toList.length else 0) +
        (s.server.book.fillsOf m.toRequest.toList).length := by
  obtain ⟨L, hL⟩ := h.book
  by_cases hopen : ∃ fd', s.holder fd' = some j
  · obtain ⟨fd', hj⟩ := hopen
    cases m with
    | newOrder m =>
      by_cases hid : s.server.book.Rests m.clientOrderId
      · rw [outcome, OrderBookServer.dispatch, dispatchNewOrder_rejected hL fd hid, sendAck,
          deliver_cons hk, received_cons]
        split <;> simp [deliver, received, ClientMsg.toRequest]
      · have hone : ∀ f ∈ (s.server.book.submit m.toOrder).1,
            (received j (s.deliver (s.server.fillSends fd f))).length ≤ 1 := by
          intro f _
          rw [h.received_fill hj]
          split <;> simp
        have hsum := List.sum_le_card_nsmul _ 1 (List.forall_mem_map.mpr hone)
        rw [outcome, OrderBookServer.dispatch, (dispatchNewOrder_accepted hL fd hid).1, sendAck,
          deliver_cons hk, received_cons, received_deliver_flatMap]
        rw [List.length_map, smul_eq_mul, mul_one] at hsum
        have hfills : (s.server.book.fillsOf
            (ClientMsg.newOrder m).toRequest.toList).length =
              (s.server.book.submit m.toOrder).1.length := by
          simp [OrderBook.fillsOf, OrderBook.run, OrderBook.apply, ClientMsg.toRequest,
            Reply.fillList]
        rw [hfills]
        split
        · simp only [List.length_cons, List.length_flatMap, ClientMsg.toRequest,
            Option.toList_some, List.length_nil]
          omega
        · rw [List.length_flatMap, Nat.zero_add]
          exact hsum
    | cancel m =>
      rw [outcome, OrderBookServer.dispatch, (dispatchCancel_eq hL fd m).1, sendAck,
        deliver_cons hk, received_cons]
      split <;> simp [deliver, received, ClientMsg.toRequest]
    | subscribeFills => exact Nat.zero_le _
  · have hclosed := received_closed (fun fd' hj => hopen ⟨fd', hj⟩) (s.server.dispatch fd m).1
    rw [outcome, hclosed]
    exact Nat.zero_le _

/-- What a run keeps: the book is that of the requests, each fill is paid for by an order that was
accepted and no longer rests, and each connection has been sent its acknowledgements and at most
every fill. -/
structure Frugal (log : List Dispatch) (s : Session) : Prop where
  sound : s.Sound
  book : s.server.book = (OrderBook.empty.run (requests log)).2
  paid : (OrderBook.empty.fillsOf (requests log)).length + s.server.book.resting.length ≤
    log.countP Dispatch.accepted
  told : ∀ j, (log.flatMap fun d => received j d.delivered).length ≤
    (requests (log.filter fun d => d.sender = j)).length +
      (OrderBook.empty.fillsOf (requests log)).length

theorem Frugal.step {log l : List Dispatch} {e : Event} (h : Frugal log s)
    (hst : s.step e = some (l, u)) : Frugal (log ++ l) u := by
  have hu := h.sound.step hst
  rcases step_cases hst with ⟨fd, rfl, hfd, rfl, rfl⟩ | ⟨fd, k, rfl, hk, rfl, rfl⟩ |
    ⟨fd, k, m, rfl, hk, rfl, rfl⟩
  · rw [List.append_nil]
    exact ⟨hu, h.book, h.paid, h.told⟩
  · rw [List.append_nil]
    exact ⟨hu, h.book, h.paid, h.told⟩
  · have hrequests : requests (log ++ [s.outcome fd k m]) =
        requests log ++ m.toRequest.toList := by
      rw [requests_append, outcome, requests_singleton]
    have hfills : OrderBook.empty.fillsOf (requests (log ++ [s.outcome fd k m])) =
        OrderBook.empty.fillsOf (requests log) ++
          s.server.book.fillsOf m.toRequest.toList := by
      rw [hrequests, OrderBook.fillsOf_append, h.book]
    refine ⟨hu, ?_, ?_, fun j => ?_⟩
    · refine (h.sound.book_dispatch hk m).trans ?_
      rw [h.book, ← OrderBook.run_append, ← hrequests]
      rfl
    · have hcount := h.sound.dispatch_count hk m
      have hpaid := h.paid
      have haccepted : (log ++ [s.outcome fd k m]).countP Dispatch.accepted =
          log.countP Dispatch.accepted + (s.outcome fd k m).accepted.toNat := by
        rw [List.countP_append, List.countP_singleton]
        cases (s.outcome fd k m).accepted <;> rfl
      have hsplit := congrArg List.length hfills
      rw [List.length_append] at hsplit
      change (OrderBook.empty.fillsOf (requests (log ++ [s.outcome fd k m]))).length + _ ≤
        (log ++ [s.outcome fd k m]).countP Dispatch.accepted
      omega
    · have hcount := h.sound.received_count hk m j
      have hreceived := h.told j
      have hsplit := congrArg List.length hfills
      rw [List.length_append] at hsplit
      change ((log ++ [s.outcome fd k m]).flatMap fun d => received j d.delivered).length ≤
        (requests ((log ++ [s.outcome fd k m]).filter fun d => d.sender = j)).length +
          (OrderBook.empty.fillsOf (requests (log ++ [s.outcome fd k m]))).length
      have hown : (requests ((log ++ [s.outcome fd k m]).filter fun d => d.sender = j)).length =
          (requests (log.filter fun d => d.sender = j)).length +
            if k = j then m.toRequest.toList.length else 0 := by
        rw [List.filter_append, requests_append, List.length_append]
        congr 1
        by_cases hj : k = j
        · rw [if_pos hj, ← requests_singleton k m (s.outcome fd k m).delivered,
            List.filter_singleton]
          simp [outcome, hj]
        · rw [if_neg hj, List.filter_singleton]
          simp [outcome, hj, requests]
      rw [List.flatMap_append, List.length_append, List.flatMap_singleton, hown, hsplit]
      omega

end Session

/-- Over every run the server writes no more than it is asked for: there are at most as many fills
as accepted orders that no longer rest, and each connection is sent at most an acknowledgement for
each of its requests and every fill once. -/
theorem traffic_bounded (es : List Event) {log : List Dispatch} {s : Session}
    (h : run Session.step .start es = some (log, s)) :
    let fills := (OrderBook.empty.fillsOf (requests log)).length
    fills + s.server.book.resting.length ≤ log.countP Dispatch.accepted ∧
      ∀ k, (log.flatMap fun d => received k d.delivered).length ≤
        (requests (log.filter fun d => d.sender = k)).length + fills := by
  have hfrugal : Session.Frugal log s := run_history (P := Session.Frugal)
    (fun _ _ _ _ _ hs hst => hs.step hst) h []
    ⟨Session.Sound.start, rfl, Nat.le_refl 0, fun _ => Nat.zero_le _⟩
  exact ⟨hfrugal.paid, hfrugal.told⟩

end Velo
