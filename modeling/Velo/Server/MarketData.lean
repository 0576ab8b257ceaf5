import Velo.Server.Confinement
import Velo.Server.Holding

/-! What a subscriber is told: every fill there is, in the order in which they happen. -/
namespace Velo
open Machine

/-- The fills among some messages. -/
def fillMsgs (ms : List ServerMsg) : List FillWireMsg :=
  ms.filterMap fun
    | .fill f => some f
    | .ack _ => none

/-- The fills that some requests make on a book, as they are written to the wire. -/
def OrderBook.fillsOf (b : OrderBook) (rs : List Request) : List FillWireMsg :=
  ((b.run rs).1.flatMap Reply.fillList).map Fill.toWire

variable {b : OrderBook} {rs rs' : List Request}

theorem OrderBook.replies_append (b : OrderBook) (rs rs' : List Request) :
    (b.run (rs ++ rs')).1 = (b.run rs).1 ++ ((b.run rs).2.run rs').1 := by
  induction rs generalizing b with
  | nil => rfl
  | cons r rs ih => exact congrArg (List.cons _) (ih _)

theorem OrderBook.fillsOf_append (b : OrderBook) (rs rs' : List Request) :
    b.fillsOf (rs ++ rs') = b.fillsOf rs ++ (b.run rs).2.fillsOf rs' := by
  rw [fillsOf, replies_append, List.flatMap_append, List.map_append]
  rfl

theorem Represents.incomingOrderId_of_mem_fillsOf {L : List Order} (h : Represents b L) {o : Order}
    {f : FillWireMsg} (hf : f ∈ b.fillsOf [.submit o]) : f.incomingOrderId = o.id := by
  simp only [OrderBook.fillsOf, OrderBook.run, OrderBook.apply, List.flatMap_singleton,
    Reply.fillList, List.mem_map] at hf
  obtain ⟨g, hg, rfl⟩ := hf
  by_cases hid : b.Rests o.id
  · rw [h.submit_rejected hid] at hg
    cases hg
  · exact ((h.submit_fills hid).2 g hg).1

theorem fillMsgs_append (ms ms' : List ServerMsg) :
    fillMsgs (ms ++ ms') = fillMsgs ms ++ fillMsgs ms' :=
  List.filterMap_append

theorem fillMsgs_ack_fill (acks : List AckMsg) (fills : List FillWireMsg) :
    fillMsgs (acks.map .ack ++ fills.map .fill) = fills := by
  have hacks : fillMsgs (acks.map .ack) = [] := by
    rw [fillMsgs, List.filterMap_eq_nil_iff]
    intro m hm
    obtain ⟨a, -, rfl⟩ := List.mem_map.mp hm
    rfl
  rw [fillMsgs_append, hacks, List.nil_append, fillMsgs, List.filterMap_map]
  exact List.filterMap_some

namespace Session

variable {s t : Session} {fd fd' : Fd} {k k' : ConnId}

theorem requests_singleton (k : ConnId) (msg : ClientMsg) (ds : List (ConnId × ServerMsg)) :
    requests [⟨k, msg, ds⟩] = msg.toRequest.toList := by
  cases msg <;> rfl

/-- The sender of a message and the subscribers are told of every fill that it makes. -/
theorem Sound.received_told (h : s.Sound) (hk : s.holder fd = some k)
    (hk' : s.holder fd' = some k') (htold : fd' = fd ∨ s.subscribed k') (msg : ClientMsg) :
    ∃ acks : List AckMsg, received k' (s.deliver (s.server.dispatch fd msg).1) =
      acks.map .ack ++ (s.server.book.fillsOf msg.toRequest.toList).map .fill := by
  obtain ⟨L, hL⟩ := h.book
  have hack (a : AckMsg) (sends : List Send) : ∃ acks : List AckMsg,
      received k' (s.deliver (⟨fd, .ack a⟩ :: sends)) =
        acks.map .ack ++ received k' (s.deliver sends) := by
    rw [deliver_cons hk, received_cons]
    split
    · exact ⟨[a], rfl⟩
    · exact ⟨[], rfl⟩
  cases msg with
  | newOrder m =>
    by_cases hid : s.server.book.Rests m.clientOrderId
    · have hsub := hL.submit_rejected (o := m.toOrder) hid
      obtain ⟨acks, hacks⟩ := hack ⟨m.clientOrderId, MsgType.newOrder.tag, 1⟩ []
      refine ⟨acks, ?_⟩
      rw [OrderBookServer.dispatch, dispatchNewOrder_rejected hL fd hid, sendAck, hacks]
      simp [ClientMsg.toRequest, OrderBook.fillsOf, OrderBook.run, OrderBook.apply, hsub, deliver,
        received, Reply.fillList]
    · have hall : ∀ f ∈ (s.server.book.submit m.toOrder).1,
          received k' (s.deliver (s.server.fillSends fd f)) = [.fill f.toWire] := by
        intro f _
        rw [h.received_fill hk', if_pos (htold.imp_right Or.inr)]
      obtain ⟨acks, hacks⟩ := hack ⟨m.clientOrderId, MsgType.newOrder.tag, 0⟩
        ((s.server.book.submit m.toOrder).1.flatMap (s.server.fillSends fd))
      refine ⟨acks, ?_⟩
      rw [OrderBookServer.dispatch, (dispatchNewOrder_accepted hL fd hid).1, sendAck, hacks,
        received_deliver_flatMap, List.flatMap_congr hall, ← List.map_eq_flatMap]
      simp [ClientMsg.toRequest, OrderBook.fillsOf, OrderBook.run, OrderBook.apply, Reply.fillList]
  | cancel m =>
    obtain ⟨acks, hacks⟩ := hack ⟨m.clientOrderId, MsgType.cancel.tag,
      if s.server.book.Rests m.clientOrderId then 0 else 1⟩ []
    refine ⟨acks, ?_⟩
    rw [OrderBookServer.dispatch, (dispatchCancel_eq hL fd m).1, sendAck, hacks]
    simp [ClientMsg.toRequest, OrderBook.fillsOf, OrderBook.run, OrderBook.apply, deliver,
      received, Reply.fillList]
  | subscribeFills => exact ⟨[], rfl⟩

theorem Sound.book_dispatch (h : s.Sound) (hk : s.holder fd = some k) (msg : ClientMsg) :
    (s.dispatch fd k msg).server.book = (s.server.book.run msg.toRequest.toList).2 := by
  rw [← requests_singleton k msg (s.deliver (s.server.dispatch fd msg).1)]
  exact (h.acknowledged hk msg).2

theorem subscribed_dispatch (hsub : s.subscribed k') (msg : ClientMsg) :
    (s.dispatch fd k msg).subscribed k' := by
  cases msg with
  | subscribeFills =>
    by_cases hk : k' = k
    · simp [dispatch, subscribedAfter, hk]
    · simp [dispatch, subscribedAfter, hk, hsub]
  | newOrder m => exact hsub
  | cancel m => exact hsub

/-- A connection that is open was open before, unless it is new. -/
theorem holder_step {e : Event} {l : List Dispatch}
    (hst : s.step e = some (l, t)) (hk : t.holder fd = some k) (hold : k < s.descriptors.length) :
    s.holder fd = some k := by
  rcases step_cases hst with ⟨fd', -, -, -, rfl⟩ | ⟨fd', j, -, -, -, rfl⟩ |
    ⟨fd', j, msg, -, -, -, rfl⟩
  · simp only [Session.connect] at hk
    by_cases hfd : fd = fd'
    · rw [hfd, Function.update_self, Option.some.injEq] at hk
      exact absurd hk hold.ne'
    · rwa [Function.update_of_ne hfd] at hk
  · simp only [Session.disconnect] at hk
    by_cases hfd : fd = fd'
    · rw [hfd, Function.update_self] at hk
      cases hk
    · rwa [Function.update_of_ne hfd] at hk
  · exact hk

theorem descriptors_step {e : Event} {l : List Dispatch} (hst : s.step e = some (l, t)) :
    s.descriptors.length ≤ t.descriptors.length := by
  rcases step_cases hst with ⟨fd', -, -, -, rfl⟩ | ⟨fd', j, -, -, -, rfl⟩ |
    ⟨fd', j, msg, -, -, -, rfl⟩
  · simp [Session.connect]
  · exact Nat.le_refl _
  · exact Nat.le_refl _

theorem holder_run {es : List Event} {log : List Dispatch}
    (hr : run Session.step s es = some (log, t)) (hk : t.holder fd = some k)
    (hold : k < s.descriptors.length) : s.holder fd = some k := by
  induction es generalizing s log with
  | nil =>
    obtain ⟨-, rfl⟩ := run_nil.mp hr
    exact hk
  | cons e es ih =>
    obtain ⟨l₁, u, l₂, hst, hrest, -⟩ := run_cons.mp hr
    exact holder_step hst (ih hrest (hold.trans_le (descriptors_step hst))) hold

theorem subscribed_step {e : Event} {l : List Dispatch} (hst : s.step e = some (l, t))
    (hsub : s.subscribed k) : t.subscribed k := by
  rcases step_cases hst with ⟨fd', -, -, -, rfl⟩ | ⟨fd', j, -, -, -, rfl⟩ |
    ⟨fd', j, msg, -, -, -, rfl⟩
  · exact hsub
  · exact hsub
  · exact subscribed_dispatch hsub msg

theorem Sound.lt_of_subscribed (h : s.Sound) (hsub : s.subscribed k) :
    k < s.descriptors.length := by
  by_contra hlt
  rw [h.unsubscribed k (not_lt.mp hlt)] at hsub
  cases hsub

theorem Sound.told_step (h : s.Sound) {e : Event} {l : List Dispatch}
    (hst : s.step e = some (l, t)) (hk : s.holder fd = some k) (hsub : s.subscribed k) :
    fillMsgs (l.flatMap fun d => received k d.delivered) = s.server.book.fillsOf (requests l) ∧
      t.server.book = (s.server.book.run (requests l)).2 := by
  rcases step_cases hst with ⟨fd', -, -, rfl, rfl⟩ | ⟨fd', j, -, -, rfl, rfl⟩ |
    ⟨fd', j, msg, -, hj, rfl, rfl⟩
  · exact ⟨rfl, rfl⟩
  · exact ⟨rfl, rfl⟩
  · obtain ⟨acks, htold⟩ := h.received_told hj hk (Or.inr hsub) msg
    rw [requests_singleton, List.flatMap_singleton, htold, fillMsgs_ack_fill]
    exact ⟨rfl, h.book_dispatch hj msg⟩

theorem Sound.told_run (h : s.Sound) {es : List Event} {log : List Dispatch}
    (hr : Machine.run Session.step s es = some (log, t)) (hk : t.holder fd = some k)
    (hsub : s.subscribed k) :
    fillMsgs (log.flatMap fun d => received k d.delivered) =
      s.server.book.fillsOf (requests log) := by
  induction es generalizing s log with
  | nil =>
    obtain ⟨rfl, -⟩ := run_nil.mp hr
    rfl
  | cons e es ih =>
    have hopen := holder_run hr hk (h.lt_of_subscribed hsub)
    obtain ⟨l₁, u, l₂, hst, hrest, rfl⟩ := run_cons.mp hr
    obtain ⟨htold, hbook⟩ := h.told_step hst hopen hsub
    rw [List.flatMap_append, fillMsgs_append, htold,
      ih (h.step hst) hrest (subscribed_step hst hsub), requests_append, OrderBook.fillsOf_append,
      hbook]

theorem Sound.book_step (h : s.Sound) {e : Event} {l : List Dispatch}
    (hst : s.step e = some (l, t)) : t.server.book = (s.server.book.run (requests l)).2 := by
  rcases step_cases hst with ⟨fd, -, -, rfl, rfl⟩ | ⟨fd, k, -, -, rfl, rfl⟩ |
    ⟨fd, k, msg, -, hk, rfl, rfl⟩
  · rfl
  · rfl
  · rw [requests_singleton]
    exact h.book_dispatch hk msg

/-- A connection stays open until it is disconnected. -/
theorem holder_of_step {e : Event} {l : List Dispatch} (hk : s.holder fd = some k)
    (he : e ≠ .disconnect fd) (hst : s.step e = some (l, t)) : t.holder fd = some k := by
  rcases step_cases hst with ⟨fd', rfl, hfree, -, rfl⟩ | ⟨fd', j, rfl, -, -, rfl⟩ |
    ⟨fd', j, msg, rfl, -, -, rfl⟩
  · have hne : fd ≠ fd' := by
      rintro rfl
      rw [hk] at hfree
      cases hfree
    simp only [Session.connect, Function.update_of_ne hne]
    exact hk
  · have hne : fd ≠ fd' := by
      rintro rfl
      exact he rfl
    simp only [Session.disconnect, Function.update_of_ne hne]
    exact hk
  · exact hk

/-- Nothing of what others do is delivered to a connection without a part in it. -/
theorem Sound.received_stranger (h : s.Sound) (hk : s.holder fd = some k)
    (hk' : s.holder fd' = some k') (hne : fd' ≠ fd) (hfresh : s.Unrecorded fd')
    (hsub : s.subscribed k' = false) (msg : ClientMsg) :
    received k' (s.deliver (s.server.dispatch fd msg).1) = [] := by
  obtain ⟨L, hL⟩ := h.book
  have hkne : k ≠ k' := by
    rintro rfl
    exact hne (h.holder_inj hk' hk)
  have hack (a : AckMsg) (sends : List Send) :
      received k' (s.deliver (⟨fd, .ack a⟩ :: sends)) = received k' (s.deliver sends) := by
    rw [deliver_cons hk, received_cons, if_neg hkne]
  cases msg with
  | newOrder m =>
    by_cases hid : s.server.book.Rests m.clientOrderId
    · rw [OrderBookServer.dispatch, dispatchNewOrder_rejected hL fd hid, sendAck, hack]
      rfl
    · have hnone : ∀ f ∈ (s.server.book.submit m.toOrder).1,
          received k' (s.deliver (s.server.fillSends fd f)) = [] := by
        intro f _
        rw [h.received_fill hk', if_neg]
        rintro (hfd | hown | hsubscribed)
        · exact hne hfd
        · exact Unrecorded.lookup_ne hfresh _ hown
        · rw [hsub] at hsubscribed
          cases hsubscribed
      rw [OrderBookServer.dispatch, (dispatchNewOrder_accepted hL fd hid).1, sendAck, hack,
        received_deliver_flatMap, List.flatMap_eq_nil_iff]
      exact hnone
  | cancel m =>
    rw [OrderBookServer.dispatch, (dispatchCancel_eq hL fd m).1, sendAck, hack]
    rfl
  | subscribeFills => rfl

theorem Sound.unrecorded_dispatch (h : s.Sound) (hfresh : s.Unrecorded fd') (hne : fd' ≠ fd)
    (msg : ClientMsg) :
    (s.dispatch fd k msg).Unrecorded fd' := by
  intro id _ hlookup
  rcases h.entry_dispatch fd k msg hlookup with ⟨hfd, -⟩ | ⟨hold, -⟩
  · exact hne hfd
  · exact Unrecorded.lookup_ne hfresh id hold

/-- Who has sent `SubscribeFills` is subscribed. -/
theorem subscribed_run {es : List Event} {log : List Dispatch}
    (hr : run Session.step s es = some (log, t)) :
    ∀ d ∈ log, d.msg = .subscribeFills → t.subscribed d.sender := by
  refine run_history (P := fun log (t : Session) => ∀ d ∈ log, d.msg = .subscribeFills →
    t.subscribed d.sender) ?_ hr [] (by simp)
  intro log s e l t hlog hst d hd hmsg
  rcases List.mem_append.mp hd with hd | hd
  · exact subscribed_step hst (hlog d hd hmsg)
  · rcases step_cases hst with ⟨fd', -, -, rfl, rfl⟩ | ⟨fd', j, -, -, rfl, rfl⟩ |
      ⟨fd', j, msg, -, hj, rfl, rfl⟩
    · cases hd
    · cases hd
    · cases List.mem_singleton.mp hd
      obtain rfl : msg = .subscribeFills := hmsg
      exact Function.update_self ..

end Session

/-- A connection that has subscribed and stays open is told of every fill once and in the order in
which the book makes them, whoever sends the orders, comes or goes meanwhile, and whichever
descriptors are given out again. -/
theorem market_data_complete (before after : List Event) {log₀ log : List Dispatch}
    {s t : Session} (h₀ : run Session.step .start before = some (log₀, s))
    (hr : run Session.step s after = some (log, t)) {fd : Fd} {k : ConnId}
    (hopen : t.holder fd = some k) (hsub : ∃ d ∈ log₀, d.sender = k ∧ d.msg = .subscribeFills) :
    fillMsgs (log.flatMap fun d => received k d.delivered) =
      s.server.book.fillsOf (requests log) := by
  obtain ⟨d, hd, rfl, hmsg⟩ := hsub
  have hs := Session.Sound.start.run h₀
  exact hs.told_run hr hopen (Session.subscribed_run h₀ d hd hmsg)

/-- A subscriber sees the trade of two others, one of whom is given the descriptor of a client that
has left an order behind. -/
theorem market_data_complete_of_a_stranger :
    let s := (((Session.start.connect 5).dispatch 5 0 .subscribeFills).connect 6).dispatch 6 1
      (.newOrder ⟨1, 1, 0, 100, 10⟩)
    let d : Dispatch := ⟨2, .newOrder ⟨2, 0, 0, 101, 4⟩, ((s.disconnect 6).connect 6).deliver
      (((s.disconnect 6).connect 6).server.dispatch 6 (.newOrder ⟨2, 0, 0, 101, 4⟩)).1⟩
    fillMsgs (received 0 d.delivered) = [⟨1, 2, 1, 100, 4, 2⟩] := by
  intro s d
  have hbefore : run Session.step .start [.connect 5, .message 5 .subscribeFills, .connect 6,
      .message 6 (.newOrder ⟨1, 1, 0, 100, 10⟩)] = some (_, s) := rfl
  have hafter : run Session.step s [.disconnect 6, .connect 6,
      .message 6 (.newOrder ⟨2, 0, 0, 101, 4⟩)] = some ([d], _) := rfl
  have hopen : (((s.disconnect 6).connect 6).dispatch 6 2 (.newOrder ⟨2, 0, 0, 101, 4⟩)).holder 5 =
      some 0 := rfl
  have hall := market_data_complete _ _ hbefore hafter hopen ⟨_, List.mem_cons_self, rfl, rfl⟩
  rw [List.flatMap_singleton] at hall
  rw [hall]
  decide

end Velo
