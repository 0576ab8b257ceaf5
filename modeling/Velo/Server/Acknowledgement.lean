import Velo.Server.Session

/-! Requests and their acknowledgements, over whole runs. -/
namespace Velo
open Machine

/-- What a message asks of the book. -/
def ClientMsg.toRequest : ClientMsg → Option Request
  | .newOrder msg => some (.submit msg.toOrder)
  | .cancel msg => some (.cancel msg.clientOrderId)
  | .subscribeFills => none

/-- The requests of a run, in dispatch order. -/
def requests (log : List Dispatch) : List Request := log.filterMap fun d => d.msg.toRequest

/-- The acknowledgement a message is due when it meets the book `b`. -/
def dueAck (b : OrderBook) : ClientMsg → Option AckMsg
  | .newOrder msg =>
    some ⟨msg.clientOrderId, MsgType.newOrder.tag, if b.Rests msg.clientOrderId then 1 else 0⟩
  | .cancel msg =>
    some ⟨msg.clientOrderId, MsgType.cancel.tag, if b.Rests msg.clientOrderId then 0 else 1⟩
  | .subscribeFills => none

/-- The order whose fills a message may cause. -/
def ClientMsg.submitted : ClientMsg → Option UInt64
  | .newOrder msg => some msg.clientOrderId
  | _ => none

/-- Each message of a log that starts at the book `b` makes the server deliver the
acknowledgement it is due, to its sender, and after it only fills of the order it submits. -/
def Acknowledged : OrderBook → List Dispatch → Prop
  | _, [] => True
  | b, d :: log =>
    (∃ fills : List (ConnId × FillWireMsg),
      d.delivered = (dueAck b d.msg).toList.map (fun a => (d.sender, .ack a)) ++
          fills.map (fun f => (f.1, .fill f.2)) ∧
        ∀ f ∈ fills, d.msg.submitted = some f.2.incomingOrderId) ∧
      Acknowledged (b.run (requests [d])).2 log

/-- The acknowledgements connection `k` is due, in the order of its requests. -/
def dueAcks (k : ConnId) : OrderBook → List Dispatch → List AckMsg
  | _, [] => []
  | b, d :: log =>
    (if d.sender = k then (dueAck b d.msg).toList else []) ++
      dueAcks k (b.run (requests [d])).2 log

/-- The acknowledgements among some messages. -/
def acks (ms : List ServerMsg) : List AckMsg :=
  ms.filterMap fun
    | .ack a => some a
    | .fill _ => none

section Runs

variable {b : OrderBook} {log log' : List Dispatch} {k : ConnId}

theorem requests_append : requests (log ++ log') = requests log ++ requests log' :=
  List.filterMap_append

theorem Acknowledged.append (h : Acknowledged b log)
    (h' : Acknowledged (b.run (requests log)).2 log') : Acknowledged b (log ++ log') := by
  induction log generalizing b with
  | nil => exact h'
  | cons d log ih =>
    obtain ⟨hd, hlog⟩ := h
    refine ⟨hd, ih hlog ?_⟩
    rwa [← OrderBook.run_append, ← requests_append]

theorem received_append (ds ds' : List (ConnId × ServerMsg)) :
    received k (ds ++ ds') = received k ds ++ received k ds' := by
  simp [received]

theorem acks_append (ms ms' : List ServerMsg) : acks (ms ++ ms') = acks ms ++ acks ms' :=
  List.filterMap_append

theorem acks_received_fills (fills : List (ConnId × FillWireMsg)) :
    acks (received k (fills.map fun f => (f.1, .fill f.2))) = [] := by
  induction fills with
  | nil => rfl
  | cons f fills ih =>
    rw [List.map_cons, ← List.singleton_append, received_append, acks_append, ih]
    by_cases hf : f.1 = k <;> simp [received, acks, hf]

theorem Acknowledged.acks_received (h : Acknowledged b log) (k : ConnId) :
    acks (log.flatMap fun d => received k d.delivered) = dueAcks k b log := by
  induction log generalizing b with
  | nil => rfl
  | cons d log ih =>
    obtain ⟨⟨fills, hd, -⟩, hlog⟩ := h
    rw [List.flatMap_cons, acks_append, ih hlog, dueAcks, hd, received_append, acks_append,
      acks_received_fills, List.append_nil]
    congr 1
    cases dueAck b d.msg with
    | none => simp [received, acks]
    | some a => by_cases hk : d.sender = k <;> simp [received, acks, hk]

end Runs

namespace Session

variable {s : Session} {fd : Fd} {k : ConnId} {sends : List Send}

theorem deliver_cons (hk : s.holder fd = some k) (msg : ServerMsg) (sends : List Send) :
    s.deliver (⟨fd, msg⟩ :: sends) = (k, msg) :: s.deliver sends := by
  simp [deliver, hk]

/-- Copies of fills are delivered as copies of fills. -/
theorem deliver_fills {P : FillWireMsg → Prop} (h : ∀ w ∈ sends, ∃ f, w.msg = .fill f ∧ P f) :
    ∃ fills : List (ConnId × FillWireMsg),
      s.deliver sends = fills.map (fun f => (f.1, .fill f.2)) ∧ ∀ f ∈ fills, P f.2 := by
  induction sends with
  | nil => exact ⟨[], rfl, by simp⟩
  | cons w sends ih =>
    obtain ⟨f, hw, hf⟩ := h w List.mem_cons_self
    obtain ⟨fills, hfills, hP⟩ := ih fun w' hw' => h w' (List.mem_cons_of_mem _ hw')
    cases hk : s.holder w.fd with
    | none =>
      refine ⟨fills, ?_, hP⟩
      simpa [deliver, hk] using hfills
    | some k =>
      refine ⟨(k, f) :: fills, ?_, ?_⟩
      · rw [List.map_cons, ← hfills, ← hw]
        exact deliver_cons hk w.msg sends
      · intro g hg
        rcases List.mem_cons.mp hg with rfl | hg
        · exact hf
        · exact hP g hg

theorem mem_fillSends {server : OrderBookServer} {fill : Fill} {w : Send}
    (h : w ∈ server.fillSends fd fill) : w.msg = .fill fill.toWire := by
  rcases List.mem_append.mp h with hw | hw
  · obtain ⟨fd', -, rfl⟩ := List.mem_map.mp hw
    rfl
  · obtain ⟨c, -, rfl⟩ := List.mem_map.mp hw
    rfl

/-- One message: its acknowledgement, the fills after it, and the book it leaves. -/
theorem Sound.acknowledged (h : s.Sound) (hk : s.holder fd = some k) (msg : ClientMsg) :
    let d : Dispatch := ⟨k, msg, s.deliver (s.server.dispatch fd msg).1⟩
    Acknowledged s.server.book [d] ∧
      (s.dispatch fd k msg).server.book = (s.server.book.run (requests [d])).2 := by
  obtain ⟨L, hL⟩ := h.book
  cases msg with
  | newOrder msg =>
    by_cases hid : s.server.book.Rests msg.clientOrderId
    · have hrej := dispatchNewOrder_rejected hL fd hid
      refine ⟨⟨⟨[], ?_, by simp⟩, trivial⟩, ?_⟩
      · simp only [OrderBookServer.dispatch, hrej, dueAck, if_pos hid]
        exact deliver_cons hk _ []
      · have hsub := hL.submit_rejected (o := msg.toOrder) hid
        simp only [Session.dispatch, OrderBookServer.dispatch, hrej]
        simp [requests, ClientMsg.toRequest, OrderBook.run, OrderBook.apply, hsub]
    · obtain ⟨hsends, hbook, -⟩ := dispatchNewOrder_accepted hL fd hid
      have hcopies : ∀ w ∈ (s.server.book.submit msg.toOrder).1.flatMap (s.server.fillSends fd),
          ∃ f, w.msg = .fill f ∧ (ClientMsg.newOrder msg).submitted = some f.incomingOrderId := by
        intro w hw
        obtain ⟨f, hf, hw⟩ := List.mem_flatMap.mp hw
        have hin := ((hL.submit_fills (o := msg.toOrder) hid).2 f hf).1
        exact ⟨f.toWire, mem_fillSends hw, congrArg some hin.symm⟩
      obtain ⟨fills, hfills, hP⟩ := s.deliver_fills hcopies
      refine ⟨⟨⟨fills, ?_, hP⟩, trivial⟩, hbook⟩
      simp only [OrderBookServer.dispatch, hsends, dueAck, if_neg hid, ← hfills]
      exact deliver_cons hk _ _
  | cancel msg =>
    obtain ⟨hsends, hbook, -⟩ := dispatchCancel_eq hL fd msg
    refine ⟨⟨⟨[], ?_, by simp⟩, trivial⟩, hbook⟩
    simp only [OrderBookServer.dispatch, hsends, dueAck]
    exact deliver_cons hk _ []
  | subscribeFills => exact ⟨⟨⟨[], rfl, by simp⟩, trivial⟩, rfl⟩

end Session

/-- Over every run, however the messages of the connections interleave: each request is
acknowledged once, to its sender, before any fill of its order and with the status that the book
at that moment calls for; the acknowledgements of a connection come in the order of its requests;
and the book is that of the requests applied one after the other. -/
theorem every_request_acknowledged (es : List Event) {log : List Dispatch} {s : Session}
    (h : run Session.step .start es = some (log, s)) :
    Acknowledged .empty log ∧
      (∀ k, acks (log.flatMap fun d => received k d.delivered) = dueAcks k .empty log) ∧
      s.server.book = (OrderBook.empty.run (requests log)).2 := by
  have hrun : s.Sound ∧ Acknowledged .empty log ∧
      s.server.book = (OrderBook.empty.run (requests log)).2 := by
    refine run_history (P := fun log (s : Session) => s.Sound ∧ Acknowledged .empty log ∧
      s.server.book = (OrderBook.empty.run (requests log)).2) ?_ h []
      ⟨Session.Sound.start, trivial, rfl⟩
    rintro log s e l t ⟨hs, hlog, hbook⟩ hst
    refine ⟨hs.step hst, ?_⟩
    rcases Session.step_cases hst with ⟨fd, -, -, rfl, rfl⟩ | ⟨fd, k, -, -, rfl, rfl⟩ |
      ⟨fd, k, msg, -, hk, rfl, rfl⟩
    · rw [List.append_nil]
      exact ⟨hlog, hbook⟩
    · rw [List.append_nil]
      exact ⟨hlog, hbook⟩
    · obtain ⟨hd, hafter⟩ := hs.acknowledged hk msg
      rw [hbook] at hd hafter
      refine ⟨hlog.append hd, ?_⟩
      rw [requests_append, OrderBook.run_append]
      exact hafter
  exact ⟨hrun.2.1, hrun.2.1.acks_received, hrun.2.2⟩

theorem every_request_acknowledged_of_two_clients :
    let s := (((Session.start.connect 5).connect 6).dispatch 5 0
      (.newOrder ⟨1, 1, 0, 100, 10⟩)).dispatch 6 1 (.newOrder ⟨1, 0, 0, 100, 4⟩)
    s.server.book = (OrderBook.empty.run
      [.submit ⟨1, .sell, .limit, 100, 10, 0⟩, .submit ⟨1, .buy, .limit, 100, 4, 0⟩]).2 :=
  (every_request_acknowledged [.connect 5, .connect 6, .message 5 (.newOrder ⟨1, 1, 0, 100, 10⟩),
    .message 6 (.newOrder ⟨1, 0, 0, 100, 4⟩)] rfl).2.2

end Velo
