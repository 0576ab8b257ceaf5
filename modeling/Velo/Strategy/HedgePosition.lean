import Velo.Server.MarketData
import Velo.Strategy.Backtest
import Velo.Strategy.HedgeSession

/-! The hedger's position in the two-client backtest: it is what its orders have traded, although
its ids are also the quoter's. -/
namespace Velo.Strategy
open Machine

/-- The fills that the orders of a connection make, as the book takes the requests of a log. -/
def fillsBy (k : ConnId) : OrderBook → List Dispatch → List FillWireMsg
  | _, [] => []
  | b, d :: log =>
    (if d.sender = k then b.fillsOf (requests [d]) else []) ++
      fillsBy k (b.run (requests [d])).2 log

/-- What the incoming order of a fill trades. -/
def tradedQty (f : FillWireMsg) : ℤ :=
  if f.restingSide = 0 then -(f.quantity.toNat : ℤ) else f.quantity.toNat

variable {b : OrderBook} {k : ConnId} {log l : List Dispatch}

theorem fillsBy_append (k : ConnId) (b : OrderBook) (log log' : List Dispatch) :
    fillsBy k b (log ++ log') =
      fillsBy k b log ++ fillsBy k (b.run (requests log)).2 log' := by
  induction log generalizing b with
  | nil => rfl
  | cons d log ih =>
    have hrequests : requests ([d] ++ log) = requests [d] ++ requests log := requests_append
    rw [List.singleton_append] at hrequests
    rw [List.cons_append, fillsBy, fillsBy, ih, hrequests, OrderBook.run_append, List.append_assoc]

theorem tradedQty_ofFill {f : FillWireMsg} {side : Side}
    (h : side? f.restingSide.toNat = some side) :
    (ofFill side f).signedQty = tradedQty f := by
  have hvalue : sideValue side = f.restingSide.toNat := by
    have hfound := List.find?_some h
    exact of_decide_eq_true hfound
  cases side with
  | buy =>
    have hzero : f.restingSide = 0 := by
      apply UInt8.toNat_inj.mp
      exact (Int.ofNat_inj.mp hvalue).symm
    rw [tradedQty, if_pos hzero]
    rfl
  | sell =>
    have hone : f.restingSide ≠ 0 := by
      intro hzero
      rw [hzero] at hvalue
      exact absurd hvalue (by decide)
    rw [tradedQty, if_neg hone]
    rfl

theorem DeltaHedger.mem_myOrderIds {h : DeltaHedger} {aggregateDelta : ℚ} {n : ℤ}
    (hn : n ∈ newOrderIds (sendAll (h.onPrice aggregateDelta).1).1) :
    n ∈ (h.onPrice aggregateDelta).2.myOrderIds := by
  obtain ⟨msg, hmsg, hid⟩ := List.mem_filterMap.mp hn
  obtain ⟨action, haction, hrequest⟩ := mem_sendAll hmsg
  rw [h.onPrice_eq] at haction ⊢
  obtain ⟨o, ho, rfl⟩ := List.mem_map.mp haction
  obtain ⟨m, rfl, hm⟩ := request?_order hrequest
  have hn : o.orderId = n := by
    rw [← hm.id]
    exact Option.some.inj hid
  rw [← hn]
  exact Finset.mem_union_left _ (List.mem_toFinset.mpr (List.mem_map_of_mem ho))

theorem DeltaHedger.myOrderIds_subset (h : DeltaHedger) (aggregateDelta : ℚ) :
    h.myOrderIds ⊆ (h.onPrice aggregateDelta).2.myOrderIds := by
  rw [h.onPrice_eq]
  exact Finset.subset_union_right

theorem DeltaHedger.position_onPrice (h : DeltaHedger) (aggregateDelta : ℚ) :
    (h.onPrice aggregateDelta).2.currentFuturesPosition = h.currentFuturesPosition := by
  rw [h.onPrice_eq]

namespace Backtest

/-- The hedger's position, and the fills it has yet to hear of, are what its orders traded. -/
structure Counts (log : List Dispatch) (s : Backtest) : Prop where
  numbered : s.Numbered
  book : s.session.server.book = (OrderBook.empty.run (requests log)).2
  quiet : ∀ k, s.session.subscribed k = false
  quotes : ∀ msg ∈ s.quoter.requests, msg ≠ .subscribeFills
  apart : s.hedger.fd ≠ s.quoter.fd
  descriptor : s.session.descriptors[s.quoter.conn]? = some s.quoter.fd
  sent : ∀ n ∈ newOrderIds s.hedger.requests, n ∈ s.hedger.strategy.myOrderIds
  told : ∀ f ∈ fillMsgs s.hedger.events,
    (f.incomingOrderId.toNat : ℤ) ∈ s.hedger.strategy.myOrderIds
  counted : s.hedger.strategy.currentFuturesPosition +
    ((fillMsgs s.hedger.events).map tradedQty).sum =
      ((fillsBy s.hedger.conn .empty log).map tradedQty).sum

variable {s t : Backtest} {e : BacktestEvent}

theorem Counts.start {q h : Fd} (hqh : q ≠ h) (offset size band : ℤ) :
    Counts [] (start q h offset size band) where
  numbered := .start hqh offset size band
  book := rfl
  quiet := fun _ => rfl
  quotes := by simp [Backtest.start, Client.start]
  apart := hqh.symm
  descriptor := rfl
  sent := by simp [Backtest.start, Client.start, newOrderIds]
  told := by simp [Backtest.start, Client.start, fillMsgs]
  counted := rfl

theorem quiet_dispatch {s : Session} {fd : Fd} (h : ∀ k, s.subscribed k = false) {msg : ClientMsg}
    (hmsg : msg ≠ .subscribeFills) (k' : ConnId) : (s.dispatch fd k msg).subscribed k' = false := by
  cases msg with
  | subscribeFills => exact absurd rfl hmsg
  | newOrder m => exact h k'
  | cancel m => exact h k'

theorem Counts.unrecorded (h : Counts log s) : s.session.Unrecorded s.hedger.fd := by
  intro id hid hlookup
  have hrests := (h.numbered.sound.owned id).mp (Finmap.mem_keys.mp hid)
  obtain ⟨k, hk, hdescriptor⟩ := h.numbered.sound.owner id _ hlookup
  rw [h.numbered.quotes id hrests, Option.some.injEq] at hk
  rw [← hk, h.descriptor, Option.some.injEq] at hdescriptor
  exact h.apart hdescriptor.symm

theorem Counts.quoterTick (h : Counts log s) {c : Client FixedOffsetQuoter} {priceTicks : ℤ}
    (hc : s.quoter.tick (s.quoter.strategy.onPrice priceTicks) = some c) :
    Counts log { s with quoter := c } := by
  have hnumbered := h.numbered.quoterTick hc
  simp only [Client.tick] at hc
  split at hc
  · cases hc
    refine ⟨hnumbered, h.book, h.quiet, ?_, h.apart, h.descriptor, h.sent, h.told, h.counted⟩
    intro msg hmsg
    rcases List.mem_append.mp hmsg with hmsg | hmsg
    · exact h.quotes msg hmsg
    · rintro rfl
      obtain ⟨action, -, hrequest⟩ := mem_sendAll hmsg
      cases action with
      | order o =>
        obtain ⟨m, hm, -⟩ := request?_order hrequest
        cases hm
      | cancel c =>
        obtain ⟨m, hm, -⟩ := request?_cancel hrequest
        cases hm
  · cases hc

theorem Counts.hedgerTick (h : Counts log s) {c : Client DeltaHedger} {aggregateDelta : ℚ}
    (hc : s.hedger.tick (s.hedger.strategy.onPrice aggregateDelta) = some c) :
    Counts log { s with hedger := c } := by
  have hnumbered := h.numbered.hedgerTick hc
  have hsubset := s.hedger.strategy.myOrderIds_subset aggregateDelta
  simp only [Client.tick] at hc
  split at hc
  · cases hc
    refine ⟨hnumbered, h.book, h.quiet, h.quotes, h.apart, h.descriptor, ?_, ?_, ?_⟩
    · intro n hn
      rw [newOrderIds_append] at hn
      rcases List.mem_append.mp hn with hn | hn
      · exact hsubset (h.sent n hn)
      · exact DeltaHedger.mem_myOrderIds hn
    · intro f hf
      exact hsubset (h.told f hf)
    · exact (congrArg (· + _) (s.hedger.strategy.position_onPrice aggregateDelta)).trans h.counted
  · cases hc

/-- A quote trades with other quotes at most, and the hedger is not told. -/
theorem Counts.executeQuoter (h : Counts log s) {session : Session} {c : Client FixedOffsetQuoter}
    (hc : s.quoter.execute s.session = some (l, session, c)) :
    Counts (log ++ l) ⟨session, c, s.hedger.hear l⟩ := by
  have hnumbered := (h.numbered.executeQuoter hc).1
  have hsound := h.numbered.sound
  obtain ⟨msg, requests', hrequests, hst, rfl⟩ := Client.execute_cases hc
  have hbook := hsound.book_step hst
  simp only [Session.step_message h.numbered.quoter, Option.some.injEq, Prod.mk.injEq] at hst
  obtain ⟨rfl, rfl⟩ := hst
  have hmsg : msg ≠ .subscribeFills := h.quotes msg (hrequests ▸ List.mem_cons_self)
  have hnone := hsound.received_stranger h.numbered.quoter h.numbered.hedger h.apart h.unrecorded
    (h.quiet _) msg
  have hne : s.quoter.conn ≠ s.hedger.conn := by
    intro heq
    have hholder := h.numbered.quoter
    rw [heq] at hholder
    exact h.apart (hsound.holder_inj h.numbered.hedger hholder)
  have hevents : (s.hedger.hear [⟨s.quoter.conn, msg,
      s.session.deliver (s.session.server.dispatch s.quoter.fd msg).1⟩]).events =
        s.hedger.events := by
    rw [Client.hear, List.flatMap_singleton, hnone, List.append_nil]
  have hfills : fillsBy s.hedger.conn .empty (log ++ [⟨s.quoter.conn, msg,
      s.session.deliver (s.session.server.dispatch s.quoter.fd msg).1⟩]) =
        fillsBy s.hedger.conn .empty log := by
    rw [fillsBy_append, fillsBy, if_neg hne]
    exact List.append_nil _
  constructor
  · exact hnumbered
  · rw [requests_append, OrderBook.run_append, ← h.book]
    exact hbook
  · exact quiet_dispatch h.quiet hmsg
  · intro m hm
    exact h.quotes m (hrequests ▸ List.mem_cons_of_mem _ hm)
  · exact h.apart
  · exact h.descriptor
  · exact h.sent
  · rw [hevents]
    exact h.told
  · rw [hevents]
    exact h.counted.trans (by rw [← hfills]; rfl)

/-- What a hedge trades, the hedger is told of as its sender. -/
theorem Counts.executeHedger (h : Counts log s) {session : Session} {c : Client DeltaHedger}
    (hc : s.hedger.execute s.session = some (l, session, c)) :
    Counts (log ++ l) ⟨session, s.quoter.hear l, c⟩ := by
  have hnumbered := (h.numbered.executeHedger hc).1
  have hsound := h.numbered.sound
  obtain ⟨msg, requests', hrequests, hst, rfl⟩ := Client.execute_cases hc
  have hbook := hsound.book_step hst
  simp only [Session.step_message h.numbered.hedger, Option.some.injEq, Prod.mk.injEq] at hst
  obtain ⟨rfl, rfl⟩ := hst
  obtain ⟨m, rfl, -⟩ := h.numbered.market msg (hrequests ▸ List.mem_cons_self)
  obtain ⟨acks, htold⟩ := hsound.received_told h.numbered.hedger h.numbered.hedger
    (Or.inl rfl) (.newOrder m)
  have hevents : fillMsgs (s.hedger.hear [⟨s.hedger.conn, .newOrder m,
      s.session.deliver (s.session.server.dispatch s.hedger.fd (.newOrder m)).1⟩]).events =
        fillMsgs s.hedger.events ++ s.session.server.book.fillsOf [.submit m.toOrder] := by
    rw [Client.hear, List.flatMap_singleton, htold, fillMsgs_append, fillMsgs_ack_fill]
    rfl
  have hfills : fillsBy s.hedger.conn .empty (log ++ [⟨s.hedger.conn, .newOrder m,
      s.session.deliver (s.session.server.dispatch s.hedger.fd (.newOrder m)).1⟩]) =
        fillsBy s.hedger.conn .empty log ++
          s.session.server.book.fillsOf [.submit m.toOrder] := by
    rw [fillsBy_append, fillsBy, if_pos rfl, ← h.book]
    exact congrArg _ (List.append_nil _)
  constructor
  · exact hnumbered
  · rw [requests_append, OrderBook.run_append, ← h.book]
    exact hbook
  · exact quiet_dispatch h.quiet (by simp)
  · exact h.quotes
  · exact h.apart
  · exact h.descriptor
  · intro n hn
    refine h.sent n ?_
    rw [hrequests]
    exact mem_newOrderIds_cons.mpr (Or.inr hn)
  · intro f hf
    have hf : f ∈ fillMsgs (s.hedger.hear [⟨s.hedger.conn, .newOrder m,
      s.session.deliver (s.session.server.dispatch s.hedger.fd (.newOrder m)).1⟩]).events := hf
    rw [hevents] at hf
    rcases List.mem_append.mp hf with hf | hf
    · exact h.told f hf
    · obtain ⟨L, hL⟩ := hsound.book
      rw [hL.incomingOrderId_of_mem_fillsOf hf]
      refine h.sent _ ?_
      rw [hrequests]
      exact List.mem_cons_self
  · refine (congrArg (fun fs => s.hedger.strategy.currentFuturesPosition +
      (List.map tradedQty fs).sum) hevents).trans ?_
    refine Eq.trans ?_ (congrArg (fun fs => (List.map tradedQty fs).sum) hfills.symm)
    rw [List.map_append, List.sum_append, List.map_append, List.sum_append, ← add_assoc,
      h.counted]

theorem Counts.handleHedger (h : Counts log s) {c : Client DeltaHedger}
    (hc : s.hedger.handle DeltaHedger.onFill = some c)
    (hnumbered : Numbered { s with hedger := c }) :
    Counts log { s with hedger := c } := by
  obtain ⟨msg, events, hevents, -⟩ := Client.handle_cases hc
  have hcounted := h.counted
  have htold := h.told
  rw [hevents] at hcounted htold
  cases msg with
  | ack a =>
    obtain ⟨_, _, hevents', ⟨a', hack, rfl⟩ | ⟨fill, side, hfill, -⟩⟩ := Client.handle_cases hc
    · rw [hevents, List.cons.injEq] at hevents'
      obtain ⟨-, rfl⟩ := hevents'
      exact ⟨hnumbered, h.book, h.quiet, h.quotes, h.apart, h.descriptor, h.sent, htold, hcounted⟩
    · rw [hevents, List.cons.injEq, hfill] at hevents'
      cases hevents'.1
  | fill f =>
    obtain ⟨side, hside, rfl⟩ := Client.handle_fill hc hevents
    have hmem : (f.incomingOrderId.toNat : ℤ) ∈ s.hedger.strategy.myOrderIds :=
      htold f List.mem_cons_self
    have honFill : s.hedger.strategy.onFill (ofFill side f) = _ := DeltaHedger.onFill_of_mem hmem
    refine ⟨hnumbered, h.book, h.quiet, h.quotes, h.apart, h.descriptor, ?_, ?_, ?_⟩
    · intro n hn
      rw [honFill]
      exact h.sent n hn
    · intro g hg
      rw [honFill]
      exact htold g (List.mem_cons_of_mem _ hg)
    · rw [honFill, tradedQty_ofFill hside]
      refine Eq.trans ?_ hcounted
      have hcons : fillMsgs (.fill f :: events) = f :: fillMsgs events := rfl
      rw [hcons, List.map_cons, List.sum_cons, ← add_assoc]

theorem Counts.step (h : Counts log s) (hst : s.step e = some (l, t)) : Counts (log ++ l) t := by
  have hnumbered := (h.numbered.step hst).1
  cases e with
  | quoterTick priceTicks =>
    obtain ⟨c, hc, heq⟩ := Option.map_eq_some_iff.mp hst
    cases heq
    rw [List.append_nil]
    exact h.quoterTick hc
  | hedgerTick aggregateDelta =>
    obtain ⟨c, hc, heq⟩ := Option.map_eq_some_iff.mp hst
    cases heq
    rw [List.append_nil]
    exact h.hedgerTick hc
  | execute trader =>
    cases trader with
    | quoter =>
      obtain ⟨⟨l', session, c⟩, hc, heq⟩ := Option.map_eq_some_iff.mp hst
      cases heq
      exact h.executeQuoter hc
    | hedger =>
      obtain ⟨⟨l', session, c⟩, hc, heq⟩ := Option.map_eq_some_iff.mp hst
      cases heq
      exact h.executeHedger hc
  | handle trader =>
    cases trader with
    | quoter =>
      obtain ⟨c, hc, heq⟩ := Option.map_eq_some_iff.mp hst
      cases heq
      rw [List.append_nil]
      obtain ⟨msg, events, -, ⟨ack, -, rfl⟩ | ⟨fill, side, -, rfl⟩⟩ := Client.handle_cases hc
      · exact ⟨hnumbered, h.book, h.quiet, h.quotes, h.apart, h.descriptor, h.sent, h.told,
          h.counted⟩
      · exact ⟨hnumbered, h.book, h.quiet, h.quotes, h.apart, h.descriptor, h.sent, h.told,
          h.counted⟩
    | hedger =>
      obtain ⟨c, hc, heq⟩ := Option.map_eq_some_iff.mp hst
      cases heq
      rw [List.append_nil]
      exact h.handleHedger hc hnumbered

/-- In every run of the quoter and the hedger on one server, whichever of the hedger's orders are
rejected because the quoter has their ids: the hedger's position, with the fills it has yet to hear
of, is the net of all that its orders have traded in the book. -/
theorem hedger_position_is_what_it_traded {q h : Fd} (hqh : q ≠ h) (offset size band : ℤ)
    {es : List BacktestEvent} (hr : run step (start q h offset size band) es = some (log, t)) :
    t.hedger.strategy.currentFuturesPosition +
        ((fillMsgs t.hedger.events).map tradedQty).sum =
      ((fillsBy t.hedger.conn .empty log).map tradedQty).sum := by
  have hcounts : Counts ([] ++ log) t := run_history (P := Counts)
    (fun _ _ _ _ _ hs hst => hs.step hst) hr [] (.start hqh offset size band)
  exact hcounts.counted

/-- The first hedge is rejected and the second trades; its fill is not heard of yet. -/
theorem hedger_position_is_what_it_traded_after_a_rejection :
    ∃ log s, run step (start 3 4 1 50 5) [.quoterTick 30000, .execute .quoter, .hedgerTick 10,
        .execute .hedger, .hedgerTick 10, .execute .hedger, .handle .hedger] = some (log, s) ∧
      s.hedger.strategy.currentFuturesPosition +
          ((fillMsgs s.hedger.events).map tradedQty).sum = -10 := by
  have hlog : (run step (start 3 4 1 50 5) [.quoterTick 30000, .execute .quoter, .hedgerTick 10,
      .execute .hedger, .hedgerTick 10, .execute .hedger, .handle .hedger]).map
        (fun r => ((fillsBy r.2.hedger.conn .empty r.1).map tradedQty).sum) = some (-10) := by
    decide +kernel
  obtain ⟨⟨log, s⟩, hrun, hsum⟩ := Option.map_eq_some_iff.1 hlog
  exact ⟨log, s, hrun, (hedger_position_is_what_it_traded (by decide) 1 50 5 hrun).trans hsum⟩

end Backtest
end Velo.Strategy
