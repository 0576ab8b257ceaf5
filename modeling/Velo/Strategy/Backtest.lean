import Velo.Server.Holding
import Velo.Strategy.Client
import Velo.Strategy.DeltaHedger

/-! `run_delta_hedge_backtest.py`: the quoter and the hedger trade on one server. Both number their
orders from 1. -/
namespace Velo

/-- The acknowledgement of a new order says that its id is taken. -/
def Dispatch.Rejected (d : Dispatch) : Prop :=
  ∃ p ∈ d.delivered, match p.2 with
    | .ack a => a.requestType = MsgType.newOrder.tag ∧ a.status = 1
    | .fill _ => False

theorem Session.Sound.rejected_iff {s : Session} (h : s.Sound) {fd : Fd} {k : ConnId}
    (hk : s.holder fd = some k) (msg : ClientMsg) :
    (Dispatch.mk k msg (s.deliver (s.server.dispatch fd msg).1)).Rejected ↔
      ∃ m, msg = .newOrder m ∧ s.server.book.Rests m.clientOrderId := by
  obtain ⟨L, hL⟩ := h.book
  cases msg with
  | newOrder m =>
    by_cases hm : s.server.book.Rests m.clientOrderId
    · have hsends := dispatchNewOrder_rejected hL fd hm
      simp [Dispatch.Rejected, OrderBookServer.dispatch, hsends, sendAck, deliver, hk, hm]
    · have hsends := (dispatchNewOrder_accepted hL fd hm).1
      have hfills : ∀ p ∈ s.deliver ((s.server.book.submit m.toOrder).1.flatMap
          (s.server.fillSends fd)), ∃ f, p.2 = .fill f := by
        intro p hp
        obtain ⟨w, hw, hp⟩ := List.mem_filterMap.mp hp
        obtain ⟨f, -, hw⟩ := List.mem_flatMap.mp hw
        rw [OrderBookServer.fillSends_eq] at hw
        obtain ⟨fd', -, rfl⟩ := List.mem_map.mp hw
        obtain ⟨j, -, rfl⟩ := Option.map_eq_some_iff.mp hp
        exact ⟨f.toWire, rfl⟩
      simp only [ClientMsg.newOrder.injEq, exists_eq_left', hm, iff_false]
      rintro ⟨p, hp, hrejected⟩
      simp only [OrderBookServer.dispatch, hsends, sendAck, deliver_cons hk, List.mem_cons] at hp
      rcases hp with rfl | hp
      · simp at hrejected
      · obtain ⟨f, hf⟩ := hfills p hp
        simp [hf] at hrejected
  | cancel m =>
    simp [Dispatch.Rejected, OrderBookServer.dispatch, dispatchCancel_eq hL, sendAck, deliver, hk,
      MsgType.tag]
  | subscribeFills => simp [Dispatch.Rejected, OrderBookServer.dispatch, deliver]

end Velo

namespace Velo.Strategy
open Machine

structure Backtest where
  session : Session
  quoter : Client FixedOffsetQuoter
  hedger : Client DeltaHedger

inductive Trader
  | quoter
  | hedger

/-- A tick of either loop, a request executed by the server, or an event handed to a strategy. -/
inductive BacktestEvent
  | quoterTick (priceTicks : ℤ)
  | hedgerTick (aggregateDelta : ℚ)
  | execute (t : Trader)
  | handle (t : Trader)

namespace Backtest

/-- A fresh server, to which the quoter connects first. -/
def start (q h : Fd) (offset size hedgeBandContracts : ℤ) : Backtest where
  session := (Session.start.connect q).connect h
  quoter := .start q 0 (.init offset size)
  hedger := .start h 1 (.init hedgeBandContracts)

def step (s : Backtest) : BacktestEvent → Option (List Dispatch × Backtest)
  | .quoterTick priceTicks =>
    (s.quoter.tick (s.quoter.strategy.onPrice priceTicks)).map fun c =>
      ([], { s with quoter := c })
  | .hedgerTick aggregateDelta =>
    (s.hedger.tick (s.hedger.strategy.onPrice aggregateDelta)).map fun c =>
      ([], { s with hedger := c })
  | .execute .quoter =>
    (s.quoter.execute s.session).map fun (log, session, c) =>
      (log, ⟨session, c, s.hedger.hear log⟩)
  | .execute .hedger =>
    (s.hedger.execute s.session).map fun (log, session, c) =>
      (log, ⟨session, s.quoter.hear log, c⟩)
  | .handle .quoter =>
    (s.quoter.handle FixedOffsetQuoter.onFill).map fun c => ([], { s with quoter := c })
  | .handle .hedger =>
    (s.hedger.handle DeltaHedger.onFill).map fun c => ([], { s with hedger := c })

/-- A hedge that is executed does not have the number of a quote that rests. -/
def Apart (s : Backtest) : BacktestEvent → Prop
  | .execute .hedger =>
    match s.hedger.requests with
    | .newOrder msg :: _ => ¬ s.session.Holds s.quoter.conn msg.clientOrderId
    | _ => True
  | _ => True

instance (s : Backtest) (e : BacktestEvent) : Decidable (s.Apart e) := by
  unfold Apart
  split
  · split <;> infer_instance
  · infer_instance

/-- Only quotes ever rest. -/
structure Numbered (s : Backtest) : Prop where
  sound : s.session.Sound
  quoter : s.session.holder s.quoter.fd = some s.quoter.conn
  hedger : s.session.holder s.hedger.fd = some s.hedger.conn
  inOrder : s.quoter.InOrder s.session.server.book.Rests
  quotes : ∀ id, s.session.server.book.Rests id → s.session.owner id = some s.quoter.conn
  market : ∀ msg ∈ s.hedger.requests, ∃ m, msg = .newOrder m ∧ m.toOrder.type = .market

variable {s t : Backtest} {l : List Dispatch}

theorem Numbered.start {q h : Fd} (hqh : q ≠ h) (offset size band : ℤ) :
    (start q h offset size band).Numbered := by
  have hempty : ∀ id, ¬ (Backtest.start q h offset size band).session.server.book.Rests id := by
    intro id hid
    have hmem := represents_empty.contains_iff.mp (represents_empty.rests_iff.mp hid)
    simp at hmem
  constructor
  · refine (Session.Sound.start.connect rfl).connect ?_
    simp [Session.connect, Session.start, hqh.symm]
  · simp [Backtest.start, Client.start, Session.connect, Session.start, hqh]
  · simp [Backtest.start, Client.start, Session.connect, Session.start]
  · exact .start hempty
  · intro id hid
    exact absurd hid (hempty id)
  · simp [Backtest.start, Client.start]

theorem Numbered.quoterTick (h : s.Numbered) {c : Client FixedOffsetQuoter} {priceTicks : ℤ}
    (hc : s.quoter.tick (s.quoter.strategy.onPrice priceTicks) = some c) :
    Numbered { s with quoter := c } := by
  have hinOrder := h.inOrder.tick hc
  simp only [Client.tick] at hc
  split at hc
  · cases hc
    exact ⟨h.sound, h.quoter, h.hedger, hinOrder, h.quotes, h.market⟩
  · cases hc

theorem market_onPrice {h : DeltaHedger} {aggregateDelta : ℚ} {action : StrategyAction}
    (ha : action ∈ (h.onPrice aggregateDelta).1) :
    ∃ o, action = .order o ∧ o.orderType = .market := by
  unfold DeltaHedger.onPrice at ha
  simp only at ha
  split at ha
  · simp at ha
  · exact ⟨_, List.mem_singleton.mp ha, rfl⟩

theorem Numbered.hedgerTick (h : s.Numbered) {c : Client DeltaHedger} {aggregateDelta : ℚ}
    (hc : s.hedger.tick (s.hedger.strategy.onPrice aggregateDelta) = some c) :
    Numbered { s with hedger := c } := by
  simp only [Client.tick] at hc
  split at hc
  · cases hc
    refine ⟨h.sound, h.quoter, h.hedger, h.inOrder, h.quotes, ?_⟩
    intro msg hmsg
    rcases List.mem_append.mp hmsg with hmsg | hmsg
    · exact h.market msg hmsg
    · obtain ⟨action, haction, hrequest⟩ := mem_sendAll hmsg
      obtain ⟨o, rfl, htype⟩ := market_onPrice haction
      obtain ⟨m, rfl, hm⟩ := request?_order hrequest
      exact ⟨m, rfl, hm.type.trans htype⟩
  · cases hc

/-- The quoter's requests are executed in the order of their numbers. -/
theorem Numbered.executeQuoter (h : s.Numbered) {session : Session} {c : Client FixedOffsetQuoter}
    (hc : s.quoter.execute s.session = some (l, session, c)) :
    Numbered ⟨session, c, s.hedger.hear l⟩ ∧ ∀ d ∈ l, ¬ d.Rejected := by
  obtain ⟨msg, requests, hrequests, hst, rfl⟩ := Client.execute_cases hc
  simp only [Session.step_message h.quoter, Option.some.injEq, Prod.mk.injEq] at hst
  obtain ⟨rfl, rfl⟩ := hst
  constructor
  · constructor
    · exact h.sound.dispatch h.quoter msg
    · exact h.quoter
    · exact h.hedger
    · refine h.inOrder.execute hrequests ?_ _
      intro id hid
      rcases h.sound.rests_dispatch hid with ⟨hbefore, -⟩ | ⟨-, -, m, rfl, rfl, -⟩
      · exact Or.inl hbefore
      · exact Or.inr rfl
    · intro id hid
      rcases h.sound.rests_dispatch hid with ⟨hbefore, hown, -⟩ | ⟨-, hown, -⟩
      · exact hown.trans (h.quotes id hbefore)
      · exact hown
    · exact h.market
  · intro d hd
    cases List.mem_singleton.mp hd
    rw [h.sound.rejected_iff h.quoter]
    rintro ⟨m, rfl, hm⟩
    have hmem : (m.clientOrderId.toNat : ℤ) ∈ newOrderIds s.quoter.requests := by
      rw [hrequests]
      exact List.mem_cons_self
    exact lt_irrefl _ ((h.inOrder.executed _ hm).2 _ hmem)

/-- A hedge takes what it finds and never rests. -/
theorem Numbered.executeHedger (h : s.Numbered) {session : Session} {c : Client DeltaHedger}
    (hc : s.hedger.execute s.session = some (l, session, c)) :
    Numbered ⟨session, s.quoter.hear l, c⟩ ∧
      ((∀ d ∈ l, ¬ d.Rejected) ↔ s.Apart (.execute .hedger)) := by
  obtain ⟨msg, requests, hrequests, hst, rfl⟩ := Client.execute_cases hc
  simp only [Session.step_message h.hedger, Option.some.injEq, Prod.mk.injEq] at hst
  obtain ⟨rfl, rfl⟩ := hst
  have hmarket := h.market
  rw [hrequests] at hmarket
  obtain ⟨m, rfl, htype⟩ := hmarket msg List.mem_cons_self
  have hkept : ∀ {id}, (s.session.dispatch s.hedger.fd s.hedger.conn
      (.newOrder m)).server.book.Rests id → s.session.server.book.Rests id ∧
        (s.session.dispatch s.hedger.fd s.hedger.conn (.newOrder m)).owner id =
          s.session.owner id := by
    intro id hid
    rcases h.sound.rests_dispatch hid with ⟨hbefore, hown, -⟩ | ⟨-, -, m', hm', -, hlimit⟩
    · exact ⟨hbefore, hown⟩
    · cases hm'
      rw [htype] at hlimit
      cases hlimit
  constructor
  · constructor
    · exact h.sound.dispatch h.hedger _
    · exact h.quoter
    · exact h.hedger
    · refine h.inOrder.mono ?_ rfl rfl
      intro id hid
      exact (hkept hid).1
    · intro id hid
      obtain ⟨hbefore, hown⟩ := hkept hid
      exact hown.trans (h.quotes id hbefore)
    · intro msg hmsg
      exact hmarket msg (List.mem_cons_of_mem _ hmsg)
  · simp only [List.mem_singleton, forall_eq, h.sound.rejected_iff h.hedger, Apart, hrequests,
      ClientMsg.newOrder.injEq, exists_eq_left', Session.Holds, not_and]
    constructor
    · intro hrests hrests'
      exact absurd hrests' hrests
    · intro hholds hrests
      exact hholds hrests (h.quotes _ hrests)

theorem Numbered.step (h : s.Numbered) {e : BacktestEvent} (hst : s.step e = some (l, t)) :
    t.Numbered ∧ ((∀ d ∈ l, ¬ d.Rejected) ↔ s.Apart e) := by
  cases e with
  | quoterTick priceTicks =>
    obtain ⟨c, hc, heq⟩ := Option.map_eq_some_iff.mp hst
    cases heq
    exact ⟨h.quoterTick hc, by simp [Apart]⟩
  | hedgerTick aggregateDelta =>
    obtain ⟨c, hc, heq⟩ := Option.map_eq_some_iff.mp hst
    cases heq
    exact ⟨h.hedgerTick hc, by simp [Apart]⟩
  | execute trader =>
    cases trader with
    | quoter =>
      obtain ⟨⟨log, session, c⟩, hc, heq⟩ := Option.map_eq_some_iff.mp hst
      cases heq
      obtain ⟨hnumbered, haccepted⟩ := h.executeQuoter hc
      exact ⟨hnumbered, iff_of_true haccepted trivial⟩
    | hedger =>
      obtain ⟨⟨log, session, c⟩, hc, heq⟩ := Option.map_eq_some_iff.mp hst
      cases heq
      exact h.executeHedger hc
  | handle trader =>
    cases trader with
    | quoter =>
      obtain ⟨c, hc, heq⟩ := Option.map_eq_some_iff.mp hst
      cases heq
      refine ⟨?_, by simp [Apart]⟩
      obtain ⟨msg, events, -, ⟨ack, -, rfl⟩ | ⟨fill, side, -, rfl⟩⟩ := Client.handle_cases hc
      · exact ⟨h.sound, h.quoter, h.hedger, h.inOrder.mono (fun _ => id) rfl rfl, h.quotes,
          h.market⟩
      · exact ⟨h.sound, h.quoter, h.hedger, h.inOrder.mono (fun _ => id) rfl (by simp), h.quotes,
          h.market⟩
    | hedger =>
      obtain ⟨c, hc, heq⟩ := Option.map_eq_some_iff.mp hst
      cases heq
      refine ⟨?_, by simp [Apart]⟩
      obtain ⟨msg, events, -, ⟨ack, -, rfl⟩ | ⟨fill, side, -, rfl⟩⟩ := Client.handle_cases hc
      · exact ⟨h.sound, h.quoter, h.hedger, h.inOrder, h.quotes, h.market⟩
      · exact ⟨h.sound, h.quoter, h.hedger, h.inOrder, h.quotes, h.market⟩

/-- In every run no order is rejected exactly if no hedge is executed while the quote of the same
number rests. -/
theorem none_rejected_iff {q h : Fd} (hqh : q ≠ h) (offset size band : ℤ) {es : List BacktestEvent}
    {log : List Dispatch} (hr : run step (start q h offset size band) es = some (log, t)) :
    (∀ d ∈ log, ¬ d.Rejected) ↔
      Along step (fun s e _ => s.Apart e) (start q h offset size band) es :=
  forall_log_iff (P := Numbered) (fun _ _ _ _ hs hst => hs.step hst) hr (.start hqh _ _ _)

/-- The quotes 1 and 2 are replaced by 3 and 4 before the hedge 1 is executed. -/
theorem none_rejected_after_requoting :
    ∃ log s, run step (start 3 4 1 50 5) [.quoterTick 30000, .execute .quoter, .execute .quoter,
        .quoterTick 30010, .execute .quoter, .execute .quoter, .execute .quoter, .execute .quoter,
        .hedgerTick (-10), .execute .hedger, .handle .hedger, .handle .hedger] = some (log, s) ∧
      ∀ d ∈ log, ¬ d.Rejected := by
  have hrun : (run step (start 3 4 1 50 5) [.quoterTick 30000, .execute .quoter, .execute .quoter,
      .quoterTick 30010, .execute .quoter, .execute .quoter, .execute .quoter, .execute .quoter,
      .hedgerTick (-10), .execute .hedger, .handle .hedger, .handle .hedger]).isSome := by
    decide +kernel
  obtain ⟨⟨log, s⟩, hrun⟩ := Option.isSome_iff_exists.mp hrun
  exact ⟨log, s, hrun, (none_rejected_iff (by decide) 1 50 5 hrun).2 (by decide +kernel)⟩

/-- The first hedge is executed while the quoter's first quote rests. -/
theorem first_hedge_rejected :
    ∃ log s, run step (start 3 4 1 50 5) [.quoterTick 30000, .execute .quoter, .hedgerTick 10,
        .execute .hedger] = some (log, s) ∧ ∃ d ∈ log, d.Rejected := by
  have hlog : (run step (start 3 4 1 50 5) [.quoterTick 30000, .execute .quoter, .hedgerTick 10,
      .execute .hedger]).map Prod.fst =
        some [⟨0, .newOrder ⟨1, 0, 0, 29999, 50⟩, [(0, .ack ⟨1, 1, 0⟩)]⟩,
          ⟨1, .newOrder ⟨1, 1, 1, 0, 10⟩, [(1, .ack ⟨1, 1, 1⟩)]⟩] := by
    decide +kernel
  obtain ⟨⟨log, s⟩, hrun, rfl⟩ := Option.map_eq_some_iff.1 hlog
  refine ⟨_, s, hrun, _, List.mem_cons_of_mem _ List.mem_cons_self, ?_⟩
  exact ⟨_, List.mem_cons_self, rfl, rfl⟩

end Backtest
end Velo.Strategy
