import Velo.Server.Ledger
import Velo.Strategy.Resting
import Velo.Strategy.TradeLog

/-! The trade log of `run_strategy_loop`, for a quoter among other clients: every request in it is the
one that the server executes, and is answered once, in order, with what the server decided. -/
namespace Velo.Strategy
open Machine

structure LoggedSession where
  market : Market
  rows : List LogRow

/-- The row of a request, as the server reads it. -/
def requestRow? : ClientMsg → Option LogRow
  | .newOrder msg => some (.orderSent msg.clientOrderId.toNat msg.toOrder.side msg.priceTicks.toInt
      msg.quantity.toNat)
  | .cancel msg => some (.cancelSent msg.clientOrderId.toNat)
  | .subscribeFills => none

/-- What `drain` writes for a message of the server. -/
def eventRow? (msg : ServerMsg) : Option LogRow :=
  (decodeEvent (Wire.tag msg) (Wire.payload msg)).map Event.row

namespace LoggedSession

def start (s : Session) (fd : Fd) (offset size : ℤ) : LoggedSession :=
  ⟨.start s fd offset size, []⟩

/-- The rows of an event of the loop: those of the requests that could be sent, or that of the event
that is handed over. -/
def written (s : Market) : MarketEvent → List LogRow
  | .tick priceTicks =>
    let actions := (s.client.strategy.onPrice priceTicks).1
    (actions.take (sendAll actions).1.length).map StrategyAction.row
  | .handle => (s.client.events.head?.bind eventRow?).toList
  | .execute | .other _ => []

def step (s : LoggedSession) (e : MarketEvent) : Option (List Dispatch × LoggedSession) :=
  (s.market.step e).map fun (log, market) => (log, ⟨market, s.rows ++ written s.market e⟩)

/-- The rows of the server's messages to the quoter, and those of its own requests. -/
structure Logs (b : OrderBook) (log : List Dispatch) (s : LoggedSession) : Prop where
  sound : s.market.session.Sound
  connected : s.market.session.holder s.market.client.fd = some s.market.client.conn
  book : s.market.session.server.book = (b.run (requests log)).2
  acknowledged : Acknowledged b log
  events : s.rows.filter (! LogRow.isRequest ·) ++ s.market.client.events.filterMap eventRow? =
    (log.flatMap fun d => received s.market.client.conn d.delivered).filterMap eventRow?
  requests : s.rows.filter LogRow.isRequest =
    (asked s.market.client.conn log ++ s.market.client.requests).filterMap requestRow?

variable {b : OrderBook} {log l : List Dispatch} {s t : LoggedSession} {e : MarketEvent}

theorem sendAll_forall₂ (actions : List StrategyAction) :
    List.Forall₂ (fun a msg => StrategyAction.request? a = some msg)
      (actions.take (sendAll actions).1.length) (sendAll actions).1 := by
  induction actions with
  | nil => exact .nil
  | cons action actions ih =>
    simp only [sendAll]
    cases hmsg : action.request? with
    | none => exact .nil
    | some msg => exact .cons hmsg ih

theorem requestRow?_row {action : StrategyAction} {msg : ClientMsg}
    (h : action.request? = some msg) (hlimit : ∀ o, action = .order o → o.orderType = .limit) :
    requestRow? msg = some action.row := by
  cases action with
  | order o =>
    obtain ⟨m, rfl, hm⟩ := request?_order h
    simp only [requestRow?, StrategyAction.row, hm.id, hm.side, hm.price (hlimit o rfl),
      hm.quantity]
  | cancel c =>
    obtain ⟨m, rfl, hm⟩ := request?_cancel h
    simp only [requestRow?, StrategyAction.row, hm]

theorem filterMap_requestRow?_sendAll {actions : List StrategyAction}
    (hlimit : ∀ o, StrategyAction.order o ∈ actions → o.orderType = .limit) :
    (sendAll actions).1.filterMap requestRow? =
      (actions.take (sendAll actions).1.length).map StrategyAction.row := by
  have hsent := sendAll_forall₂ actions
  have hall : ∀ o, StrategyAction.order o ∈ actions.take (sendAll actions).1.length →
      o.orderType = .limit := fun o ho => hlimit o (List.mem_of_mem_take ho)
  generalize actions.take (sendAll actions).1.length = sent at hsent hall ⊢
  generalize (sendAll actions).1 = msgs at hsent ⊢
  induction hsent with
  | nil => rfl
  | cons h _ ih =>
    have hrow := requestRow?_row h fun o ho => hall o (ho ▸ List.mem_cons_self)
    rw [List.map_cons, List.filterMap_cons_some hrow,
      ih fun o ho => hall o (List.mem_cons_of_mem _ ho)]

theorem orderType_onPrice (q : FixedOffsetQuoter) (p : ℤ) {o : OrderRequest}
    (h : StrategyAction.order o ∈ (q.onPrice p).1) : o.orderType = .limit := by
  obtain ⟨orders, cancels, hactions, hrequotes⟩ := q.requotes_onPrice p
  rw [hactions, List.mem_append, List.mem_map, List.mem_map] at h
  obtain ⟨o', ho', heq⟩ | ⟨c, -, heq⟩ := h
  · cases heq
    exact hrequotes.limit o ho'
  · cases heq

theorem acknowledged_step {s session : Session} (h : s.Sound) {e' : Velo.Event}
    (hst : s.step e' = some (l, session)) : Acknowledged s.server.book l := by
  rcases Session.step_cases hst with ⟨fd', -, -, rfl, -⟩ | ⟨fd', j, -, -, rfl, -⟩ |
    ⟨fd', j, msg, -, hj, rfl, -⟩
  · trivial
  · trivial
  · exact (h.acknowledged hj msg).1

theorem eventRow?_ack (a : AckMsg) : eventRow? (.ack a) = some (Event.ack (ofAck a)).row := by
  rw [eventRow?, Wire.decodeEvent_payload (by simp)]
  rfl

theorem eventRow?_fill {f : FillWireMsg} {side : Side} (h : side? f.restingSide.toNat = some side) :
    eventRow? (.fill f) = some (Event.fill (ofFill side f)).row := by
  have htag : Wire.tag (.fill f) = msgTypeValue .fill := rfl
  simp only [eventRow?, decodeEvent, if_pos htag, Wire.payload]
  rw [decodeFill_encodeFill h]
  rfl

theorem Logs.tick (h : Logs b log s) {p : ℤ} (hst : s.step (.tick p) = some (l, t)) :
    Logs b (log ++ l) t := by
  obtain ⟨⟨l', market⟩, hmarket, heq⟩ := Option.map_eq_some_iff.mp hst
  cases heq
  obtain ⟨c, hc, heq⟩ := Option.map_eq_some_iff.mp hmarket
  cases heq
  simp only [Client.tick] at hc
  split at hc
  · cases hc
    rw [List.append_nil]
    refine ⟨h.sound, h.connected, h.book, h.acknowledged, ?_, ?_⟩
    · have hrows := filter_not_isRequest_row ((s.market.client.strategy.onPrice p).1.take
        (sendAll (s.market.client.strategy.onPrice p).1).1.length)
      simp only [written]
      rw [List.filter_append, hrows, List.append_nil]
      exact h.events
    · simp only [written]
      have hsent := filterMap_requestRow?_sendAll fun o =>
        orderType_onPrice s.market.client.strategy p (o := o)
      rw [List.filter_append, filter_isRequest_row, h.requests, ← hsent, ← List.filterMap_append,
        List.append_assoc]
  · cases hc

theorem Logs.execute (h : Logs b log s) (hst : s.step .execute = some (l, t)) :
    Logs b (log ++ l) t := by
  obtain ⟨⟨l', market⟩, hmarket, heq⟩ := Option.map_eq_some_iff.mp hst
  cases heq
  obtain ⟨⟨l', session, c⟩, hc, heq⟩ := Option.map_eq_some_iff.mp hmarket
  cases heq
  obtain ⟨msg, requests', hrequests, hsession, rfl⟩ := Client.execute_cases hc
  have hbook := h.sound.book_step hsession
  have hsound := h.sound.step hsession
  have hacknowledged := acknowledged_step h.sound hsession
  rw [h.book] at hbook hacknowledged
  simp only [Session.step_message h.connected, Option.some.injEq, Prod.mk.injEq] at hsession
  obtain ⟨rfl, rfl⟩ := hsession
  refine ⟨hsound, h.connected, ?_, h.acknowledged.append hacknowledged, ?_, ?_⟩
  · rw [requests_append, OrderBook.run_append]
    exact hbook
  · simp only [written, List.append_nil, Client.hear]
    rw [List.filterMap_append, ← List.append_assoc, h.events, List.flatMap_append,
      List.filterMap_append]
  · have hrows := h.requests
    rw [hrequests, ← List.singleton_append, ← List.append_assoc] at hrows
    simp only [written, List.append_nil, Client.hear]
    rw [hrows, Session.asked_append, List.filterMap_append, List.filterMap_append, List.filterMap_append,
      List.filterMap_append]
    cases msg <;> simp [asked, requestRow?]

theorem Logs.handle (h : Logs b log s) (hst : s.step .handle = some (l, t)) :
    Logs b (log ++ l) t := by
  obtain ⟨⟨l', market⟩, hmarket, heq⟩ := Option.map_eq_some_iff.mp hst
  cases heq
  obtain ⟨c, hc, heq⟩ := Option.map_eq_some_iff.mp hmarket
  cases heq
  rw [List.append_nil]
  have hkept : ∀ {msg events row}, s.market.client.events = msg :: events →
      eventRow? msg = some row → row.isRequest = false →
      ∀ strategy, Logs b log ⟨⟨s.market.session, { s.market.client with
        events := events, strategy := strategy }⟩, s.rows ++ written s.market .handle⟩ := by
    intro msg events row hevents hrow hanswer strategy
    have hwritten : written s.market .handle = [row] := by
      rw [written, hevents, List.head?_cons, Option.bind_some, hrow, Option.toList_some]
    have hall := h.events
    rw [hevents, List.filterMap_cons_some hrow] at hall
    rw [hwritten]
    refine ⟨h.sound, h.connected, h.book, h.acknowledged, ?_, ?_⟩
    · rw [List.filter_append, List.filter_cons_of_pos (by simp [hanswer]), List.filter_nil,
        List.append_assoc]
      exact hall
    · rw [List.filter_append, List.filter_cons_of_neg (by simp [hanswer]), List.filter_nil,
        List.append_nil]
      exact h.requests
  obtain ⟨msg, events, hevents, ⟨a, rfl, rfl⟩ | ⟨f, side, rfl, -⟩⟩ := Client.handle_cases hc
  · exact hkept hevents (eventRow?_ack a) rfl _
  · obtain ⟨side, hside, rfl⟩ := Client.handle_fill hc hevents
    exact hkept hevents (eventRow?_fill hside) rfl _

theorem asked_other {s : Session} (h : s.Sound) {fd : Fd} {k : ConnId} (hk : s.holder fd = some k)
    {e' : Velo.Event} (he : ∀ msg, e' ≠ .message fd msg) {session : Session}
    (hst : s.step e' = some (l, session)) : asked k l = [] := by
  rcases Session.step_cases hst with ⟨fd', -, -, rfl, -⟩ | ⟨fd', j, -, -, rfl, -⟩ |
    ⟨fd', j, msg, rfl, hj, rfl, -⟩
  · rfl
  · rfl
  · have hne : j ≠ k := by
      rintro rfl
      obtain rfl := h.holder_inj hk hj
      exact he msg rfl
    simp [asked, hne]

theorem Logs.other (h : Logs b log s) {e' : Velo.Event} (hst : s.step (.other e') = some (l, t)) :
    Logs b (log ++ l) t := by
  obtain ⟨⟨l', market⟩, hmarket, heq⟩ := Option.map_eq_some_iff.mp hst
  cases heq
  simp only [Market.step] at hmarket
  split at hmarket
  · rename_i hforeign
    obtain ⟨⟨l', session⟩, hsession, heq⟩ := Option.map_eq_some_iff.mp hmarket
    cases heq
    have hopen : e' ≠ .disconnect s.market.client.fd := by
      rintro rfl
      exact hforeign rfl
    have hothers : ∀ msg, e' ≠ .message s.market.client.fd msg := by
      rintro msg rfl
      cases msg with
      | cancel m => exact hforeign.1 rfl
      | newOrder m => exact hforeign rfl
      | subscribeFills => exact hforeign rfl
    have hbook := h.sound.book_step hsession
    rw [h.book] at hbook
    refine ⟨h.sound.step hsession, Session.holder_of_step h.connected hopen hsession, ?_, ?_, ?_,
      ?_⟩
    · rw [requests_append, OrderBook.run_append]
      exact hbook
    · have hacknowledged := acknowledged_step h.sound hsession
      rw [h.book] at hacknowledged
      exact h.acknowledged.append hacknowledged
    · simp only [written, List.append_nil, Client.hear]
      rw [List.filterMap_append, ← List.append_assoc, h.events, List.flatMap_append,
        List.filterMap_append]
    · simp only [written, List.append_nil, Client.hear]
      rw [Session.asked_append, asked_other h.sound h.connected hothers hsession, List.append_nil]
      exact h.requests
  · cases hmarket

theorem Logs.step (h : Logs b log s) (hst : s.step e = some (l, t)) : Logs b (log ++ l) t := by
  cases e with
  | tick p => exact h.tick hst
  | execute => exact h.execute hst
  | handle => exact h.handle hst
  | other e' => exact h.other hst

theorem Logs.start {s₀ : Session} (h : s₀.Sound) {fd : Fd} (hfd : s₀.holder fd = none)
    (offset size : ℤ) : Logs s₀.server.book [] (start s₀ fd offset size) where
  sound := h.connect hfd
  connected := by simp [LoggedSession.start, Market.start, Client.start, Session.connect]
  book := rfl
  acknowledged := trivial
  events := rfl
  requests := rfl

end LoggedSession

end Velo.Strategy
