import Velo.Server.MarketData
import Velo.Strategy.Standing

/-! The quoter as the only one who trades at a server, over whole runs: however its ticks, the
server's work and the delivery of events interleave, its prices alone decide what is traded. -/
namespace Velo

/-- A call in the numbers of the clients. -/
def Request.toInts (r : Request) : Reference.Call ℤ ℤ :=
  r.toCall.map (fun id => (id.toNat : ℤ)) Int64.toInt

theorem map_toInts_fills (replies : List Reply) :
    (replies.flatMap Reply.fillList).map (fun f => f.toTrade.toInts) =
      (replies.map fun a => a.toAnswer.map (fun id => (id.toNat : ℤ)) Int64.toInt).flatMap
        Reference.Answer.tradeList := by
  induction replies with
  | nil => rfl
  | cons reply replies ih =>
    rw [List.flatMap_cons, List.map_append, ih, List.map_cons, List.flatMap_cons]
    cases reply with
    | fills fs =>
      refine congrArg (· ++ _) ?_
      rw [Reply.fillList, Reply.toAnswer, Reference.Answer.map, Reference.Answer.tradeList,
        List.map_map]
      rfl
    | cancelled ok => rfl

/-- An empty book, run in those numbers. -/
theorem Represents.run_toInts {b : OrderBook} (h : Represents b []) (rs : List Request) :
    let r := Reference.run [] (rs.map Request.toInts)
    ((b.run rs).1.flatMap Reply.fillList).map (fun f => f.toTrade.toInts) =
        r.1.flatMap Reference.Answer.tradeList ∧
      ((b.run rs).2.resting.map fun o => o.toResting.toInts).Perm r.2 := by
  intro r
  obtain ⟨L, hL, hrun⟩ := h.run rs
  have hids : Function.Injective fun id : UInt64 => (id.toNat : ℤ) := by
    intro id id' hid
    exact UInt64.toNat_inj.mp (Int.ofNat_inj.mp hid)
  have hprices : StrictMono Int64.toInt := fun p p' hp => Int64.lt_iff_toInt_lt.mp hp
  have hmap := Reference.run_map hids hprices [] (rs.map Request.toCall)
  rw [List.map_nil] at hmap hrun
  rw [hrun, List.map_map, List.map_map, List.map_map] at hmap
  have hr : r = _ := hmap
  rw [hr]
  exact ⟨map_toInts_fills _, hL.resting_perm.map _⟩

namespace Strategy
open Machine Reference

/-- What the reader thread makes of a message, where that is a fill: its trade. -/
def tradeOf? (msg : ServerMsg) : Option (Trade ℤ ℤ) :=
  match decodeEvent (Wire.tag msg) (Wire.payload msg) with
  | some (.fill e) =>
    some ⟨e.restingOrderId, e.incomingOrderId, e.restingSide, e.priceTicks, e.quantity.toNat⟩
  | _ => none

/-- The trades that a connection has been told of. -/
def heard (k : ConnId) (log : List Dispatch) : List (Trade ℤ ℤ) :=
  (log.flatMap fun d => received k d.delivered).filterMap tradeOf?

theorem tradeOf?_ack (a : AckMsg) : tradeOf? (.ack a) = none := by
  rw [tradeOf?, Wire.decodeEvent_payload (by simp)]
  rfl

theorem tradeOf?_fill (f : Fill) : tradeOf? (.fill f.toWire) = some f.toTrade.toInts := by
  have hside : ∀ g, ServerMsg.fill f.toWire = .fill g → g.restingSide = 0 ∨ g.restingSide = 1 := by
    intro g hg
    cases hg
    cases hs : f.restingSide <;> simp [Fill.toWire, Side.toUInt8, hs]
  rw [tradeOf?, Wire.decodeEvent_payload hside]
  cases hs : f.restingSide <;>
    simp [Wire.pythonEvent, ofFill, Fill.toWire, Fill.toTrade, Trade.toInts, hs, Side.toUInt8,
      Risk.Protocol.sideFromU8]

theorem filterMap_tradeOf? (fills : List Fill) :
    (fills.map fun f => ServerMsg.fill f.toWire).filterMap tradeOf? =
      fills.map fun f => f.toTrade.toInts := by
  induction fills with
  | nil => rfl
  | cons f fills ih =>
    rw [List.map_cons, List.filterMap_cons_some (tradeOf?_fill f), ih, List.map_cons]

theorem heard_dispatch {s : Session} (h : s.Sound) {fd : Fd} {k : ConnId}
    (hk : s.holder fd = some k) (msg : ClientMsg) :
    heard k [⟨k, msg, s.deliver (s.server.dispatch fd msg).1⟩] =
      ((s.server.book.run msg.toRequest.toList).1.flatMap Reply.fillList).map
        fun f => f.toTrade.toInts := by
  obtain ⟨acks, htold⟩ := h.received_told hk hk (Or.inl rfl) msg
  have hacks : (acks.map ServerMsg.ack).filterMap tradeOf? = [] := by
    rw [List.filterMap_eq_nil_iff]
    intro m hm
    obtain ⟨a, -, rfl⟩ := List.mem_map.mp hm
    exact tradeOf?_ack a
  rw [heard, List.flatMap_singleton, htold, List.filterMap_append, hacks, OrderBook.fillsOf,
    List.map_map, List.nil_append]
  exact filterMap_tradeOf? _

/-- Every fill that is received is a trade that is heard of. -/
theorem exists_heard {s : Session} (h : s.Sound) {fd : Fd} {k : ConnId}
    (hk : s.holder fd = some k) {msg : ClientMsg} {f : FillWireMsg}
    (hf : .fill f ∈ received k (s.deliver (s.server.dispatch fd msg).1)) :
    ∃ t ∈ heard k [⟨k, msg, s.deliver (s.server.dispatch fd msg).1⟩],
      t.restingId = f.restingOrderId.toNat := by
  obtain ⟨acks, htold⟩ := h.received_told hk hk (Or.inl rfl) msg
  rw [htold, List.mem_append] at hf
  rcases hf with hf | hf
  · obtain ⟨a, -, hf⟩ := List.mem_map.mp hf
    cases hf
  · obtain ⟨g, hg, hf⟩ := List.mem_map.mp hf
    cases hf
    obtain ⟨fill, hfill, rfl⟩ := List.mem_map.mp hg
    rw [heard_dispatch h hk]
    exact ⟨_, List.mem_map_of_mem hfill, rfl⟩

/-- What is sent, in the strategy's own numbers. -/
theorem toInts_sendAll {actions : List StrategyAction}
    (hlimit : ∀ o, .order o ∈ actions → o.orderType = .limit) (h : (sendAll actions).2) :
    ((sendAll actions).1.filterMap ClientMsg.toRequest).map Request.toInts =
      actions.map StrategyAction.toCall := by
  obtain ⟨sent, -, hsent, hall⟩ := sendAll_spec actions
  obtain rfl := hall h
  clear hall h
  generalize (sendAll sent).1 = msgs at hsent
  induction hsent with
  | nil => rfl
  | @cons action msg sent msgs hmsg _ ih =>
    have ih := ih fun o ho => hlimit o (List.mem_cons_of_mem _ ho)
    cases action with
    | order o =>
      obtain ⟨r, rfl, hr⟩ := request?_order hmsg
      have htype := hlimit o List.mem_cons_self
      have hcall : Request.toInts (.submit r.toOrder) = (StrategyAction.order o).toCall := by
        have hquantity : r.toOrder.quantity.toNat = o.quantity.toNat := by
          have hq := hr.quantity
          change r.quantity.toNat = o.quantity.toNat
          omega
        have hid := hr.id
        have hprice := hr.price htype
        have hside := hr.side
        have hotype := hr.type
        simp only [Request.toInts, Request.toCall, Call.map, Incoming.map, Order.toIncoming,
          StrategyAction.toCall, hside, hotype, hquantity]
        rw [← hid, ← hprice]
        rfl
      rw [List.map_cons, ← ih, ← hcall]
      rfl
    | cancel c =>
      obtain ⟨r, rfl, hr⟩ := request?_cancel hmsg
      have hcall : Request.toInts (.cancel r.clientOrderId) = (StrategyAction.cancel c).toCall := by
        rw [StrategyAction.toCall, ← hr]
        rfl
      rw [List.map_cons, ← ih, ← hcall]
      rfl

theorem sendAll_append {actions : List StrategyAction} (h : (sendAll actions).2)
    (actions' : List StrategyAction) :
    sendAll (actions ++ actions') =
      ((sendAll actions).1 ++ (sendAll actions').1, (sendAll actions').2) := by
  induction actions with
  | nil => rfl
  | cons action actions ih =>
    rw [List.cons_append, sendAll, sendAll]
    rw [sendAll] at h
    cases hmsg : action.request? with
    | none =>
      rw [hmsg] at h
      cases h
    | some msg =>
      rw [hmsg] at h
      dsimp only
      rw [ih h]
      rfl

theorem along_limit (quoter : FixedOffsetQuoter) (prices : List ℤ) :
    ∀ o, .order o ∈ (quoter.along prices).1 → o.orderType = .limit := by
  induction prices generalizing quoter with
  | nil => simp [FixedOffsetQuoter.along]
  | cons p prices ih =>
    intro o ho
    rcases List.mem_append.mp ho with ho | ho
    · obtain ⟨orders, cancels, hactions, hrequotes⟩ := quoter.requotes_onPrice p
      rw [hactions] at ho
      simp only [List.mem_append, List.mem_map, StrategyAction.order.injEq, exists_eq_right,
        reduceCtorEq, and_false, exists_false, or_false] at ho
      exact hrequotes.limit o ho
    · exact ih _ o ho

theorem heard_append (k : ConnId) (log log' : List Dispatch) :
    heard k (log ++ log') = heard k log ++ heard k log' := by
  rw [heard, List.flatMap_append, List.filterMap_append]
  rfl

def MarketEvent.price? : MarketEvent → Option ℤ
  | .tick priceTicks => some priceTicks
  | _ => none

/-- The prices of a run, in their order. -/
def prices (es : List MarketEvent) : List ℤ := es.filterMap MarketEvent.price?

/-- The others send no orders and no cancels. -/
def MarketEvent.LooksOn : MarketEvent → Prop
  | .other (.message _ (.newOrder _)) | .other (.message _ (.cancel _)) => False
  | _ => True

instance : DecidablePred MarketEvent.LooksOn := fun e =>
  match e with
  | .tick _ | .execute | .handle | .other (.connect _) | .other (.disconnect _)
  | .other (.message _ .subscribeFills) => .isTrue trivial
  | .other (.message _ (.newOrder _)) | .other (.message _ (.cancel _)) => .isFalse id

namespace Market

/-- A quoter whose loop has not raised, that heard `ps` and nobody to trade with: its strategy is
what the prices made it, and what it sent was executed on the book or waits. -/
structure Solo (b : OrderBook) (offset size : ℤ) (ps : List ℤ) (log : List Dispatch)
    (t : Market) : Prop where
  sound : t.session.Sound
  connected : t.session.holder t.client.fd = some t.client.conn
  strategy : t.client.strategy = ((FixedOffsetQuoter.init offset size).along ps).2
  running : (sendAll ((FixedOffsetQuoter.init offset size).along ps).1).2
  executed : ∃ done, (sendAll ((FixedOffsetQuoter.init offset size).along ps).1).1 =
      done ++ t.client.requests ∧
    t.session.server.book = (b.run (done.filterMap ClientMsg.toRequest)).2 ∧
    heard t.client.conn log = ((b.run (done.filterMap ClientMsg.toRequest)).1.flatMap
      Reply.fillList).map fun f => f.toTrade.toInts
  events : ∀ f, .fill f ∈ t.client.events → ∃ trade ∈ heard t.client.conn log,
    trade.restingId = f.restingOrderId.toNat

variable {b : OrderBook} {offset size : ℤ} {ps : List ℤ} {log l : List Dispatch} {s t : Market}

/-- The trades so far are those that the prices call for, as far as the orders were executed. -/
theorem Solo.tape (h : Solo b offset size ps log t) (hb : Represents b []) (hoffset : 1 ≤ offset)
    (hsize : 1 ≤ size) :
    heard t.client.conn log <+: (Standing.start.tape offset size ps).1 ∧
      (t.client.requests = [] →
        heard t.client.conn log = (Standing.start.tape offset size ps).1 ∧
        (t.session.server.book.resting.map fun o => o.toResting.toInts).Perm
          ((Standing.start.tape offset size ps).2.orders offset size)) := by
  obtain ⟨done, hdone, hbook, hheard⟩ := h.executed
  obtain ⟨htrades, hleft, -⟩ := (Standing.follows_start offset size).run_along hoffset hsize ps
  have hcalls := toInts_sendAll (along_limit _ ps) h.running
  rw [hdone, List.filterMap_append] at hcalls
  have hstart : Standing.start.orders (FixedOffsetQuoter.init offset size).offset
      (FixedOffsetQuoter.init offset size).size = [] := rfl
  rw [hstart, ← hcalls] at htrades hleft
  constructor
  · obtain ⟨hall, -⟩ := hb.run_toInts (done.filterMap ClientMsg.toRequest ++
      t.client.requests.filterMap ClientMsg.toRequest)
    rw [htrades, OrderBook.replies_append, List.flatMap_append, List.map_append, ← hheard] at hall
    exact ⟨_, hall⟩
  · intro hnone
    rw [hnone, List.filterMap_nil, List.append_nil] at htrades hleft
    obtain ⟨hdoneTrades, hdoneLeft⟩ := hb.run_toInts (done.filterMap ClientMsg.toRequest)
    rw [← hheard, htrades] at hdoneTrades
    rw [hleft, ← hbook] at hdoneLeft
    exact ⟨hdoneTrades, hdoneLeft⟩

theorem Solo.tick (h : Solo b offset size ps log s) {p : ℤ}
    (hst : s.step (.tick p) = some (l, t)) (hrunning : t.client.running) :
    Solo b offset size (ps ++ [p]) (log ++ l) t := by
  obtain ⟨c, hc, heq⟩ := Option.map_eq_some_iff.mp hst
  cases heq
  rw [Client.tick] at hc
  split at hc
  · cases hc
    have hsent : (sendAll (s.client.strategy.onPrice p).1).2 := hrunning
    rw [h.strategy] at hsent
    obtain ⟨done, hdone, hbook, hheard⟩ := h.executed
    have happend := sendAll_append h.running
      (((FixedOffsetQuoter.init offset size).along ps).2.onPrice p).1
    rw [List.append_nil]
    refine ⟨h.sound, h.connected, ?_, ?_, ⟨done, ?_, hbook, hheard⟩, h.events⟩
    · rw [Standing.along_snoc, h.strategy]
    · rw [Standing.along_snoc, happend]
      exact hsent
    · rw [Standing.along_snoc, happend, hdone, h.strategy, List.append_assoc]
  · cases hc

theorem Solo.execute (h : Solo b offset size ps log s) (hst : s.step .execute = some (l, t)) :
    Solo b offset size ps (log ++ l) t := by
  obtain ⟨⟨log', session, c⟩, hc, heq⟩ := Option.map_eq_some_iff.mp hst
  cases heq
  obtain ⟨msg, requests, hrequests, hstep, rfl⟩ := Client.execute_cases hc
  simp only [Session.step_message h.connected, Option.some.injEq, Prod.mk.injEq] at hstep
  obtain ⟨rfl, rfl⟩ := hstep
  obtain ⟨done, hdone, hbook, hheard⟩ := h.executed
  have hafter := h.sound.book_dispatch h.connected msg
  have htold := heard_dispatch h.sound h.connected msg
  have hrun : (done ++ [msg]).filterMap ClientMsg.toRequest =
      done.filterMap ClientMsg.toRequest ++ msg.toRequest.toList := by
    rw [List.filterMap_append]
    cases msg <;> rfl
  refine ⟨h.sound.dispatch h.connected msg, h.connected, h.strategy, h.running,
    ⟨done ++ [msg], ?_, ?_, ?_⟩, ?_⟩
  · rw [hdone, hrequests, List.append_assoc]
    rfl
  · rw [hrun, OrderBook.run_append, ← hbook]
    exact hafter
  · rw [hrun, OrderBook.replies_append, List.flatMap_append, List.map_append, ← hheard, ← hbook,
      ← htold]
    exact heard_append _ _ _
  · intro f hf
    rw [heard_append]
    rcases Client.mem_hear.mp hf with hf | ⟨d, hd, hf⟩
    · obtain ⟨trade, htrade, hid⟩ := h.events f hf
      exact ⟨trade, List.mem_append_left _ htrade, hid⟩
    · rw [List.mem_singleton.mp hd] at hf
      obtain ⟨trade, htrade, hid⟩ := exists_heard h.sound h.connected hf
      exact ⟨trade, List.mem_append_right _ htrade, hid⟩

/-- A trade that is told of was with a quote that is tracked no more. -/
theorem Solo.onFill (h : Solo b offset size ps log s) (hb : Represents b [])
    (hoffset : 1 ≤ offset) (hsize : 1 ≤ size) {f : FillWireMsg} (hf : .fill f ∈ s.client.events)
    (side : Side) : s.client.strategy.onFill (ofFill side f) = s.client.strategy := by
  obtain ⟨trade, htrade, hid⟩ := h.events f hf
  have hold := (Standing.tape_round (q := .start) (fun _ => rfl) offset size ps).2 trade
    ((h.tape hb hoffset hsize).1.subset htrade)
  obtain ⟨-, -, hfollows⟩ := (Standing.follows_start offset size).run_along hoffset hsize ps
  rw [← h.strategy] at hfollows
  have hbuy : s.client.strategy.restingBuy.map Prod.fst ≠ some (f.restingOrderId.toNat : ℤ) := by
    rw [hfollows.restingBuy, Option.map_map]
    intro hsome
    obtain ⟨p, -, heq⟩ := Option.map_eq_some_iff.mp hsome
    simp only [Function.comp_apply] at heq
    change 2 * (Standing.start.tape offset size ps).2.round - 1 = _ at heq
    omega
  have hsell : s.client.strategy.restingSell.map Prod.fst ≠ some (f.restingOrderId.toNat : ℤ) := by
    rw [hfollows.restingSell, Option.map_map]
    intro hsome
    obtain ⟨p, -, heq⟩ := Option.map_eq_some_iff.mp hsome
    simp only [Function.comp_apply] at heq
    change 2 * (Standing.start.tape offset size ps).2.round = _ at heq
    omega
  rw [FixedOffsetQuoter.onFill, ofFill, if_neg hbuy, if_neg hsell]

theorem Solo.handle (h : Solo b offset size ps log s) (hb : Represents b [])
    (hoffset : 1 ≤ offset) (hsize : 1 ≤ size) (hst : s.step .handle = some (l, t)) :
    Solo b offset size ps (log ++ l) t := by
  obtain ⟨c, hc, heq⟩ := Option.map_eq_some_iff.mp hst
  cases heq
  obtain ⟨msg, events, hevents, ⟨ack, rfl, rfl⟩ | ⟨fill, side, rfl, rfl⟩⟩ :=
    Client.handle_cases hc
  · rw [List.append_nil]
    exact ⟨h.sound, h.connected, h.strategy, h.running, h.executed,
      fun f hf => h.events f (hevents ▸ List.mem_cons_of_mem _ hf)⟩
  · have hsame := h.onFill hb hoffset hsize (hevents ▸ List.mem_cons_self) side
    rw [List.append_nil]
    exact ⟨h.sound, h.connected, hsame.trans h.strategy, h.running, h.executed,
      fun f hf => h.events f (hevents ▸ List.mem_cons_of_mem _ hf)⟩

/-- The others only look on. -/
theorem Solo.other (h : Solo b offset size ps log s) {e : Velo.Event}
    (hidle : (MarketEvent.other e).LooksOn) (hst : s.step (.other e) = some (l, t)) :
    Solo b offset size ps (log ++ l) t := by
  simp only [Market.step] at hst
  split at hst
  · rename_i hforeign
    obtain ⟨⟨log', session⟩, hsession, heq⟩ := Option.map_eq_some_iff.mp hst
    cases heq
    have hsound := h.sound.step hsession
    rcases Session.step_cases hsession with ⟨fd, rfl, hfd, rfl, rfl⟩ |
      ⟨fd, k, rfl, -, rfl, rfl⟩ | ⟨fd, k, msg, rfl, hk, rfl, rfl⟩
    · have hne : s.client.fd ≠ fd := by
        rintro rfl
        rw [h.connected] at hfd
        cases hfd
      rw [List.append_nil]
      refine ⟨hsound, ?_, h.strategy, h.running, h.executed, ?_⟩
      · simp only [Session.connect, Client.hear, Function.update_of_ne hne]
        exact h.connected
      · simpa [Client.hear] using h.events
    · rw [List.append_nil]
      refine ⟨hsound, ?_, h.strategy, h.running, h.executed, ?_⟩
      · simp only [Session.disconnect, Client.hear, Function.update_of_ne (Ne.symm hforeign)]
        exact h.connected
      · simpa [Client.hear] using h.events
    · cases msg with
      | newOrder m => exact hidle.elim
      | cancel m => exact hidle.elim
      | subscribeFills =>
        have hsilent : heard s.client.conn (log ++ [⟨k, .subscribeFills, s.session.deliver
            (s.session.server.dispatch fd .subscribeFills).1⟩]) = heard s.client.conn log := by
          rw [heard_append]
          exact List.append_nil _
        refine ⟨hsound, h.connected, h.strategy, h.running, ?_, ?_⟩
        · obtain ⟨done, hdone, hbook, hheard⟩ := h.executed
          exact ⟨done, hdone, hbook, hsilent.trans hheard⟩
        · intro f hf
          have hf : .fill f ∈ s.client.events := by
            simpa [Client.hear, OrderBookServer.dispatch, Session.deliver, received] using hf
          obtain ⟨trade, htrade, hid⟩ := h.events f hf
          exact ⟨trade, hsilent ▸ htrade, hid⟩
  · cases hst

/-- A loop that runs has run all along. -/
theorem running_of_step {e : MarketEvent} (hst : s.step e = some (l, t))
    (hrunning : t.client.running) : s.client.running := by
  cases e with
  | tick p =>
    obtain ⟨c, hc, heq⟩ := Option.map_eq_some_iff.mp hst
    cases heq
    rw [Client.tick] at hc
    split at hc
    · assumption
    · cases hc
  | execute =>
    obtain ⟨⟨log', session, c⟩, hc, heq⟩ := Option.map_eq_some_iff.mp hst
    cases heq
    obtain ⟨msg, requests, -, -, rfl⟩ := Client.execute_cases hc
    exact hrunning
  | handle =>
    obtain ⟨c, hc, heq⟩ := Option.map_eq_some_iff.mp hst
    cases heq
    obtain ⟨msg, events, -, ⟨ack, -, rfl⟩ | ⟨fill, side, -, rfl⟩⟩ := Client.handle_cases hc
    · exact hrunning
    · exact hrunning
  | other e =>
    simp only [Market.step] at hst
    split at hst
    · obtain ⟨⟨log', session⟩, -, heq⟩ := Option.map_eq_some_iff.mp hst
      cases heq
      exact hrunning
    · cases hst

theorem Solo.start {s₀ : Session} (h : s₀.Sound) {fd : Fd} (hfd : s₀.holder fd = none)
    (offset size : ℤ) :
    Solo s₀.server.book offset size [] [] (Market.start s₀ fd offset size) where
  sound := h.connect hfd
  connected := by simp [Market.start, Client.start, Session.connect]
  strategy := rfl
  running := rfl
  executed := ⟨[], rfl, rfl, rfl⟩
  events := by simp [Market.start, Client.start]

theorem Solo.run (hb : Represents b []) (hoffset : 1 ≤ offset) (hsize : 1 ≤ size)
    {es : List MarketEvent} (hidle : ∀ e ∈ es, e.LooksOn) (hr : run step s es = some (l, t))
    (hrunning : t.client.running) (h : s.client.running → Solo b offset size ps log s) :
    Solo b offset size (ps ++ prices es) (log ++ l) t := by
  induction es generalizing s ps log l with
  | nil =>
    obtain ⟨rfl, rfl⟩ := run_nil.mp hr
    rw [prices, List.filterMap_nil, List.append_nil, List.append_nil]
    exact h hrunning
  | cons e es ih =>
    obtain ⟨l₁, u, l₂, hst, hrest, rfl⟩ := run_cons.mp hr
    obtain ⟨he, hes⟩ := List.forall_mem_cons.mp hidle
    have hnext : u.client.running → Solo b offset size (ps ++ (e.price?).toList) (log ++ l₁) u := by
      intro hu
      have h := h (running_of_step hst hu)
      cases e with
      | tick p => exact h.tick hst hu
      | execute => exact (List.append_nil ps).symm ▸ h.execute hst
      | handle => exact (List.append_nil ps).symm ▸ h.handle hb hoffset hsize hst
      | other e => exact (List.append_nil ps).symm ▸ h.other he hst
    have hend := ih hes hrest hnext
    rw [List.append_assoc, List.append_assoc] at hend
    have hprices : (e.price?).toList ++ prices es = prices (e :: es) := by
      cases e <;> rfl
    rwa [hprices] at hend

theorem Solo.of_run {before : List Velo.Event} {log₀ : List Dispatch} {s₀ : Session}
    (h₀ : Machine.run Session.step .start before = some (log₀, s₀)) {fd : Fd}
    (hfd : s₀.holder fd = none) (hempty : s₀.server.book.resting = []) (hoffset : 1 ≤ offset)
    (hsize : 1 ≤ size) {es : List MarketEvent} (hidle : ∀ e ∈ es, e.LooksOn)
    (hr : Machine.run step (Market.start s₀ fd offset size) es = some (log, t))
    (hrunning : t.client.running) :
    Represents s₀.server.book [] ∧ Solo s₀.server.book offset size (prices es) log t := by
  have hs := Session.Sound.start.run h₀
  obtain ⟨L, hL⟩ := hs.book
  have hnil : L = [] := List.perm_nil.mp (hempty ▸ hL.resting_perm).symm
  subst hnil
  exact ⟨hL, Solo.run hL hoffset hsize hidle hr hrunning fun _ => Solo.start hs hfd offset size⟩

/-- A quoter at a server where no order rests and nobody else sends any: however its loop, the
server and the delivery of events interleave, the trades that it is told of are, as far as its
orders have been executed, those that its prices call for, and what rests when all have been are the
quotes that should stand. -/
theorem quoter_alone {before : List Velo.Event} {log₀ : List Dispatch} {s₀ : Session}
    (h₀ : Machine.run Session.step .start before = some (log₀, s₀)) {fd : Fd}
    (hfd : s₀.holder fd = none) (hempty : s₀.server.book.resting = []) (hoffset : 1 ≤ offset)
    (hsize : 1 ≤ size) {es : List MarketEvent} (hidle : ∀ e ∈ es, e.LooksOn)
    (hr : Machine.run step (Market.start s₀ fd offset size) es = some (log, t))
    (hrunning : t.client.running) :
    let called := Standing.start.tape offset size (prices es)
    heard t.client.conn log <+: called.1 ∧
      (t.client.requests = [] →
        heard t.client.conn log = called.1 ∧
        (t.session.server.book.resting.map fun o => o.toResting.toInts).Perm
          (called.2.orders offset size)) := by
  obtain ⟨hbook, hsolo⟩ := Solo.of_run h₀ hfd hempty hoffset hsize hidle hr hrunning
  exact hsolo.tape hbook hoffset hsize

/-- The price rises by two offsets, and the loop hears of it late. -/
theorem quoter_alone_through_a_rise :
    ∃ log t, Machine.run step (start .start 3 1 10) [.tick 100, .execute, .tick 102, .execute,
        .execute, .handle, .execute, .execute, .execute, .handle, .handle] = some (log, t) ∧
      heard t.client.conn log = [⟨2, 3, .sell, 101, 10⟩] ∧
      (t.session.server.book.resting.map fun o => o.toResting.toInts).Perm
        [⟨4, .sell, 103, 10⟩] := by
  have hend : (Machine.run step (start .start 3 1 10) [.tick 100, .execute, .tick 102, .execute,
      .execute, .handle, .execute, .execute, .execute, .handle, .handle]).map
        (fun r => decide (r.2.client.requests = [] ∧ r.2.client.running)) = some true := by
    decide +kernel
  obtain ⟨⟨log, t⟩, hrun, ht⟩ := Option.map_eq_some_iff.mp hend
  obtain ⟨hnone, hrunning⟩ := of_decide_eq_true ht
  have hfresh : Machine.run Session.step .start [] = some ([], .start) := rfl
  exact ⟨log, t, hrun, (quoter_alone hfresh rfl rfl (by decide) (by decide) (by decide) hrun
    hrunning).2 hnone⟩
end Market
end Strategy
end Velo
