import Velo.Server.Session
import Velo.Strategy.Quoter
import Velo.Wire.Agreement

/-! `session_runner.py` over `client.py`: what a strategy asks for goes to the server in the order
sent, and what the server writes is handed to it in the order written, both after any delay. -/
namespace Velo.Strategy
open Struct

/-- `submit_market`, `submit_limit` or `cancel`. -/
def StrategyAction.encode : StrategyAction → Option (List UInt8)
  | .order action =>
    if action.orderType = .market then
      encodeNewOrder ⟨action.orderId, action.side, .market, 0, action.quantity⟩
    else
      encodeNewOrder ⟨action.orderId, action.side, .limit, action.priceTicks, action.quantity⟩
  | .cancel action => encodeCancel action.orderId

/-- The message that the server reads from the bytes of an action. -/
def StrategyAction.request? (action : StrategyAction) : Option ClientMsg :=
  action.encode.bind fun buf =>
    match clientNext buf with
    | .item msg [] => some msg
    | _ => none

/-- What is sent for the actions of an `on_price`, and whether all of it could be: the first that
does not fit its fields raises. -/
def sendAll : List StrategyAction → List ClientMsg × Bool
  | [] => ([], true)
  | action :: actions =>
    match action.request? with
    | none => ([], false)
    | some msg => (msg :: (sendAll actions).1, (sendAll actions).2)

/-- A strategy at its end of a connection: `requests` are sent and not yet executed, `events` are
written by the server and not yet handed over, and the loop is `running` until it raises. -/
structure Client (σ : Type) where
  fd : Fd
  conn : ConnId
  strategy : σ
  running : Bool
  requests : List ClientMsg
  events : List ServerMsg

namespace Client

variable {σ : Type}

def start (fd : Fd) (conn : ConnId) (strategy : σ) : Client σ := ⟨fd, conn, strategy, true, [], []⟩

/-- One tick of the loop, for what `on_price` answers. -/
def tick (c : Client σ) (answer : List StrategyAction × σ) : Option (Client σ) :=
  if c.running then
    some { c with
      strategy := answer.2
      running := (sendAll answer.1).2
      requests := c.requests ++ (sendAll answer.1).1 }
  else none

/-- One round of `drain`. -/
def handle (c : Client σ) (onFill : σ → FillEvent → σ) : Option (Client σ) :=
  match c.running, c.events with
  | true, msg :: events =>
    (decodeEvent (Wire.tag msg) (Wire.payload msg)).map fun
      | .ack _ => { c with events := events }
      | .fill event => { c with events := events, strategy := onFill c.strategy event }
  | _, _ => none

/-- What a dispatch delivers here comes after what was delivered before. -/
def hear (c : Client σ) (log : List Dispatch) : Client σ :=
  { c with events := c.events ++ log.flatMap fun d => received c.conn d.delivered }

/-- The server executes the oldest request. -/
def execute (c : Client σ) (s : Session) : Option (List Dispatch × Session × Client σ) :=
  match c.requests with
  | [] => none
  | msg :: requests =>
    (s.step (.message c.fd msg)).map fun r => (r.1, r.2, { c with requests := requests }.hear r.1)

end Client

theorem fits_of_pack {c : Code} {x : ℤ} {l : List UInt8} (h : c.pack x = some l) :
    c.low ≤ x ∧ x < c.high := by
  simp only [Code.pack] at h
  split at h
  · assumption
  · cases h

theorem exists_word_of_pack_Q {x : ℤ} {l : List UInt8} (h : Code.Q.pack x = some l) :
    ∃ v : UInt64, (v.toNat : ℤ) = x := by
  obtain ⟨hlow, hhigh⟩ := fits_of_pack h
  simp only [Code.low, Code.high] at hlow hhigh
  refine ⟨.ofNat x.toNat, ?_⟩
  rw [UInt64.toNat_ofNat']
  omega

theorem exists_word_of_pack_I {x : ℤ} {l : List UInt8} (h : Code.I.pack x = some l) :
    ∃ v : UInt32, (v.toNat : ℤ) = x := by
  obtain ⟨hlow, hhigh⟩ := fits_of_pack h
  simp only [Code.low, Code.high] at hlow hhigh
  refine ⟨.ofNat x.toNat, ?_⟩
  rw [UInt32.toNat_ofNat']
  omega

theorem exists_word_of_pack_q {x : ℤ} {l : List UInt8} (h : Code.q.pack x = some l) :
    ∃ v : Int64, v.toInt = x := by
  obtain ⟨hlow, hhigh⟩ := fits_of_pack h
  simp only [Code.low, Code.high] at hlow hhigh
  exact ⟨.ofInt x, Int64.toInt_ofInt_of_le hlow hhigh⟩

theorem request?_eq {action : StrategyAction} {m : Wire.Message}
    (h : action.encode = m.pythonBytes) : action.request? = some m.toClientMsg := by
  have hnext := Wire.clientNext_rustBytes m []
  rw [List.append_nil] at hnext
  rw [StrategyAction.request?, h, Wire.pythonBytes_eq, Option.bind_some, hnext]

/-- An order that can be sent is the one that the server reads. -/
theorem newOrder_of_encode {msg : OrderMsg} {buf : List UInt8} (h : encodeNewOrder msg = some buf) :
    ∃ m : Wire.Message, encodeNewOrder msg = m.pythonBytes ∧
      ∃ r : ClientOrderMsg, m.toClientMsg = .newOrder r ∧ (r.clientOrderId.toNat : ℤ) =
        msg.clientOrderId ∧ r.toOrder.side = msg.side ∧ r.toOrder.type = msg.orderType ∧
          r.priceTicks.toInt = msg.priceTicks ∧ (r.quantity.toNat : ℤ) = msg.quantity := by
  simp only [encodeNewOrder, newOrderFmt, pack, Option.bind_eq_bind, Option.bind_eq_some_iff] at h
  obtain ⟨_, ⟨_, hid, _, ⟨_, -, _, ⟨_, -, _, ⟨_, hprice, _, ⟨_, hquantity, -⟩, -⟩, -⟩, -⟩, -⟩, -⟩ :=
    h
  obtain ⟨clientOrderId, hid⟩ := exists_word_of_pack_Q hid
  obtain ⟨priceTicks, hprice⟩ := exists_word_of_pack_q hprice
  obtain ⟨quantity, hquantity⟩ := exists_word_of_pack_I hquantity
  refine ⟨.newOrder ⟨clientOrderId, msg.side, msg.orderType, priceTicks, quantity⟩, ?_, _, rfl,
    hid, ?_, ?_, hprice, hquantity⟩
  · rw [Wire.Message.pythonBytes, hid, hprice, hquantity]
  · cases hside : msg.side <;> simp [ClientOrderMsg.toOrder, Side.toUInt8]
  · cases htype : msg.orderType <;> simp [ClientOrderMsg.toOrder, Risk.Protocol.orderTypeAsU8]

/-- The message that an order becomes. -/
structure OrderRequest.SentAs (action : OrderRequest) (msg : ClientOrderMsg) : Prop where
  id : (msg.clientOrderId.toNat : ℤ) = action.orderId
  side : msg.toOrder.side = action.side
  type : msg.toOrder.type = action.orderType
  price : action.orderType = .limit → msg.priceTicks.toInt = action.priceTicks
  quantity : (msg.quantity.toNat : ℤ) = action.quantity

theorem request?_order {action : OrderRequest} {msg : ClientMsg}
    (h : (StrategyAction.order action).request? = some msg) :
    ∃ r, msg = .newOrder r ∧ action.SentAs r := by
  obtain ⟨buf, hbuf, -⟩ := Option.bind_eq_some_iff.mp h
  simp only [StrategyAction.encode] at hbuf
  split at hbuf
  · rename_i htype
    obtain ⟨m, hm, r, hr, hid, hside, htype', -, hquantity⟩ := newOrder_of_encode hbuf
    rw [request?_eq (by rw [StrategyAction.encode, if_pos htype, hm]), hr] at h
    refine ⟨r, (Option.some.inj h).symm, hid, hside, htype'.trans htype.symm, ?_, hquantity⟩
    intro hlimit
    simp [htype] at hlimit
  · rename_i htype
    have hlimit : action.orderType = .limit := by
      cases hlim : action.orderType with
      | limit => rfl
      | market => exact absurd hlim htype
    obtain ⟨m, hm, r, hr, hid, hside, htype', hprice, hquantity⟩ := newOrder_of_encode hbuf
    rw [request?_eq (by rw [StrategyAction.encode, if_neg htype, hm]), hr] at h
    exact ⟨r, (Option.some.inj h).symm, hid, hside, htype'.trans hlimit.symm, fun _ => hprice,
      hquantity⟩

theorem request?_cancel {action : CancelRequest} {msg : ClientMsg}
    (h : (StrategyAction.cancel action).request? = some msg) :
    ∃ r : CancelMsg, msg = .cancel r ∧ (r.clientOrderId.toNat : ℤ) = action.orderId := by
  obtain ⟨buf, hbuf, -⟩ := Option.bind_eq_some_iff.mp h
  have hpack := hbuf
  simp only [StrategyAction.encode, encodeCancel, cancelFmt, pack, Option.bind_eq_bind,
    Option.bind_eq_some_iff] at hpack
  obtain ⟨_, ⟨_, hid, -⟩, -⟩ := hpack
  obtain ⟨clientOrderId, hid⟩ := exists_word_of_pack_Q hid
  have hm : (StrategyAction.cancel action).encode =
      (Wire.Message.cancel clientOrderId).pythonBytes := by
    rw [Wire.Message.pythonBytes, hid]
    rfl
  rw [request?_eq hm] at h
  exact ⟨⟨clientOrderId⟩, (Option.some.inj h).symm, hid⟩

def newOrderId? : ClientMsg → Option ℤ
  | .newOrder msg => some msg.clientOrderId.toNat
  | _ => none

def cancelId? : ClientMsg → Option ℤ
  | .cancel msg => some msg.clientOrderId.toNat
  | _ => none

/-- The ids of the new orders among some requests. -/
def newOrderIds (requests : List ClientMsg) : List ℤ := requests.filterMap newOrderId?

/-- The ids that some requests cancel. -/
def cancelIds (requests : List ClientMsg) : List ℤ := requests.filterMap cancelId?

theorem sendAll_spec (actions : List StrategyAction) : ∃ sent, sent.Sublist actions ∧
    List.Forall₂ (fun a msg => a.request? = some msg) sent (sendAll actions).1 ∧
      ((sendAll actions).2 → sent = actions) := by
  induction actions with
  | nil => exact ⟨[], .slnil, .nil, fun _ => rfl⟩
  | cons action actions ih =>
    simp only [sendAll]
    cases hmsg : action.request? with
    | none => exact ⟨[], List.nil_sublist _, .nil, by simp⟩
    | some msg =>
      obtain ⟨sent, hsub, hsent, hall⟩ := ih
      exact ⟨action :: sent, hsub.cons_cons _, .cons hmsg hsent, fun h => by rw [hall h]⟩

theorem mem_sendAll {actions : List StrategyAction} {msg : ClientMsg}
    (h : msg ∈ (sendAll actions).1) : ∃ action ∈ actions, action.request? = some msg := by
  obtain ⟨sent, hsub, hsent, -⟩ := sendAll_spec actions
  obtain ⟨i, hi, rfl⟩ := List.mem_iff_getElem.mp h
  have hi' : i < sent.length := hsent.length_eq ▸ hi
  exact ⟨sent[i], hsub.subset (List.getElem_mem hi'), hsent.get hi' hi⟩

/-- Orders followed by cancels, as the server reads them. -/
theorem requests_of_forall₂ {orders : List OrderRequest} {cancels : List CancelRequest}
    {requests : List ClientMsg}
    (h : List.Forall₂ (fun a msg => StrategyAction.request? a = some msg)
      (orders.map .order ++ cancels.map .cancel) requests) :
    ∃ msgs stale, requests = msgs.map .newOrder ++ stale.map .cancel ∧
      List.Forall₂ OrderRequest.SentAs orders msgs ∧
      List.Forall₂ (fun c (m : CancelMsg) => (m.clientOrderId.toNat : ℤ) = c.orderId) cancels
        stale := by
  induction orders generalizing requests with
  | nil =>
    induction cancels generalizing requests with
    | nil =>
      cases h
      exact ⟨[], [], rfl, .nil, .nil⟩
    | cons c cancels ih =>
      obtain ⟨msg, tail, hc, htail, rfl⟩ := List.forall₂_cons_left_iff.mp h
      obtain ⟨r, rfl, hr⟩ := request?_cancel hc
      obtain ⟨msgs, stale, rfl, hmsgs, hstale⟩ := ih htail
      cases hmsgs
      exact ⟨[], r :: stale, rfl, .nil, .cons hr hstale⟩
  | cons o orders ih =>
    obtain ⟨msg, tail, ho, htail, rfl⟩ := List.forall₂_cons_left_iff.mp h
    obtain ⟨r, rfl, hr⟩ := request?_order ho
    obtain ⟨msgs, stale, rfl, hmsgs, hstale⟩ := ih htail
    exact ⟨r :: msgs, stale, rfl, .cons hr hmsgs, hstale⟩

section Ids

variable {requests requests' : List ClientMsg} {msg : ClientMsg} {n : ℤ}

theorem mem_newOrderIds_cons : n ∈ newOrderIds (msg :: requests) ↔
    newOrderId? msg = some n ∨ n ∈ newOrderIds requests := by
  simp [newOrderIds]

theorem mem_cancelIds_cons : n ∈ cancelIds (msg :: requests) ↔
    cancelId? msg = some n ∨ n ∈ cancelIds requests := by
  simp [cancelIds]

@[simp] theorem newOrderIds_append :
    newOrderIds (requests ++ requests') = newOrderIds requests ++ newOrderIds requests' :=
  List.filterMap_append

@[simp] theorem cancelIds_append :
    cancelIds (requests ++ requests') = cancelIds requests ++ cancelIds requests' :=
  List.filterMap_append

@[simp] theorem newOrderIds_map_newOrder (msgs : List ClientOrderMsg) :
    newOrderIds (msgs.map .newOrder) = msgs.map fun m => (m.clientOrderId.toNat : ℤ) := by
  induction msgs with
  | nil => rfl
  | cons m msgs ih => exact congrArg (List.cons _) ih

@[simp] theorem newOrderIds_map_cancel (msgs : List CancelMsg) :
    newOrderIds (msgs.map .cancel) = [] := by
  simp [newOrderIds, newOrderId?]

@[simp] theorem cancelIds_map_newOrder (msgs : List ClientOrderMsg) :
    cancelIds (msgs.map .newOrder) = [] := by
  simp [cancelIds, cancelId?]

@[simp] theorem cancelIds_map_cancel (msgs : List CancelMsg) :
    cancelIds (msgs.map .cancel) = msgs.map fun m => (m.clientOrderId.toNat : ℤ) := by
  induction msgs with
  | nil => rfl
  | cons m msgs ih => exact congrArg (List.cons _) ih

theorem ids_of_sent {orders : List OrderRequest} {msgs : List ClientOrderMsg}
    (h : List.Forall₂ OrderRequest.SentAs orders msgs) :
    (msgs.map fun m => (m.clientOrderId.toNat : ℤ)) = orders.map OrderRequest.orderId := by
  induction h with
  | nil => rfl
  | cons ho _ ih => rw [List.map_cons, List.map_cons, ih, ho.id]

theorem ids_of_cancelled {cancels : List CancelRequest} {stale : List CancelMsg}
    (h : List.Forall₂ (fun c (m : CancelMsg) => (m.clientOrderId.toNat : ℤ) = c.orderId) cancels
      stale) :
    (stale.map fun m => (m.clientOrderId.toNat : ℤ)) = cancels.map CancelRequest.orderId := by
  induction h with
  | nil => rfl
  | cons hc _ ih => rw [List.map_cons, List.map_cons, ih, hc]

end Ids

namespace Client

variable {σ : Type} {c c' : Client σ} {s s' : Session} {log : List Dispatch}
  {onFill : σ → FillEvent → σ}

theorem mem_hear {msg : ServerMsg} : msg ∈ (c.hear log).events ↔
    msg ∈ c.events ∨ ∃ d ∈ log, msg ∈ received c.conn d.delivered := by
  simp [hear]

theorem handle_cases (h : c.handle onFill = some c') : ∃ msg events, c.events = msg :: events ∧
    ((∃ ack, msg = .ack ack ∧ c' = { c with events := events }) ∨
      ∃ fill side, msg = .fill fill ∧
        c' = { c with events := events, strategy := onFill c.strategy (ofFill side fill) }) := by
  unfold handle at h
  split at h
  · rename_i msg events _ hevents
    refine ⟨msg, events, hevents, ?_⟩
    cases msg with
    | ack ack =>
      rw [Wire.decodeEvent_payload (by simp)] at h
      exact Or.inl ⟨ack, rfl, (Option.some.inj h).symm⟩
    | fill fill =>
      have htag : Wire.tag (.fill fill) = msgTypeValue .fill := rfl
      rw [decodeEvent, if_pos htag] at h
      cases hside : side? fill.restingSide.toNat with
      | none =>
        simp [Wire.payload, decodeFill, unpack_pack (pack_fill fill), hside] at h
      | some side =>
        rw [Wire.payload, decodeFill_encodeFill hside] at h
        exact Or.inr ⟨fill, side, rfl, (Option.some.inj h).symm⟩
  · cases h

theorem execute_cases (h : c.execute s = some (log, s', c')) : ∃ msg requests,
    c.requests = msg :: requests ∧ s.step (.message c.fd msg) = some (log, s') ∧
      c' = { c with requests := requests }.hear log := by
  unfold execute at h
  split at h
  · cases h
  · rename_i msg requests hrequests
    obtain ⟨⟨log', t⟩, hst, heq⟩ := Option.map_eq_some_iff.mp h
    cases heq
    exact ⟨msg, requests, hrequests, hst, rfl⟩

/-- A tick of the quoter sends what it can of its new quotes, and then of the cancels. -/
theorem tick_cases {c c' : Client FixedOffsetQuoter} {priceTicks : ℤ}
    (h : c.tick (c.strategy.onPrice priceTicks) = some c') :
    ∃ orders cancels orders' cancels' msgs, ∃ stale : List CancelMsg,
      c.strategy.Requotes orders cancels (c.strategy.onPrice priceTicks).2 ∧
      orders'.Sublist orders ∧ cancels'.Sublist cancels ∧
      (c'.running → orders' = orders ∧ cancels' = cancels) ∧
      List.Forall₂ OrderRequest.SentAs orders' msgs ∧
      (stale.map fun m => (m.clientOrderId.toNat : ℤ)) = cancels'.map CancelRequest.orderId ∧
      c' = { c with
        strategy := (c.strategy.onPrice priceTicks).2
        running := c'.running
        requests := c.requests ++ (msgs.map .newOrder ++ stale.map .cancel) } := by
  obtain ⟨orders, cancels, hactions, hrequotes⟩ := c.strategy.requotes_onPrice priceTicks
  obtain ⟨sent, hsub, hsent, hall⟩ := sendAll_spec (c.strategy.onPrice priceTicks).1
  rw [hactions] at hsub hall
  obtain ⟨left, right, rfl, hleft, hright⟩ := List.sublist_append_iff.mp hsub
  obtain ⟨orders', horders', rfl⟩ := List.sublist_map_iff.mp hleft
  obtain ⟨cancels', hcancels', rfl⟩ := List.sublist_map_iff.mp hright
  obtain ⟨msgs, stale, hrequests, hmsgs, hstale⟩ := requests_of_forall₂ hsent
  simp only [tick] at h
  split at h
  · cases h
    refine ⟨orders, cancels, orders', cancels', msgs, stale, hrequotes, horders', hcancels', ?_,
      hmsgs, ids_of_cancelled hstale, by rw [hrequests]⟩
    intro hrunning
    have heq := hall (hactions ▸ hrunning)
    have hlen := congrArg List.length heq
    simp only [List.length_append, List.length_map] at hlen
    have ho := horders'.length_le
    have hc := hcancels'.length_le
    exact ⟨horders'.eq_of_length_le (by omega), hcancels'.eq_of_length_le (by omega)⟩
  · cases h

/-- Quotes are numbered upwards: those still to be executed come after the orders that `P` holds
of. -/
structure InOrder (c : Client FixedOffsetQuoter) (P : UInt64 → Prop) : Prop where
  increasing : (newOrderIds c.requests).Pairwise (· < ·)
  issued : ∀ n ∈ newOrderIds c.requests, n < c.strategy.nextId
  executed : ∀ id, P id → (id.toNat : ℤ) < c.strategy.nextId ∧
    ∀ n ∈ newOrderIds c.requests, (id.toNat : ℤ) < n

theorem InOrder.start {fd : Fd} {conn : ConnId} {q : FixedOffsetQuoter} {P : UInt64 → Prop}
    (h : ∀ id, ¬ P id) : (Client.start fd conn q).InOrder P :=
  ⟨List.Pairwise.nil, by simp [Client.start, newOrderIds], fun id hid => absurd hid (h id)⟩

theorem InOrder.tick {c c' : Client FixedOffsetQuoter} {P : UInt64 → Prop} {priceTicks : ℤ}
    (h : c.InOrder P) (hc : c.tick (c.strategy.onPrice priceTicks) = some c') : c'.InOrder P := by
  obtain ⟨orders, cancels, orders', cancels', msgs, stale, hrequotes, horders, -, -, hmsgs, -,
    hc⟩ := tick_cases hc
  have hids : newOrderIds c'.requests =
      newOrderIds c.requests ++ orders'.map OrderRequest.orderId := by
    rw [hc]
    simp [ids_of_sent hmsgs]
  have hfresh : ∀ n ∈ orders'.map OrderRequest.orderId,
      c.strategy.nextId ≤ n ∧ n < c'.strategy.nextId := by
    intro n hn
    obtain ⟨o, ho, rfl⟩ := List.mem_map.mp hn
    rw [hc]
    exact hrequotes.fresh o (horders.subset ho)
  have hle : c.strategy.nextId ≤ c'.strategy.nextId := by
    rw [hc]
    exact hrequotes.nextId_le
  constructor
  · rw [hids, List.pairwise_append]
    refine ⟨h.increasing, hrequotes.increasing.sublist (horders.map _), ?_⟩
    intro n hn m hm
    exact (h.issued n hn).trans_le (hfresh m hm).1
  · intro n hn
    rw [hids] at hn
    rcases List.mem_append.mp hn with hn | hn
    · exact (h.issued n hn).trans_le hle
    · exact (hfresh n hn).2
  · intro id hid
    obtain ⟨hissued, hbefore⟩ := h.executed id hid
    refine ⟨hissued.trans_le hle, ?_⟩
    intro n hn
    rw [hids] at hn
    rcases List.mem_append.mp hn with hn | hn
    · exact hbefore n hn
    · exact hissued.trans_le (hfresh n hn).1

/-- The server executes the requests in their order. -/
theorem InOrder.execute {c : Client FixedOffsetQuoter} {P P' : UInt64 → Prop} {msg : ClientMsg}
    {requests : List ClientMsg} (h : c.InOrder P) (hrequests : c.requests = msg :: requests)
    (hP : ∀ id, P' id → P id ∨ newOrderId? msg = some (id.toNat : ℤ)) (log : List Dispatch) :
    ({ c with requests := requests }.hear log).InOrder P' := by
  have hsub : (newOrderIds requests).Sublist (newOrderIds c.requests) := by
    rw [hrequests]
    exact (List.sublist_cons_self msg requests).filterMap _
  refine ⟨h.increasing.sublist hsub, fun n hn => h.issued n (hsub.subset hn), ?_⟩
  intro id hid
  rcases hP id hid with hid | hid
  · obtain ⟨hissued, hbefore⟩ := h.executed id hid
    exact ⟨hissued, fun n hn => hbefore n (hsub.subset hn)⟩
  · have hids : newOrderIds c.requests = (id.toNat : ℤ) :: newOrderIds requests := by
      rw [hrequests, newOrderIds, List.filterMap_cons_some hid]
      rfl
    have hincreasing := h.increasing
    rw [hids] at hincreasing
    exact ⟨h.issued _ (hids ▸ List.mem_cons_self), (List.pairwise_cons.mp hincreasing).1⟩

theorem InOrder.mono {c c' : Client FixedOffsetQuoter} {P P' : UInt64 → Prop} (h : c.InOrder P)
    (hP : ∀ id, P' id → P id) (hrequests : c'.requests = c.requests)
    (hnext : c'.strategy.nextId = c.strategy.nextId) : c'.InOrder P' := by
  constructor
  · rw [hrequests]
    exact h.increasing
  · rw [hrequests, hnext]
    exact h.issued
  · rw [hrequests, hnext]
    intro id hid
    exact h.executed id (hP id hid)

end Client

end Velo.Strategy
