import Velo.Server.Holding
import Velo.Strategy.Client

/-! What the quoter takes to be resting, against the book: one quoter at a server, among any other
clients. -/
namespace Velo.Strategy
open Machine

namespace FixedOffsetQuoter

/-- The quoter takes an order with this id to be resting. -/
def Tracks (q : FixedOffsetQuoter) (id : ℤ) : Prop :=
  q.restingBuy.map Prod.fst = some id ∨ q.restingSell.map Prod.fst = some id

instance (q : FixedOffsetQuoter) (id : ℤ) : Decidable (q.Tracks id) :=
  inferInstanceAs (Decidable (_ ∨ _))

variable {q q' : FixedOffsetQuoter} {side side' : Side} {id price price' : ℤ}
  {orders : List OrderRequest} {cancels : List CancelRequest}

theorem tracks_iff : q.Tracks id ↔ ∃ side price, q.resting side = some (id, price) := by
  constructor
  · rintro (h | h)
    · obtain ⟨⟨_, price⟩, hc, rfl⟩ := Option.map_eq_some_iff.mp h
      exact ⟨.buy, price, hc⟩
    · obtain ⟨⟨_, price⟩, hc, rfl⟩ := Option.map_eq_some_iff.mp h
      exact ⟨.sell, price, hc⟩
  · rintro ⟨side, price, h⟩
    cases side with
    | buy => exact Or.inl (Option.map_eq_some_iff.mpr ⟨_, h, rfl⟩)
    | sell => exact Or.inr (Option.map_eq_some_iff.mpr ⟨_, h, rfl⟩)

/-- Every quote has an id of its own that was issued. -/
structure Distinct (q : FixedOffsetQuoter) : Prop where
  side_eq : ∀ side side' id price price', q.resting side = some (id, price) →
    q.resting side' = some (id, price') → side = side'
  issued : ∀ id, q.Tracks id → id < q.nextId

theorem distinct_init (offset size : ℤ) : (init offset size).Distinct := by
  constructor
  · intro side side' id price price' h
    cases side <;> cases h
  · rintro id (h | h) <;> cases h

theorem Requotes.resting_cases (h : q.Requotes orders cancels q')
    (hq : q'.resting side = some (id, price)) : q.resting side = some (id, price) ∨
      ∃ o ∈ orders, o.side = side ∧ o.orderId = id ∧ o.priceTicks = price := by
  rcases h.side side with hkeep | ⟨⟨o, ho, hside⟩, -⟩
  · exact Or.inl (hkeep ▸ hq)
  · have hquoted := h.quoted o ho
    rw [hside, hq, Option.some.injEq, Prod.mk.injEq] at hquoted
    exact Or.inr ⟨o, ho, hside, hquoted.1.symm, hquoted.2.symm⟩

theorem Requotes.eq_of_id (h : q.Requotes orders cancels q') {o o' : OrderRequest}
    (ho : o ∈ orders) (ho' : o' ∈ orders) (hid : o.orderId = o'.orderId) : o = o' :=
  List.inj_on_of_nodup_map (h.increasing.imp fun hlt => hlt.ne) ho ho' hid

theorem Distinct.requotes (hq : q.Distinct) (h : q.Requotes orders cancels q') : q'.Distinct := by
  have hold : ∀ {side id price o}, q.resting side = some (id, price) → o ∈ orders →
      o.orderId ≠ id := by
    intro side id price o hside ho hid
    have hlt := hq.issued id (tracks_iff.mpr ⟨side, price, hside⟩)
    have hge := (h.fresh o ho).1
    omega
  constructor
  · intro side side' id price price' hside hside'
    rcases h.resting_cases hside with hside | ⟨o, ho, rfl, rfl, -⟩
    · rcases h.resting_cases hside' with hside' | ⟨o', ho', -, hid, -⟩
      · exact hq.side_eq _ _ _ _ _ hside hside'
      · exact absurd hid (hold hside ho')
    · rcases h.resting_cases hside' with hside' | ⟨o', ho', rfl, hid, -⟩
      · exact absurd rfl (hold hside' ho)
      · rw [h.eq_of_id ho' ho hid]
  · intro id hid
    obtain ⟨side, price, hside⟩ := tracks_iff.mp hid
    rcases h.resting_cases hside with hside | ⟨o, ho, -, rfl, -⟩
    · exact (hq.issued id (tracks_iff.mpr ⟨side, price, hside⟩)).trans_le h.nextId_le
    · exact (h.fresh o ho).2

theorem Requotes.tracks_or_cancels (h : q.Requotes orders cancels q') (hid : q.Tracks id) :
    q'.Tracks id ∨ id ∈ cancels.map CancelRequest.orderId := by
  obtain ⟨side, price, hside⟩ := tracks_iff.mp hid
  rcases h.side side with hkeep | ⟨-, hstale⟩
  · exact Or.inl (tracks_iff.mpr ⟨side, price, hkeep.trans hside⟩)
  · exact Or.inr (hstale id (Option.map_eq_some_iff.mpr ⟨_, hside, rfl⟩))

/-- A quote that is being cancelled is tracked no more. -/
theorem Requotes.not_tracks_of_cancels (h : q.Requotes orders cancels q') (hq : q.Distinct)
    (hid : id ∈ cancels.map CancelRequest.orderId) : q.Tracks id ∧ ¬ q'.Tracks id := by
  obtain ⟨side, hfst, o, ho, hoside⟩ := h.stale id hid
  obtain ⟨⟨_, price⟩, hside, rfl⟩ := Option.map_eq_some_iff.mp hfst
  have htracks := tracks_iff.mpr ⟨side, price, hside⟩
  refine ⟨htracks, fun htracks' => ?_⟩
  have hlt := hq.issued _ htracks
  obtain ⟨side', price', hside'⟩ := tracks_iff.mp htracks'
  rcases h.resting_cases hside' with hbefore | ⟨o', ho', -, hid', -⟩
  · have hsame := hq.side_eq _ _ _ _ _ hside hbefore
    have hquoted := h.quoted o ho
    rw [hoside, hsame, hside', Option.some.injEq, Prod.mk.injEq] at hquoted
    have hge := (h.fresh o ho).1
    simp only at hlt hquoted
    omega
  · have hge := (h.fresh o' ho').1
    simp only at hlt hid'
    omega

theorem Requotes.tracks_of_old (h : q.Requotes orders cancels q') (hid : q'.Tracks id)
    (hlt : id < q.nextId) : q.Tracks id := by
  obtain ⟨side, price, hside⟩ := tracks_iff.mp hid
  rcases h.resting_cases hside with hside | ⟨o, ho, -, rfl, -⟩
  · exact tracks_iff.mpr ⟨side, price, hside⟩
  · have hge := (h.fresh o ho).1
    omega

/-- `on_fill` forgets the quote that the fill names as the resting order. -/
theorem resting_onFill (hq : q.Distinct) (event : FillEvent) (side : Side) :
    (q.onFill event).resting side =
      if (q.resting side).map Prod.fst = some event.restingOrderId then none
      else q.resting side := by
  unfold onFill
  by_cases hbuy : q.restingBuy.map Prod.fst = some event.restingOrderId
  · have hsell : q.restingSell.map Prod.fst ≠ some event.restingOrderId := by
      intro hsell
      obtain ⟨⟨_, price⟩, hb, hid⟩ := Option.map_eq_some_iff.mp hbuy
      obtain ⟨⟨_, price'⟩, hs, hid'⟩ := Option.map_eq_some_iff.mp hsell
      simp only at hid hid'
      subst hid'
      subst hid
      have := hq.side_eq .buy .sell _ _ _ hb hs
      cases this
    rw [if_pos hbuy]
    cases side <;> simp [resting, hbuy, hsell]
  · rw [if_neg hbuy]
    by_cases hsell : q.restingSell.map Prod.fst = some event.restingOrderId
    · rw [if_pos hsell]
      cases side <;> simp [resting, hbuy, hsell]
    · rw [if_neg hsell]
      cases side <;> simp [resting, hbuy, hsell]

theorem resting_of_onFill (hq : q.Distinct) {event : FillEvent}
    (h : (q.onFill event).resting side = some (id, price)) :
    q.resting side = some (id, price) ∧ id ≠ event.restingOrderId := by
  rw [resting_onFill hq] at h
  split at h
  · cases h
  · rename_i hne
    refine ⟨h, ?_⟩
    rintro rfl
    exact hne (by rw [h, Option.map_some])

theorem tracks_onFill (hq : q.Distinct) {event : FillEvent} (h : q.Tracks id)
    (hne : id ≠ event.restingOrderId) : (q.onFill event).Tracks id := by
  obtain ⟨side, price, hside⟩ := tracks_iff.mp h
  refine tracks_iff.mpr ⟨side, price, ?_⟩
  rw [resting_onFill hq, if_neg, hside]
  rw [hside, Option.map_some, Option.some.injEq]
  exact hne

theorem Distinct.onFill (hq : q.Distinct) (event : FillEvent) : (q.onFill event).Distinct := by
  constructor
  · intro side side' id price price' hside hside'
    exact hq.side_eq _ _ _ _ _ (resting_of_onFill hq hside).1 (resting_of_onFill hq hside').1
  · intro id hid
    obtain ⟨side, price, hside⟩ := tracks_iff.mp hid
    rw [nextId_onFill]
    exact hq.issued id (tracks_iff.mpr ⟨side, price, (resting_of_onFill hq hside).1⟩)

end FixedOffsetQuoter

structure Market where
  session : Session
  client : Client FixedOffsetQuoter

/-- A tick of the quoter's loop, its oldest request executed by the server, its oldest event handed
over, or anything that the other clients do. -/
inductive MarketEvent
  | tick (priceTicks : ℤ)
  | execute
  | handle
  | other (e : Velo.Event)

namespace Market

/-- The quoter connects to a server that may have been in use. -/
def start (s : Session) (fd : Fd) (offset size : ℤ) : Market :=
  ⟨s.connect fd, .start fd s.descriptors.length (.init offset size)⟩

/-- The others use connections of their own, and cancel no order of the quoter. -/
def Foreign (s : Market) : Velo.Event → Prop
  | .connect _ => True
  | .disconnect fd => fd ≠ s.client.fd
  | .message fd (.cancel msg) =>
    fd ≠ s.client.fd ∧ ¬ s.session.Holds s.client.conn msg.clientOrderId
  | .message fd _ => fd ≠ s.client.fd

instance (s : Market) (e : Velo.Event) : Decidable (s.Foreign e) :=
  match e with
  | .connect _ => .isTrue trivial
  | .disconnect _ => inferInstanceAs (Decidable (_ ≠ _))
  | .message _ (.cancel _) => inferInstanceAs (Decidable (_ ∧ _))
  | .message _ (.newOrder _) => inferInstanceAs (Decidable (_ ≠ _))
  | .message _ .subscribeFills => inferInstanceAs (Decidable (_ ≠ _))

def step (s : Market) : MarketEvent → Option (List Dispatch × Market)
  | .tick priceTicks =>
    (s.client.tick (s.client.strategy.onPrice priceTicks)).map fun c =>
      ([], { s with client := c })
  | .execute =>
    (s.client.execute s.session).map fun (log, session, c) => (log, ⟨session, c⟩)
  | .handle =>
    (s.client.handle FixedOffsetQuoter.onFill).map fun c => ([], { s with client := c })
  | .other e =>
    if s.Foreign e then
      (s.session.step e).map fun (log, session) => (log, ⟨session, s.client.hear log⟩)
    else none

/-- All requests are executed and all fills are handed over. -/
def Quiet (s : Market) : Prop :=
  s.client.requests = [] ∧ ∀ e ∈ s.client.events, match e with
    | .ack _ => True
    | .fill _ => False

instance : DecidablePred Quiet := fun _ =>
  have (e : ServerMsg) : Decidable (match e with | .ack _ => True | .fill _ => False) :=
    match e with
    | .ack _ => .isTrue trivial
    | .fill _ => .isFalse id
  inferInstanceAs (Decidable (_ ∧ _))

/-- Quotes fit their fields; one that is executed while it is tracked has a free id and does not
find all of its quantity; and a fill of one that is tracked is handed over only when that has left
the book. -/
def Whole (s : Market) : MarketEvent → Prop
  | .tick priceTicks => (sendAll (s.client.strategy.onPrice priceTicks).1).2
  | .execute =>
    match s.client.requests with
    | .newOrder msg :: _ => s.client.strategy.Tracks msg.clientOrderId.toNat →
        ¬ s.session.server.book.Rests msg.clientOrderId ∧
          s.session.server.book.liquidity msg.toOrder < msg.quantity.toNat
    | _ => True
  | .handle =>
    match s.client.events with
    | .fill f :: _ => s.client.strategy.Tracks f.restingOrderId.toNat →
        ¬ s.session.Holds s.client.conn f.restingOrderId ∧
          (f.restingOrderId.toNat : ℤ) ∉ newOrderIds s.client.requests
    | _ => True
  | .other _ => True

instance (s : Market) (e : MarketEvent) : Decidable (s.Whole e) := by
  unfold Whole
  split
  · infer_instance
  · split <;> infer_instance
  · split <;> infer_instance
  · infer_instance

/-- The order rests for the quoter, on these terms. -/
def Quoted (s : Market) (side : Side) (id price : ℤ) : Prop :=
  ∃ o ∈ s.session.server.book.resting, s.session.owner o.id = some s.client.conn ∧
    (o.id.toNat : ℤ) = id ∧ o.side = side ∧ o.priceTicks.toInt = price

instance (s : Market) (side : Side) (id price : ℤ) : Decidable (s.Quoted side id price) :=
  inferInstanceAs (Decidable (∃ o ∈ s.session.server.book.resting,
    s.session.owner o.id = some s.client.conn ∧ (o.id.toNat : ℤ) = id ∧ o.side = side ∧
      o.priceTicks.toInt = price))

/-- Between the quoter and the book: what is tracked is on its way, rests, or was filled without
the quoter's knowing; what is on its way or rests is tracked or about to be cancelled. -/
structure Agrees (s : Market) : Prop where
  sound : s.session.Sound
  connected : s.session.holder s.client.fd = some s.client.conn
  inOrder : s.client.InOrder (s.session.Holds s.client.conn)
  distinct : s.client.strategy.Distinct
  terms : ∀ m, .newOrder m ∈ s.client.requests → m.toOrder.type = .limit ∧
    ∀ side price, s.client.strategy.resting side = some ((m.clientOrderId.toNat : ℤ), price) →
      m.toOrder.side = side ∧ m.priceTicks.toInt = price
  stale : ∀ n ∈ cancelIds s.client.requests,
    ¬ s.client.strategy.Tracks n ∧ n < s.client.strategy.nextId
  cancelsLast : s.client.requests.Pairwise fun a b => ∀ n, cancelId? a = some n →
    newOrderId? b ≠ some n
  pending : ∀ n ∈ newOrderIds s.client.requests,
    s.client.strategy.Tracks n ∨ n ∈ cancelIds s.client.requests
  tracked : ∀ side n price, s.client.strategy.resting side = some (n, price) →
    n ∈ newOrderIds s.client.requests ∨ s.Quoted side n price ∨
      ∃ f, .fill f ∈ s.client.events ∧ (f.restingOrderId.toNat : ℤ) = n
  held : ∀ id, s.session.Holds s.client.conn id →
    s.client.strategy.Tracks id.toNat ∨ (id.toNat : ℤ) ∈ cancelIds s.client.requests

variable {s t : Market} {l : List Dispatch}

theorem Quoted.holds {side : Side} {n price : ℤ} (h : s.Quoted side n price) :
    ∃ id : UInt64, (id.toNat : ℤ) = n ∧ s.session.Holds s.client.conn id := by
  obtain ⟨o, ho, hown, hid, -⟩ := h
  exact ⟨o.id, hid, List.mem_map_of_mem ho, hown⟩

/-- Where nothing is on its way, the quoter and the book agree. -/
theorem Agrees.quoted_iff (h : s.Agrees) (hq : s.Quiet) (side : Side) (id price : ℤ) :
    s.Quoted side id price ↔ s.client.strategy.resting side = some (id, price) := by
  have hrests : ∀ {side n price}, s.client.strategy.resting side = some (n, price) →
      s.Quoted side n price := by
    intro side n price hside
    rcases h.tracked side n price hside with hn | hquoted | ⟨f, hf, -⟩
    · simp [hq.1, newOrderIds] at hn
    · exact hquoted
    · exact (hq.2 _ hf).elim
  constructor
  · rintro ⟨o, ho, hown, rfl, rfl, rfl⟩
    have htracks : s.client.strategy.Tracks o.id.toNat := by
      refine (h.held o.id ⟨List.mem_map_of_mem ho, hown⟩).resolve_right ?_
      simp [hq.1, cancelIds]
    obtain ⟨side, price, hside⟩ := FixedOffsetQuoter.tracks_iff.mp htracks
    obtain ⟨L, hL⟩ := h.sound.book
    obtain ⟨r, hr, -, hid, hrside, hrprice⟩ := hrests hside
    have heq := hL.eq_of_id hr ho (UInt64.toNat_inj.mp (by omega))
    subst heq
    rw [hrside, hrprice]
    exact hside
  · exact hrests

theorem not_holds_start {s : Session} (h : s.Sound) (fd : Fd) (id : UInt64) :
    ¬ (s.connect fd).Holds s.descriptors.length id := by
  rintro ⟨hrests, hown⟩
  obtain ⟨fd', hlookup⟩ := Option.isSome_iff_exists.mp
    (Finmap.lookup_isSome.mpr ((h.owned id).mpr hrests))
  obtain ⟨j, hj, hd⟩ := h.owner id fd' hlookup
  have hlt := (List.getElem?_eq_some_iff.mp hd).1
  have heq : s.owner id = some s.descriptors.length := hown
  rw [hj, Option.some.injEq] at heq
  exact absurd heq hlt.ne

theorem Agrees.start {s : Session} (h : s.Sound) {fd : Fd} (hfd : s.holder fd = none)
    (offset size : ℤ) : (start s fd offset size).Agrees where
  sound := h.connect hfd
  connected := by simp [Market.start, Client.start, Session.connect]
  inOrder := .start (not_holds_start h fd)
  distinct := FixedOffsetQuoter.distinct_init offset size
  terms := by simp [Market.start, Client.start]
  stale := by simp [Market.start, Client.start, cancelIds]
  cancelsLast := List.Pairwise.nil
  pending := by simp [Market.start, Client.start, newOrderIds]
  tracked := by
    intro side n price hside
    cases side <;> simp [Market.start, Client.start, FixedOffsetQuoter.init,
      FixedOffsetQuoter.resting] at hside
  held := fun id hid => absurd hid (not_holds_start h fd id)

theorem newOrderId_of_mem {requests : List ClientMsg} {m : ClientOrderMsg}
    (h : .newOrder m ∈ requests) : (m.clientOrderId.toNat : ℤ) ∈ newOrderIds requests :=
  List.mem_filterMap.mpr ⟨_, h, rfl⟩

theorem exists_sent {orders : List OrderRequest} {msgs : List ClientOrderMsg}
    (h : List.Forall₂ OrderRequest.SentAs orders msgs) {m : ClientOrderMsg} (hm : m ∈ msgs) :
    ∃ o ∈ orders, o.SentAs m := by
  obtain ⟨i, hi, rfl⟩ := List.mem_iff_getElem.mp hm
  have hi' : i < orders.length := h.length_eq ▸ hi
  exact ⟨orders[i], List.getElem_mem hi', h.get hi' hi⟩

theorem Agrees.tick (h : s.Agrees) {c : Client FixedOffsetQuoter} {priceTicks : ℤ}
    (hc : s.client.tick (s.client.strategy.onPrice priceTicks) = some c)
    (hwhole : s.Whole (.tick priceTicks)) : Agrees { s with client := c } := by
  have hinOrder := h.inOrder.tick hc
  have hrunning : c.running := by
    simp only [Client.tick] at hc
    split at hc
    · cases hc
      exact hwhole
    · cases hc
  obtain ⟨orders, cancels, orders', cancels', msgs, stale, hrequotes, -, -, hall, hmsgs, hstale,
    hc⟩ := Client.tick_cases hc
  obtain ⟨rfl, rfl⟩ := hall hrunning
  obtain ⟨fd, conn, q', running, requests, events⟩ := c
  simp only [Client.mk.injEq] at hc
  obtain ⟨rfl, rfl, rfl, -, rfl, rfl⟩ := hc
  have hids : newOrderIds (s.client.requests ++ (msgs.map .newOrder ++ stale.map .cancel)) =
      newOrderIds s.client.requests ++ orders'.map OrderRequest.orderId := by
    simp [ids_of_sent hmsgs]
  have hcancels : cancelIds (s.client.requests ++ (msgs.map .newOrder ++ stale.map .cancel)) =
      cancelIds s.client.requests ++ cancels'.map CancelRequest.orderId := by
    simp [hstale]
  have hcovered : ∀ {n}, s.client.strategy.Tracks n ∨ n ∈ cancelIds s.client.requests →
      (s.client.strategy.onPrice priceTicks).2.Tracks n ∨
        n ∈ cancelIds s.client.requests ++ cancels'.map CancelRequest.orderId := by
    rintro n (hn | hn)
    · exact (hrequotes.tracks_or_cancels hn).imp_right (List.mem_append_right _)
    · exact Or.inr (List.mem_append_left _ hn)
  constructor
  · exact h.sound
  · exact h.connected
  · exact hinOrder
  · exact h.distinct.requotes hrequotes
  · intro m hm
    rcases List.mem_append.mp hm with hm | hm
    · obtain ⟨htype, hterms⟩ := h.terms m hm
      refine ⟨htype, fun side price hside => ?_⟩
      rcases hrequotes.resting_cases hside with hside | ⟨o, ho, -, hid, -⟩
      · exact hterms side price hside
      · have hlt := h.inOrder.issued _ (newOrderId_of_mem hm)
        have hge := (hrequotes.fresh o ho).1
        omega
    · simp only [List.mem_append, List.mem_map, reduceCtorEq, and_false, exists_false, or_false,
        ClientMsg.newOrder.injEq, exists_eq_right] at hm
      obtain ⟨o, ho, hsent⟩ := exists_sent hmsgs hm
      refine ⟨hsent.type.trans (hrequotes.limit o ho), fun side price hside => ?_⟩
      have hquoted := hrequotes.quoted o ho
      rw [hsent.id] at hside
      have hsame := (h.distinct.requotes hrequotes).side_eq _ _ _ _ _ hside hquoted
      rw [hsame, hquoted, Option.some.injEq, Prod.mk.injEq] at hside
      exact ⟨hsent.side.trans hsame.symm, (hsent.price (hrequotes.limit o ho)).trans hside.2⟩
  · intro n hn
    rw [hcancels] at hn
    rcases List.mem_append.mp hn with hn | hn
    · obtain ⟨hnot, hlt⟩ := h.stale n hn
      exact ⟨fun htracks => hnot (hrequotes.tracks_of_old htracks hlt),
        hlt.trans_le hrequotes.nextId_le⟩
    · obtain ⟨htracks, hnot⟩ := hrequotes.not_tracks_of_cancels h.distinct hn
      exact ⟨hnot, (h.distinct.issued n htracks).trans_le hrequotes.nextId_le⟩
  · refine List.pairwise_append.mpr ⟨h.cancelsLast, List.pairwise_append.mpr ⟨?_, ?_, ?_⟩, ?_⟩
    · refine List.pairwise_map.mpr (List.pairwise_of_forall ?_)
      intro _ _ n hn
      cases hn
    · refine List.pairwise_map.mpr (List.pairwise_of_forall ?_)
      intro _ _ n _ hn
      cases hn
    · intro a ha b _ n hn
      obtain ⟨m, -, rfl⟩ := List.mem_map.mp ha
      cases hn
    · intro a ha b hb n hn hn'
      have hlt := (h.stale n (List.mem_filterMap.mpr ⟨a, ha, hn⟩)).2
      have hnew : n ∈ newOrderIds (msgs.map .newOrder ++ stale.map .cancel) :=
        List.mem_filterMap.mpr ⟨b, hb, hn'⟩
      rw [newOrderIds_append, newOrderIds_map_cancel, List.append_nil, newOrderIds_map_newOrder,
        ids_of_sent hmsgs] at hnew
      obtain ⟨o, ho, rfl⟩ := List.mem_map.mp hnew
      have hge := (hrequotes.fresh o ho).1
      omega
  · intro n hn
    simp only [hids, hcancels] at hn ⊢
    rcases List.mem_append.mp hn with hn | hn
    · exact hcovered (h.pending n hn)
    · obtain ⟨o, ho, rfl⟩ := List.mem_map.mp hn
      exact Or.inl (FixedOffsetQuoter.tracks_iff.mpr ⟨_, _, hrequotes.quoted o ho⟩)
  · intro side n price hside
    simp only [hids]
    rcases hrequotes.resting_cases hside with hside | ⟨o, ho, -, rfl, -⟩
    · exact (h.tracked side n price hside).imp_left (List.mem_append_left _)
    · exact Or.inl (List.mem_append_right _ (List.mem_map_of_mem ho))
  · intro id hid
    simp only [hcancels]
    exact hcovered (h.held id hid)

/-- A quote outlasts every message but its cancel, unless the quoter is told of a fill. -/
theorem Agrees.quoted_dispatch (h : s.Agrees) {fd : Fd} {k : ConnId}
    (hk : s.session.holder fd = some k) {msg : ClientMsg} {side : Side} {n price : ℤ}
    (hq : s.Quoted side n price) (hne : cancelId? msg ≠ some n)
    {c : Client FixedOffsetQuoter} (hconn : c.conn = s.client.conn) :
    Quoted ⟨s.session.dispatch fd k msg, c⟩ side n price ∨
      ∃ f : FillWireMsg, (f.restingOrderId.toNat : ℤ) = n ∧ .fill f ∈ received s.client.conn
        (s.session.deliver (s.session.server.dispatch fd msg).1) := by
  obtain ⟨o, ho, hown, rfl, rfl, rfl⟩ := hq
  have hcancel : msg ≠ .cancel ⟨o.id⟩ := by
    rintro rfl
    exact hne rfl
  rcases h.sound.kept_dispatch hk h.connected ho hown hcancel with
    ⟨r, hr, hrown, hrid, hrside, hrprice⟩ | ⟨f, hf, hmem⟩
  · exact Or.inl ⟨r, hr, hconn ▸ hrown, by rw [hrid], hrside, by rw [hrprice]⟩
  · exact Or.inr ⟨f, by rw [hf], hmem⟩

/-- A new quote that has a free id and finds less than its quantity comes to rest on its terms. -/
theorem Agrees.quoted_executed (h : s.Agrees) {m : ClientOrderMsg} {fd : Fd}
    (htype : m.toOrder.type = .limit) (hfree : ¬ s.session.server.book.Rests m.clientOrderId)
    (hliquidity : s.session.server.book.liquidity m.toOrder < m.quantity.toNat)
    {c : Client FixedOffsetQuoter} {k : ConnId} (hconn : c.conn = k) :
    Quoted ⟨s.session.dispatch fd k (.newOrder m), c⟩ m.toOrder.side m.clientOrderId.toNat
      m.priceTicks.toInt := by
  obtain ⟨L, hL⟩ := h.sound.book
  have hrests : (s.session.dispatch fd k (.newOrder m)).server.book.Rests m.clientOrderId := by
    rw [h.sound.book_dispatch_newOrder hfree]
    exact (hL.rests_submitted_iff hfree).mpr ⟨htype, hliquidity⟩
  obtain ⟨r, hr, hid⟩ := List.mem_map.mp hrests
  rcases h.sound.rests_dispatch hrests with ⟨hbefore, -⟩ | ⟨-, hown, -⟩
  · exact absurd hbefore hfree
  · obtain ⟨a, ha | ⟨m', hm', -, rfl⟩, haid, haside, haprice⟩ := h.sound.terms_dispatch hr
    · have hbefore : s.session.server.book.Rests a.id := List.mem_map_of_mem ha
      rw [haid, hid] at hbefore
      exact absurd hbefore hfree
    · cases hm'
      exact ⟨r, hr, by rw [hid, hown, hconn], by rw [hid], haside.symm, by rw [← haprice]; rfl⟩

theorem Agrees.execute (h : s.Agrees) {session : Session} {c : Client FixedOffsetQuoter}
    (hc : s.client.execute s.session = some (l, session, c)) (hwhole : s.Whole .execute) :
    Agrees ⟨session, c⟩ := by
  obtain ⟨msg, requests, hrequests, hst, rfl⟩ := Client.execute_cases hc
  simp only [Session.step_message h.connected, Option.some.injEq, Prod.mk.injEq] at hst
  obtain ⟨rfl, rfl⟩ := hst
  have hinOrder := h.inOrder
  have hterms := h.terms
  have hstale := h.stale
  have hlast := h.cancelsLast
  have hpending := h.pending
  have htracked := h.tracked
  have hheld := h.held
  have hholds : ∀ {id}, (s.session.dispatch s.client.fd s.client.conn msg).Holds s.client.conn id →
      (s.session.Holds s.client.conn id ∧ msg ≠ .cancel ⟨id⟩) ∨
        newOrderId? msg = some (id.toNat : ℤ) := by
    intro id hid
    rcases h.sound.rests_dispatch hid.1 with ⟨hbefore, hown, hne⟩ | ⟨-, -, m, rfl, rfl, -⟩
    · exact Or.inl ⟨⟨hbefore, hown ▸ hid.2⟩, hne⟩
    · exact Or.inr rfl
  rw [hrequests] at hterms hstale hlast hpending htracked hheld
  constructor
  · exact h.sound.dispatch h.connected msg
  · exact h.connected
  · exact h.inOrder.execute hrequests (fun id hid => (hholds hid).imp_left And.left) _
  · exact h.distinct
  · intro m hm
    exact hterms m (List.mem_cons_of_mem _ hm)
  · intro n hn
    exact hstale n (((List.sublist_cons_self msg requests).filterMap _).subset hn)
  · exact (List.pairwise_cons.mp hlast).2
  · intro n hn
    refine (hpending n (mem_newOrderIds_cons.mpr (Or.inr hn))).imp_right fun hcancel => ?_
    refine (mem_cancelIds_cons.mp hcancel).resolve_left fun hself => ?_
    obtain ⟨b, hb, hbn⟩ := List.mem_filterMap.mp hn
    exact (List.pairwise_cons.mp hlast).1 b hb n hself hbn
  · intro side n price hside
    have htracks := FixedOffsetQuoter.tracks_iff.mpr ⟨side, price, hside⟩
    rcases htracked side n price hside with hn | hquoted | ⟨f, hf, hid⟩
    · rcases mem_newOrderIds_cons.mp hn with hself | hn
      · cases msg with
        | newOrder m =>
          cases hself
          obtain ⟨htype, hsame⟩ := hterms m List.mem_cons_self
          obtain ⟨rfl, rfl⟩ := hsame side price hside
          simp only [Whole, hrequests] at hwhole
          obtain ⟨hfree, hliquidity⟩ := hwhole htracks
          exact Or.inr (Or.inl (h.quoted_executed htype hfree hliquidity rfl))
        | cancel m => cases hself
        | subscribeFills => cases hself
      · exact Or.inl hn
    · have hne : cancelId? msg ≠ some n := fun hself =>
        (hstale n (mem_cancelIds_cons.mpr (Or.inl hself))).1 htracks
      refine Or.inr ((h.quoted_dispatch h.connected hquoted hne rfl).imp_right ?_)
      rintro ⟨f, hid, hf⟩
      exact ⟨f, Client.mem_hear.mpr (Or.inr ⟨_, List.mem_singleton_self _, hf⟩), hid⟩
    · exact Or.inr (Or.inr ⟨f, Client.mem_hear.mpr (Or.inl hf), hid⟩)
  · intro id hid
    rcases hholds hid with ⟨hbefore, hne⟩ | hnew
    · refine (hheld id hbefore).imp_right fun hcancel => ?_
      refine (mem_cancelIds_cons.mp hcancel).resolve_left fun hself => ?_
      cases msg with
      | newOrder m => cases hself
      | cancel m =>
        have hm : m.clientOrderId = id := by
          simpa [cancelId?, UInt64.toNat_inj] using hself
        exact hne (by rw [← hm])
      | subscribeFills => cases hself
    · refine (hpending _ (mem_newOrderIds_cons.mpr (Or.inl hnew))).imp_right fun hcancel => ?_
      refine (mem_cancelIds_cons.mp hcancel).resolve_left fun hself => ?_
      cases msg with
      | newOrder m => cases hself
      | cancel m => cases hnew
      | subscribeFills => cases hself

/-- A fill of a tracked quote is handed over when that rests no more. -/
theorem Agrees.handle (h : s.Agrees) {c : Client FixedOffsetQuoter}
    (hc : s.client.handle FixedOffsetQuoter.onFill = some c) (hwhole : s.Whole .handle) :
    Agrees { s with client := c } := by
  obtain ⟨msg, events, hevents, ⟨ack, rfl, rfl⟩ | ⟨f, side, rfl, rfl⟩⟩ := Client.handle_cases hc
  · refine ⟨h.sound, h.connected, h.inOrder.mono (fun _ => id) rfl rfl, h.distinct, h.terms,
      h.stale, h.cancelsLast, h.pending, ?_, h.held⟩
    intro side n price hside
    refine (h.tracked side n price hside).imp_right (Or.imp_right ?_)
    rintro ⟨f, hf, hid⟩
    rw [hevents, List.mem_cons] at hf
    exact ⟨f, hf.resolve_left (by simp), hid⟩
  · simp only [Whole, hevents] at hwhole
    have hsame : (ofFill side f).restingOrderId = f.restingOrderId.toNat := rfl
    have hremain : ∀ {n}, (s.client.strategy.Tracks f.restingOrderId.toNat →
        (f.restingOrderId.toNat : ℤ) ≠ n) → s.client.strategy.Tracks n →
          (s.client.strategy.onFill (ofFill side f)).Tracks n := by
      intro n hne htracks
      refine FixedOffsetQuoter.tracks_onFill h.distinct htracks ?_
      rintro rfl
      exact hne htracks rfl
    have hbefore : ∀ {n}, (s.client.strategy.onFill (ofFill side f)).Tracks n →
        s.client.strategy.Tracks n := by
      intro n htracks
      obtain ⟨side', price, hside⟩ := FixedOffsetQuoter.tracks_iff.mp htracks
      exact FixedOffsetQuoter.tracks_iff.mpr
        ⟨side', price, (FixedOffsetQuoter.resting_of_onFill h.distinct hside).1⟩
    constructor
    · exact h.sound
    · exact h.connected
    · exact h.inOrder.mono (fun _ => id) rfl (by simp)
    · exact h.distinct.onFill _
    · intro m hm
      refine ⟨(h.terms m hm).1, fun side' price hside => ?_⟩
      exact (h.terms m hm).2 side' price
        (FixedOffsetQuoter.resting_of_onFill h.distinct hside).1
    · intro n hn
      obtain ⟨hnot, hlt⟩ := h.stale n hn
      exact ⟨fun htracks => hnot (hbefore htracks), by simpa using hlt⟩
    · exact h.cancelsLast
    · intro n hn
      refine (h.pending n hn).imp_left (hremain ?_)
      rintro htracks rfl
      exact (hwhole htracks).2 hn
    · intro side' n price hside
      obtain ⟨hside, hne⟩ := FixedOffsetQuoter.resting_of_onFill h.distinct hside
      refine (h.tracked side' n price hside).imp_right (Or.imp_right ?_)
      rintro ⟨g, hg, hid⟩
      rw [hevents, List.mem_cons] at hg
      refine ⟨g, hg.resolve_left fun hgf => ?_, hid⟩
      cases hgf
      exact hne hid.symm
    · intro id hid
      refine (h.held id hid).imp_left (hremain ?_)
      intro htracks hsameId
      have heq : f.restingOrderId = id := UInt64.toNat_inj.mp (by omega)
      exact (hwhole htracks).1 (heq ▸ hid)

/-- What the others send moves nothing of the quoter's but by fills that it is told of. -/
theorem Agrees.foreign_message (h : s.Agrees) {fd : Fd} {k : ConnId} {msg : ClientMsg}
    (hk : s.session.holder fd = some k) (hforeign : s.Foreign (.message fd msg)) :
    Agrees ⟨s.session.dispatch fd k msg, s.client.hear
      [⟨k, msg, s.session.deliver (s.session.server.dispatch fd msg).1⟩]⟩ := by
  have hfd : fd ≠ s.client.fd := by
    cases msg with
    | newOrder m => exact hforeign
    | cancel m => exact hforeign.1
    | subscribeFills => exact hforeign
  have hkne : k ≠ s.client.conn := by
    rintro rfl
    exact hfd (h.sound.holder_inj hk h.connected)
  have hholds : ∀ id, (s.session.dispatch fd k msg).Holds s.client.conn id →
      s.session.Holds s.client.conn id := by
    intro id hid
    rcases h.sound.rests_dispatch hid.1 with ⟨hbefore, hown, -⟩ | ⟨-, hown, -⟩
    · exact ⟨hbefore, hown ▸ hid.2⟩
    · rw [hid.2] at hown
      exact absurd (Option.some.inj hown).symm hkne
  refine ⟨h.sound.dispatch hk msg, h.connected, h.inOrder.mono hholds rfl rfl, h.distinct, h.terms,
    h.stale, h.cancelsLast, h.pending, ?_, fun id hid => h.held id (hholds id hid)⟩
  intro side n price hside
  refine (h.tracked side n price hside).imp_right ?_
  rintro (hquoted | ⟨f, hf, hid⟩)
  · have hne : cancelId? msg ≠ some n := by
      obtain ⟨id, hid, hheld⟩ := hquoted.holds
      intro hcancel
      cases msg with
      | newOrder m => cases hcancel
      | cancel m =>
        have hm : m.clientOrderId = id := UInt64.toNat_inj.mp (by
          have := Option.some.inj hcancel
          omega)
        exact hforeign.2 (hm ▸ hheld)
      | subscribeFills => cases hcancel
    refine (h.quoted_dispatch hk hquoted hne rfl).imp_right ?_
    rintro ⟨f, hid, hf⟩
    exact ⟨f, Client.mem_hear.mpr (Or.inr ⟨_, List.mem_singleton_self _, hf⟩), hid⟩
  · exact Or.inr ⟨f, Client.mem_hear.mpr (Or.inl hf), hid⟩

theorem Agrees.other (h : s.Agrees) {e : Velo.Event} {session : Session} (hforeign : s.Foreign e)
    (hst : s.session.step e = some (l, session)) : Agrees ⟨session, s.client.hear l⟩ := by
  have hsound := h.sound.step hst
  have hquiet : s.client.hear [] = s.client := by simp [Client.hear]
  rcases Session.step_cases hst with ⟨fd, rfl, hfd, rfl, rfl⟩ | ⟨fd, k, rfl, -, rfl, rfl⟩ |
    ⟨fd, k, msg, rfl, hk, rfl, rfl⟩
  · have hne : s.client.fd ≠ fd := by
      rintro rfl
      rw [h.connected] at hfd
      cases hfd
    rw [hquiet]
    refine ⟨hsound, ?_, h.inOrder, h.distinct, h.terms, h.stale, h.cancelsLast, h.pending,
      h.tracked, h.held⟩
    simp only [Session.connect, Function.update_of_ne hne]
    exact h.connected
  · rw [hquiet]
    refine ⟨hsound, ?_, h.inOrder, h.distinct, h.terms, h.stale, h.cancelsLast, h.pending,
      h.tracked, h.held⟩
    simp only [Session.disconnect, Function.update_of_ne (Ne.symm hforeign)]
    exact h.connected
  · exact h.foreign_message hk hforeign

theorem Agrees.step (h : s.Agrees) {e : MarketEvent} (hwhole : s.Whole e)
    (hst : s.step e = some (l, t)) : t.Agrees := by
  cases e with
  | tick priceTicks =>
    obtain ⟨c, hc, heq⟩ := Option.map_eq_some_iff.mp hst
    cases heq
    exact h.tick hc hwhole
  | execute =>
    obtain ⟨⟨log, session, c⟩, hc, heq⟩ := Option.map_eq_some_iff.mp hst
    cases heq
    exact h.execute hc hwhole
  | handle =>
    obtain ⟨c, hc, heq⟩ := Option.map_eq_some_iff.mp hst
    cases heq
    exact h.handle hc hwhole
  | other e =>
    simp only [Market.step] at hst
    split at hst
    · rename_i hforeign
      obtain ⟨⟨log, session⟩, hsession, heq⟩ := Option.map_eq_some_iff.mp hst
      cases heq
      exact h.other hforeign hsession
    · cases hst

/-- In every run along which quotes are filled whole or not at all, wherever nothing is on its way
the orders that rest for the quoter are those that it tracks, on these terms. -/
theorem quotes_agree_of_whole {before : List Velo.Event} {log₀ log : List Dispatch} {s₀ : Session}
    (h₀ : run Session.step .start before = some (log₀, s₀)) {fd : Fd} (hfd : s₀.holder fd = none)
    (offset size : ℤ) {es : List MarketEvent}
    (hr : run step (start s₀ fd offset size) es = some (log, t))
    (hwhole : Along step (fun s e _ => s.Whole e) (start s₀ fd offset size) es) (hq : t.Quiet)
    (side : Side) (id price : ℤ) :
    t.Quoted side id price ↔ t.client.strategy.resting side = some (id, price) := by
  have hstart := Agrees.start (Session.Sound.start.run h₀) hfd offset size
  have hagrees : t.Agrees := by
    refine Along.run_invariant ?_ hwhole hr hstart
    intro s e l t hs hw hst
    exact hs.step hw hst
  exact hagrees.quoted_iff hq side id price

/-- Another client takes the whole bid. -/
theorem quotes_agree_of_whole_after_a_fill :
    ∃ log t, run step (start .start 3 1 10) [.tick 100, .execute, .execute, .other (.connect 4),
        .other (.message 4 (.newOrder ⟨7, 1, 0, 99, 10⟩)), .handle, .handle, .handle] =
          some (log, t) ∧
      ∀ side id price,
        t.Quoted side id price ↔ t.client.strategy.resting side = some (id, price) := by
  have hquiet : (run step (start .start 3 1 10) [.tick 100, .execute, .execute,
      .other (.connect 4), .other (.message 4 (.newOrder ⟨7, 1, 0, 99, 10⟩)), .handle, .handle,
      .handle]).map (fun r => decide r.2.Quiet) = some true := by
    decide +kernel
  obtain ⟨⟨log, t⟩, hrun, hq⟩ := Option.map_eq_some_iff.mp hquiet
  have hfresh : run Session.step .start [] = some ([], .start) := rfl
  exact ⟨log, t, hrun, quotes_agree_of_whole hfresh rfl 1 10 hrun (by decide +kernel)
    (of_decide_eq_true hq)⟩

/-- Another client takes four of the bid of ten. -/
theorem partly_filled_quote_forgotten :
    ∃ log t, run step (start .start 3 1 10) [.tick 100, .execute, .execute, .other (.connect 4),
        .other (.message 4 (.newOrder ⟨7, 1, 0, 99, 4⟩)), .handle, .handle, .handle] =
          some (log, t) ∧
      t.Quiet ∧ t.Quoted .buy 1 99 ∧ t.client.strategy.resting .buy = none := by
  have hend : (run step (start .start 3 1 10) [.tick 100, .execute, .execute,
      .other (.connect 4), .other (.message 4 (.newOrder ⟨7, 1, 0, 99, 4⟩)), .handle, .handle,
      .handle]).map (fun r => decide (r.2.Quiet ∧ r.2.Quoted .buy 1 99 ∧
        r.2.client.strategy.resting .buy = none)) = some true := by
    decide +kernel
  obtain ⟨⟨log, t⟩, hrun, ht⟩ := Option.map_eq_some_iff.mp hend
  exact ⟨log, t, hrun, of_decide_eq_true ht⟩

end Market
end Velo.Strategy
