import Velo.Book.Execution
import Velo.Risk.Monitor

/-! The risk engine's own orders: they are numbered above everybody else's, so none is taken for a
duplicate; and once all is executed and read, the engine is within its limit, or there was nobody to
trade with. -/
namespace Velo

theorem Represents.queue_eq_nil {b : OrderBook} {L : List Order} (h : Represents b L) {o : Order}
    (hid : ¬ b.contains o.id) (hmarket : o.type = .market) (hquantity : o.quantity ≠ 0)
    (hnone : (b.submit o).1 = []) : b.queue o.side.opposite = [] := by
  rw [(h.submit_sweep hid).1] at hnone
  cases hqueue : b.queue o.side.opposite with
  | nil => rfl
  | cons r queue =>
    have hpos : 0 < o.quantity := UInt32.pos_iff_ne_zero.mpr hquantity
    rw [hqueue, sweep, if_pos ⟨hpos, Or.inl hmarket⟩] at hnone
    dsimp only at hnone
    split at hnone <;> cases hnone

end Velo

namespace Velo.Risk
open Machine

/-- The id of a new order. -/
def orderId? : ClientMsg → Option ℕ
  | .newOrder m => some m.clientOrderId.toNat
  | _ => none

/-- The ids of the new orders that a connection has had executed. -/
def orderIds (k : ConnId) (log : List Dispatch) : List ℕ :=
  (log.filter fun d => d.sender = k).filterMap fun d => orderId? d.msg

/-- The others number their orders below the engine's. -/
def MonitorEvent.Below : MonitorEvent → Prop
  | .other (.message _ (.newOrder m)) => m.clientOrderId < flattenOrderIdBase
  | _ => True

instance : DecidablePred MonitorEvent.Below := fun e =>
  match e with
  | .other (.message _ (.newOrder m)) =>
    inferInstanceAs (Decidable (m.clientOrderId < flattenOrderIdBase))
  | .execute | .read | .other (.connect _) | .other (.disconnect _)
  | .other (.message _ (.cancel _)) | .other (.message _ .subscribeFills) => .isTrue trivial

/-- The order that closes a position. -/
def closing (id : UInt64) (net : ℤ) : OrderMsg :=
  ⟨id, if net > 0 then .sell else .buy, .market, 0, UInt32.ofNat net.natAbs⟩

theorem closing_toClientMsg (id : UInt64) (net : ℤ) :
    ∃ m, (closing id net).toClientMsg = .newOrder m ∧ m.clientOrderId = id ∧
      m.toOrder.type = .market ∧ m.toOrder.side = (closing id net).side ∧
      m.toOrder.quantity = UInt32.ofNat net.natAbs := by
  refine ⟨_, rfl, rfl, rfl, ?_, rfl⟩
  by_cases hnet : net > 0 <;> simp [closing, ClientOrderMsg.toOrder, Side.toUInt8, hnet]

/-- What a fill is answered with. -/
theorem RiskEngine.read_fill_cases (e : RiskEngine) (f : FillEvent) :
    (|(e.read (.fill f)).2.position.netPosition| ≤ e.limits.maxAbsPosition ∧
        (e.read (.fill f)).1 = none ∧ (e.read (.fill f)).2.nextFlattenId = e.nextFlattenId) ∨
      ((e.read (.fill f)).1 =
          some (closing e.nextFlattenId (e.read (.fill f)).2.position.netPosition) ∧
        (e.read (.fill f)).2.nextFlattenId = e.nextFlattenId + 1) := by
  simp only [read]
  by_cases hle : |(e.position.onFill f.incomingSide f.quantity
      f.priceTicks.toInt).netPosition| ≤ e.limits.maxAbsPosition
  · left
    simp only [checkBreach, if_pos hle]
    exact ⟨hle, trivial, trivial⟩
  · right
    simp only [checkBreach, if_neg hle]
    exact ⟨rfl, trivial⟩

section Ids

variable {log log' : List Dispatch} {k k' : ConnId}

theorem orderIds_append : orderIds k (log ++ log') = orderIds k log ++ orderIds k log' := by
  simp [orderIds]

theorem orderIds_own (k : ConnId) (msg : ClientMsg) (ds : List (ConnId × ServerMsg)) :
    orderIds k [⟨k, msg, ds⟩] = (orderId? msg).toList := by
  cases hid : orderId? msg <;> simp [orderIds, hid]

theorem orderIds_other (hne : k' ≠ k) (msg : ClientMsg) (ds : List (ConnId × ServerMsg)) :
    orderIds k [⟨k', msg, ds⟩] = [] := by
  simp [orderIds, hne]

theorem filterMap_orderId_cons (msg : ClientMsg) (msgs : List ClientMsg) :
    (msg :: msgs).filterMap orderId? = (orderId? msg).toList ++ msgs.filterMap orderId? := by
  cases hid : orderId? msg <;> simp [hid]

end Ids

theorem nothing_rests (id : UInt64) : ¬ Session.start.server.book.Rests id := by
  intro hid
  have hmem := represents_empty.contains_iff.mp (represents_empty.rests_iff.mp hid)
  simp at hmem

theorem acks_dispatch {s : Session} (h : s.Sound) {fd : Fd} {k' : ConnId}
    (hk' : s.holder fd = some k') (k : ConnId) (msg : ClientMsg) :
    acks (received k (s.deliver (s.server.dispatch fd msg).1)) =
      if k' = k then (dueAck s.server.book msg).toList else [] := by
  have hacks := (h.acknowledged hk' msg).1.acks_received k
  simpa only [List.flatMap_singleton, dueAcks, List.append_nil] using hacks

namespace Monitor

variable {s t : Monitor} {e : MonitorEvent} {l log : List Dispatch} {b : OrderBook} {n : ℕ}
  {session : Session}

/-- The engine has sent `n` orders, which are numbered from its base on; below that there is
everything that rests. -/
structure Numbered (log : List Dispatch) (n : ℕ) (t : Monitor) : Prop where
  nextId : t.engine.nextFlattenId.toNat = flattenOrderIdBase.toNat + n
  ids : orderIds t.conn log ++ t.outbox.filterMap orderId? =
    (List.range n).map (flattenOrderIdBase.toNat + ·)
  outbox : ∀ msg ∈ t.outbox, msg = .subscribeFills ∨ ∃ id net,
    msg = (closing id net).toClientMsg ∧ flattenOrderIdBase ≤ id
  resting : ∀ id, t.session.server.book.Rests id → id < flattenOrderIdBase
  accepted : ∀ a ∈ acks (log.flatMap fun d => received t.conn d.delivered), a.status = 0

theorem Numbered.start {s₀ : Session}
    (h : ∀ id, s₀.server.book.Rests id → id < flattenOrderIdBase) (fd : Fd) (limits : RiskLimits) :
    Numbered [] 0 (.start s₀ fd limits) where
  nextId := rfl
  ids := rfl
  outbox := fun _ hmsg => Or.inl (List.mem_singleton.mp hmsg)
  resting := h
  accepted := fun _ ha => absurd ha List.not_mem_nil

/-- No order of the engine ever rests. -/
theorem Numbered.execute (h : Numbered log n s) (hs : s.session.Sound)
    (hconn : s.session.holder s.fd = some s.conn) {msg : ClientMsg} {outbox : List ClientMsg}
    (houtbox : s.outbox = msg :: outbox)
    (hst : s.session.step (.message s.fd msg) = some (l, session)) :
    Numbered (log ++ l) n ({ s with session := session, outbox := outbox }.hear l) := by
  rw [Session.step_message hconn, Option.some.injEq, Prod.mk.injEq] at hst
  obtain ⟨rfl, rfl⟩ := hst
  have hmsg := h.outbox msg (houtbox ▸ List.mem_cons_self)
  constructor
  · exact h.nextId
  · have hids := h.ids
    rw [houtbox, filterMap_orderId_cons] at hids
    simp only [hear, orderIds_append, orderIds_own, List.append_assoc]
    exact hids
  · intro msg' hmsg'
    exact h.outbox msg' (houtbox ▸ List.mem_cons_of_mem msg hmsg')
  · intro id hid
    rcases hs.rests_dispatch hid with ⟨hold, -⟩ | ⟨-, -, m, rfl, -, hlimit⟩
    · exact h.resting id hold
    · rcases hmsg with hsub | ⟨id', net, hclosing, -⟩
      · cases hsub
      · obtain ⟨m', hm', -, hmarket, -⟩ := closing_toClientMsg id' net
        rw [hm'] at hclosing
        cases hclosing
        rw [hlimit] at hmarket
        cases hmarket
  · intro a ha
    simp only [hear, List.flatMap_append, acks_append, List.mem_append, List.flatMap_singleton,
      acks_dispatch hs hconn, if_true] at ha
    rcases ha with ha | ha
    · exact h.accepted a ha
    · rcases hmsg with rfl | ⟨id, net, rfl, hid⟩
      · simp [dueAck] at ha
      · obtain ⟨m, hm, rfl, -⟩ := closing_toClientMsg id net
        have hfresh : ¬ s.session.server.book.Rests m.clientOrderId := fun hrests =>
          absurd (h.resting _ hrests) (UInt64.not_lt.mpr hid)
        rw [hm, dueAck, if_neg hfresh] at ha
        cases List.mem_singleton.mp ha
        rfl

theorem Numbered.read (h : Numbered log n s) {f : FillEvent} {inbox : List ServerMsg}
    (hn : flattenOrderIdBase.toNat + n + 1 < 2 ^ 64) : ∃ n' ≤ n + 1, Numbered log n' { s with
      engine := (s.engine.read (.fill f)).2
      outbox := s.outbox ++ ((s.engine.read (.fill f)).1.map OrderMsg.toClientMsg).toList
      inbox := inbox } := by
  rcases s.engine.read_fill_cases f with ⟨-, hnone, hnext⟩ | ⟨hsome, hnext⟩
  · refine ⟨n, by omega, ?_⟩
    rw [hnone, Option.map_none, Option.toList_none, List.append_nil]
    exact ⟨hnext ▸ h.nextId, h.ids, h.outbox, h.resting, h.accepted⟩
  · refine ⟨n + 1, le_refl _, ?_⟩
    rw [hsome, Option.map_some, Option.toList_some]
    obtain ⟨m, hm, hid, -⟩ := closing_toClientMsg s.engine.nextFlattenId
      (s.engine.read (.fill f)).2.position.netPosition
    constructor
    · rw [hnext, UInt64.toNat_add, h.nextId]
      exact Nat.mod_eq_of_lt hn
    · rw [List.filterMap_append, ← List.append_assoc, h.ids, List.range_succ, List.map_append, hm,
        filterMap_orderId_cons, orderId?, hid, h.nextId]
      rfl
    · intro msg hmsg
      rcases List.mem_append.mp hmsg with hmsg | hmsg
      · exact h.outbox msg hmsg
      · refine Or.inr ⟨_, _, List.mem_singleton.mp hmsg, ?_⟩
        rw [UInt64.le_iff_toNat_le, h.nextId]
        omega
    · exact h.resting
    · exact h.accepted

theorem Numbered.other (h : Numbered log n s) (hs : s.session.Sound)
    (hconn : s.session.holder s.fd = some s.conn) {e' : Velo.Event} (hne : eventFd e' ≠ s.fd)
    (hbelow : (MonitorEvent.other e').Below) (hst : s.session.step e' = some (l, session)) :
    Numbered (log ++ l) n ({ s with session := session }.hear l) := by
  rcases Session.step_cases hst with ⟨fd, -, -, rfl, rfl⟩ | ⟨fd, k, -, -, rfl, rfl⟩ |
    ⟨fd, k, msg, rfl, hk, rfl, rfl⟩
  · rw [List.append_nil]
    exact ⟨h.nextId, h.ids, h.outbox, h.resting, h.accepted⟩
  · rw [List.append_nil]
    exact ⟨h.nextId, h.ids, h.outbox, h.resting, h.accepted⟩
  · have hkne : k ≠ s.conn := by
      rintro rfl
      exact hne (hs.holder_inj hk hconn)
    constructor
    · exact h.nextId
    · simp only [hear, orderIds_append, orderIds_other hkne, List.append_nil]
      exact h.ids
    · exact h.outbox
    · intro id hid
      rcases hs.rests_dispatch hid with ⟨hold, -⟩ | ⟨-, -, m, rfl, rfl, -⟩
      · exact h.resting id hold
      · exact hbelow
    · intro a ha
      simp only [hear, List.flatMap_append, acks_append, List.mem_append, List.flatMap_singleton,
        acks_dispatch hs hk, if_neg hkne, List.not_mem_nil, or_false] at ha
      exact h.accepted a ha

theorem connected_step (hs : s.session.Sound) (hconn : s.session.holder s.fd = some s.conn)
    (hst : s.step e = some (l, t)) :
    t.session.Sound ∧ t.session.holder t.fd = some t.conn := by
  rcases step_cases hst with ⟨msg, outbox, -, -, session, hsession, rfl⟩ |
    ⟨a, inbox, -, -, rfl, rfl⟩ | ⟨f, inbox, -, -, rfl, rfl⟩ | ⟨e', session, -, hne, hsession, rfl⟩
  · exact ⟨hs.step hsession, Session.holder_of_step hconn (by simp) hsession⟩
  · exact ⟨hs, hconn⟩
  · exact ⟨hs, hconn⟩
  · refine ⟨hs.step hsession, Session.holder_of_step hconn ?_ hsession⟩
    rintro rfl
    exact hne rfl

theorem Numbered.step (h : Numbered log n s) (hs : s.session.Sound)
    (hconn : s.session.holder s.fd = some s.conn) (hbelow : e.Below)
    (hn : flattenOrderIdBase.toNat + n + 1 < 2 ^ 64) (hst : s.step e = some (l, t)) :
    ∃ n' ≤ n + 1, Numbered (log ++ l) n' t := by
  rcases step_cases hst with ⟨msg, outbox, -, houtbox, session, hsession, rfl⟩ |
    ⟨a, inbox, -, -, rfl, rfl⟩ | ⟨f, inbox, -, -, rfl, rfl⟩ | ⟨e', session, rfl, hne, hsession, rfl⟩
  · exact ⟨n, by omega, h.execute hs hconn houtbox hsession⟩
  · rw [List.append_nil]
    exact ⟨n, by omega, h.nextId, h.ids, h.outbox, h.resting, h.accepted⟩
  · rw [List.append_nil]
    exact h.read hn
  · exact ⟨n, by omega, h.other hs hconn hne hbelow hsession⟩

theorem Numbered.run (h : Numbered log n s) (hs : s.session.Sound)
    (hconn : s.session.holder s.fd = some s.conn) {es : List MonitorEvent} (hbelow : ∀ e ∈ es, e.Below)
    (hn : flattenOrderIdBase.toNat + n + es.length < 2 ^ 64)
    (hr : Machine.run Monitor.step s es = some (l, t)) : ∃ n', Numbered (log ++ l) n' t := by
  induction es generalizing s log l n with
  | nil =>
    obtain ⟨rfl, rfl⟩ := run_nil.mp hr
    rw [List.append_nil]
    exact ⟨n, h⟩
  | cons e es ih =>
    obtain ⟨l₁, u, l₂, hst, hrest, rfl⟩ := run_cons.mp hr
    rw [List.length_cons] at hn
    obtain ⟨n', hle, hnext⟩ := h.step hs hconn (hbelow e List.mem_cons_self) (by omega) hst
    obtain ⟨hs', hconn'⟩ := connected_step hs hconn hst
    rw [← List.append_assoc]
    exact ih hnext hs' hconn' (fun e' he' => hbelow e' (List.mem_cons_of_mem e he')) (by omega) hrest

/-- While the others keep their order ids below the engine's base, the engine's orders are numbered
one after the other from there, in the order in which they are executed, and none is rejected. -/
theorem flatten_orders_accepted (before : List Velo.Event) {log₀ : List Dispatch}
    {s₀ : Session} (h₀ : Machine.run Session.step .start before = some (log₀, s₀)) {fd : Fd}
    (hfd : s₀.holder fd = none)
    (hresting : ∀ id, s₀.server.book.Rests id → id < flattenOrderIdBase) (limits : RiskLimits)
    {es : List MonitorEvent} (hbelow : ∀ e ∈ es, e.Below)
    (hlen : flattenOrderIdBase.toNat + es.length < 2 ^ 64)
    (hr : Machine.run step (start s₀ fd limits) es = some (log, t)) :
    (∃ n, orderIds t.conn log ++ t.outbox.filterMap orderId? =
        (List.range n).map (flattenOrderIdBase.toNat + ·)) ∧
      ∀ a ∈ acks (log.flatMap fun d => received t.conn d.delivered), a.status = 0 := by
  have hs := Session.Sound.start.run h₀
  have hconn : (start s₀ fd limits).session.holder fd = some (start s₀ fd limits).conn := by
    simp [start, Session.connect]
  obtain ⟨n, hnumbered⟩ := (Numbered.start hresting fd limits).run (hs.connect hfd) hconn hbelow
    (by omega) hr
  rw [List.nil_append] at hnumbered
  exact ⟨⟨n, hnumbered.ids⟩, hnumbered.accepted⟩

/-- It has two orders executed, of which the second closes what the first has left. -/
theorem flatten_orders_accepted_of_two :
    ∃ log t, Machine.run step (start .start 3 ⟨20⟩) [.execute, .other (.connect 4),
        .other (.message 4 (.newOrder ⟨1, 1, 0, 100, 50⟩)),
        .other (.message 4 (.newOrder ⟨2, 0, 0, 100, 50⟩)),
        .other (.message 4 (.newOrder ⟨3, 0, 0, 99, 20⟩)), .read, .execute, .read, .read,
        .other (.message 4 (.newOrder ⟨3, 0, 0, 98, 40⟩)), .execute] = some (log, t) ∧
      ∀ a ∈ acks (log.flatMap fun d => received t.conn d.delivered), a.status = 0 := by
  have hempty : Machine.run Session.step .start [] = some ([], .start) := rfl
  obtain ⟨⟨log, t⟩, hrun⟩ := Option.isSome_iff_exists.mp (show (Machine.run step
      (start .start 3 ⟨20⟩) [.execute, .other (.connect 4),
        .other (.message 4 (.newOrder ⟨1, 1, 0, 100, 50⟩)),
        .other (.message 4 (.newOrder ⟨2, 0, 0, 100, 50⟩)),
        .other (.message 4 (.newOrder ⟨3, 0, 0, 99, 20⟩)), .read, .execute, .read, .read,
        .other (.message 4 (.newOrder ⟨3, 0, 0, 98, 40⟩)), .execute]).isSome by decide +kernel)
  exact ⟨log, t, hrun, (flatten_orders_accepted [] hempty rfl
    (fun id hid => absurd hid (nothing_rests id)) ⟨20⟩ (by decide) (by decide) hrun).2⟩

/-- The order that closes the position has been executed, and no fill made since then is read. -/
def Executed (b : OrderBook) (log : List Dispatch) (t : Monitor) : Prop :=
  ∃ early d late id, log = early ++ d :: late ∧ d.sender = t.conn ∧
    d.msg = (closing id t.engine.position.netPosition).toClientMsg ∧
    ¬ (b.run (requests early)).2.Rests id ∧
    (b.run (requests early)).2.fillsOf (requests (d :: late)) <:+ fillMsgs t.inbox

/-- A position beyond the limit has been answered by an order, whose fills are still to come. -/
structure Answered (b : OrderBook) (limits : RiskLimits) (log : List Dispatch) (t : Monitor) :
    Prop where
  unchanged : t.engine.limits = limits
  answered : t.engine.position.netPosition = 0 ∨
    |t.engine.position.netPosition| ≤ limits.maxAbsPosition ∨
    (∃ waiting id, t.outbox =
      waiting ++ [(closing id t.engine.position.netPosition).toClientMsg]) ∨ t.Executed b log

theorem Answered.start (b : OrderBook) (s₀ : Session) (fd : Fd) (limits : RiskLimits) :
    Answered b limits [] (.start s₀ fd limits) := ⟨rfl, Or.inl rfl⟩

/-- Whoever's event it is, the fills that it makes are told, and wait behind those that do. -/
theorem Executed.server (h : s.Executed b log) (hc : Counts b log s) {e' : Velo.Event}
    (hst : s.session.step e' = some (l, session)) (outbox : List ClientMsg) :
    Executed b (log ++ l) ({ s with session := session, outbox := outbox }.hear l) := by
  obtain ⟨early, d, late, id, hlog, hd, hmsg, hid, hfills⟩ := h
  have hsub : s.session.subscribed s.conn := by
    obtain ⟨early', late', hlog', hearly', ⟨rfl, -⟩ | ⟨hsub, -⟩, -⟩ := hc.counted
    · rw [List.append_nil] at hlog'
      have hmem : d ∈ early' := hlog' ▸ hlog ▸ List.mem_append_right _ List.mem_cons_self
      exact absurd hd (hearly' d hmem)
    · exact hsub
  have htold := (hc.sound.told_step hst hc.connected hsub).1
  have hbook := hc.book
  rw [hlog, requests_append, OrderBook.run_append] at hbook
  refine ⟨early, d, late ++ l, id, by rw [hlog, List.append_assoc, List.cons_append], hd, hmsg, hid,
    ?_⟩
  rw [← List.cons_append, requests_append, OrderBook.fillsOf_append, ← hbook, ← htold]
  simp only [hear, fillMsgs_append]
  obtain ⟨old, hold⟩ := hfills
  exact ⟨old, by rw [← List.append_assoc, hold]⟩

theorem Executed.of_execute (hc : Counts b log s) {id : UInt64}
    (hid : ¬ s.session.server.book.Rests id)
    (hst : s.session.step (.message s.fd
      (closing id s.engine.position.netPosition).toClientMsg) = some (l, session)) :
    Executed b (log ++ l) ({ s with session := session, outbox := [] }.hear l) := by
  rw [Session.step_message hc.connected, Option.some.injEq, Prod.mk.injEq] at hst
  obtain ⟨rfl, rfl⟩ := hst
  obtain ⟨acks, htold⟩ := hc.sound.received_told hc.connected hc.connected (Or.inl rfl)
    (closing id s.engine.position.netPosition).toClientMsg
  refine ⟨log, _, [], id, rfl, rfl, rfl, hc.book ▸ hid, ?_⟩
  rw [← hc.book, Session.requests_singleton]
  simp only [hear, List.flatMap_singleton, htold]
  rw [fillMsgs_append, fillMsgs_ack_fill]
  exact List.suffix_append _ _

variable {limits : RiskLimits}

theorem Answered.step (h : Answered b limits log s) (hc : Counts b log s) (hn : Numbered log n s)
    (hst : s.step e = some (l, t)) : Answered b limits (log ++ l) t := by
  obtain ⟨hlimits, hanswered⟩ := h
  rcases step_cases hst with ⟨msg, outbox, -, houtbox, session, hsession, rfl⟩ |
    ⟨a, inbox, -, hinbox, rfl, rfl⟩ | ⟨f, inbox, -, -, rfl, rfl⟩ |
    ⟨e', session, rfl, hne, hsession, rfl⟩
  · refine ⟨hlimits, hanswered.imp_right (Or.imp_right ?_)⟩
    rintro (⟨waiting, id, hwaiting⟩ | hexecuted)
    · rw [houtbox] at hwaiting
      cases waiting with
      | nil =>
        obtain ⟨rfl, rfl⟩ := List.cons.inj hwaiting
        have hid : ¬ s.session.server.book.Rests id := by
          obtain ⟨m, hm, rfl, -⟩ := closing_toClientMsg id s.engine.position.netPosition
          rcases hn.outbox _ (houtbox ▸ List.mem_cons_self) with hsub | ⟨id', net, hclosing, hle⟩
          · rw [hm] at hsub
            cases hsub
          · obtain ⟨m', hm', rfl, -⟩ := closing_toClientMsg id' net
            rw [hm, hm'] at hclosing
            cases hclosing
            exact fun hrests => absurd (hn.resting _ hrests) (UInt64.not_lt.mpr hle)
        exact Or.inr (.of_execute hc hid hsession)
      | cons first waiting =>
        obtain ⟨-, hrest⟩ := List.cons.inj hwaiting
        exact Or.inl ⟨waiting, id, hrest⟩
    · exact Or.inr (hexecuted.server hc hsession outbox)
  · rw [List.append_nil]
    refine ⟨hlimits, hanswered.imp_right (Or.imp_right (Or.imp_right ?_))⟩
    rintro ⟨early, d, late, id, hlog, hd, hmsg, hid, hfills⟩
    rw [hinbox] at hfills
    exact ⟨early, d, late, id, hlog, hd, hmsg, hid, hfills⟩
  · refine ⟨(RiskEngine.limits_read _ _).trans hlimits, Or.inr ?_⟩
    rcases s.engine.read_fill_cases (Protocol.ofWire f) with ⟨hle, -⟩ | ⟨hsome, -⟩
    · exact Or.inl (hlimits ▸ hle)
    · refine Or.inr (Or.inl ⟨s.outbox, s.engine.nextFlattenId, ?_⟩)
      rw [hsome]
      rfl
  · refine ⟨hlimits, hanswered.imp_right (Or.imp_right (Or.imp_right fun hexecuted => ?_))⟩
    exact hexecuted.server hc hsession s.outbox

theorem Answered.run (h : Answered b limits log s) (hc : Counts b log s) (hn : Numbered log n s)
    {es : List MonitorEvent} (hbelow : ∀ e ∈ es, e.Below)
    (hlen : flattenOrderIdBase.toNat + n + es.length < 2 ^ 64)
    (hr : Machine.run Monitor.step s es = some (l, t)) : Answered b limits (log ++ l) t := by
  induction es generalizing s log l n with
  | nil =>
    obtain ⟨rfl, rfl⟩ := run_nil.mp hr
    rwa [List.append_nil]
  | cons e es ih =>
    obtain ⟨l₁, u, l₂, hst, hrest, rfl⟩ := run_cons.mp hr
    rw [List.length_cons] at hlen
    obtain ⟨n', hle, hnext⟩ :=
      hn.step hc.sound hc.connected (hbelow e List.mem_cons_self) (by omega) hst
    rw [← List.append_assoc]
    exact ih (h.step hc hn hst) (hc.step hst) hnext
      (fun e' he' => hbelow e' (List.mem_cons_of_mem e he')) (by omega) hrest

/-- Once everything that the engine has sent is executed, and every fill that it was told of is
read, it is within its limit; or the order that closes its position exactly has met an empty queue,
and nothing has been traded since. -/
theorem comes_to_rest (before : List Velo.Event) {log₀ : List Dispatch} {s₀ : Session}
    (h₀ : Machine.run Session.step .start before = some (log₀, s₀)) {fd : Fd}
    (hfd : s₀.holder fd = none) (hfresh : s₀.Unrecorded fd)
    (hresting : ∀ id, s₀.server.book.Rests id → id < flattenOrderIdBase) (limits : RiskLimits)
    {es : List MonitorEvent} (hbelow : ∀ e ∈ es, e.Below)
    (hlen : flattenOrderIdBase.toNat + es.length < 2 ^ 64)
    (hr : Machine.run step (start s₀ fd limits) es = some (log, t)) (houtbox : t.outbox = [])
    (hinbox : fillMsgs t.inbox = []) :
    let net := t.engine.position.netPosition
    net = 0 ∨ |net| ≤ limits.maxAbsPosition ∨ ∃ early d late id,
      log = early ++ d :: late ∧ d.sender = t.conn ∧ d.msg = (closing id net).toClientMsg ∧
        let met := (s₀.server.book.run (requests early)).2
        (UInt32.ofNat net.natAbs = 0 ∨ met.queue (closing id net).side.opposite = []) ∧
          met.fillsOf (requests (d :: late)) = [] := by
  intro net
  have hs := Session.Sound.start.run h₀
  have hanswered := (Answered.start s₀.server.book s₀ fd limits).run
    (Counts.start hs hfd hfresh limits) (Numbered.start hresting fd limits) hbelow (by omega) hr
  rw [List.nil_append] at hanswered
  rcases hanswered.answered with hzero | hle | ⟨waiting, id, hwaiting⟩ |
    ⟨early, d, late, id, hlog, hd, hmsg, hid, hfills⟩
  · exact Or.inl hzero
  · exact Or.inr (Or.inl hle)
  · rw [houtbox] at hwaiting
    exact absurd hwaiting.symm (List.append_ne_nil_of_right_ne_nil waiting (List.cons_ne_nil _ _))
  · rw [hinbox, List.suffix_nil] at hfills
    refine Or.inr (Or.inr ⟨early, d, late, id, hlog, hd, hmsg, ?_, hfills⟩)
    obtain ⟨m, hm, rfl, hmarket, hside, hquantity⟩ := closing_toClientMsg id net
    by_cases hzero : UInt32.ofNat net.natAbs = 0
    · exact Or.inl hzero
    · right
      obtain ⟨L₀, hL₀⟩ := hs.book
      obtain ⟨L, hL, -⟩ := hL₀.run (requests early)
      have hreq : requests (d :: late) = .submit m.toOrder :: requests late := by
        rw [requests, List.filterMap_cons, hmsg, hm]
        rfl
      rw [hreq, ← List.singleton_append, OrderBook.fillsOf_append, List.append_eq_nil_iff] at hfills
      have hnone : ((s₀.server.book.run (requests early)).2.submit m.toOrder).1 = [] := by
        have hmap := hfills.1
        rw [OrderBook.fillsOf, List.map_eq_nil_iff] at hmap
        simpa [OrderBook.run, OrderBook.apply, Reply.fillList] using hmap
      rw [← hside]
      exact hL.queue_eq_nil (mt hL.rests_iff.mpr hid) hmarket (hquantity ▸ hzero) hnone

/-- Fifty are bought, and nobody buys them of the engine. -/
theorem comes_to_rest_beyond_its_limit :
    ∃ log t, Machine.run step (start .start 3 ⟨20⟩) [.execute, .other (.connect 4),
        .other (.message 4 (.newOrder ⟨1, 1, 0, 100, 50⟩)),
        .other (.message 4 (.newOrder ⟨2, 0, 0, 100, 50⟩)), .read, .execute, .read] =
          some (log, t) ∧
      ∃ early d late id, log = early ++ d :: late ∧ d.msg = (closing id 50).toClientMsg ∧
        (OrderBook.empty.run (requests early)).2.queue .buy = [] := by
  have hfresh : Machine.run Session.step .start [] = some ([], .start) := rfl
  have hend : (Machine.run step (start .start 3 ⟨20⟩) [.execute, .other (.connect 4),
      .other (.message 4 (.newOrder ⟨1, 1, 0, 100, 50⟩)),
      .other (.message 4 (.newOrder ⟨2, 0, 0, 100, 50⟩)), .read, .execute, .read]).map
        (fun r => decide (r.2.engine.position.netPosition = 50 ∧ r.2.outbox = [] ∧
          fillMsgs r.2.inbox = [])) = some true := by
    decide +kernel
  obtain ⟨⟨log, t⟩, hrun, ht⟩ := Option.map_eq_some_iff.mp hend
  obtain ⟨hnet, houtbox, hinbox⟩ := of_decide_eq_true ht
  have hrest := comes_to_rest [] hfresh rfl (by decide)
    (fun id hid => absurd hid (nothing_rests id)) ⟨20⟩ (by decide) (by decide) hrun houtbox hinbox
  dsimp only at hnet hrest
  rw [hnet] at hrest
  obtain hzero | hle | ⟨early, d, late, id, hlog, -, hmsg, hmet, -⟩ := hrest
  · exact absurd hzero (by decide)
  · exact absurd hle (by decide)
  · exact ⟨log, t, hrun, early, d, late, id, hlog, hmsg, hmet.resolve_left (by decide)⟩

end Monitor
end Velo.Risk
