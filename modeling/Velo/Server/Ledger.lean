import Velo.Server.MarketData

/-! What a client can tell of its own orders from its own connection: all there is to know. -/
namespace Velo
open Machine

/-- What is known to rest of each order, and nothing of those not known. -/
abbrev Ledger := UInt64 → ℕ

/-- The part of a fill that an order with an id has. -/
def FillWireMsg.part (f : FillWireMsg) (id : UInt64) : ℕ :=
  if id = f.restingOrderId ∨ id = f.incomingOrderId then f.quantity.toNat else 0

namespace Ledger

def onFill (known : Ledger) (f : FillWireMsg) : Ledger := fun id => known id - f.part id

/-- The acknowledgement of a request. -/
def onAck (known : Ledger) (msg : ClientMsg) (a : AckMsg) : Ledger :=
  if a.status = 0 then
    match msg with
    | .newOrder m =>
      if m.toOrder.type = .limit then Function.update known m.clientOrderId m.quantity.toNat
      else known
    | .cancel m => Function.update known m.clientOrderId 0
    | .subscribeFills => known
  else known

/-- The messages of the server, read with the requests that are still unanswered: the oldest is the
one that the next acknowledgement answers. -/
def read (known : Ledger) : List ClientMsg → List ServerMsg → Ledger
  | _, [] => known
  | sent, .fill f :: ms => (known.onFill f).read sent ms
  | msg :: sent, .ack a :: ms => (known.onAck msg a).read sent ms
  | [], .ack _ :: ms => known.read [] ms

variable {known : Ledger} {sent sent' : List ClientMsg} {ms ms' : List ServerMsg}

/-- Messages that answer just these requests can be read first. -/
theorem read_append (h : (acks ms).length = sent.length) :
    known.read (sent ++ sent') (ms ++ ms') = (known.read sent ms).read sent' ms' := by
  induction ms generalizing known sent with
  | nil =>
    obtain rfl := List.length_eq_zero_iff.mp h.symm
    rfl
  | cons m ms ih =>
    cases m with
    | fill f =>
      have hread : known.read sent (.fill f :: ms) = (known.onFill f).read sent ms := by
        cases sent <;> rfl
      rw [hread, ← ih h]
      cases hall : sent ++ sent' <;> rfl
    | ack a =>
      cases sent with
      | nil => cases h
      | cons msg sent => exact ih (Nat.succ.inj h)

theorem read_fills (known : Ledger) (sent : List ClientMsg) (fs : List FillWireMsg) (id : UInt64) :
    known.read sent (fs.map .fill) id = known id - (fs.map (·.part id)).sum := by
  induction fs generalizing known with
  | nil => cases sent <;> rfl
  | cons f fs ih =>
    have hread : known.read sent ((f :: fs).map .fill) =
        (known.onFill f).read sent (fs.map .fill) := by
      cases sent <;> rfl
    rw [hread, ih, onFill, List.map_cons, List.sum_cons, Nat.sub_sub]

end Ledger

/-- The requests of a connection that the server has executed. -/
def asked (k : ConnId) (log : List Dispatch) : List ClientMsg :=
  (log.filter fun d => d.sender = k ∧ d.msg ≠ .subscribeFills).map Dispatch.msg

namespace Session

/-- What rests in the book for a connection. -/
def heldQuantity (s : Session) (k : ConnId) (id : UInt64) : ℕ :=
  if s.owner id = some k then s.server.book.restingQuantity id else 0

/-- Nobody else cancels what rests for the connection, and it is not closed. -/
def LeavesAlone (k : ConnId) (s : Session) (e : Event) (_ : List Dispatch) : Prop :=
  match e with
  | .message fd (.cancel m) => s.holder fd = some k ∨ ¬ s.Holds k m.clientOrderId
  | .disconnect fd => s.holder fd ≠ some k
  | _ => True

variable {s t : Session} {fd fd' : Fd} {j k : ConnId} {known : Ledger} {log l : List Dispatch}
  {e : Event}

/-- Whether the connection `k` on `fd'` is sent a fill of an order that came in on `fd`. -/
def tells (s : Session) (fd fd' : Fd) (k : ConnId) (f : Fill) : Bool :=
  fd' = fd ∨ s.server.orderOwnerFd.lookup f.restingOrderId = some fd' ∨ s.subscribed k

/-- What a connection gets of an accepted order. -/
theorem Sound.received_accepted (h : s.Sound) (hj : s.holder fd = some j)
    (hk : s.holder fd' = some k) {m : ClientOrderMsg}
    (hid : ¬ s.server.book.Rests m.clientOrderId) :
    received k (s.deliver (s.server.dispatch fd (.newOrder m)).1) =
      (if j = k then [.ack ⟨m.clientOrderId, MsgType.newOrder.tag, 0⟩] else []) ++
        (((s.server.book.submit m.toOrder).1.filter (s.tells fd fd' k)).map Fill.toWire).map
          .fill := by
  obtain ⟨L, hL⟩ := h.book
  have hfills : ∀ fs : List Fill,
      (fs.flatMap fun f => received k (s.deliver (s.server.fillSends fd f))) =
        ((fs.filter (s.tells fd fd' k)).map Fill.toWire).map .fill := by
    intro fs
    induction fs with
    | nil => rfl
    | cons f fs ih =>
      rw [List.flatMap_cons, ih, h.received_fill hk]
      split
      · rename_i hf
        have htells : s.tells fd fd' k f := decide_eq_true hf
        rw [List.filter_cons_of_pos htells]
        rfl
      · rename_i hf
        have htells : ¬ s.tells fd fd' k f := fun h => hf (of_decide_eq_true h)
        rw [List.filter_cons_of_neg htells]
        rfl
  rw [OrderBookServer.dispatch, (dispatchNewOrder_accepted hL fd hid).1, sendAck, deliver_cons hj,
    received_cons, received_deliver_flatMap, hfills]
  split <;> rfl

/-- The fills of others that a connection gets are all those of its own resting orders. -/
theorem sum_part_filter {C : Fill → Bool} {id : UInt64} (fs : List Fill)
    (h : ∀ f ∈ fs, f.incomingOrderId ≠ id ∧ (f.restingOrderId = id → C f)) :
    (((fs.filter C).map Fill.toWire).map (·.part id)).sum = filledAgainst id fs := by
  induction fs with
  | nil => rfl
  | cons f fs ih =>
    obtain ⟨⟨hin, hC⟩, hfs⟩ := List.forall_mem_cons.mp h
    have hpart : f.toWire.part id = if f.restingOrderId = id then f.quantity.toNat else 0 := by
      simp only [FillWireMsg.part, Fill.toWire, hin.symm, or_false, eq_comm]
    by_cases hrests : f.restingOrderId = id
    · rw [List.filter_cons_of_pos (hC hrests), List.map_cons, List.map_cons, List.sum_cons, ih hfs,
        hpart, if_pos hrests]
      simp [filledAgainst, filled, hrests]
    · have hagainst : filledAgainst id (f :: fs) = filledAgainst id fs := by
        simp [filledAgainst, hrests]
      rw [hagainst, ← ih hfs]
      by_cases hf : C f
      · rw [List.filter_cons_of_pos hf, List.map_cons, List.map_cons, List.sum_cons, hpart,
          if_neg hrests, zero_add]
      · rw [List.filter_cons_of_neg hf]

theorem sum_part_all {id : UInt64} (fs : List Fill) (h : ∀ f ∈ fs, f.incomingOrderId = id) :
    ((fs.map Fill.toWire).map (·.part id)).sum = filled fs := by
  rw [filled, List.map_map]
  congr 1
  refine List.map_congr_left fun f hf => ?_
  simp [FillWireMsg.part, Fill.toWire, h f hf]

/-- The ledger of an open connection says what rests for it. -/
def Exact (known : Ledger) (s : Session) (k : ConnId) : Prop := ∀ id, known id = s.heldQuantity k id

theorem heldQuantity_of_not_rests (h : s.Sound) {id : UInt64} (hid : ¬ s.server.book.Rests id) :
    s.heldQuantity k id = 0 := by
  obtain ⟨L, hL⟩ := h.book
  rw [heldQuantity, hL.restingQuantity_of_not_rests hid, ite_self]

theorem read_accepted (known : Ledger) (j k : ConnId) (m : ClientOrderMsg)
    (fs : List FillWireMsg) (id : UInt64) :
    known.read (if j = k then [.newOrder m] else [])
        ((if j = k then [.ack ⟨m.clientOrderId, MsgType.newOrder.tag, 0⟩] else []) ++
          fs.map .fill) id =
      (if j = k ∧ m.toOrder.type = .limit then
          Function.update known m.clientOrderId m.quantity.toNat
        else known) id - (fs.map (·.part id)).sum := by
  by_cases hjk : j = k
  · by_cases hlimit : m.toOrder.type = .limit
    · simp only [hjk, hlimit, and_self, if_true]
      refine (Ledger.read_fills _ [] fs id).trans ?_
      rw [Ledger.onAck, if_pos rfl]
      simp only [hlimit, if_true]
    · simp only [hjk, hlimit, and_false, if_true, if_false]
      refine (Ledger.read_fills _ [] fs id).trans ?_
      rw [Ledger.onAck, if_pos rfl]
      simp only [hlimit, if_false]
  · simp only [hjk, false_and, if_false]
    exact Ledger.read_fills known [] fs id

theorem Sound.tells_owner (h : s.Sound) (hk : s.holder fd' = some k) (fd : Fd) {f : Fill}
    (hrests : s.server.book.Rests f.restingOrderId) (hown : s.owner f.restingOrderId = some k) :
    s.tells fd fd' k f := by
  obtain ⟨fd₀, hlookup⟩ := Option.isSome_iff_exists.mp
    (Finmap.lookup_isSome.mpr ((h.owned f.restingOrderId).mpr hrests))
  obtain ⟨i, hi, hd⟩ := h.owner f.restingOrderId fd₀ hlookup
  rw [hown, Option.some.injEq] at hi
  rw [← hi, h.descriptor fd' k hk, Option.some.injEq] at hd
  subst hd
  exact decide_eq_true (Or.inr (Or.inl hlookup))

theorem Sound.heldQuantity_submitted (h : s.Sound) (hj : s.holder fd = some j) (k : ConnId)
    {m : ClientOrderMsg} (hid : ¬ s.server.book.Rests m.clientOrderId) :
    (s.dispatch fd j (.newOrder m)).heldQuantity k m.clientOrderId =
      if j = k then (s.server.book.submit m.toOrder).2.restingQuantity m.clientOrderId else 0 := by
  have hbook : (s.dispatch fd j (.newOrder m)).server.book = (s.server.book.submit m.toOrder).2 :=
    h.book_dispatch_newOrder hid
  by_cases hrests : (s.server.book.submit m.toOrder).2.Rests m.clientOrderId
  · have hown := h.owner_dispatch fd j hid m.clientOrderId
    rw [if_pos ⟨rfl, hrests⟩] at hown
    rw [heldQuantity, hown, hbook]
    exact if_congr (Option.some_inj) rfl rfl
  · obtain ⟨L, hL⟩ := (h.dispatch hj (.newOrder m)).book
    rw [heldQuantity_of_not_rests (h.dispatch hj (.newOrder m)) (hbook ▸ hrests), ← hbook,
      hL.restingQuantity_of_not_rests (hbook ▸ hrests), ite_self]

/-- The sender's own order, in its ledger and in that of the others. -/
theorem Sound.exact_submitted (h : s.Sound) (hj : s.holder fd = some j)
    (hk : s.holder fd' = some k) {m : ClientOrderMsg}
    (hid : ¬ s.server.book.Rests m.clientOrderId) (hknown : Exact known s k) :
    known.read (if j = k then [.newOrder m] else [])
        (received k (s.deliver (s.server.dispatch fd (.newOrder m)).1)) m.clientOrderId =
      (s.dispatch fd j (.newOrder m)).heldQuantity k m.clientOrderId := by
  obtain ⟨L, hL⟩ := h.book
  obtain ⟨hquantity, hself, -, hfills⟩ := hL.submit_balanced (o := m.toOrder) hid
  have hnone : known m.clientOrderId = 0 := (hknown _).trans (heldQuantity_of_not_rests h hid)
  rw [h.received_accepted hj hk hid, read_accepted, h.heldQuantity_submitted hj k hid]
  by_cases hjk : j = k
  · subst hjk
    obtain rfl := h.holder_inj hj hk
    have hall : (s.server.book.submit m.toOrder).1.filter (s.tells fd fd j) =
        (s.server.book.submit m.toOrder).1 :=
      List.filter_eq_self.mpr fun f _ => decide_eq_true (Or.inl rfl)
    have hfilled : ((((s.server.book.submit m.toOrder).1).map Fill.toWire).map
        (·.part m.clientOrderId)).sum = filled (s.server.book.submit m.toOrder).1 :=
      sum_part_all _ fun f hf => (hfills f hf).1
    rw [hall, hfilled, if_pos rfl]
    refine Eq.trans ?_ hself.symm
    by_cases hlimit : m.toOrder.type = .limit
    · rw [if_pos ⟨rfl, hlimit⟩, if_pos hlimit, Function.update_self]
      exact Nat.sub_eq_of_eq_add (hquantity.trans (Nat.add_comm _ _))
    · rw [if_neg fun hboth => hlimit hboth.2, if_neg hlimit, hnone, Nat.zero_sub]
  · rw [if_neg fun hboth => hjk hboth.1, if_neg hjk, hnone, Nat.zero_sub]

/-- Any other order, whose fills are reported if it is held here. -/
theorem Sound.exact_against (h : s.Sound) (hj : s.holder fd = some j)
    (hk : s.holder fd' = some k) {m : ClientOrderMsg}
    (hid : ¬ s.server.book.Rests m.clientOrderId) (hknown : Exact known s k) {id : UInt64}
    (he : id ≠ m.clientOrderId) :
    known.read (if j = k then [.newOrder m] else [])
        (received k (s.deliver (s.server.dispatch fd (.newOrder m)).1)) id =
      (s.dispatch fd j (.newOrder m)).heldQuantity k id := by
  obtain ⟨L, hL⟩ := h.book
  have hothers := (hL.submit_balanced (o := m.toOrder) hid).2.2.1 id he
  have hfills := (hL.submit_fills (o := m.toOrder) hid).2
  have hkept : (if j = k ∧ m.toOrder.type = .limit then
      Function.update known m.clientOrderId m.quantity.toNat else known) id = known id := by
    split
    · exact Function.update_of_ne he _ _
    · rfl
  have hown := h.owner_dispatch fd j hid id
  rw [if_neg fun hself => he hself.1] at hown
  rw [h.received_accepted hj hk hid, read_accepted, hkept, hknown id, heldQuantity, heldQuantity,
    hown, h.book_dispatch_newOrder hid]
  by_cases hheld : s.owner id = some k
  · have hsum : ((((s.server.book.submit m.toOrder).1.filter (s.tells fd fd' k)).map
        Fill.toWire).map (·.part id)).sum =
          filledAgainst id (s.server.book.submit m.toOrder).1 := by
      refine sum_part_filter _ ?_
      intro f hf
      obtain ⟨hin, hrests⟩ := hfills f hf
      refine ⟨fun hid => he (hid.symm.trans hin), ?_⟩
      rintro rfl
      exact h.tells_owner hk fd hrests hheld
    rw [hsum, if_pos hheld, if_pos hheld, hothers, Nat.add_sub_cancel_left]
  · rw [if_neg hheld, if_neg hheld, Nat.zero_sub]

/-- A cancel takes away what its sender has under the id, and nothing of anybody else. -/
theorem Sound.exact_cancel (h : s.Sound) (hj : s.holder fd = some j) {m : CancelMsg}
    (hknown : Exact known s k) (halone : j = k ∨ ¬ s.Holds k m.clientOrderId) :
    Exact (known.read (if j = k then [.cancel m] else [])
      (received k (s.deliver (s.server.dispatch fd (.cancel m)).1)))
        (s.dispatch fd j (.cancel m)) k := by
  obtain ⟨L, hL⟩ := h.book
  obtain ⟨hgone, hkept⟩ := hL.cancel_balanced m.clientOrderId
  obtain ⟨hsends, hbook, -⟩ := dispatchCancel_eq hL fd m
  have hheld : ∀ id, (s.dispatch fd j (.cancel m)).heldQuantity k id =
      if id = m.clientOrderId then 0 else s.heldQuantity k id := by
    intro id
    have hafter : (s.dispatch fd j (.cancel m)).server.book =
        (s.server.book.cancel m.clientOrderId).2 := hbook
    rw [heldQuantity, heldQuantity, hafter]
    by_cases he : id = m.clientOrderId
    · rw [if_pos he, he, hgone, ite_self]
    · rw [if_neg he, hkept id he]
      rfl
  have hzero : ¬ s.server.book.Rests m.clientOrderId → known m.clientOrderId = 0 := by
    intro hrests
    exact (hknown _).trans (heldQuantity_of_not_rests h hrests)
  intro id
  rw [hheld, OrderBookServer.dispatch, hsends, sendAck, deliver_cons hj, received_cons]
  by_cases hjk : j = k
  · rw [if_pos hjk, if_pos hjk]
    by_cases hrests : s.server.book.Rests m.clientOrderId
    · have hread : known.read [.cancel m] [.ack ⟨m.clientOrderId, MsgType.cancel.tag,
          if s.server.book.Rests m.clientOrderId then 0 else 1⟩] =
            Function.update known m.clientOrderId 0 := by
        rw [if_pos hrests]
        rfl
      refine (congrFun hread id).trans ?_
      by_cases he : id = m.clientOrderId
      · rw [if_pos he, he, Function.update_self]
      · rw [if_neg he, Function.update_of_ne he, hknown id]
    · have hread : known.read [.cancel m] [.ack ⟨m.clientOrderId, MsgType.cancel.tag,
          if s.server.book.Rests m.clientOrderId then 0 else 1⟩] = known := by
        rw [if_neg hrests]
        rfl
      refine (congrFun hread id).trans ?_
      by_cases he : id = m.clientOrderId
      · rw [if_pos he, he, hzero hrests]
      · rw [if_neg he, hknown id]
  · rw [if_neg hjk, if_neg hjk]
    refine Eq.trans (b := known id) rfl ?_
    by_cases he : id = m.clientOrderId
    · rw [if_pos he, he]
      by_cases hrests : s.server.book.Rests m.clientOrderId
      · rw [hknown, heldQuantity, if_neg fun hown => halone.resolve_left hjk ⟨hrests, hown⟩]
      · exact hzero hrests
    · rw [if_neg he, hknown id]

theorem asked_append (k : ConnId) (log log' : List Dispatch) :
    asked k (log ++ log') = asked k log ++ asked k log' := by
  rw [asked, List.filter_append, List.map_append]
  rfl

theorem Sound.length_acks (h : s.Sound) (hj : s.holder fd = some j) (k : ConnId) (msg : ClientMsg) :
    let d : Dispatch := ⟨j, msg, s.deliver (s.server.dispatch fd msg).1⟩
    (acks (received k d.delivered)).length = (asked k [d]).length := by
  intro d
  have hacks := (h.acknowledged hj msg).1.acks_received k
  rw [List.flatMap_singleton] at hacks
  rw [hacks, dueAcks, dueAcks, List.append_nil]
  by_cases hjk : j = k
  · cases msg <;> simp [hjk, asked, dueAck, d]
  · simp [hjk, asked, d]

/-- One message, in the ledger of an open connection. -/
theorem Sound.exact_dispatch (h : s.Sound) (hj : s.holder fd = some j) (hk : s.holder fd' = some k)
    (msg : ClientMsg) (hknown : Exact known s k)
    (halone : j = k ∨ ∀ m, msg = .cancel m → ¬ s.Holds k m.clientOrderId) :
    Exact (known.read (asked k [⟨j, msg, s.deliver (s.server.dispatch fd msg).1⟩])
      (received k (s.deliver (s.server.dispatch fd msg).1))) (s.dispatch fd j msg) k := by
  have hasked : msg ≠ .subscribeFills →
      asked k [⟨j, msg, s.deliver (s.server.dispatch fd msg).1⟩] = if j = k then [msg] else [] := by
    intro hmsg
    by_cases hjk : j = k <;> simp [asked, hjk, hmsg]
  cases msg with
  | newOrder m =>
    rw [hasked (by simp)]
    by_cases hid : s.server.book.Rests m.clientOrderId
    · obtain ⟨L, hL⟩ := h.book
      rw [h.dispatch_rejected fd j hid, OrderBookServer.dispatch,
        dispatchNewOrder_rejected hL fd hid, sendAck, deliver_cons hj, received_cons]
      by_cases hjk : j = k
      · rw [if_pos hjk, if_pos hjk]
        exact hknown
      · rw [if_neg hjk, if_neg hjk]
        exact hknown
    · intro id
      by_cases he : id = m.clientOrderId
      · subst he
        exact h.exact_submitted hj hk hid hknown
      · exact h.exact_against hj hk hid hknown he
  | cancel m =>
    rw [hasked (by simp)]
    exact h.exact_cancel hj hknown (halone.imp_right fun hnot => hnot m rfl)
  | subscribeFills =>
    have hnone : asked k [⟨j, .subscribeFills,
        s.deliver (s.server.dispatch fd .subscribeFills).1⟩] = [] := by
      simp [asked]
    rw [hnone]
    exact hknown

/-- What a connection that stays open knows stays exact, if the others leave its orders alone. -/
theorem Sound.exact_run (h : s.Sound) (hk : s.holder fd = some k) (hknown : Exact known s k)
    {es : List Event} (halone : Along Session.step (LeavesAlone k) s es)
    (hr : Machine.run Session.step s es = some (l, t)) :
    Exact (known.read (asked k l) (l.flatMap fun d => received k d.delivered)) t k ∧
      (acks (l.flatMap fun d => received k d.delivered)).length = (asked k l).length := by
  induction es generalizing s known l with
  | nil =>
    obtain ⟨rfl, rfl⟩ := run_nil.mp hr
    exact ⟨hknown, rfl⟩
  | cons e es ih =>
    obtain ⟨l₁, u, l₂, hst, hrest, rfl⟩ := run_cons.mp hr
    simp only [Along, hst] at halone
    obtain ⟨hhere, hlater⟩ := halone
    have hopen : e ≠ .disconnect fd := by
      rintro rfl
      exact hhere hk
    have hstep : Exact (known.read (asked k l₁) (l₁.flatMap fun d => received k d.delivered)) u k ∧
        (acks (l₁.flatMap fun d => received k d.delivered)).length = (asked k l₁).length := by
      rcases step_cases hst with ⟨fd', -, -, rfl, rfl⟩ | ⟨fd', j, -, -, rfl, rfl⟩ |
        ⟨fd', j, msg, rfl, hj, rfl, rfl⟩
      · exact ⟨hknown, rfl⟩
      · exact ⟨hknown, rfl⟩
      · rw [List.flatMap_singleton]
        refine ⟨h.exact_dispatch hj hk msg hknown ?_, h.length_acks hj k msg⟩
        by_cases hjk : j = k
        · exact Or.inl hjk
        · refine Or.inr ?_
          rintro m rfl
          exact hhere.resolve_left fun hsame => hjk (Option.some.inj (hj.symm.trans hsame))
    obtain ⟨hexact, hlength⟩ := hstep
    obtain ⟨hend, hendLength⟩ :=
      ih (h.step hst) (holder_of_step hk hopen hst) hexact hlater hrest
    rw [List.flatMap_append, asked_append, Ledger.read_append hlength, acks_append,
      List.length_append, List.length_append, hlength, hendLength]
    exact ⟨hend, rfl⟩

instance (k : ConnId) (s : Session) (e : Event) (l : List Dispatch) :
    Decidable (LeavesAlone k s e l) :=
  match e with
  | .message _ (.cancel _) => inferInstanceAs (Decidable (_ ∨ _))
  | .disconnect _ => inferInstanceAs (Decidable (_ ≠ _))
  | .connect _ | .message _ (.newOrder _) | .message _ .subscribeFills => .isTrue trivial

end Session

/-- A client that connects to a server in use and stays, and whose orders no other client cancels,
can tell from its own requests and the messages it is sent, at any time and whatever is still
unanswered, exactly what rests of each of its orders. -/
theorem ledger_exact (before : List Event) {log₀ log : List Dispatch} {s t : Session}
    (h₀ : run Session.step .start before = some (log₀, s)) {fd : Fd} (hfd : s.holder fd = none)
    {es : List Event} (halone : Along Session.step (Session.LeavesAlone s.descriptors.length)
      (s.connect fd) es)
    (hr : run Session.step (s.connect fd) es = some (log, t)) (pending : List ClientMsg) :
    let k := s.descriptors.length
    ∀ id, Ledger.read (fun _ => 0) (asked k log ++ pending)
      (log.flatMap fun d => received k d.delivered) id = t.heldQuantity k id := by
  intro k id
  have hs := Session.Sound.start.run h₀
  have hnothing : Session.Exact (fun _ => 0) (s.connect fd) k := by
    intro id
    by_cases hrests : s.server.book.Rests id
    · obtain ⟨fd', hlookup⟩ := Option.isSome_iff_exists.mp
        (Finmap.lookup_isSome.mpr ((hs.owned id).mpr hrests))
      obtain ⟨i, hi, hd⟩ := hs.owner id fd' hlookup
      have hlt := (List.getElem?_eq_some_iff.mp hd).1
      have hne : (s.connect fd).owner id ≠ some k := by
        intro hown
        have hsame : s.owner id = some k := hown
        rw [hi, Option.some.injEq] at hsame
        exact absurd hlt (hsame ▸ lt_irrefl _)
      rw [Session.heldQuantity, if_neg hne]
    · exact (Session.heldQuantity_of_not_rests (hs.connect hfd) hrests).symm
  have hopen : (s.connect fd).holder fd = some k := by simp [Session.connect, k]
  obtain ⟨hexact, hlength⟩ := (hs.connect hfd).exact_run hopen hnothing halone hr
  have hread : Ledger.read (fun _ => 0) (asked k log ++ pending)
      ((log.flatMap fun d => received k d.delivered) ++ []) = _ := Ledger.read_append hlength
  rw [List.append_nil] at hread
  rw [hread]
  exact hexact id

/-- Ten bought: three trade at once, two later, and a cancel is still on its way. -/
theorem ledger_exact_before_a_cancel :
    ∃ log t, run Session.step (((Session.start.connect 5).dispatch 5 0
        (.newOrder ⟨1, 1, 0, 100, 3⟩)).connect 6) [.message 6 (.newOrder ⟨7, 0, 0, 101, 10⟩),
          .message 5 (.newOrder ⟨2, 1, 0, 100, 2⟩)] = some (log, t) ∧
      Ledger.read (fun _ => 0) (asked 1 log ++ [.cancel ⟨7⟩])
        (log.flatMap fun d => received 1 d.delivered) 7 = 5 := by
  have hheld : (run Session.step (((Session.start.connect 5).dispatch 5 0
      (.newOrder ⟨1, 1, 0, 100, 3⟩)).connect 6) [.message 6 (.newOrder ⟨7, 0, 0, 101, 10⟩),
        .message 5 (.newOrder ⟨2, 1, 0, 100, 2⟩)]).map (fun r => r.2.heldQuantity 1 7) =
          some 5 := by
    decide +kernel
  obtain ⟨⟨log, t⟩, hrun, hheld⟩ := Option.map_eq_some_iff.mp hheld
  have hbefore : run Session.step .start [.connect 5, .message 5 (.newOrder ⟨1, 1, 0, 100, 3⟩)] =
      some (_, (Session.start.connect 5).dispatch 5 0 (.newOrder ⟨1, 1, 0, 100, 3⟩)) := rfl
  exact ⟨log, t, hrun,
    (ledger_exact _ hbefore rfl (by decide +kernel) hrun [.cancel ⟨7⟩] 7).trans hheld⟩

end Velo
