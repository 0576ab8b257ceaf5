import Velo.Book.Commute
import Velo.Server.MarketData
import Velo.Server.Reading

/-! Two messages that race for the server and make no trade: nobody is ever told who was first. -/
namespace Velo
open Machine

theorem OrderBook.contains_alike {b b' : OrderBook} {L L' : List Order} (h : Represents b L)
    (h' : Represents b' L') (halike : b.queues.untimed = b'.queues.untimed) (id : UInt64) :
    b.contains id = b'.contains id := by
  rw [Bool.eq_iff_iff, ← h.mem_ids, ← h'.mem_ids, ← Queues.ids_untimed, halike,
    Queues.ids_untimed]

namespace OrderBookServer

/-- The same but for the timestamps of resting orders. -/
structure Alike (s t : OrderBookServer) : Prop where
  book : s.book.queues.untimed = t.book.queues.untimed
  connections : s.connections = t.connections
  orderOwnerFd : s.orderOwnerFd = t.orderOwnerFd

variable {s t : OrderBookServer} {L L' : List Order}

theorem Alike.fillSends (h : s.Alike t) (fd : Fd) (fill : Fill) :
    s.fillSends fd fill = t.fillSends fd fill := by
  have hother : s.otherOwner fd fill = t.otherOwner fd fill := by
    rw [otherOwner, otherOwner, h.orderOwnerFd]
  simp only [OrderBookServer.fillSends, hother, broadcastFillToSubscribers, h.connections]

theorem Alike.settle (h : s.Alike t) (hs : Represents s.book L) (ht : Represents t.book L')
    (fill : Fill) : (s.settle fill).Alike (t.settle fill) := by
  have hcontains := OrderBook.contains_alike hs ht h.book fill.restingOrderId
  rw [OrderBookServer.settle, OrderBookServer.settle, hcontains]
  split
  · exact h
  · exact ⟨h.book, h.connections, by rw [h.orderOwnerFd]⟩

theorem Alike.routeFills (h : s.Alike t) (hs : Represents s.book L) (ht : Represents t.book L')
    (fd : Fd) (fills : List Fill) : (s.routeFills fd fills).1 = (t.routeFills fd fills).1 ∧
      (s.routeFills fd fills).2.Alike (t.routeFills fd fills).2 := by
  induction fills generalizing s t with
  | nil => exact ⟨rfl, h⟩
  | cons fill fills ih =>
    obtain ⟨hsends, hafter⟩ := ih (h.settle hs ht fill) (by rwa [book_settle])
      (by rwa [book_settle])
    exact ⟨by rw [OrderBookServer.routeFills, OrderBookServer.routeFills, h.fillSends, hsends],
      hafter⟩

/-- Such servers write the same for a message, and stay alike. -/
theorem Alike.dispatch (h : s.Alike t) (hs : Represents s.book L) (ht : Represents t.book L')
    (fd : Fd) (msg : ClientMsg) : (s.dispatch fd msg).1 = (t.dispatch fd msg).1 ∧
      (s.dispatch fd msg).2.Alike (t.dispatch fd msg).2 := by
  cases msg with
  | newOrder msg =>
    have hcontains := OrderBook.contains_alike hs ht h.book msg.clientOrderId
    obtain ⟨hreply, hbook⟩ := OrderBook.replies_alike hs ht h.book [.submit msg.toOrder]
    have hfills : (s.book.submit msg.toOrder).1 = (t.book.submit msg.toOrder).1 := by
      simpa [OrderBook.run, OrderBook.apply] using hreply
    obtain ⟨_, hs', -⟩ := hs.submit msg.toOrder
    obtain ⟨_, ht', -⟩ := ht.submit msg.toOrder
    have hrests := OrderBook.contains_alike hs' ht' hbook msg.toOrder.id
    have hafter : (s.afterSubmit fd msg.toOrder).Alike (t.afterSubmit fd msg.toOrder) :=
      ⟨hbook, h.connections, by simp only [afterSubmit, hrests, h.orderOwnerFd]⟩
    obtain ⟨hsends, hrouted⟩ := hafter.routeFills hs' ht' fd (t.book.submit msg.toOrder).1
    simp only [OrderBookServer.dispatch, dispatchNewOrder, hcontains, hfills]
    split
    · exact ⟨rfl, h⟩
    · exact ⟨by rw [hsends], hrouted⟩
  | cancel msg =>
    obtain ⟨hreply, hbook⟩ := OrderBook.replies_alike hs ht h.book [.cancel msg.clientOrderId]
    have hok : (s.book.cancel msg.clientOrderId).1 = (t.book.cancel msg.clientOrderId).1 := by
      simpa [OrderBook.run, OrderBook.apply] using hreply
    simp only [OrderBookServer.dispatch, dispatchCancel, hok]
    exact ⟨trivial, hbook, h.connections, by simp only [h.orderOwnerFd]⟩
  | subscribeFills =>
    refine ⟨rfl, h.book, ?_, h.orderOwnerFd⟩
    simp only [OrderBookServer.dispatch, updateConnection, h.connections]

end OrderBookServer

namespace Session

/-- The same sessions but for the timestamps of resting orders. -/
structure Alike (s t : Session) : Prop where
  server : s.server.Alike t.server
  descriptors : s.descriptors = t.descriptors
  holder : s.holder = t.holder
  owner : s.owner = t.owner
  subscribed : s.subscribed = t.subscribed

variable {s t u : Session} {fd fd' : Fd} {k k' : ConnId} {m m' : ClientMsg} {id : UInt64}

theorem Alike.rests (h : s.Alike t) (hs : s.Sound) (ht : t.Sound) (id : UInt64) :
    s.server.book.Rests id ↔ t.server.book.Rests id := by
  obtain ⟨L, hL⟩ := hs.book
  obtain ⟨L', hL'⟩ := ht.book
  rw [hL.rests_iff, hL'.rests_iff, OrderBook.contains_alike hL hL' h.server.book]

theorem Alike.dispatch (h : s.Alike t) (hs : s.Sound) (ht : t.Sound) (hk : s.holder fd = some k)
    (msg : ClientMsg) : s.deliver (s.server.dispatch fd msg).1 =
        t.deliver (t.server.dispatch fd msg).1 ∧
      (s.dispatch fd k msg).Alike (t.dispatch fd k msg) := by
  obtain ⟨L, hL⟩ := hs.book
  obtain ⟨L', hL'⟩ := ht.book
  obtain ⟨M, hM⟩ := (hs.dispatch hk msg).book
  obtain ⟨M', hM'⟩ := (ht.dispatch (h.holder ▸ hk) msg).book
  obtain ⟨hsends, hserver⟩ := h.server.dispatch hL hL' fd msg
  have hafter : ∀ id, (s.server.dispatch fd msg).2.book.Rests id ↔
      (t.server.dispatch fd msg).2.book.Rests id := by
    intro id
    have hcontains := OrderBook.contains_alike hM hM' hserver.book id
    exact hM.rests_iff.trans ((Bool.eq_iff_iff.mp hcontains).trans hM'.rests_iff.symm)
  refine ⟨?_, hserver, h.descriptors, h.holder, ?_, ?_⟩
  · simp only [deliver, hsends, h.holder]
  · cases msg with
    | newOrder msg =>
      simp only [Session.dispatch, ownerAfter, h.rests hs ht, hafter, h.owner]
    | cancel msg => exact h.owner
    | subscribeFills => exact h.owner
  · cases msg with
    | newOrder msg => exact h.subscribed
    | cancel msg => exact h.subscribed
    | subscribeFills => simp only [Session.dispatch, subscribedAfter, h.subscribed]

/-- Nobody can tell such sessions apart by one event. -/
theorem Alike.step (h : s.Alike t) (hs : s.Sound) (ht : t.Sound) {e : Event} {l : List Dispatch}
    (hst : s.step e = some (l, u)) : ∃ v, t.step e = some (l, v) ∧ u.Alike v := by
  rcases step_cases hst with ⟨fd, rfl, hfd, rfl, rfl⟩ | ⟨fd, k, rfl, hk, rfl, rfl⟩ |
    ⟨fd, k, msg, rfl, hk, rfl, rfl⟩
  · rw [h.holder] at hfd
    refine ⟨t.connect fd, by simp [Session.step, hfd], ⟨h.server.book, ?_, h.server.orderOwnerFd⟩,
      ?_, ?_, h.owner, h.subscribed⟩
    · simp only [connect, OrderBookServer.acceptConnection, h.server.connections]
    · simp only [connect, h.descriptors]
    · simp only [connect, h.descriptors, h.holder]
  · rw [h.holder] at hk
    refine ⟨t.disconnect fd, by simp [Session.step, hk], ⟨h.server.book, ?_,
      h.server.orderOwnerFd⟩, h.descriptors, ?_, h.owner, h.subscribed⟩
    · simp only [disconnect, OrderBookServer.removeConnection, h.server.connections]
    · simp only [disconnect, h.holder]
  · obtain ⟨hdeliver, hafter⟩ := h.dispatch hs ht hk msg
    rw [h.holder] at hk
    exact ⟨t.dispatch fd k msg, by simp [Session.step, hk, hdeliver], hafter⟩

theorem Alike.run (h : s.Alike t) (hs : s.Sound) (ht : t.Sound) {es : List Event}
    {log : List Dispatch} (hr : Machine.run Session.step s es = some (log, u)) :
    ∃ v, Machine.run Session.step t es = some (log, v) ∧ u.Alike v := by
  induction es generalizing s t log with
  | nil =>
    obtain ⟨rfl, rfl⟩ := run_nil.mp hr
    exact ⟨t, rfl, h⟩
  | cons e es ih =>
    obtain ⟨l₁, w, l₂, hst, hrest, rfl⟩ := run_cons.mp hr
    obtain ⟨x, hx, hwx⟩ := h.step hs ht hst
    obtain ⟨v, hv, huv⟩ := ih hwx (hs.step hst) (ht.step hx) hrest
    exact ⟨v, run_cons.mpr ⟨l₁, x, l₂, hx, hv, rfl⟩, huv⟩

/-- After a message its sender is recorded for what has come to rest by it, and nobody for what has
gone. -/
theorem Sound.lookup_dispatch (h : s.Sound) (fd : Fd) (k : ConnId) (msg : ClientMsg)
    (id : UInt64) : (s.dispatch fd k msg).server.orderOwnerFd.lookup id =
      if (s.dispatch fd k msg).server.book.Rests id then
        if s.server.book.Rests id then s.server.orderOwnerFd.lookup id else some fd
      else none := by
  obtain ⟨L, hL⟩ := h.book
  have hunchanged : s.server.orderOwnerFd.lookup id =
      if s.server.book.Rests id then
        if s.server.book.Rests id then s.server.orderOwnerFd.lookup id else some fd
      else none := by
    by_cases hid : s.server.book.Rests id
    · rw [if_pos hid, if_pos hid]
    · rw [if_neg hid]
      exact Finmap.lookup_eq_none.mpr fun hmem => hid ((h.owned id).mp hmem)
  cases msg with
  | newOrder msg =>
    by_cases hrej : s.server.book.Rests msg.clientOrderId
    · rw [h.dispatch_rejected fd k hrej]
      exact hunchanged
    · have hbook := (dispatchNewOrder_accepted hL fd hrej).2.1
      have hlookup := lookup_dispatchNewOrder hL fd hrej (fun id => (h.owned id).mp) id
      simp only [Session.dispatch, OrderBookServer.dispatch, hbook]
      rw [hlookup]
      refine if_ctx_congr Iff.rfl (fun hafter => ?_) fun _ => rfl
      by_cases he : id = msg.clientOrderId
      · rw [if_pos he, if_neg (he ▸ hrej)]
      · rw [if_neg he, if_pos (hL.rests_of_submit hrej he hafter)]
  | cancel msg =>
    have hbook := (dispatchCancel_eq hL fd msg).2.1
    have hlookup := lookup_dispatchCancel hL fd (fun id => (h.owned id).mp) msg id
    simp only [Session.dispatch, OrderBookServer.dispatch, hbook,
      (hL.cancel_rests msg.clientOrderId).2]
    rw [hlookup, hunchanged]
    by_cases he : id = msg.clientOrderId <;> by_cases hid : s.server.book.Rests id <;>
      simp [he, hid]
  | subscribeFills => exact hunchanged

theorem Sound.owner_rests (h : s.Sound) (fd : Fd) (k : ConnId) (msg : ClientMsg) (id : UInt64) :
    (s.dispatch fd k msg).owner id =
      if ¬ s.server.book.Rests id ∧ (s.dispatch fd k msg).server.book.Rests id then some k
      else s.owner id := by
  obtain ⟨L, hL⟩ := h.book
  cases msg with
  | newOrder msg =>
    by_cases hrej : s.server.book.Rests msg.clientOrderId
    · rw [h.dispatch_rejected fd k hrej, if_neg fun hnew => hnew.1 hnew.2]
    · have hbook := (dispatchNewOrder_accepted hL fd hrej).2.1
      rw [h.owner_dispatch fd k hrej]
      simp only [Session.dispatch, OrderBookServer.dispatch, hbook]
      refine if_congr ?_ rfl rfl
      refine and_congr_left fun hafter => ?_
      constructor
      · rintro rfl
        exact hrej
      · intro hnew
        by_contra he
        exact hnew (hL.rests_of_submit hrej he hafter)
  | cancel msg =>
    have hbook := (dispatchCancel_eq hL fd msg).2.1
    have hgone := (hL.cancel_rests msg.clientOrderId).2 id
    rw [if_neg]
    · rfl
    · simp only [Session.dispatch, OrderBookServer.dispatch, hbook, hgone]
      exact fun hnew => hnew.1 hnew.2.1
  | subscribeFills => exact (if_neg fun hnew => hnew.1 hnew.2).symm

end Session

section Book

variable {b : OrderBook} {L : List Order} {r : Request} {a a' : Option Request} {id : UInt64}

theorem Represents.quiet (h : Represents b L) (hquiet : b.fillsOf [r] = []) :
    b.queues.Quiet r := by
  have hfills : (b.apply r).1.fillList = [] := by
    simpa [OrderBook.fillsOf, OrderBook.run] using hquiet
  rwa [Queues.Quiet, h.apply_queues]

theorem Represents.rests_of_quiet (h : Represents b L) (hquiet : b.fillsOf a.toList = [])
    (hid : ∀ r ∈ a, id ≠ r.id) : (b.run a.toList).2.Rests id ↔ b.Rests id := by
  cases a with
  | none => rfl
  | some r =>
    obtain ⟨M, hM, -⟩ := h.apply r
    have hids := (h.quiet hquiet).mem_ids (hid r rfl)
    rw [h.apply_queues, hM.mem_ids, h.mem_ids, ← hM.rests_iff, ← h.rests_iff] at hids
    exact hids

theorem Represents.quiet_commute (h : Represents b L) (hapart : ∀ r ∈ a, ∀ r' ∈ a', r.Apart r')
    (hquiet : b.fillsOf a.toList = []) (hquiet' : b.fillsOf a'.toList = [])
    (hsecond : (b.run a.toList).2.fillsOf a'.toList = [])
    (hsecond' : (b.run a'.toList).2.fillsOf a.toList = []) :
    ((b.run a.toList).2.run a'.toList).2.queues.untimed =
      ((b.run a'.toList).2.run a.toList).2.queues.untimed := by
  cases a with
  | none => rfl
  | some r =>
    cases a' with
    | none => rfl
    | some r' =>
      obtain ⟨M, hM, -⟩ := h.apply r
      obtain ⟨M', hM', -⟩ := h.apply r'
      have hq := h.quiet hquiet
      have hq' := h.quiet hquiet'
      have hqs : (b.queues.apply r).2.Quiet r' := h.apply_queues r ▸ hM.quiet hsecond
      have hqs' : (b.queues.apply r').2.Quiet r := h.apply_queues r' ▸ hM'.quiet hsecond'
      have hsorted : ∀ s, (b.queues.side s).Pairwise fun x y =>
          ¬ Better s y.priceTicks x.priceTicks := by
        intro s
        rw [OrderBook.side_queues]
        exact h.queue_prices s
      have hsame := hq.commute (hapart r rfl r' rfl) hsorted hq' hqs hqs'
      rw [h.apply_queues, h.apply_queues, hM.apply_queues, hM'.apply_queues] at hsame
      exact hsame

end Book

/-- The messages ask for nothing, or for requests about different orders and not for one place. -/
def ClientMsg.Apart (m m' : ClientMsg) : Prop :=
  ∀ r ∈ m.toRequest, ∀ r' ∈ m'.toRequest, r.Apart r'

/-- Nobody is told of a fill. -/
def Dispatch.Quiet (d : Dispatch) : Prop := fillMsgs (d.delivered.map Prod.snd) = []

instance (d : Dispatch) : Decidable d.Quiet := inferInstanceAs (Decidable (_ = _))

namespace Session

variable {s : Session} {fd fd' : Fd} {k k' : ConnId} {m m' : ClientMsg} {id : UInt64}

theorem Sound.fillsOf_quiet (h : s.Sound) (hk : s.holder fd = some k)
    (hquiet : Dispatch.Quiet ⟨k, m, s.deliver (s.server.dispatch fd m).1⟩) :
    s.server.book.fillsOf m.toRequest.toList = [] := by
  obtain ⟨acks, htold⟩ := h.received_told hk hk (Or.inl rfl) m
  have hfills := congrArg fillMsgs htold
  rw [fillMsgs_ack_fill] at hfills
  rw [← hfills]
  have hsub : (received k (s.deliver (s.server.dispatch fd m).1)).Sublist
      ((s.deliver (s.server.dispatch fd m).1).map Prod.snd) := List.filter_sublist.map _
  exact List.sublist_nil.mp (hquiet ▸ hsub.filterMap _)

/-- All that anybody is told of such a message is its acknowledgement. -/
theorem Sound.delivered_quiet (h : s.Sound) (hk : s.holder fd = some k)
    (hquiet : Dispatch.Quiet ⟨k, m, s.deliver (s.server.dispatch fd m).1⟩) :
    s.deliver (s.server.dispatch fd m).1 =
      (dueAck s.server.book m).toList.map fun a => (k, .ack a) := by
  obtain ⟨⟨fills, hdelivered, -⟩, -⟩ := (h.acknowledged hk m).1
  rw [Dispatch.Quiet, hdelivered] at hquiet
  have hnone : fills = [] := by
    refine List.eq_nil_iff_forall_not_mem.mpr fun f hf => ?_
    have hmem := List.mem_map_of_mem (f := Prod.snd) (List.mem_append_right
      ((dueAck s.server.book m).toList.map fun a => (k, ServerMsg.ack a))
      (List.mem_map_of_mem (f := fun f => (f.1, ServerMsg.fill f.2)) hf))
    have hack := List.filterMap_eq_nil_iff.mp hquiet _ hmem
    cases hack
  rw [hnone, List.map_nil, List.append_nil] at hdelivered
  exact hdelivered

theorem Sound.rests_quiet (h : s.Sound) (hk : s.holder fd = some k)
    (hquiet : s.server.book.fillsOf m.toRequest.toList = [])
    (hid : ∀ r ∈ m.toRequest, id ≠ r.id) :
    (s.dispatch fd k m).server.book.Rests id ↔ s.server.book.Rests id := by
  obtain ⟨L, hL⟩ := h.book
  rw [h.book_dispatch hk]
  exact hL.rests_of_quiet hquiet hid

/-- The other message comes to the same acknowledgement. -/
theorem Sound.dueAck_quiet (h : s.Sound) (hk : s.holder fd = some k)
    (hquiet : s.server.book.fillsOf m.toRequest.toList = []) (hapart : m.Apart m') :
    dueAck (s.dispatch fd k m).server.book m' = dueAck s.server.book m' := by
  have hids : ∀ r' ∈ m'.toRequest, ((s.dispatch fd k m).server.book.Rests r'.id ↔
      s.server.book.Rests r'.id) := fun r' hr' =>
    h.rests_quiet hk hquiet fun r hr => (hapart r hr r' hr').1.symm
  cases m' with
  | newOrder m' =>
    have hrests : (s.dispatch fd k m).server.book.Rests m'.clientOrderId ↔
        s.server.book.Rests m'.clientOrderId := hids _ rfl
    simp only [dueAck, hrests]
  | cancel m' =>
    have hrests : (s.dispatch fd k m).server.book.Rests m'.clientOrderId ↔
        s.server.book.Rests m'.clientOrderId := hids _ rfl
    simp only [dueAck, hrests]
  | subscribeFills => rfl

theorem subscribed_after (s : Session) (fd : Fd) (k : ConnId) (m : ClientMsg) (j : ConnId) :
    (s.dispatch fd k m).subscribed j =
      (s.subscribed j || decide (j = k ∧ m = .subscribeFills)) := by
  cases m with
  | newOrder m => simp [Session.dispatch, subscribedAfter]
  | cancel m => simp [Session.dispatch, subscribedAfter]
  | subscribeFills =>
    by_cases hj : j = k <;> simp [Session.dispatch, subscribedAfter, hj]

theorem connections_comm (s : Session) (fd fd' : Fd) (k k' : ConnId) (m m' : ClientMsg) :
    ((s.dispatch fd k m).dispatch fd' k' m').server.connections =
      ((s.dispatch fd' k' m').dispatch fd k m).server.connections := by
  simp only [Session.dispatch, OrderBookServer.connections_dispatch,
    OrderBookServer.updateConnection]
  by_cases hm : m = .subscribeFills <;> by_cases hm' : m' = .subscribeFills
  · simp only [hm, hm', if_true, List.map_map]
    refine List.map_congr_left fun c _ => ?_
    simp only [Function.comp_apply]
    split_ifs <;> simp_all
  all_goals simp [hm, hm']

/-- Two messages that make no trade and are apart come to the same in either order. -/
theorem Sound.race (h : s.Sound) (hk : s.holder fd = some k) (hk' : s.holder fd' = some k')
    (hapart : m.Apart m') (hquiet : s.server.book.fillsOf m.toRequest.toList = [])
    (hquiet' : s.server.book.fillsOf m'.toRequest.toList = [])
    (hsecond : (s.dispatch fd k m).server.book.fillsOf m'.toRequest.toList = [])
    (hsecond' : (s.dispatch fd' k' m').server.book.fillsOf m.toRequest.toList = []) :
    ((s.dispatch fd k m).dispatch fd' k' m').Alike ((s.dispatch fd' k' m').dispatch fd k m) := by
  have h₁ := h.dispatch hk m
  have h₂ := h.dispatch hk' m'
  have hk₁ : (s.dispatch fd k m).holder fd' = some k' := hk'
  have hk₂ : (s.dispatch fd' k' m').holder fd = some k := hk
  have hbook : ((s.dispatch fd k m).dispatch fd' k' m').server.book.queues.untimed =
      ((s.dispatch fd' k' m').dispatch fd k m).server.book.queues.untimed := by
    obtain ⟨L, hL⟩ := h.book
    rw [h₁.book_dispatch hk₁, h₂.book_dispatch hk₂, h.book_dispatch hk, h.book_dispatch hk']
    rw [h.book_dispatch hk] at hsecond
    rw [h.book_dispatch hk'] at hsecond'
    exact hL.quiet_commute hapart hquiet hquiet' hsecond hsecond'
  obtain ⟨M, hM⟩ := (h₁.dispatch hk₁ m').book
  obtain ⟨M', hM'⟩ := (h₂.dispatch hk₂ m).book
  have hend : ∀ id, ((s.dispatch fd k m).dispatch fd' k' m').server.book.Rests id ↔
      ((s.dispatch fd' k' m').dispatch fd k m).server.book.Rests id := by
    intro id
    rw [hM.rests_iff, hM'.rests_iff, OrderBook.contains_alike hM hM' hbook]
  -- no order is named by both
  have hnamed : ∀ id, (∀ r ∈ m.toRequest, id ≠ r.id) ∨ ∀ r' ∈ m'.toRequest, id ≠ r'.id := by
    intro id
    by_cases hid : ∀ r ∈ m.toRequest, id ≠ r.id
    · exact Or.inl hid
    · exact Or.inr fun r' hr' he => hid fun r hr he' => (hapart r hr r' hr').1 (he'.symm.trans he)
  have howners : ∀ id,
      ((s.dispatch fd k m).dispatch fd' k' m').server.orderOwnerFd.lookup id =
        ((s.dispatch fd' k' m').dispatch fd k m).server.orderOwnerFd.lookup id ∧
      ((s.dispatch fd k m).dispatch fd' k' m').owner id =
        ((s.dispatch fd' k' m').dispatch fd k m).owner id := by
    intro id
    rw [h₁.lookup_dispatch fd' k', h₂.lookup_dispatch fd k, h.lookup_dispatch fd k,
      h.lookup_dispatch fd' k', h₁.owner_rests fd' k', h₂.owner_rests fd k, h.owner_rests fd k,
      h.owner_rests fd' k']
    have hagree := hend id
    rcases hnamed id with hid | hid
    · have hbefore := h.rests_quiet hk hquiet hid
      have hafter := h₂.rests_quiet hk₂ hsecond' hid
      simp only [hagree, hafter, hbefore]
      by_cases h0 : s.server.book.Rests id <;>
        by_cases h1 : (s.dispatch fd' k' m').server.book.Rests id <;> simp [h0, h1]
    · have hbefore := h.rests_quiet hk' hquiet' hid
      have hafter := h₁.rests_quiet hk₁ hsecond hid
      simp only [← hagree, hafter, hbefore]
      by_cases h0 : s.server.book.Rests id <;>
        by_cases h1 : (s.dispatch fd k m).server.book.Rests id <;> simp [h0, h1]
  refine ⟨⟨hbook, connections_comm s fd fd' k k' m m', Finmap.ext_lookup fun id => (howners id).1⟩,
    rfl, rfl, funext fun id => (howners id).2, ?_⟩
  funext j
  simp only [subscribed_after]
  rw [Bool.or_assoc, Bool.or_assoc, Bool.or_comm (decide (j = k ∧ _))]

theorem of_step_message {t : Session} {l : List Dispatch}
    (h : s.step (.message fd m) = some (l, t)) : ∃ k, s.holder fd = some k ∧
      l = [⟨k, m, s.deliver (s.server.dispatch fd m).1⟩] ∧ t = s.dispatch fd k m := by
  cases hk : s.holder fd with
  | none => simp [Session.step, hk] at h
  | some k =>
    rw [step_message hk, Option.some.injEq, Prod.mk.injEq] at h
    exact ⟨k, rfl, h.1.symm, h.2.symm⟩

end Session

/-- Two messages of one connection or of two, about different orders and not for one place, of
which in either order nobody is told a fill: each is answered the same in both orders, and whatever
happens afterwards, every connection is told the same. -/
theorem race_unseen (before : List Event) {log₀ : List Dispatch} {s : Session}
    (h₀ : run Session.step .start before = some (log₀, s)) {fd fd' : Fd} {m m' : ClientMsg}
    (hapart : m.Apart m') {log log' : List Dispatch} {t t' : Session}
    (h : run Session.step s [.message fd m, .message fd' m'] = some (log, t))
    (h' : run Session.step s [.message fd' m', .message fd m] = some (log', t'))
    (hquiet : ∀ d ∈ log ++ log', d.Quiet) :
    log' = log.reverse ∧ ∀ (after : List Event) {later : List Dispatch} {u : Session},
      run Session.step t after = some (later, u) →
        ∃ u', run Session.step t' after = some (later, u') ∧ u.Alike u' := by
  have hs := Session.Sound.start.run h₀
  obtain ⟨l₁, s₁, l₂, hst₁, hst₂, rfl⟩ := run_cons.mp h
  obtain ⟨l₁', s₂, l₂', hst₁', hst₂', rfl⟩ := run_cons.mp h'
  rw [run_singleton] at hst₂ hst₂'
  obtain ⟨k, hk, rfl, rfl⟩ := Session.of_step_message hst₁
  obtain ⟨k', hk', rfl, rfl⟩ := Session.of_step_message hst₁'
  obtain ⟨_, hk₁, rfl, rfl⟩ := Session.of_step_message hst₂
  obtain ⟨_, hk₂, rfl, rfl⟩ := Session.of_step_message hst₂'
  cases hk'.symm.trans hk₁
  cases hk.symm.trans hk₂
  simp only [List.cons_append, List.nil_append, List.forall_mem_cons, List.not_mem_nil,
    false_implies, implies_true, and_true] at hquiet
  obtain ⟨hq, hqsecond, hq', hqsecond'⟩ := hquiet
  have hs₁ := hs.dispatch hk m
  have hs₂ := hs.dispatch hk' m'
  have hfills := hs.fillsOf_quiet hk hq
  have hfills' := hs.fillsOf_quiet hk' hq'
  have halike := hs.race hk hk' hapart hfills hfills' (hs₁.fillsOf_quiet hk₁ hqsecond)
    (hs₂.fillsOf_quiet hk₂ hqsecond')
  have hapart' : m'.Apart m := fun r' hr' r hr => (hapart r hr r' hr').symm
  refine ⟨?_, fun after later u hr => halike.run (hs₁.dispatch hk₁ m') (hs₂.dispatch hk₂ m) hr⟩
  rw [hs.delivered_quiet hk hq, hs.delivered_quiet hk' hq', hs₁.delivered_quiet hk₁ hqsecond,
    hs₂.delivered_quiet hk₂ hqsecond', hs.dueAck_quiet hk hfills hapart,
    hs.dueAck_quiet hk' hfills' hapart']
  rfl

end Velo
