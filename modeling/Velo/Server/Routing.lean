import Velo.Book.Residence
import Velo.Server.Server

/-! What one dispatched message writes and what it leaves behind. -/
namespace Velo
namespace OrderBookServer

variable {s : OrderBookServer} {fd : Fd} {fill : Fill} {fills : List Fill} {id : UInt64}
  {f : Connection → Connection} {L : List Order}

/-! The loop over the fills changes nothing but the owner map. -/

@[simp] theorem book_settle : (s.settle fill).book = s.book := by
  unfold settle
  split <;> rfl

@[simp] theorem connections_settle : (s.settle fill).connections = s.connections := by
  unfold settle
  split <;> rfl

theorem lookup_settle : (s.settle fill).orderOwnerFd.lookup id =
    if id = fill.restingOrderId ∧ ¬ s.book.contains id then none
    else s.orderOwnerFd.lookup id := by
  by_cases hid : id = fill.restingOrderId
  · subst hid
    unfold settle
    split <;> simp_all
  · unfold settle
    split <;> simp [hid, Finmap.lookup_erase_ne]

@[simp] theorem book_routeFills : (s.routeFills fd fills).2.book = s.book := by
  induction fills generalizing s with
  | nil => rfl
  | cons fill fills ih => exact ih.trans book_settle

@[simp] theorem connections_routeFills :
    (s.routeFills fd fills).2.connections = s.connections := by
  induction fills generalizing s with
  | nil => rfl
  | cons fill fills ih => exact ih.trans connections_settle

theorem lookup_routeFills : (s.routeFills fd fills).2.orderOwnerFd.lookup id =
    if id ∈ fills.map Fill.restingOrderId ∧ ¬ s.book.contains id then none
    else s.orderOwnerFd.lookup id := by
  induction fills generalizing s with
  | nil => simp [routeFills]
  | cons fill fills ih =>
    simp only [routeFills, ih, lookup_settle, book_settle, List.map_cons, List.mem_cons]
    by_cases hc : s.book.contains id
    · simp [hc]
    · simp only [hc, Bool.false_eq_true, not_false_eq_true, and_true]
      by_cases hid : id = fill.restingOrderId <;> simp only [hid, true_or, false_or, if_true,
        if_false, ite_self]

theorem fillSends_settle {g : Fill} (h : g.restingOrderId ≠ fill.restingOrderId) :
    (s.settle fill).fillSends fd g = s.fillSends fd g := by
  simp [fillSends, otherOwner, broadcastFillToSubscribers, lookup_settle, h]

theorem routeFills_sends (h : (fills.map Fill.restingOrderId).Nodup) :
    (s.routeFills fd fills).1 = fills.flatMap (s.fillSends fd) := by
  induction fills generalizing s with
  | nil => rfl
  | cons fill fills ih =>
    obtain ⟨hfill, hfills⟩ := List.nodup_cons.mp h
    have hsame : fills.flatMap ((s.settle fill).fillSends fd) = fills.flatMap (s.fillSends fd) := by
      refine List.flatMap_congr fun g hg => fillSends_settle ?_
      intro he
      exact hfill (he ▸ List.mem_map_of_mem hg)
    rw [routeFills, List.flatMap_cons, ih hfills, hsame]

@[simp] theorem book_updateConnection : (s.updateConnection fd f).book = s.book := rfl

@[simp] theorem orderOwnerFd_updateConnection :
    (s.updateConnection fd f).orderOwnerFd = s.orderOwnerFd := rfl

theorem fds_updateConnection (hf : ∀ c, (f c).fd = c.fd) :
    (s.updateConnection fd f).connections.map Connection.fd =
      s.connections.map Connection.fd := by
  rw [updateConnection, List.map_map]
  refine List.map_congr_left fun c _ => ?_
  simp only [Function.comp_apply]
  split
  · exact hf c
  · rfl

end OrderBookServer

open OrderBookServer

variable {s : OrderBookServer} {fd : Fd} {msg : ClientOrderMsg} {id : UInt64} {L : List Order}

/-- A duplicate id: the acknowledgement, and nothing else happens. -/
theorem dispatchNewOrder_rejected (h : Represents s.book L) (fd : Fd)
    (hid : s.book.Rests msg.clientOrderId) :
    s.dispatchNewOrder fd msg = ([sendAck fd msg.clientOrderId MsgType.newOrder.tag 1], s) := by
  rw [dispatchNewOrder, if_pos (h.rests_iff.mp hid)]

/-- An accepted order: the acknowledgement, then the copies of its fills in match order. -/
theorem dispatchNewOrder_accepted (h : Represents s.book L) (fd : Fd)
    (hid : ¬ s.book.Rests msg.clientOrderId) :
    (s.dispatchNewOrder fd msg).1 = sendAck fd msg.clientOrderId MsgType.newOrder.tag 0 ::
        (s.book.submit msg.toOrder).1.flatMap (s.fillSends fd) ∧
      (s.dispatchNewOrder fd msg).2.book = (s.book.submit msg.toOrder).2 ∧
      (s.dispatchNewOrder fd msg).2.connections = s.connections := by
  have hc : ¬ s.book.contains msg.clientOrderId := fun hc => hid (h.rests_iff.mpr hc)
  obtain ⟨hnd, hfills⟩ := h.submit_fills (o := msg.toOrder) hid
  simp only [dispatchNewOrder, if_neg hc, book_routeFills, connections_routeFills,
    routeFills_sends hnd]
  refine ⟨?_, rfl, rfl⟩
  congr 1
  refine List.flatMap_congr fun f hf => ?_
  -- The submitter's own new entry is no resting order of a fill.
  have hne : f.restingOrderId ≠ msg.toOrder.id := by
    intro he
    have hrests := (hfills f hf).2
    rw [he] at hrests
    exact hid hrests
  have hlookup : (s.afterSubmit fd msg.toOrder).orderOwnerFd.lookup f.restingOrderId =
      s.orderOwnerFd.lookup f.restingOrderId := by
    simp only [afterSubmit]
    split
    · exact Finmap.lookup_insert_of_ne _ hne
    · rfl
  simp only [fillSends, otherOwner, broadcastFillToSubscribers, hlookup]
  rfl

/-- Where the owner map names resting orders only, an accepted order leaves it so: the new order is
entered if it came to rest, and what was filled whole is gone. -/
theorem lookup_dispatchNewOrder (h : Represents s.book L) (fd : Fd)
    (hid : ¬ s.book.Rests msg.clientOrderId)
    (howned : ∀ id, id ∈ s.orderOwnerFd → s.book.Rests id) (id : UInt64) :
    (s.dispatchNewOrder fd msg).2.orderOwnerFd.lookup id =
      if (s.book.submit msg.toOrder).2.Rests id then
        if id = msg.clientOrderId then some fd else s.orderOwnerFd.lookup id
      else none := by
  obtain ⟨L', hL', -⟩ := h.submit msg.toOrder
  have hc : ¬ s.book.contains msg.clientOrderId := fun hc => hid (h.rests_iff.mpr hc)
  have hafterSubmit : ((s.afterSubmit fd msg.toOrder).book.contains id : Prop) ↔
      (s.book.submit msg.toOrder).2.Rests id := hL'.rests_iff.symm
  simp only [dispatchNewOrder, if_neg hc, lookup_routeFills, hafterSubmit]
  by_cases hafter : (s.book.submit msg.toOrder).2.Rests id
  · rw [if_neg (fun hgone => hgone.2 hafter), if_pos hafter]
    by_cases he : id = msg.clientOrderId
    · subst he
      have hself : (s.book.submit msg.toOrder).2.contains msg.toOrder.id :=
        hL'.rests_iff.mp hafter
      rw [if_pos rfl, afterSubmit]
      simp only [hself, if_true]
      exact Finmap.lookup_insert _
    · rw [if_neg he, afterSubmit]
      simp only
      split
      · exact Finmap.lookup_insert_of_ne _ he
      · rfl
  · rw [if_neg hafter]
    by_cases hfill : id ∈ (s.book.submit msg.toOrder).1.map Fill.restingOrderId
    · rw [if_pos ⟨hfill, hafter⟩]
    · have hbefore : ¬ s.book.Rests id := fun hb => hfill (h.filled_of_submit hid hb hafter)
      have hnone : s.orderOwnerFd.lookup id = none :=
        Finmap.lookup_eq_none.mpr fun hmem => hbefore (howned id hmem)
      rw [if_neg (fun hgone => hfill hgone.1), afterSubmit]
      simp only
      split
      · rename_i hself
        have hne : id ≠ msg.toOrder.id := by
          rintro rfl
          exact hafter (hL'.rests_iff.mpr hself)
        rw [Finmap.lookup_insert_of_ne _ hne, hnone]
      · exact hnone

theorem dispatchCancel_eq (h : Represents s.book L) (fd : Fd) (msg : CancelMsg) :
    (s.dispatchCancel fd msg).1 = [sendAck fd msg.clientOrderId MsgType.cancel.tag
        (if s.book.Rests msg.clientOrderId then 0 else 1)] ∧
      (s.dispatchCancel fd msg).2.book = (s.book.cancel msg.clientOrderId).2 ∧
      (s.dispatchCancel fd msg).2.connections = s.connections := by
  have hok := (h.cancel_rests msg.clientOrderId).1
  refine ⟨?_, rfl, rfl⟩
  simp only [dispatchCancel, hok]

/-- A cancel takes the entry of the order it removes out of the owner map. -/
theorem lookup_dispatchCancel (h : Represents s.book L) (fd : Fd)
    (howned : ∀ id, id ∈ s.orderOwnerFd → s.book.Rests id) (msg : CancelMsg) (id : UInt64) :
    (s.dispatchCancel fd msg).2.orderOwnerFd.lookup id =
      if id = msg.clientOrderId then none else s.orderOwnerFd.lookup id := by
  have hok := (h.cancel_rests msg.clientOrderId).1
  simp only [dispatchCancel, hok]
  by_cases he : id = msg.clientOrderId
  · subst he
    rw [if_pos rfl]
    split
    · exact Finmap.lookup_erase _ _
    · rename_i hrest
      exact Finmap.lookup_eq_none.mpr fun hmem => hrest (howned _ hmem)
  · rw [if_neg he]
    split
    · exact Finmap.lookup_erase_ne he
    · rfl

end Velo
