import Velo.Book.Requote

/-! Two quotes on the plain book in the place of two others, of which one or both may be gone. -/
namespace Velo.Reference

theorem cancel_eq {ι π : Type*} [DecidableEq ι] (book : List (Resting ι π)) (id : ι) :
    (cancel book id).2 = besides id book := by
  by_cases hid : id ∈ book.map Resting.id
  · rw [cancel, if_pos hid]
    rfl
  · rw [cancel, if_neg hid, besides_of_not_mem hid]

namespace Requote

variable {ι π : Type*} [LinearOrder π] {q : Requote ι π} {bid ask : Bool}

/-- The old quotes, as far as they still stand. -/
def old (q : Requote ι π) (bid ask : Bool) : List (Resting ι π) :=
  (if bid then [q.oldBid] else []) ++ if ask then [q.oldAsk] else []

theorem candidates_old_bidOrder : candidates q.bidOrder (q.old bid ask) =
    if ask ∧ q.ask ≤ q.newBid then [q.oldAsk] else [] := by
  by_cases hcross : q.ask ≤ q.newBid <;> cases bid <;> cases ask <;>
    simp [old, candidates, Incoming.Crosses, bidOrder, oldBid, oldAsk, Side.opposite, hcross]

theorem candidates_old_askOrder : candidates q.askOrder (q.old bid ask) =
    if bid ∧ q.newAsk ≤ q.bid then [q.oldBid] else [] := by
  by_cases hcross : q.newAsk ≤ q.bid <;> cases bid <;> cases ask <;>
    simp [old, candidates, Incoming.Crosses, askOrder, oldBid, oldAsk, Side.opposite, hcross]

theorem nodup_old (q : Requote ι π) (bid ask : Bool) :
    (((q.old bid ask) ++ [q.bidOrder.toResting]).map Resting.id).Nodup ∧
    q.newBidId ∉ (q.old bid ask).map Resting.id ∧
    q.newAskId ∉ (q.old bid ask ++ [q.bidOrder.toResting]).map Resting.id := by
  obtain ⟨h, hb, hb', ha, ha', hn⟩ := q.ids_ne
  cases bid <;> cases ask <;>
    simp [old, oldBid, oldAsk, Incoming.toResting, bidOrder, h, hb, hb'.symm, ha, ha'.symm,
      hn.symm, hb.symm, ha.symm]

theorem new_ids : (∀ r ∈ [q.bidOrder.toResting, q.askOrder.toResting],
    r.id ≠ q.bidId ∧ r.id ≠ q.askId) := by
  obtain ⟨-, hb, hb', ha, ha', -⟩ := q.ids_ne
  simp [Incoming.toResting, bidOrder, askOrder, hb.symm, hb'.symm, ha.symm, ha'.symm]

theorem nodup_ids_old : ((q.old bid ask).map Resting.id).Nodup := by
  have hnd := (nodup_old q bid ask).1
  rw [List.map_append] at hnd
  exact (List.nodup_append.mp hnd).1

variable [DecidableEq ι]

theorem cancels_old {new : List (Resting ι π)} (hnew : ∀ r ∈ new, r.id ≠ q.bidId ∧ r.id ≠ q.askId) :
    besides q.askId (besides q.bidId (q.old bid ask ++ new)) = new := by
  have hold : besides q.askId (besides q.bidId (q.old bid ask)) = [] := by
    cases bid <;> cases ask <;> simp [old, besides, oldBid, oldAsk]
  have hkeep : ∀ id, (∀ r ∈ new, r.id ≠ id) → besides id new = new := by
    intro id h
    exact List.filter_eq_self.mpr fun r hr => decide_eq_true (h r hr)
  rw [besides_append, besides_append, hold, hkeep _ fun r hr => (hnew r hr).1,
    hkeep _ fun r hr => (hnew r hr).2, List.nil_append]

theorem run_calls {book mid new : List (Resting ι π)} {ts ts' : List (Trade ι π)} {b a : Bool}
    (hbid : submit book q.bidOrder = (ts, mid))
    (hask : submit mid q.askOrder = (ts', q.old b a ++ new))
    (hnew : new ⊆ [q.bidOrder.toResting, q.askOrder.toResting]) :
    (run book q.calls).1.flatMap Answer.tradeList = ts ++ ts' ∧ (run book q.calls).2 = new := by
  have hleft : (cancel (cancel (q.old b a ++ new) q.bidId).2 q.askId).2 = new := by
    rw [cancel_eq, cancel_eq, cancels_old fun r hr => new_ids r (hnew hr)]
  simp only [calls, run, apply, hbid, hask, hleft]
  simp [Answer.tradeList]

/-- The new bid takes the old ask. -/
theorem run_up_old (bid : Bool) (hcross : q.ask ≤ q.newBid) (hclear : bid → q.bid < q.newAsk) :
    (run (q.old bid true) q.calls).1.flatMap Answer.tradeList =
        [⟨q.askId, q.newBidId, .sell, q.ask, q.quantity⟩] ∧
      (run (q.old bid true) q.calls).2 = [q.askOrder.toResting] := by
  have hfound : candidates q.bidOrder (q.old bid true) = [q.oldAsk] := by
    rw [candidates_old_bidOrder, if_pos ⟨rfl, hcross⟩]
  have hnone : candidates q.askOrder (q.old bid false) = [] := by
    rw [candidates_old_askOrder, if_neg]
    exact fun h => h.2.not_gt (hclear h.1)
  have hbuy : submit (q.old bid true) q.bidOrder =
      ([⟨q.askId, q.newBidId, .sell, q.ask, q.quantity⟩], q.old bid false) := by
    rw [submit_of_candidate (nodup_old ..).2.1 q.quantity_pos hfound rfl nodup_ids_old]
    have hne := q.ids_ne.1
    cases bid <;> simp [old, besides, oldBid, oldAsk, hne, bidOrder]
  have hsell : submit (q.old bid false) q.askOrder =
      ([], q.old bid false ++ [q.askOrder.toResting]) := by
    refine submit_of_no_candidates ?_ rfl q.quantity_pos hnone
    have hfresh := (nodup_old q bid false).2.2
    rw [List.map_append, List.mem_append, not_or] at hfresh
    exact hfresh.1
  exact run_calls hbuy hsell (List.subset_cons_self _ _)

/-- The new ask takes the old bid, past the new one. -/
theorem run_down_old (ask : Bool) (hcross : q.newAsk ≤ q.bid) (hclear : ask → q.newBid < q.ask) :
    (run (q.old true ask) q.calls).1.flatMap Answer.tradeList =
        [⟨q.bidId, q.newAskId, .buy, q.bid, q.quantity⟩] ∧
      (run (q.old true ask) q.calls).2 = [q.bidOrder.toResting] := by
  have hnone : candidates q.bidOrder (q.old true ask) = [] := by
    rw [candidates_old_bidOrder, if_neg]
    exact fun h => h.2.not_gt (hclear h.1)
  have hfound : candidates q.askOrder (q.old true ask ++ [q.bidOrder.toResting]) = [q.oldBid] := by
    rw [candidates_ask_append, candidates_old_askOrder, if_pos ⟨rfl, hcross⟩]
  have hbuy := submit_of_no_candidates (nodup_old ..).2.1 rfl q.quantity_pos hnone
  have hsell : submit (q.old true ask ++ [q.bidOrder.toResting]) q.askOrder =
      ([⟨q.bidId, q.newAskId, .buy, q.bid, q.quantity⟩],
        q.old false ask ++ [q.bidOrder.toResting]) := by
    rw [submit_of_candidate (nodup_old ..).2.2 q.quantity_pos hfound rfl (nodup_old ..).1,
      besides_append]
    obtain ⟨hne, hnew, -⟩ := q.ids_ne
    cases ask <;>
      simp [old, besides, oldBid, oldAsk, bidOrder, askOrder, Incoming.toResting, hne.symm,
        hnew.symm]
  exact run_calls hbuy hsell (List.cons_subset_cons _ (List.nil_subset _))

/-- Neither reaches an old one. -/
theorem run_clear_old (hbid : ask → q.newBid < q.ask) (hask : bid → q.bid < q.newAsk) :
    (run (q.old bid ask) q.calls).1.flatMap Answer.tradeList = [] ∧
      (run (q.old bid ask) q.calls).2 = [q.bidOrder.toResting, q.askOrder.toResting] := by
  have hnone : candidates q.bidOrder (q.old bid ask) = [] := by
    rw [candidates_old_bidOrder, if_neg]
    exact fun h => h.2.not_gt (hbid h.1)
  have hnone' : candidates q.askOrder (q.old bid ask ++ [q.bidOrder.toResting]) = [] := by
    rw [candidates_ask_append, candidates_old_askOrder, if_neg]
    exact fun h => h.2.not_gt (hask h.1)
  have hbuy := submit_of_no_candidates (nodup_old ..).2.1 rfl q.quantity_pos hnone
  have hsell : submit (q.old bid ask ++ [q.bidOrder.toResting]) q.askOrder =
      ([], q.old bid ask ++ [q.bidOrder.toResting, q.askOrder.toResting]) := by
    rw [submit_of_no_candidates (nodup_old ..).2.2 rfl q.quantity_pos hnone', List.append_assoc]
    rfl
  exact run_calls hbuy hsell (List.Subset.refl _)

end Requote
end Velo.Reference
