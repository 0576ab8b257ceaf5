import Velo.Book.Remainder
import Velo.Book.Bystander

/-! Two quotes on the plain book, and two others in their place: the new ones are submitted before
the old ones are cancelled. -/
namespace Velo.Reference
open Iteration

variable {ι π : Type*} {book : List (Resting ι π)} {o : Incoming ι π} {r : Resting ι π}

section Submit

variable [DecidableEq ι]

theorem deduct_all (hnd : (book.map Resting.id).Nodup) (hr : r ∈ book) :
    deduct r.id r.quantity book = besides r.id book := by
  rw [deduct, besides, ← List.filterMap_eq_filter]
  refine List.filterMap_congr fun x hx => ?_
  by_cases hid : x.id = r.id
  · have hxr : x = r := List.inj_on_of_nodup_map hnd hx hr hid
    simp [Option.guard, hxr]
  · simp [Option.guard, hid]

variable [LinearOrder π]

theorem submit_of_no_candidates (hid : o.id ∉ book.map Resting.id) (htype : o.type = .limit)
    (hq : 0 < o.quantity) (hnone : candidates o book = []) :
    submit book o = ([], book ++ [o.toResting]) := by
  have hall : matchAll o book = ⟨o, book, []⟩ :=
    matchAll_eq .refl (tradeStep_eq_none.mpr (Or.inr hnone))
  rw [submit_of_fresh hid, hall, if_pos ⟨hq, htype⟩]

/-- An order that finds one order of its own quantity takes it, and nothing is left of both. -/
theorem submit_of_candidate (hid : o.id ∉ book.map Resting.id) (hq : 0 < o.quantity)
    (hone : candidates o book = [r]) (hquantity : r.quantity = o.quantity)
    (hnd : (book.map Resting.id).Nodup) :
    submit book o = ([⟨r.id, o.id, r.side, r.price, o.quantity⟩], besides r.id book) := by
  have hpick : pick o book = some r := by
    have hbest : bestPrice o.side.opposite ([r].map Resting.price) = some r.price := by
      cases o.side <;> rfl
    rw [pick, hone, hbest]
    simp
  have hr := (mem_of_pick hpick).1
  have hall : matchAll o book = ⟨{ o with quantity := 0 }, besides r.id book,
      [⟨r.id, o.id, r.side, r.price, o.quantity⟩]⟩ := by
    have hdeduct : deduct r.id o.quantity book = besides r.id book :=
      hquantity ▸ deduct_all hnd hr
    refine matchAll_eq (.single ?_) (tradeStep_eq_none.mpr (Or.inl rfl))
    rw [tradeStep, if_pos hq, hpick, Option.map_some]
    simp only [hquantity, Nat.min_self, Nat.sub_self, hdeduct, List.nil_append]
  rw [submit_of_fresh hid, hall, if_neg, List.append_nil]
  exact fun hrest => absurd hrest.1 (lt_irrefl 0)

end Submit

/-- The ids and the prices of two quotes and of two others in their place, all of one quantity. -/
structure Requote (ι π : Type*) [LT π] where
  bidId : ι
  askId : ι
  newBidId : ι
  newAskId : ι
  bid : π
  ask : π
  newBid : π
  newAsk : π
  quantity : ℕ
  quantity_pos : 0 < quantity
  ids : [bidId, askId, newBidId, newAskId].Nodup
  spread : newBid < newAsk

namespace Requote

variable [LinearOrder π]

def oldBid (q : Requote ι π) : Resting ι π := ⟨q.bidId, .buy, q.bid, q.quantity⟩

def oldAsk (q : Requote ι π) : Resting ι π := ⟨q.askId, .sell, q.ask, q.quantity⟩

def bidOrder (q : Requote ι π) : Incoming ι π := ⟨q.newBidId, .buy, .limit, q.newBid, q.quantity⟩

def askOrder (q : Requote ι π) : Incoming ι π := ⟨q.newAskId, .sell, .limit, q.newAsk, q.quantity⟩

/-- Both new quotes are submitted before either old one is cancelled. -/
def calls (q : Requote ι π) : List (Call ι π) :=
  [.submit q.bidOrder, .submit q.askOrder, .cancel q.bidId, .cancel q.askId]

variable (q : Requote ι π)

theorem ids_ne : q.bidId ≠ q.askId ∧ q.bidId ≠ q.newBidId ∧ q.bidId ≠ q.newAskId ∧
    q.askId ≠ q.newBidId ∧ q.askId ≠ q.newAskId ∧ q.newBidId ≠ q.newAskId := by
  have hids := q.ids
  simp only [List.nodup_cons, List.mem_cons, not_or] at hids
  exact ⟨hids.1.1, hids.1.2.1, hids.1.2.2.1, hids.2.1.1, hids.2.1.2.1, hids.2.2.1.1⟩

theorem candidates_bidOrder : candidates q.askOrder [q.bidOrder.toResting] = [] := by
  have hspread := q.spread.not_ge
  simp [candidates, Incoming.Crosses, Incoming.toResting, bidOrder, askOrder, hspread]

variable {q}

theorem nodup_ids (hbook : book.Perm [q.oldBid, q.oldAsk]) :
    (book.map Resting.id).Nodup := by
  rw [(hbook.map Resting.id).nodup_iff]
  exact List.nodup_cons.mpr ⟨by simp [oldBid, oldAsk, q.ids_ne.1], List.nodup_singleton _⟩

theorem fresh (hbook : book.Perm [q.oldBid, q.oldAsk]) :
    q.newBidId ∉ book.map Resting.id ∧ q.newAskId ∉ book.map Resting.id := by
  obtain ⟨-, hbid, hbid', hask, hask', -⟩ := q.ids_ne
  rw [(hbook.map Resting.id).mem_iff, (hbook.map Resting.id).mem_iff]
  simp [oldBid, oldAsk, hbid.symm, hbid'.symm, hask.symm, hask'.symm]

/-- The new bid finds the old ask, if it reaches it, and nothing else. -/
theorem candidates_bid (hbook : book.Perm [q.oldBid, q.oldAsk])
    (hcross : q.ask ≤ q.newBid) : candidates q.bidOrder book = [q.oldAsk] := by
  refine List.perm_singleton.mp ((hbook.filter _).trans ?_)
  simp [Incoming.Crosses, bidOrder, oldBid, oldAsk, Side.opposite, hcross]

theorem candidates_bid_clear (hbook : book.Perm [q.oldBid, q.oldAsk])
    (hclear : q.newBid < q.ask) : candidates q.bidOrder book = [] := by
  refine List.perm_nil.mp ((hbook.filter _).trans ?_)
  simp [Incoming.Crosses, bidOrder, oldBid, oldAsk, Side.opposite, hclear]

theorem candidates_ask (hbook : book.Perm [q.oldBid, q.oldAsk])
    (hcross : q.newAsk ≤ q.bid) : candidates q.askOrder book = [q.oldBid] := by
  refine List.perm_singleton.mp ((hbook.filter _).trans ?_)
  simp [Incoming.Crosses, askOrder, oldBid, oldAsk, Side.opposite, hcross]

theorem candidates_ask_clear (hbook : book.Perm [q.oldBid, q.oldAsk])
    (hclear : q.bid < q.newAsk) : candidates q.askOrder book = [] := by
  refine List.perm_nil.mp ((hbook.filter _).trans ?_)
  simp [Incoming.Crosses, askOrder, oldBid, oldAsk, Side.opposite, hclear]

theorem candidates_ask_append :
    candidates q.askOrder (book ++ [q.bidOrder.toResting]) = candidates q.askOrder book := by
  rw [candidates, List.filter_append]
  exact (congrArg _ q.candidates_bidOrder).trans (List.append_nil _)

theorem nodup_ids_append (hbook : book.Perm [q.oldBid, q.oldAsk]) :
    ((book ++ [q.bidOrder.toResting]).map Resting.id).Nodup ∧
      q.newAskId ∉ (book ++ [q.bidOrder.toResting]).map Resting.id := by
  obtain ⟨-, -, -, -, -, hnew⟩ := q.ids_ne
  obtain ⟨hbid, hask⟩ := fresh hbook
  rw [List.map_append, List.map_singleton]
  constructor
  · refine List.nodup_append.mpr ⟨nodup_ids hbook, List.nodup_singleton _, ?_⟩
    rintro i hi j hj rfl
    rw [List.mem_singleton.mp hj] at hi
    exact hbid hi
  · rw [List.mem_append, List.mem_singleton, not_or]
    exact ⟨hask, hnew.symm⟩

variable [DecidableEq ι]

theorem besides_bid (hbook : book.Perm [q.oldBid, q.oldAsk]) :
    besides q.bidId book = [q.oldAsk] := by
  refine List.perm_singleton.mp ((hbook.filter _).trans ?_)
  simp [oldBid, oldAsk, q.ids_ne.1.symm]

theorem besides_ask (hbook : book.Perm [q.oldBid, q.oldAsk]) :
    besides q.askId book = [q.oldBid] := by
  refine List.perm_singleton.mp ((hbook.filter _).trans ?_)
  simp [oldBid, oldAsk, q.ids_ne.1]

theorem submit_bid_clear (hbook : book.Perm [q.oldBid, q.oldAsk]) (hclear : q.newBid < q.ask) :
    submit book q.bidOrder = ([], book ++ [q.bidOrder.toResting]) :=
  submit_of_no_candidates (fresh hbook).1 rfl q.quantity_pos (candidates_bid_clear hbook hclear)

/-- The new bid reaches the old ask, and the new ask not the old bid. -/
theorem run_up (hbook : book.Perm [q.oldBid, q.oldAsk]) (hcross : q.ask ≤ q.newBid)
    (hclear : q.bid < q.newAsk) :
    run book q.calls =
      ([.trades [⟨q.askId, q.newBidId, .sell, q.ask, q.quantity⟩], .trades [], .cancelled true,
        .cancelled false], [q.askOrder.toResting]) := by
  obtain ⟨hids, -, hbid, -, hask, -⟩ := q.ids_ne
  have hbuy : submit book q.bidOrder =
      ([⟨q.askId, q.newBidId, .sell, q.ask, q.quantity⟩], [q.oldBid]) := by
    rw [submit_of_candidate (fresh hbook).1 q.quantity_pos (candidates_bid hbook hcross) rfl
      (nodup_ids hbook), ← besides_ask hbook]
    rfl
  have hsell : submit [q.oldBid] q.askOrder = ([], [q.oldBid, q.askOrder.toResting]) := by
    apply submit_of_no_candidates _ rfl q.quantity_pos
    · simp [candidates, Incoming.Crosses, askOrder, oldBid, hclear]
    · simp [askOrder, oldBid, hbid.symm]
  have hcancel : cancel [q.oldBid, q.askOrder.toResting] q.bidId =
      (true, [q.askOrder.toResting]) := by
    simp [cancel, oldBid, askOrder, Incoming.toResting, hbid.symm]
  have hmissing : cancel [q.askOrder.toResting] q.askId = (false, [q.askOrder.toResting]) := by
    simp [cancel, askOrder, Incoming.toResting, hask]
  simp only [calls, run, apply, hbuy, hsell, hcancel, hmissing]

/-- The new ask reaches the old bid, and the new bid not the old ask. -/
theorem run_down (hbook : book.Perm [q.oldBid, q.oldAsk]) (hcross : q.newAsk ≤ q.bid)
    (hclear : q.newBid < q.ask) :
    run book q.calls =
      ([.trades [], .trades [⟨q.bidId, q.newAskId, .buy, q.bid, q.quantity⟩], .cancelled false,
        .cancelled true], [q.bidOrder.toResting]) := by
  obtain ⟨hids, hbid, -, hask, -, -⟩ := q.ids_ne
  have hbuy := submit_bid_clear hbook hclear
  have hcandidates : candidates q.askOrder (book ++ [q.bidOrder.toResting]) = [q.oldBid] :=
    candidates_ask_append.trans (candidates_ask hbook hcross)
  obtain ⟨hnodup, hfresh⟩ := nodup_ids_append hbook
  have hsell : submit (book ++ [q.bidOrder.toResting]) q.askOrder =
      ([⟨q.bidId, q.newAskId, .buy, q.bid, q.quantity⟩], [q.oldAsk, q.bidOrder.toResting]) := by
    rw [submit_of_candidate hfresh q.quantity_pos hcandidates rfl hnodup, besides_append]
    refine congrArg (Prod.mk _) (congrArg₂ (· ++ ·) (besides_bid hbook) ?_)
    simp [besides, oldBid, bidOrder, Incoming.toResting, hbid.symm]
  have hmissing : cancel [q.oldAsk, q.bidOrder.toResting] q.bidId =
      (false, [q.oldAsk, q.bidOrder.toResting]) := by
    simp [cancel, oldAsk, bidOrder, Incoming.toResting, hids, hbid]
  have hcancel : cancel [q.oldAsk, q.bidOrder.toResting] q.askId =
      (true, [q.bidOrder.toResting]) := by
    simp [cancel, oldAsk, bidOrder, Incoming.toResting, hask.symm]
  simp only [calls, run, apply, hbuy, hsell, hcancel, hmissing]

/-- Neither new quote reaches an old one. -/
theorem run_clear (hbook : book.Perm [q.oldBid, q.oldAsk]) (hbidClear : q.newBid < q.ask)
    (haskClear : q.bid < q.newAsk) :
    run book q.calls =
      ([.trades [], .trades [], .cancelled true, .cancelled true],
        [q.bidOrder.toResting, q.askOrder.toResting]) := by
  obtain ⟨-, hbid, hbid', hask, hask', -⟩ := q.ids_ne
  have hbuy := submit_bid_clear hbook hbidClear
  have hcandidates : candidates q.askOrder (book ++ [q.bidOrder.toResting]) = [] :=
    candidates_ask_append.trans (candidates_ask_clear hbook haskClear)
  have hsell : submit (book ++ [q.bidOrder.toResting]) q.askOrder =
      ([], book ++ [q.bidOrder.toResting, q.askOrder.toResting]) := by
    rw [submit_of_no_candidates (nodup_ids_append hbook).2 rfl q.quantity_pos hcandidates,
      List.append_assoc]
    rfl
  have hcancelBid : cancel (book ++ [q.bidOrder.toResting, q.askOrder.toResting]) q.bidId =
      (true, [q.oldAsk, q.bidOrder.toResting, q.askOrder.toResting]) := by
    have hmem : q.bidId ∈ (book ++ [q.bidOrder.toResting, q.askOrder.toResting]).map
        Resting.id := by
      rw [List.map_append, List.mem_append, (hbook.map Resting.id).mem_iff]
      exact Or.inl List.mem_cons_self
    rw [cancel, if_pos hmem]
    refine congrArg (Prod.mk true) ((besides_append q.bidId _ _).trans ?_)
    refine congrArg₂ (· ++ ·) (besides_bid hbook) ?_
    simp [besides, bidOrder, askOrder, Incoming.toResting, hbid.symm, hbid'.symm]
  have hcancelAsk : cancel [q.oldAsk, q.bidOrder.toResting, q.askOrder.toResting] q.askId =
      (true, [q.bidOrder.toResting, q.askOrder.toResting]) := by
    simp [cancel, oldAsk, bidOrder, askOrder, Incoming.toResting, hask.symm, hask'.symm]
  simp only [calls, run, apply, hbuy, hsell, hcancelBid, hcancelAsk]

end Requote
end Velo.Reference
