import Velo.Book.Refinement

/-! Quantity is neither made nor lost: what a trade takes from one order it takes from the other,
and what is left rests, is cancelled or is dropped. -/
namespace Velo
open Iteration

namespace Reference

variable {ι π : Type*} [DecidableEq ι] {book book' : List (Resting ι π)} {o : Incoming ι π}
  {r : Resting ι π} {ts : List (Trade ι π)} {id : ι} {n : ℕ}

/-- The quantity resting under an id. -/
def quantityOf (id : ι) (book : List (Resting ι π)) : ℕ :=
  ((book.filter fun r => r.id = id).map Resting.quantity).sum

/-- The quantity traded against the resting order with an id. -/
def tradedAgainst (id : ι) (ts : List (Trade ι π)) : ℕ :=
  ((ts.filter fun t => t.restingId = id).map Trade.quantity).sum

theorem quantityOf_cons (r : Resting ι π) (book : List (Resting ι π)) :
    quantityOf id (r :: book) = (if r.id = id then r.quantity else 0) + quantityOf id book := by
  by_cases h : r.id = id <;> simp [quantityOf, h]

theorem quantityOf_append (book book' : List (Resting ι π)) :
    quantityOf id (book ++ book') = quantityOf id book + quantityOf id book' := by
  simp [quantityOf]

theorem quantityOf_of_not_mem (h : id ∉ book.map Resting.id) : quantityOf id book = 0 := by
  have hnil : (book.filter fun r => r.id = id) = [] := by
    refine List.filter_eq_nil_iff.mpr fun r hr he => h ?_
    exact List.mem_map.mpr ⟨r, hr, of_decide_eq_true he⟩
  rw [quantityOf, hnil]
  rfl

theorem tradedAgainst_append (ts ts' : List (Trade ι π)) :
    tradedAgainst id (ts ++ ts') = tradedAgainst id ts + tradedAgainst id ts' := by
  simp [tradedAgainst]

theorem quantityOf_deduct_other {id' : ι} (h : id' ≠ id) :
    quantityOf id' (deduct id n book) = quantityOf id' book := by
  induction book with
  | nil => rfl
  | cons r book ih =>
    simp only [deduct] at ih
    by_cases hid : r.id = id
    · have hne : ¬ r.id = id' := fun he => h (he.symm.trans hid)
      by_cases hq : r.quantity ≤ n
      · simpa [deduct, hid, hq, quantityOf_cons, h.symm] using ih
      · simpa [deduct, hid, hq, quantityOf_cons, h.symm] using ih
    · simpa [deduct, hid, quantityOf_cons] using ih

theorem ids_deduct_sublist (id : ι) (n : ℕ) (book : List (Resting ι π)) :
    ((deduct id n book).map Resting.id).Sublist (book.map Resting.id) := by
  induction book with
  | nil => exact List.Sublist.refl _
  | cons r book ih =>
    simp only [deduct] at ih ⊢
    by_cases hid : r.id = id
    · by_cases hq : r.quantity ≤ n
      · simpa [hid, hq] using ih.cons _
      · simpa [hid, hq] using ih
    · simpa [hid] using ih

/-- What is deducted from an order is missing from it afterwards, and nothing else is. -/
theorem quantityOf_deduct_self (hnd : (book.map Resting.id).Nodup) (hr : r ∈ book)
    (hn : n ≤ r.quantity) : quantityOf r.id (deduct r.id n book) + n = quantityOf r.id book := by
  induction book with
  | nil => cases hr
  | cons x book ih =>
    obtain ⟨hx, hnd⟩ := List.nodup_cons.mp hnd
    rcases List.mem_cons.mp hr with rfl | hr
    · have hrest : quantityOf r.id (deduct r.id n book) = 0 :=
        quantityOf_of_not_mem fun hm => hx ((ids_deduct_sublist _ _ _).subset hm)
      have hbook : quantityOf r.id book = 0 := quantityOf_of_not_mem hx
      simp only [deduct] at hrest
      by_cases hq : r.quantity ≤ n
      · simp only [deduct, List.filterMap_cons, if_true, if_pos hq, quantityOf_cons, hrest, hbook]
        omega
      · simp only [deduct, List.filterMap_cons, if_true, if_neg hq, quantityOf_cons, hrest, hbook]
        omega
    · have hne : x.id ≠ r.id := fun he => hx (he ▸ List.mem_map_of_mem hr)
      have ih := ih hnd hr
      simp only [deduct] at ih
      simp only [deduct, List.filterMap_cons, if_neg hne, quantityOf_cons]
      omega

variable [LinearOrder π]

/-- What matching preserves, trade by trade: the incoming order's account, the account of every
resting one, and the books being in order. -/
structure Balanced (o : Incoming ι π) (book : List (Resting ι π)) (st : State ι π) : Prop where
  terms : ∃ q, st.incoming = { o with quantity := q }
  incoming : o.quantity = (st.trades.map Trade.quantity).sum + st.incoming.quantity
  resting : ∀ id, quantityOf id book = tradedAgainst id st.trades + quantityOf id st.book
  ids : (st.book.map Resting.id).Sublist (book.map Resting.id)
  live : ∀ r ∈ st.book, 0 < r.quantity
  trades : ∀ t ∈ st.trades, t.incomingId = o.id ∧ 1 ≤ t.quantity ∧
    t.restingId ∈ book.map Resting.id

theorem Balanced.step {st st' : State ι π} (hnd : (book.map Resting.id).Nodup)
    (h : Balanced o book st) (hst : tradeStep st = some st') : Balanced o book st' := by
  obtain ⟨hq, r, hpick, rfl⟩ := tradeStep_cases hst
  have hr := (mem_of_pick hpick).1
  have hpos := h.live r hr
  obtain ⟨q, hterms⟩ := h.terms
  constructor
  · exact ⟨_, by rw [hterms]⟩
  · have hin := h.incoming
    simp only [List.map_append, List.map_singleton, List.sum_append, List.sum_singleton]
    omega
  · intro id
    have hacc := h.resting id
    rw [tradedAgainst_append]
    by_cases hid : r.id = id
    · subst hid
      have hself := quantityOf_deduct_self (hnd.sublist h.ids) hr
        (Nat.min_le_right st.incoming.quantity r.quantity)
      have hone : tradedAgainst r.id [(⟨r.id, st.incoming.id, r.side, r.price,
          min st.incoming.quantity r.quantity⟩ : Trade ι π)] =
          min st.incoming.quantity r.quantity := by simp [tradedAgainst]
      rw [hone]
      simp only
      omega
    · have hnone : tradedAgainst id [(⟨r.id, st.incoming.id, r.side, r.price,
          min st.incoming.quantity r.quantity⟩ : Trade ι π)] = 0 := by simp [tradedAgainst, hid]
      rw [hnone, quantityOf_deduct_other (Ne.symm hid)]
      exact hacc
  · exact (ids_deduct_sublist _ _ _).trans h.ids
  · intro x hx
    obtain ⟨y, hy, hxy⟩ := List.mem_filterMap.mp hx
    have hylive := h.live y hy
    split at hxy
    · split at hxy
      · cases hxy
      · cases hxy
        simp only
        omega
    · cases hxy
      exact hylive
  · intro t ht
    rcases List.mem_append.mp ht with ht | ht
    · exact h.trades t ht
    · rw [List.mem_singleton.mp ht]
      refine ⟨by rw [hterms], ?_, h.ids.subset (List.mem_map_of_mem hr)⟩
      simp only
      omega

theorem matchAll_balanced (o : Incoming ι π) (hnd : (book.map Resting.id).Nodup)
    (hlive : ∀ r ∈ book, 0 < r.quantity) : Balanced o book (matchAll o book) := by
  refine iterate_invariant (P := Balanced o book) (fun _ _ h hst => h.step hnd hst) ?_
  exact ⟨⟨_, rfl⟩, by simp, by simp [tradedAgainst], List.Sublist.refl _, hlive, by simp⟩

/-- The accounts after an accepted submission: every other resting order lost exactly what was
traded against it, and a limit order rests with what it has left. -/
theorem submit_balanced (hnd : (book.map Resting.id).Nodup) (hlive : ∀ r ∈ book, 0 < r.quantity)
    (hid : o.id ∉ book.map Resting.id) :
    (submit book o).1 = (matchAll o book).trades ∧
      (∀ id, id ≠ o.id → quantityOf id book =
        tradedAgainst id (submit book o).1 + quantityOf id (submit book o).2) ∧
      quantityOf o.id (submit book o).2 =
        if o.type = .limit then (matchAll o book).incoming.quantity else 0 := by
  have hbal := matchAll_balanced o hnd hlive
  obtain ⟨q, hterms⟩ := hbal.terms
  have hnone : quantityOf o.id (matchAll o book).book = 0 :=
    quantityOf_of_not_mem fun hm => hid (hbal.ids.subset hm)
  have hrest : ∀ id, quantityOf id [(matchAll o book).incoming.toResting] =
      if o.id = id then (matchAll o book).incoming.quantity else 0 := by
    intro id
    rw [quantityOf_cons, hterms]
    exact Nat.add_zero _
  rw [Reference.submit, if_neg hid]
  simp only
  split
  · rename_i hlim
    refine ⟨rfl, fun id hne => ?_, ?_⟩
    · have := hbal.resting id
      simp only [quantityOf_append, hrest, if_neg (Ne.symm hne)]
      omega
    · simp [quantityOf_append, hrest, hnone, hlim.2]
  · rename_i hlim
    refine ⟨rfl, fun id _ => hbal.resting id, ?_⟩
    rw [hnone]
    split
    · rename_i htype
      simp only [htype, and_true, Nat.not_lt, Nat.le_zero] at hlim
      exact hlim.symm
    · rfl

omit [LinearOrder π] in
theorem cancel_balanced (book : List (Resting ι π)) (id : ι) :
    quantityOf id (cancel book id).2 = 0 ∧
      ∀ id', id' ≠ id → quantityOf id' (cancel book id).2 = quantityOf id' book := by
  unfold Reference.cancel
  split
  · refine ⟨quantityOf_of_not_mem fun hm => ?_, fun id' hne => ?_⟩
    · obtain ⟨r, hr, he⟩ := List.mem_map.mp hm
      simp [he] at hr
    · simp only [quantityOf, List.filter_filter]
      congr 2
      refine List.filter_congr fun r _ => ?_
      by_cases hr : r.id = id' <;> simp [hr, hne]
  · rename_i hid
    exact ⟨quantityOf_of_not_mem hid, fun _ _ => rfl⟩

end Reference

open Reference

variable {b : OrderBook} {o : Order} {id : UInt64} {L : List Order} {r : Request}

/-- Some stored order has this id. -/
def OrderBook.Rests (b : OrderBook) (id : UInt64) : Prop := id ∈ b.resting.map Order.id

instance (b : OrderBook) (id : UInt64) : Decidable (b.Rests id) :=
  inferInstanceAs (Decidable (id ∈ b.resting.map Order.id))

/-- The quantity stored under an id. -/
def OrderBook.restingQuantity (b : OrderBook) (id : UInt64) : ℕ :=
  ((b.resting.filter fun o => o.id = id).map fun o => o.quantity.toNat).sum

/-- What matching leaves of an incoming order; a market order drops it. -/
def OrderBook.leftover (b : OrderBook) (o : Order) : ℕ := (b.matchOrder o).incoming.quantity.toNat

def filled (fs : List Fill) : ℕ := (fs.map fun f => f.quantity.toNat).sum

/-- The part of some fills in which the order with an id was the resting one. -/
def filledAgainst (id : UInt64) (fs : List Fill) : ℕ :=
  filled (fs.filter fun f => f.restingOrderId = id)

/-- Everything filled against the order resting under an id, until that order leaves the book. -/
def filledWhileResting (id : UInt64) (b : OrderBook) : List Request → ℕ
  | [] => 0
  | r :: rs =>
    if b.Rests id then
      filledAgainst id (b.apply r).1.fillList + filledWhileResting id (b.apply r).2 rs
    else 0

/-- What is left of the order resting under an id: the quantity its cancel removes, or the one
still resting at the end, and nothing if it was filled. -/
def remainder (id : UInt64) (b : OrderBook) : List Request → ℕ
  | [] => b.restingQuantity id
  | r :: rs =>
    if b.Rests id then
      match r with
      | .cancel id' =>
        if id' = id then b.restingQuantity id else remainder id (b.apply r).2 rs
      | .submit _ => remainder id (b.apply r).2 rs
    else 0

theorem filledAgainst_eq (id : UInt64) (fs : List Fill) :
    filledAgainst id fs = tradedAgainst id (fs.map Fill.toTrade) := by
  rw [filledAgainst, filled, tradedAgainst, List.filter_map, List.map_map]
  rfl

theorem filled_eq (fs : List Fill) :
    filled fs = ((fs.map Fill.toTrade).map Trade.quantity).sum := by
  rw [filled, List.map_map]
  rfl

theorem Represents.rests_iff (h : Represents b L) : b.Rests id ↔ b.contains id := by
  rw [h.contains_iff, OrderBook.Rests, (h.resting_perm.map Order.id).mem_iff]

theorem Represents.restingQuantity_eq (h : Represents b L) (id : UInt64) :
    b.restingQuantity id = quantityOf id (L.map Order.toResting) := by
  rw [quantityOf, List.filter_map, List.map_map]
  exact ((h.resting_perm.filter _).map _).sum_eq

theorem Represents.restingQuantity_of_not_rests (h : Represents b L) (hid : ¬ b.Rests id) :
    b.restingQuantity id = 0 := by
  rw [h.restingQuantity_eq]
  refine quantityOf_of_not_mem ?_
  rwa [map_id_toResting, ← h.contains_iff, ← h.rests_iff]

theorem Represents.ids_nodup (h : Represents b L) :
    ((L.map Order.toResting).map Resting.id).Nodup := by
  rw [map_id_toResting]
  exact h.tracks.nodup

theorem Represents.all_live (h : Represents b L) :
    ∀ r ∈ L.map Order.toResting, 0 < r.quantity := by
  intro r hr
  obtain ⟨o, ho, rfl⟩ := List.mem_map.mp hr
  exact UInt32.lt_iff_toNat_lt.mp (h.tracks.live o ho).2

/-- The accounts of an accepted submission. -/
theorem Represents.submit_balanced (h : Represents b L) (hid : ¬ b.Rests o.id) :
    o.quantity.toNat = filled (b.submit o).1 + b.leftover o ∧
      (b.submit o).2.restingQuantity o.id = (if o.type = .limit then b.leftover o else 0) ∧
      (∀ id, id ≠ o.id → b.restingQuantity id =
        filledAgainst id (b.submit o).1 + (b.submit o).2.restingQuantity id) ∧
      ∀ f ∈ (b.submit o).1, f.incomingOrderId = o.id ∧ 1 ≤ f.quantity.toNat := by
  obtain ⟨L', hL', hsub, -⟩ := h.submit o
  obtain ⟨M, -, -, -, hall⟩ := h.matchOrder o
  have hfresh : o.toIncoming.id ∉ (L.map Order.toResting).map Resting.id := by
    rw [map_id_toResting, ← h.contains_iff, ← h.rests_iff]
    exact hid
  have hbal := matchAll_balanced o.toIncoming h.ids_nodup h.all_live
  obtain ⟨htr, hothers, hself⟩ := Reference.submit_balanced h.ids_nodup h.all_live hfresh
  have hleft : (matchAll o.toIncoming (L.map Order.toResting)).incoming.quantity =
      b.leftover o := by
    rw [hall]
    rfl
  rw [hsub] at htr hothers hself
  simp only at htr hothers hself
  have hin := hbal.incoming
  rw [hleft] at hin hself
  refine ⟨?_, ?_, ?_, ?_⟩
  · rw [filled_eq, htr]
    exact hin
  · rw [hL'.restingQuantity_eq]
    exact hself
  · intro id hne
    rw [h.restingQuantity_eq, hL'.restingQuantity_eq, filledAgainst_eq]
    exact hothers id hne
  · intro f hf
    have ht := hbal.trades f.toTrade (htr ▸ List.mem_map_of_mem hf)
    exact ⟨ht.1, ht.2.1⟩

theorem Represents.submit_rejected (h : Represents b L) (hid : b.Rests o.id) :
    b.submit o = ([], b) := by
  simp [OrderBook.submit, h.rests_iff.mp hid]

theorem Represents.cancel_balanced (h : Represents b L) (id : UInt64) :
    (b.cancel id).2.restingQuantity id = 0 ∧
      ∀ id', id' ≠ id → (b.cancel id).2.restingQuantity id' = b.restingQuantity id' := by
  have hcancel := h.cancel_eq id
  have hbal := Reference.cancel_balanced (L.map Order.toResting) id
  rw [hcancel] at hbal
  refine ⟨?_, fun id' hne => ?_⟩
  · rw [(h.cancel id).1.restingQuantity_eq]
    exact hbal.1
  · rw [(h.cancel id).1.restingQuantity_eq, h.restingQuantity_eq]
    exact hbal.2 id' hne

theorem Represents.not_rests_of_zero (h : Represents b L) (hz : b.restingQuantity id = 0) :
    ¬ b.Rests id := by
  rw [h.rests_iff, h.contains_iff]
  intro hm
  obtain ⟨o, ho, rfl⟩ := List.mem_map.mp hm
  rw [h.restingQuantity_eq, quantityOf, List.sum_eq_zero_iff] at hz
  have hmem : o.toResting ∈ (L.map Order.toResting).filter fun r => r.id = o.id :=
    List.mem_filter.mpr ⟨List.mem_map_of_mem ho, by simp [Order.toResting]⟩
  have := hz _ (List.mem_map_of_mem hmem)
  have := h.all_live _ (List.mem_map_of_mem ho)
  omega

/-- An order's quantity on resting is what is filled against it plus what it leaves behind. -/
theorem Represents.life_balanced (h : Represents b L) (id : UInt64) (rs : List Request) :
    b.restingQuantity id = filledWhileResting id b rs + remainder id b rs := by
  induction rs generalizing b L with
  | nil => simp [filledWhileResting, remainder]
  | cons r rs ih =>
    by_cases hid : b.Rests id
    · obtain ⟨L', hL', -⟩ := h.apply r
      have ih := ih hL'
      simp only [filledWhileResting, remainder, if_pos hid]
      cases r with
      | cancel id' =>
        obtain ⟨hgone, hothers⟩ := h.cancel_balanced id'
        simp only [OrderBook.apply] at ih ⊢
        have hno : filledAgainst id (Reply.cancelled (b.cancel id').1).fillList = 0 := rfl
        by_cases he : id' = id
        · subst he
          rw [hgone] at ih
          rw [if_pos rfl]
          omega
        · have := hothers id (Ne.symm he)
          rw [if_neg he]
          omega
      | submit o =>
        simp only [OrderBook.apply] at ih ⊢
        by_cases ho : b.Rests o.id
        · have hno : filledAgainst id (Reply.fills []).fillList = 0 := rfl
          simp only [h.submit_rejected ho] at ih ⊢
          omega
        · have hne : id ≠ o.id := by
            rintro rfl
            exact ho hid
          have := (h.submit_balanced ho).2.2.1 id hne
          simp only [Reply.fillList]
          omega
    · rw [h.restingQuantity_of_not_rests hid]
      simp [filledWhileResting, remainder, hid]

theorem Represents.fills_positive (h : Represents b L) (rs : List Request) :
    ∀ f ∈ (b.run rs).1.flatMap Reply.fillList, 1 ≤ f.quantity.toNat := by
  induction rs generalizing b L with
  | nil => simp [OrderBook.run]
  | cons r rs ih =>
    obtain ⟨L', hL', -⟩ := h.apply r
    intro f hf
    rw [OrderBook.run, List.flatMap_cons] at hf
    rcases List.mem_append.mp hf with hf | hf
    · cases r with
      | cancel id => cases hf
      | submit o =>
        by_cases ho : b.Rests o.id
        · simp [OrderBook.apply, h.submit_rejected ho, Reply.fillList] at hf
        · exact ((h.submit_balanced ho).2.2.2 f hf).2
    · exact ih hL' f hf

/-- The account of one accepted submission over a whole run: what it submitted was filled by its
own call, or filled against it while it rested, or is its remainder (resting, cancelled, or
dropped by a market order). All fills are positive and no subtraction wraps. -/
theorem quantity_conserved (before after : List Request) (o : Order)
    (hid : ¬ (OrderBook.empty.run before).2.Rests o.id) :
    let b := (OrderBook.empty.run before).2
    o.quantity.toNat = filled (b.submit o).1 + filledWhileResting o.id (b.submit o).2 after +
        (match o.type with
          | .limit => remainder o.id (b.submit o).2 after
          | .market => b.leftover o) ∧
      (∀ f ∈ (b.submit o).1, f.incomingOrderId = o.id) ∧
      (∀ f ∈ (OrderBook.empty.run (before ++ .submit o :: after)).1.flatMap Reply.fillList,
        1 ≤ f.quantity) ∧
      ∀ incoming resting : Order, traded incoming resting ≤ incoming.quantity ∧
        traded incoming resting ≤ resting.quantity := by
  intro b
  obtain ⟨L, hL⟩ : ∃ L, Represents b L := (represents_empty.run before).imp fun _ h => h.1
  obtain ⟨L', hL', -⟩ := hL.submit o
  obtain ⟨hown, hrest, -, hfills⟩ := hL.submit_balanced hid
  have hlife := hL'.life_balanced o.id after
  refine ⟨?_, fun f hf => (hfills f hf).1, fun f hf => ?_, fun i r =>
    ⟨traded_le_incoming i r, traded_le_resting i r⟩⟩
  · cases ht : o.type with
    | limit =>
      simp only [ht, if_true] at hrest
      simp only
      omega
    | market =>
      simp only [ht, reduceCtorEq, if_false] at hrest
      simp only
      omega
  · exact UInt32.le_iff_toNat_le.mpr (represents_empty.fills_positive _ f hf)

theorem quantity_conserved_of_partial_fill :
    filled (OrderBook.empty.submit ⟨1, .sell, .limit, 100, 60, 0⟩).1 +
      filledWhileResting 1 (OrderBook.empty.submit ⟨1, .sell, .limit, 100, 60, 0⟩).2
        [.submit ⟨2, .buy, .market, 0, 20, 0⟩, .cancel 1] +
      remainder 1 (OrderBook.empty.submit ⟨1, .sell, .limit, 100, 60, 0⟩).2
        [.submit ⟨2, .buy, .market, 0, 20, 0⟩, .cancel 1] = 60 :=
  (quantity_conserved [] _ ⟨1, .sell, .limit, 100, 60, 0⟩ (by decide)).1.symm

end Velo
