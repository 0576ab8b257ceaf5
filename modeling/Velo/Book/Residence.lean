import Velo.Book.Conservation

/-! Which ids rest before and after a call, and which of them its fills name. -/
namespace Velo
open Iteration

namespace Reference

variable {ι π : Type*} [DecidableEq ι] [LinearOrder π] {book : List (Resting ι π)}
  {o : Incoming ι π} {st st' : State ι π} {r : Resting ι π} {n : ℕ}

omit [LinearOrder π] in
theorem lt_of_mem_deduct (hnd : (book.map Resting.id).Nodup) (hr : r ∈ book)
    (hmem : r.id ∈ (deduct r.id n book).map Resting.id) : n < r.quantity := by
  by_contra hn
  induction book with
  | nil => cases hr
  | cons x book ih =>
    obtain ⟨hx, hnd⟩ := List.nodup_cons.mp hnd
    rcases List.mem_cons.mp hr with rfl | hr
    · simp only [deduct, List.filterMap_cons, if_true, Nat.not_lt.mp hn] at hmem
      exact hx ((ids_deduct_sublist _ _ _).subset hmem)
    · have hne : x.id ≠ r.id := fun he => hx (he ▸ List.mem_map_of_mem hr)
      simp only [deduct, List.filterMap_cons, if_neg hne, List.map_cons, List.mem_cons] at hmem
      exact ih hnd hr (hmem.resolve_left (Ne.symm hne))

/-- No order is traded against twice, and one that is still there after a trade ended it. -/
structure Once (book : List (Resting ι π)) (st : State ι π) : Prop where
  ids : (st.book.map Resting.id).Sublist (book.map Resting.id)
  nodup : (st.trades.map Trade.restingId).Nodup
  last : ∀ t ∈ st.trades, t.restingId ∈ st.book.map Resting.id → st.incoming.quantity = 0

theorem Once.step (hnd : (book.map Resting.id).Nodup) (h : Once book st)
    (hst : tradeStep st = some st') : Once book st' := by
  obtain ⟨hq, r, hpick, rfl⟩ := tradeStep_cases hst
  have hr := (mem_of_pick hpick).1
  have hfresh : ∀ t ∈ st.trades, t.restingId ∉ st.book.map Resting.id := by
    intro t ht hmem
    have := h.last t ht hmem
    omega
  constructor
  · exact (ids_deduct_sublist _ _ _).trans h.ids
  · rw [List.map_append, List.map_singleton]
    refine List.nodup_append.mpr ⟨h.nodup, List.nodup_singleton _, ?_⟩
    rintro a ha c hc rfl
    obtain ⟨t, ht, rfl⟩ := List.mem_map.mp ha
    exact hfresh t ht (List.mem_singleton.mp hc ▸ List.mem_map_of_mem hr)
  · intro t ht hmem
    rcases List.mem_append.mp ht with ht | ht
    · exact absurd ((ids_deduct_sublist _ _ _).subset hmem) (hfresh t ht)
    · cases List.mem_singleton.mp ht
      have := lt_of_mem_deduct (hnd.sublist h.ids) hr hmem
      simp only
      omega

theorem matchAll_once (o : Incoming ι π) (hnd : (book.map Resting.id).Nodup) :
    Once book (matchAll o book) := by
  refine iterate_invariant (P := Once book) (fun _ _ h hst => h.step hnd hst) ?_
  exact ⟨List.Sublist.refl _, List.nodup_nil, by simp⟩

end Reference

open Reference

variable {b : OrderBook} {o : Order} {id : UInt64} {L : List Order}

theorem Represents.rests_iff_pos (h : Represents b L) : b.Rests id ↔ 0 < b.restingQuantity id := by
  constructor
  · intro hid
    by_contra hz
    exact h.not_rests_of_zero (Nat.eq_zero_of_not_pos hz) hid
  · intro hpos
    by_contra hid
    have := h.restingQuantity_of_not_rests hid
    omega

theorem filledAgainst_of_not_mem {fs : List Fill} (h : id ∉ fs.map Fill.restingOrderId) :
    filledAgainst id fs = 0 := by
  have hnil : (fs.filter fun f => f.restingOrderId = id) = [] := by
    refine List.filter_eq_nil_iff.mpr fun f hf he => h ?_
    exact List.mem_map.mpr ⟨f, hf, of_decide_eq_true he⟩
  rw [filledAgainst, hnil]
  rfl

/-- The fills of an accepted order name resting orders, each once. -/
theorem Represents.submit_fills (h : Represents b L) (hid : ¬ b.Rests o.id) :
    ((b.submit o).1.map Fill.restingOrderId).Nodup ∧
      ∀ f ∈ (b.submit o).1, f.incomingOrderId = o.id ∧ b.Rests f.restingOrderId := by
  obtain ⟨L', -, hsub, -⟩ := h.submit o
  have hfresh : o.toIncoming.id ∉ (L.map Order.toResting).map Resting.id := by
    rw [map_id_toResting, ← h.contains_iff, ← h.rests_iff]
    exact hid
  obtain ⟨htr, -, -⟩ := Reference.submit_balanced h.ids_nodup h.all_live hfresh
  rw [hsub] at htr
  simp only at htr
  have honce := matchAll_once o.toIncoming h.ids_nodup
  have hbal := matchAll_balanced o.toIncoming h.ids_nodup h.all_live
  constructor
  · have hnodup := honce.nodup
    rw [← htr, List.map_map] at hnodup
    exact hnodup
  · intro f hf
    obtain ⟨hin, -, hrest⟩ := hbal.trades f.toTrade (htr ▸ List.mem_map_of_mem hf)
    rw [map_id_toResting, ← h.contains_iff, ← h.rests_iff] at hrest
    exact ⟨hin, hrest⟩

theorem Represents.rests_of_submit (h : Represents b L) (hid : ¬ b.Rests o.id) (hne : id ≠ o.id)
    (hrest : (b.submit o).2.Rests id) : b.Rests id := by
  obtain ⟨L', hL', -⟩ := h.submit o
  have hbal := (h.submit_balanced hid).2.2.1 id hne
  rw [hL'.rests_iff_pos] at hrest
  rw [h.rests_iff_pos]
  omega

theorem Represents.filled_of_submit (h : Represents b L) (hid : ¬ b.Rests o.id)
    (hrest : b.Rests id) (hgone : ¬ (b.submit o).2.Rests id) :
    id ∈ (b.submit o).1.map Fill.restingOrderId := by
  by_contra hfill
  obtain ⟨L', hL', -⟩ := h.submit o
  have hne : id ≠ o.id := by
    rintro rfl
    exact hid hrest
  have hbal := (h.submit_balanced hid).2.2.1 id hne
  have hzero := filledAgainst_of_not_mem hfill
  rw [h.rests_iff_pos] at hrest
  rw [hL'.rests_iff_pos] at hgone
  omega

theorem Represents.cancel_rests (h : Represents b L) (id : UInt64) :
    ((b.cancel id).1 ↔ b.Rests id) ∧
      ∀ id', (b.cancel id).2.Rests id' ↔ b.Rests id' ∧ id' ≠ id := by
  obtain ⟨hafter, hok⟩ := h.cancel id
  obtain ⟨hself, hothers⟩ := h.cancel_balanced id
  constructor
  · rw [hok, decide_eq_true_eq, ← h.contains_iff, ← h.rests_iff]
  · intro id'
    rw [hafter.rests_iff_pos, h.rests_iff_pos]
    by_cases he : id' = id
    · subst he
      simp [hself]
    · rw [hothers id' he]
      simp [he]

end Velo
