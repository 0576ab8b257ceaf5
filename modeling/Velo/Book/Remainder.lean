import Velo.Book.Residence

/-! What is left of an order to rest, which is what exceeds the quantity it finds, and on which
terms orders rest. -/
namespace Velo
open Iteration

namespace Reference

variable {ι π : Type*} [LinearOrder π] {book : List (Resting ι π)} {o : Incoming ι π}
  {st st' : State ι π} {r : Resting ι π} {n : ℕ}

/-- The quantity an incoming order could trade with. -/
def liquidity (o : Incoming ι π) (book : List (Resting ι π)) : ℕ :=
  ((candidates o book).map Resting.quantity).sum

theorem liquidity_cons (r : Resting ι π) (book : List (Resting ι π)) : liquidity o (r :: book) =
    (if r.side = o.side.opposite ∧ o.Crosses r.price then r.quantity else 0) +
      liquidity o book := by
  by_cases h : r.side = o.side.opposite ∧ o.Crosses r.price <;> simp [liquidity, candidates, h]

theorem liquidity_perm {book' : List (Resting ι π)} (h : book.Perm book') :
    liquidity o book = liquidity o book' :=
  ((h.filter _).map _).sum_eq

variable [DecidableEq ι]

omit [LinearOrder π] in
theorem deduct_of_not_mem (h : r.id ∉ book.map Resting.id) : deduct r.id n book = book := by
  have hkeep : ∀ x ∈ book, (if x.id = r.id then
      if x.quantity ≤ n then none else some { x with quantity := x.quantity - n }
    else some x) = some x := by
    intro x hx
    exact if_neg fun he : x.id = r.id => h (he ▸ List.mem_map_of_mem hx)
  rw [deduct, List.filterMap_congr hkeep]
  exact List.filterMap_some

/-- A trade takes its quantity out of what could be traded with. -/
theorem liquidity_deduct (hnd : (book.map Resting.id).Nodup) (hr : r ∈ book)
    (hcross : r.side = o.side.opposite ∧ o.Crosses r.price) (hn : n ≤ r.quantity) :
    liquidity o (deduct r.id n book) + n = liquidity o book := by
  induction book with
  | nil => cases hr
  | cons x book ih =>
    obtain ⟨hx, hnd⟩ := List.nodup_cons.mp hnd
    rcases List.mem_cons.mp hr with rfl | hr
    · have hrest := deduct_of_not_mem (n := n) hx
      simp only [deduct] at hrest
      rw [liquidity_cons, if_pos hcross]
      by_cases hq : r.quantity ≤ n
      · simp only [deduct, List.filterMap_cons, if_true, if_pos hq, hrest]
        omega
      · simp only [deduct, List.filterMap_cons, if_true, if_neg hq, hrest, liquidity_cons,
          if_pos hcross]
        omega
    · have hne : x.id ≠ r.id := fun he => hx (he ▸ List.mem_map_of_mem hr)
      have ih := ih hnd hr
      simp only [deduct] at ih
      simp only [deduct, List.filterMap_cons, if_neg hne, liquidity_cons]
      omega

/-- What the incoming order has left and what it could still trade with shrink alike. -/
def Drains (o : Incoming ι π) (book : List (Resting ι π)) (st : State ι π) : Prop :=
  Balanced o book st ∧
    o.quantity + liquidity o st.book = st.incoming.quantity + liquidity o book

theorem Drains.step (hnd : (book.map Resting.id).Nodup) (h : Drains o book st)
    (hst : tradeStep st = some st') : Drains o book st' := by
  refine ⟨h.1.step hnd hst, ?_⟩
  obtain ⟨hq, r, hpick, rfl⟩ := tradeStep_cases hst
  obtain ⟨q, hterms⟩ := h.1.terms
  have hr : r ∈ st.book ∧ r.side = o.side.opposite ∧ o.Crosses r.price := by
    rw [hterms] at hpick
    exact mem_of_pick hpick
  have htake := liquidity_deduct (hnd.sublist h.1.ids) hr.1 hr.2
    (Nat.min_le_right st.incoming.quantity r.quantity)
  have hbefore := h.2
  simp only
  omega

/-- Matching leaves what exceeds the quantity it found. -/
theorem matchAll_leftover (o : Incoming ι π) (hnd : (book.map Resting.id).Nodup)
    (hlive : ∀ r ∈ book, 0 < r.quantity) :
    (matchAll o book).incoming.quantity = o.quantity - liquidity o book := by
  have hstart : Drains o book ⟨o, book, []⟩ :=
    ⟨⟨⟨_, rfl⟩, by simp, by simp [tradedAgainst], List.Sublist.refl _, hlive, by simp⟩, rfl⟩
  obtain ⟨hbal, hdrain⟩ : Drains o book (matchAll o book) :=
    iterate_invariant (fun _ _ h hst => h.step hnd hst) hstart
  obtain ⟨q, hterms⟩ := hbal.terms
  rcases tradeStep_eq_none.mp (matchAll_exit o book) with hq | hnil
  · omega
  · have hzero : liquidity o (matchAll o book).book = 0 := by
      rw [hterms] at hnil
      have hnil' : candidates o (matchAll o book).book = [] := hnil
      rw [liquidity, hnil']
      rfl
    omega

end Reference

open Reference

variable {b : OrderBook} {o a r : Order} {L L' : List Order} {id : UInt64}

/-- The quantity of the other side that an order reaches. -/
def OrderBook.liquidity (b : OrderBook) (o : Order) : ℕ :=
  Reference.liquidity o.toIncoming (b.resting.map Order.toResting)

/-- An accepted order comes to rest exactly if it is a limit order for more than it finds. -/
theorem Represents.rests_submitted_iff (h : Represents b L) (hid : ¬ b.Rests o.id) :
    (b.submit o).2.Rests o.id ↔ o.type = .limit ∧ b.liquidity o < o.quantity.toNat := by
  obtain ⟨L', hL', -⟩ := h.submit o
  obtain ⟨M, -, -, -, hall⟩ := h.matchOrder o
  have hleft := matchAll_leftover o.toIncoming h.ids_nodup h.all_live
  have hfound : b.liquidity o = Reference.liquidity o.toIncoming (L.map Order.toResting) :=
    liquidity_perm (h.resting_perm.map _)
  rw [hall, ← hfound] at hleft
  rw [hL'.rests_iff_pos, (h.submit_balanced hid).2.1]
  simp only [OrderBook.leftover]
  have hleft : (b.matchOrder o).incoming.quantity.toNat = o.quantity.toNat - b.liquidity o := hleft
  split
  · rename_i hlimit
    simp only [hlimit, true_and]
    omega
  · rename_i hlimit
    simp [hlimit]

theorem Represents.eq_of_id (h : Represents b L) (ha : a ∈ b.resting) (hr : r ∈ b.resting)
    (hid : a.id = r.id) : a = r :=
  h.tracks.eq_of_id (h.resting_perm.mem_iff.mp ha) (h.resting_perm.mem_iff.mp hr) hid

theorem exists_of_emptied (h : (L'.map Order.emptied).Sublist (L.map Order.emptied))
    (hr : r ∈ L') : ∃ a ∈ L, a.emptied = r.emptied :=
  List.mem_map.mp (h.subset (List.mem_map_of_mem hr))

/-- What rests after a call is on the terms it was on before, or on those of the order submitted. -/
theorem Represents.terms_of_submit (h : Represents b L) (hr : r ∈ (b.submit o).2.resting) :
    ∃ a, (a ∈ b.resting ∨ (¬ b.Rests o.id ∧ a = o)) ∧ a.id = r.id ∧ a.side = r.side ∧
      a.priceTicks = r.priceTicks := by
  obtain ⟨L', hL', -, hev⟩ := h.submit o
  have hr := hL'.resting_perm.mem_iff.mp hr
  have hkept : ∀ {a : Order}, a ∈ L → a.emptied = r.emptied → ∃ a,
      (a ∈ b.resting ∨ (¬ b.Rests o.id ∧ a = o)) ∧ a.id = r.id ∧ a.side = r.side ∧
        a.priceTicks = r.priceTicks := by
    intro a ha he
    obtain ⟨hid, hside, -, hprice, -⟩ := fields_of_emptied he
    exact ⟨a, Or.inl (h.resting_perm.mem_iff.mpr ha), hid, hside, hprice⟩
  split at hev
  · exact hkept (hev ▸ hr) rfl
  · rename_i hc
    obtain ⟨M, hM, rfl | ⟨left, hleft, rfl⟩⟩ := hev
    · obtain ⟨a, ha, he⟩ := exists_of_emptied hM.emptied hr
      exact hkept ha he
    · rcases List.mem_append.mp hr with hr | hr
      · obtain ⟨a, ha, he⟩ := exists_of_emptied hM.emptied hr
        exact hkept ha he
      · cases List.mem_singleton.mp hr
        obtain ⟨hid, hside, -, hprice, -⟩ := fields_of_emptied hleft
        exact ⟨o, Or.inr ⟨fun hrests => hc (h.rests_iff.mp hrests), rfl⟩, hid.symm, hside.symm,
          hprice.symm⟩

theorem Represents.terms_of_cancel (h : Represents b L) (hr : r ∈ (b.cancel id).2.resting) :
    r ∈ b.resting :=
  h.resting_perm.mem_iff.mpr (without_sublist.subset ((h.cancel id).1.resting_perm.mem_iff.mp hr))

end Velo
