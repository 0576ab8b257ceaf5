import Velo.Book.Refinement

/-! Matching stops only when nothing crosses, so the book is never left crossed or locked. -/
namespace Velo
open Iteration

namespace Reference

variable {ι π : Type*} [DecidableEq ι] [LinearOrder π] {book book' : List (Resting ι π)}
  {o : Incoming ι π} {r : Resting ι π} {st st' : State ι π} {id : ι} {n : ℕ}

/-- Every bid is below every ask. -/
def Uncrossed (book : List (Resting ι π)) : Prop :=
  ∀ x ∈ book, ∀ y ∈ book, x.side = .buy → y.side = .sell → x.price < y.price

omit [DecidableEq ι] in
/-- Uncrossed means that no order of one side reaches one of the other. -/
theorem uncrossed_iff : Uncrossed book ↔
    ∀ x ∈ book, ∀ y ∈ book, y.side = x.side.opposite → Better y.side x.price y.price := by
  constructor
  · intro h x hx y hy hxy
    cases hs : x.side with
    | buy =>
      rw [hs] at hxy
      rw [hxy]
      exact h x hx y hy hs hxy
    | sell =>
      rw [hs] at hxy
      rw [hxy]
      exact h y hy x hx hxy hs
  · intro h x hx y hy hxs hys
    have := h x hx y hy (by rw [hxs, hys]; rfl)
    rwa [hys] at this

omit [DecidableEq ι] in
theorem uncrossed_nil : Uncrossed ([] : List (Resting ι π)) := by
  intro x hx
  cases hx

omit [DecidableEq ι] in
theorem Uncrossed.of_subset (h : Uncrossed book)
    (hsub : ∀ x ∈ book', ∃ y ∈ book, y.side = x.side ∧ y.price = x.price) : Uncrossed book' := by
  intro x hx y hy hxs hys
  obtain ⟨x', hx', hxs', hxp⟩ := hsub x hx
  obtain ⟨y', hy', hys', hyp⟩ := hsub y hy
  rw [← hxp, ← hyp]
  exact h x' hx' y' hy' (hxs'.trans hxs) (hys'.trans hys)

omit [LinearOrder π] in
theorem mem_deduct (h : r ∈ deduct id n book) :
    ∃ y ∈ book, y.id = r.id ∧ y.side = r.side ∧ y.price = r.price ∧ r.quantity ≤ y.quantity := by
  obtain ⟨y, hy, hr⟩ := List.mem_filterMap.mp h
  refine ⟨y, hy, ?_⟩
  split at hr
  · split at hr
    · cases hr
    · cases hr
      exact ⟨rfl, rfl, rfl, Nat.sub_le _ _⟩
  · cases hr
    exact ⟨rfl, rfl, rfl, le_rfl⟩

theorem matchAll_subset (o : Incoming ι π) (book : List (Resting ι π)) :
    (∀ x ∈ (matchAll o book).book, ∃ y ∈ book, y.side = x.side ∧ y.price = x.price) ∧
      ∃ q, (matchAll o book).incoming = { o with quantity := q } := by
  let P : State ι π → Prop := fun st =>
    (∀ x ∈ st.book, ∃ y ∈ book, y.side = x.side ∧ y.price = x.price) ∧
      ∃ q, st.incoming = { o with quantity := q }
  have hP : ∀ st st', P st → tradeStep st = some st' → P st' := by
    rintro st st' ⟨hsub, q, hq⟩ hst
    obtain ⟨-, r, -, rfl⟩ := tradeStep_cases hst
    refine ⟨fun x hx => ?_, _, by rw [hq]⟩
    obtain ⟨y, hy, -, hys, hyp, -⟩ := mem_deduct hx
    obtain ⟨z, hz, hzs, hzp⟩ := hsub y hy
    exact ⟨z, hz, hzs.trans hys, hzp.trans hyp⟩
  exact iterate_invariant (P := P) hP ⟨fun x hx => ⟨x, hx, rfl, rfl⟩, _, rfl⟩

theorem Uncrossed.submit (h : Uncrossed book) (o : Incoming ι π) :
    Uncrossed (submit book o).2 := by
  unfold Reference.submit
  split
  · exact h
  · obtain ⟨hsub, q, hq⟩ := matchAll_subset o book
    have hmatched := h.of_subset hsub
    simp only
    split
    · rename_i hrest
      -- The loop was left with quantity to spare, so it found no candidate.
      have hexit := tradeStep_eq_none.mp (matchAll_exit o book)
      have hnone := hexit.resolve_left (by omega)
      have hbetter : ∀ x ∈ (matchAll o book).book, x.side = o.side.opposite →
          Better x.side o.price x.price := by
        intro x hx hxs
        by_contra hnot
        have hmem : x ∈ candidates (matchAll o book).incoming (matchAll o book).book := by
          rw [mem_candidates, hq]
          exact ⟨hx, hxs, crosses_iff.mpr (Or.inr (hxs ▸ hnot))⟩
        rw [hnone] at hmem
        cases hmem
      rw [uncrossed_iff] at hmatched ⊢
      rw [hq]
      intro x hx y hy hxy
      rcases List.mem_append.mp hx with hx | hx <;> rcases List.mem_append.mp hy with hy | hy
      · exact hmatched x hx y hy hxy
      · rw [List.mem_singleton.mp hy] at hxy ⊢
        have hxo : x.side = o.side.opposite := by
          change o.side = x.side.opposite at hxy
          rw [hxy, Side.opposite_opposite]
        have hb := hbetter x hx hxo
        change Better o.side x.price o.price
        rw [hxo] at hb
        cases hs : o.side <;> rw [hs] at hb <;> exact hb
      · rw [List.mem_singleton.mp hx] at hxy ⊢
        exact hbetter y hy hxy
      · rw [List.mem_singleton.mp hx, List.mem_singleton.mp hy] at hxy
        exact absurd hxy.symm o.side.opposite_ne
    · exact hmatched

omit [LinearOrder π] in
theorem cancel_subset (book : List (Resting ι π)) (id : ι) :
    ∀ x ∈ (cancel book id).2, x ∈ book := by
  intro x hx
  unfold Reference.cancel at hx
  split at hx
  · exact (List.mem_filter.mp hx).1
  · exact hx

theorem Uncrossed.run (h : Uncrossed book) (cs : List (Call ι π)) :
    Uncrossed (run book cs).2 := by
  induction cs generalizing book with
  | nil => exact h
  | cons c cs ih =>
    refine ih ?_
    cases c with
    | submit o => exact h.submit o
    | cancel id => exact h.of_subset fun x hx => ⟨x, cancel_subset book id x hx, rfl, rfl⟩

end Reference

variable {b : OrderBook} {p : Int64} {L : List Order}

theorem Represents.exists_of_begin (h : Represents b L) {s : Side} {level : PriceLevel}
    (hb : (b.levels s).begin? = some (p, level)) : ∃ o ∈ L, o.side = s ∧ o.priceTicks = p := by
  obtain ⟨hget, -⟩ := SortedMap.begin?_eq_some.mp hb
  obtain ⟨hne, rfl⟩ := h.mem_levels.mp (SortedMap.mem_entries_iff.mpr hget)
  obtain ⟨o, ho⟩ := List.exists_mem_of_ne_nil _ hne
  exact ⟨o, mem_atLevel.mp ho⟩

/-- Whatever the calls, the best bid stays below the best ask. -/
theorem book_never_crossed (rs : List Request) :
    ∀ bid ∈ (OrderBook.empty.run rs).2.bestBid, ∀ ask ∈ (OrderBook.empty.run rs).2.bestAsk,
      bid < ask := by
  intro bid hbid ask hask
  obtain ⟨L, hL, hrun⟩ := represents_empty.run rs
  have hunc : Reference.Uncrossed (L.map Order.toResting) := by
    have h := Reference.uncrossed_nil.run (rs.map Request.toCall)
    rw [List.map_nil] at hrun
    rwa [hrun] at h
  obtain ⟨⟨p, level⟩, hb, rfl⟩ := Option.map_eq_some_iff.mp hbid
  obtain ⟨⟨q, level'⟩, ha, rfl⟩ := Option.map_eq_some_iff.mp hask
  obtain ⟨x, hx, hxs, rfl⟩ := hL.exists_of_begin (s := .buy) hb
  obtain ⟨y, hy, hys, rfl⟩ := hL.exists_of_begin (s := .sell) ha
  exact hunc _ (List.mem_map_of_mem hx) _ (List.mem_map_of_mem hy) hxs hys

theorem book_never_crossed_on_a_spread : (99 : Int64) < 100 :=
  book_never_crossed [.submit ⟨1, .sell, .limit, 100, 5, 0⟩, .submit ⟨2, .buy, .limit, 100, 3, 0⟩,
    .submit ⟨3, .buy, .limit, 99, 3, 0⟩] 99 (by decide) 100 (by decide)

end Velo
