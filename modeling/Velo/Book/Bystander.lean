import Velo.Book.Reference

/-! An order of the plain book that takes part in no trade does not change what the others do. -/
namespace Velo.Reference
open Iteration

variable {ι π : Type*} [DecidableEq ι]

/-- The book without one order. -/
def besides (id : ι) (book : List (Resting ι π)) : List (Resting ι π) :=
  book.filter fun r => r.id ≠ id

/-- The id that a call names. -/
def Call.id : Call ι π → ι
  | .submit o => o.id
  | .cancel id => id

def Answer.tradeList : Answer ι π → List (Trade ι π)
  | .trades ts => ts
  | .cancelled _ => []

/-- No trade is with the resting order of this id. -/
def Untraded (id : ι) (ts : List (Trade ι π)) : Prop := ∀ t ∈ ts, t.restingId ≠ id

variable {book : List (Resting ι π)} {o : Incoming ι π} {r : Resting ι π} {id i : ι} {n : ℕ}
  {st st' : State ι π} {c : Call ι π} {cs : List (Call ι π)}

theorem besides_of_not_mem (h : id ∉ book.map Resting.id) : besides id book = book := by
  refine List.filter_eq_self.mpr fun r hr => decide_eq_true ?_
  rintro rfl
  exact h (List.mem_map_of_mem hr)

theorem besides_append (id : ι) (book book' : List (Resting ι π)) :
    besides id (book ++ book') = besides id book ++ besides id book' :=
  List.filter_append book book'

theorem mem_ids_besides (hi : i ≠ id) :
    i ∈ (besides id book).map Resting.id ↔ i ∈ book.map Resting.id := by
  simp only [besides, List.mem_map, List.mem_filter, decide_eq_true_eq]
  constructor
  · rintro ⟨r, ⟨hr, -⟩, rfl⟩
    exact ⟨r, hr, rfl⟩
  · rintro ⟨r, hr, rfl⟩
    exact ⟨r, ⟨hr, hi⟩, rfl⟩

theorem deduct_besides (i : ι) (n : ℕ) (book : List (Resting ι π)) :
    deduct i n (besides id book) = besides id (deduct i n book) := by
  rw [deduct, deduct, besides, besides, List.filterMap_filter, List.filter_filterMap]
  refine List.filterMap_congr fun r _ => ?_
  by_cases hi : r.id = i
  · subst hi
    by_cases hq : r.quantity ≤ n <;> by_cases hid : r.id = id <;> simp [Option.filter, hq, hid]
  · rw [if_neg hi]
    by_cases hid : r.id = id <;> simp [Option.filter, hid]

theorem mem_deduct_of_ne (hr : r ∈ book) (hi : r.id ≠ i) : r ∈ deduct i n book :=
  List.mem_filterMap.mpr ⟨r, hr, if_neg hi⟩

theorem cancel_besides (hi : i ≠ id) (book : List (Resting ι π)) :
    cancel (besides id book) i = ((cancel book i).1, besides id (cancel book i).2) := by
  rw [cancel, cancel]
  by_cases hmem : i ∈ book.map Resting.id
  · rw [if_pos hmem, if_pos ((mem_ids_besides hi).mpr hmem), besides, besides, List.filter_comm]
  · rw [if_neg hmem, if_neg (mt (mem_ids_besides hi).mp hmem)]

section Matching

variable [LinearOrder π]

/-- Without another order the same one is picked. -/
theorem pick_besides (h : pick o book = some r) (hr : r.id ≠ id) :
    pick o (besides id book) = some r := by
  obtain ⟨p, hp, hfirst⟩ := Option.bind_eq_some_iff.mp h
  have hcand : candidates o (besides id book) = besides id (candidates o book) :=
    List.filter_comm _ _ _
  have hmem : r ∈ besides id (candidates o book) :=
    List.mem_filter.mpr ⟨List.mem_of_find?_eq_some hfirst, decide_eq_true hr⟩
  obtain ⟨-, hbest⟩ := bestPrice_eq_some.mp hp
  have hrp : r.price = p := by
    simpa using List.find?_some hfirst
  have hp' : bestPrice o.side.opposite ((besides id (candidates o book)).map Resting.price) =
      some p := by
    refine bestPrice_eq_some.mpr ⟨hrp ▸ List.mem_map_of_mem hmem, fun q hq => ?_⟩
    obtain ⟨x, hx, rfl⟩ := List.mem_map.mp hq
    exact hbest _ (List.mem_map_of_mem (List.mem_filter.mp hx).1)
  rw [pick, hcand, hp', Option.bind_some, besides, List.find?_filter]
  rw [List.find?_eq_some_iff_append] at hfirst ⊢
  obtain ⟨hprice, front, back, hsplit, hfront⟩ := hfirst
  refine ⟨by simpa using ⟨hr, hrp⟩, front, back, hsplit, fun x hx => ?_⟩
  have hne := hfront x hx
  simp only [Bool.not_eq_eq_eq_not, Bool.not_true, decide_eq_false_iff_not] at hne
  simp [hne]

theorem tradeStep_besides (h : tradeStep st = some st') (hu : Untraded id st'.trades) :
    tradeStep { st with book := besides id st.book } =
      some { st' with book := besides id st'.book } := by
  obtain ⟨hq, r, hr, rfl⟩ := tradeStep_cases h
  have hrid : r.id ≠ id := hu ⟨r.id, _, _, _, _⟩ (List.mem_append_right _ List.mem_cons_self)
  rw [tradeStep, if_pos hq]
  simp only [pick_besides hr hrid, Option.map_some, deduct_besides]

theorem tradeStep_trades (h : tradeStep st = some st') : st.trades <+: st'.trades := by
  obtain ⟨-, r, -, rfl⟩ := tradeStep_cases h
  exact List.prefix_append _ _

theorem reaches_besides (h : Reaches tradeStep st st') (hu : Untraded id st'.trades) :
    Reaches tradeStep { st with book := besides id st.book }
      { st' with book := besides id st'.book } := by
  induction h with
  | refl => exact .refl
  | tail _ hstep ih =>
    have hfront := (tradeStep_trades hstep).subset
    exact (ih fun t ht => hu t (hfront ht)).trans (.single (tradeStep_besides hstep hu))

theorem candidates_besides (h : candidates o book = []) : candidates o (besides id book) = [] := by
  rw [candidates, besides, List.filter_comm]
  exact List.filter_eq_nil_iff.mpr fun r hr => by
    rw [show List.filter _ book = [] from h] at hr
    cases hr

theorem matchAll_besides (hu : Untraded id (matchAll o book).trades) :
    matchAll o (besides id book) =
      { matchAll o book with book := besides id (matchAll o book).book } := by
  have hexit := tradeStep_eq_none.mp (matchAll_exit o book)
  refine matchAll_eq (reaches_besides (iterate_reaches _ _ _) hu) (tradeStep_eq_none.mpr ?_)
  exact hexit.imp_right candidates_besides

theorem matchAll_incoming_id (o : Incoming ι π) (book : List (Resting ι π)) :
    (matchAll o book).incoming.id = o.id := by
  refine iterate_invariant (P := fun st : State ι π => st.incoming.id = o.id) ?_ rfl
  intro st st' hst hstep
  obtain ⟨-, r, -, rfl⟩ := tradeStep_cases hstep
  exact hst

theorem submit_of_fresh (h : o.id ∉ book.map Resting.id) :
    submit book o = ((matchAll o book).trades, (matchAll o book).book ++
      if 0 < (matchAll o book).incoming.quantity ∧ o.type = .limit then
        [(matchAll o book).incoming.toResting] else []) := by
  rw [submit, if_neg h]
  dsimp only
  split
  · rfl
  · rw [List.append_nil]

theorem submit_besides (ho : o.id ≠ id) (hu : Untraded id (submit book o).1) :
    submit (besides id book) o = ((submit book o).1, besides id (submit book o).2) := by
  by_cases hdup : o.id ∈ book.map Resting.id
  · rw [submit, submit, if_pos hdup, if_pos ((mem_ids_besides ho).mpr hdup)]
  · rw [submit_of_fresh hdup] at hu ⊢
    rw [submit_of_fresh (mt (mem_ids_besides ho).mp hdup), matchAll_besides hu, besides_append]
    congr 2
    split
    · refine (List.filter_eq_self.mpr fun r hr => decide_eq_true ?_).symm
      rw [List.mem_singleton.mp hr]
      exact (matchAll_incoming_id o book).trans_ne ho
    · rfl

theorem apply_besides (hc : c.id ≠ id) (hu : Untraded id (apply book c).1.tradeList) :
    apply (besides id book) c = ((apply book c).1, besides id (apply book c).2) := by
  cases c with
  | submit o =>
    rw [apply, submit_besides hc hu]
    rfl
  | cancel i =>
    have hi : i ≠ id := hc
    rw [apply, cancel_besides hi]
    rfl

theorem run_besides (hcs : ∀ c ∈ cs, c.id ≠ id)
    (hu : ∀ a ∈ (run book cs).1, Untraded id a.tradeList) :
    run (besides id book) cs = ((run book cs).1, besides id (run book cs).2) := by
  induction cs generalizing book with
  | nil => rfl
  | cons c cs ih =>
    have hhead := apply_besides (hcs c List.mem_cons_self) (hu _ List.mem_cons_self)
    have htail := ih (fun d hd => hcs d (List.mem_cons_of_mem _ hd))
      (fun a ha => hu a (List.mem_cons_of_mem _ ha))
    rw [run, hhead, htail]
    rfl

theorem reaches_mem (h : Reaches tradeStep st st') (hu : Untraded r.id st'.trades)
    (hr : r ∈ st.book) : r ∈ st'.book := by
  induction h with
  | refl => exact hr
  | tail _ hstep ih =>
    have hfront := (tradeStep_trades hstep).subset
    have hmem := ih fun t ht => hu t (hfront ht)
    obtain ⟨-, x, -, rfl⟩ := tradeStep_cases hstep
    exact mem_deduct_of_ne hmem
      (hu ⟨x.id, _, _, _, _⟩ (List.mem_append_right _ List.mem_cons_self)).symm

theorem apply_mem (hr : r ∈ book) (hc : c.id ≠ r.id)
    (hu : Untraded r.id (apply book c).1.tradeList) : r ∈ (apply book c).2 := by
  cases c with
  | submit o =>
    by_cases hdup : o.id ∈ book.map Resting.id
    · rw [apply, submit, if_pos hdup]
      exact hr
    · rw [apply, submit_of_fresh hdup] at hu ⊢
      exact List.mem_append_left _ (reaches_mem (iterate_reaches _ _ _) hu hr)
  | cancel i =>
    rw [apply, cancel]
    split
    · exact List.mem_filter.mpr ⟨hr, decide_eq_true hc.symm⟩
    · exact hr

theorem run_mem (hr : r ∈ book) (hcs : ∀ c ∈ cs, c.id ≠ r.id)
    (hu : ∀ a ∈ (run book cs).1, Untraded r.id a.tradeList) : r ∈ (run book cs).2 := by
  induction cs generalizing book with
  | nil => exact hr
  | cons c cs ih =>
    have hhead := apply_mem hr (hcs c List.mem_cons_self) (hu _ List.mem_cons_self)
    exact ih hhead (fun d hd => hcs d (List.mem_cons_of_mem _ hd))
      (fun a ha => hu a (List.mem_cons_of_mem _ ha))

theorem eq_of_reaches (h : Reaches tradeStep st st') (htrades : st'.trades = []) : st' = st := by
  cases h with
  | refl => rfl
  | tail _ hstep =>
    obtain ⟨-, r, -, rfl⟩ := tradeStep_cases hstep
    simp at htrades

theorem submit_of_no_trades (hid : o.id ∉ book.map Resting.id) (htype : o.type = .limit)
    (hq : 0 < o.quantity) (h : (submit book o).1 = []) :
    (submit book o).2 = book ++ [o.toResting] := by
  rw [submit_of_fresh hid] at h ⊢
  have hquiet : matchAll o book = ⟨o, book, []⟩ := eq_of_reaches (iterate_reaches _ _ _) h
  rw [hquiet]
  simp [hq, htype]

theorem run_append (book : List (Resting ι π)) (cs cs' : List (Call ι π)) :
    run book (cs ++ cs') =
      ((run book cs).1 ++ (run (run book cs).2 cs').1, (run (run book cs).2 cs').2) := by
  induction cs generalizing book with
  | nil => rfl
  | cons c cs ih =>
    rw [List.cons_append, run, ih]
    rfl

theorem run_length (book : List (Resting ι π)) (cs : List (Call ι π)) :
    (run book cs).1.length = cs.length := by
  induction cs generalizing book with
  | nil => rfl
  | cons c cs ih => exact congrArg (· + 1) (ih _)

/-- Submitted and cancelled without a trade, an order changes nothing for the rest of the run. -/
theorem run_cancelled (hid : o.id ∉ book.map Resting.id) (htype : o.type = .limit)
    (hq : 0 < o.quantity) (h : (submit book o).1 = []) (hcs : ∀ c ∈ cs, c.id ≠ o.id)
    (hu : ∀ a ∈ (run (submit book o).2 cs).1, Untraded o.id a.tradeList)
    (cs' : List (Call ι π)) :
    run book (.submit o :: (cs ++ .cancel o.id :: cs')) =
      (.trades [] :: ((run book cs).1 ++ .cancelled true :: (run (run book cs).2 cs').1),
        (run (run book cs).2 cs').2) := by
  have hrest := submit_of_no_trades hid htype hq h
  have hgone : besides o.id (book ++ [o.toResting]) = book := by
    rw [besides_append, besides_of_not_mem hid]
    simp [besides, Incoming.toResting]
  have hwithout := run_besides hcs hu
  rw [hrest, hgone] at hwithout
  have hstays : o.toResting ∈ (run (book ++ [o.toResting]) cs).2 :=
    run_mem (List.mem_append_right _ List.mem_cons_self) hcs (hrest ▸ hu)
  have hcancel : cancel (run (book ++ [o.toResting]) cs).2 o.id = (true, (run book cs).2) := by
    rw [hwithout]
    exact if_pos (List.mem_map_of_mem hstays)
  rw [run, run_append, apply, h, hrest, run, apply, hcancel, hwithout]

end Matching
end Velo.Reference
