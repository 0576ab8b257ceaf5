import Velo.Book.Order
import Velo.Lib.Iteration

/-! The price-time-priority book in its plainest form: one list of resting orders in acceptance
order, over any ids and any linear order of prices, with quantities that are natural numbers. -/
namespace Velo.Reference
open Iteration

variable {ι π : Type*}

structure Resting (ι π : Type*) where
  id : ι
  side : Side
  price : π
  quantity : ℕ
  deriving DecidableEq

structure Incoming (ι π : Type*) where
  id : ι
  side : Side
  type : OrderType
  price : π
  quantity : ℕ

structure Trade (ι π : Type*) where
  restingId : ι
  incomingId : ι
  restingSide : Side
  price : π
  quantity : ℕ
  deriving DecidableEq

section Definitions

variable [LinearOrder π]

/-- A market order crosses every price, a limit order those at least as good as its own. -/
def Incoming.Crosses (o : Incoming ι π) (price : π) : Prop :=
  o.type = .market ∨
    match o.side with
    | .buy => price ≤ o.price
    | .sell => o.price ≤ price

instance (o : Incoming ι π) (price : π) : Decidable (o.Crosses price) := by
  unfold Incoming.Crosses
  cases o.side <;> infer_instance

/-- The resting orders an incoming one could trade with. -/
def candidates (o : Incoming ι π) (book : List (Resting ι π)) : List (Resting ι π) :=
  book.filter fun r => r.side = o.side.opposite ∧ o.Crosses r.price

/-- The lowest price of asks, the highest of bids. -/
def bestPrice (s : Side) (prices : List π) : Option π :=
  match s with
  | .sell => prices.min?
  | .buy => prices.max?

/-- The best price, and the earliest accepted of those at it. -/
def pick (o : Incoming ι π) (book : List (Resting ι π)) : Option (Resting ι π) :=
  (bestPrice o.side.opposite ((candidates o book).map Resting.price)).bind fun p =>
    (candidates o book).find? fun r => r.price = p

variable [DecidableEq ι]

/-- Takes `n` off one order's quantity and removes it at zero. -/
def deduct (id : ι) (n : ℕ) (book : List (Resting ι π)) : List (Resting ι π) :=
  book.filterMap fun r =>
    if r.id = id then
      if r.quantity ≤ n then none else some { r with quantity := r.quantity - n }
    else some r

structure State (ι π : Type*) where
  incoming : Incoming ι π
  book : List (Resting ι π)
  trades : List (Trade ι π)

/-- One trade, as long as there is quantity left and something to trade it with. -/
def tradeStep (st : State ι π) : Option (State ι π) :=
  if 0 < st.incoming.quantity then
    (pick st.incoming st.book).map fun r =>
      let n := min st.incoming.quantity r.quantity
      { incoming := { st.incoming with quantity := st.incoming.quantity - n }
        book := deduct r.id n st.book
        trades := st.trades ++ [⟨r.id, st.incoming.id, r.side, r.price, n⟩] }
  else none

def matchAll (o : Incoming ι π) (book : List (Resting ι π)) : State ι π :=
  iterate tradeStep book.length ⟨o, book, []⟩

/-- What is left of a limit order rests. -/
def Incoming.toResting (o : Incoming ι π) : Resting ι π := ⟨o.id, o.side, o.price, o.quantity⟩

def submit (book : List (Resting ι π)) (o : Incoming ι π) :
    List (Trade ι π) × List (Resting ι π) :=
  if o.id ∈ book.map Resting.id then ([], book)
  else
    let st := matchAll o book
    if 0 < st.incoming.quantity ∧ o.type = .limit then
      (st.trades, st.book ++ [st.incoming.toResting])
    else (st.trades, st.book)

def cancel (book : List (Resting ι π)) (id : ι) : Bool × List (Resting ι π) :=
  if id ∈ book.map Resting.id then (true, book.filter fun r => r.id ≠ id) else (false, book)

/-- A call on the plain book and its answer. -/
inductive Call (ι π : Type*)
  | submit (o : Incoming ι π)
  | cancel (id : ι)

inductive Answer (ι π : Type*)
  | trades (ts : List (Trade ι π))
  | cancelled (ok : Bool)

def apply (book : List (Resting ι π)) : Call ι π → Answer ι π × List (Resting ι π)
  | .submit o => (.trades (submit book o).1, (submit book o).2)
  | .cancel id => (.cancelled (cancel book id).1, (cancel book id).2)

def run (book : List (Resting ι π)) : List (Call ι π) → List (Answer ι π) × List (Resting ι π)
  | [] => ([], book)
  | c :: cs => ((apply book c).1 :: (run (apply book c).2 cs).1, (run (apply book c).2 cs).2)

end Definitions

section Picking

variable [LinearOrder π] {o : Incoming ι π} {book : List (Resting ι π)}
  {r x : Resting ι π} {s : Side} {p q : π}

theorem crosses_iff : o.Crosses p ↔ o.type = .market ∨ ¬ Better o.side.opposite o.price p := by
  unfold Incoming.Crosses
  cases o.side <;> simp [Better, Side.opposite]

theorem Incoming.Crosses.mono (h : o.Crosses q) (hp : p = q ∨ Better o.side.opposite p q) :
    o.Crosses p := by
  rw [crosses_iff] at h ⊢
  refine h.imp_right fun hq hop => hq ?_
  rcases hp with rfl | hp
  · exact hop
  · exact IsTrans.trans _ _ _ hop hp

theorem mem_candidates :
    x ∈ candidates o book ↔ x ∈ book ∧ x.side = o.side.opposite ∧ o.Crosses x.price := by
  simp [candidates]

theorem bestPrice_eq_some {ps : List π} :
    bestPrice s ps = some p ↔ p ∈ ps ∧ ∀ q ∈ ps, ¬ Better s q p := by
  cases s <;> simp [bestPrice, Better, List.min?_eq_some_iff, List.max?_eq_some_iff]

theorem bestPrice_eq_none {ps : List π} : bestPrice s ps = none ↔ ps = [] := by
  cases s <;> simp [bestPrice]

theorem pick_eq_none : pick o book = none ↔ candidates o book = [] := by
  cases hb : bestPrice o.side.opposite ((candidates o book).map Resting.price) with
  | none => simpa [pick, hb] using bestPrice_eq_none.mp hb
  | some p =>
    obtain ⟨hp, -⟩ := bestPrice_eq_some.mp hb
    obtain ⟨x, hx, rfl⟩ := List.mem_map.mp hp
    have hne : candidates o book ≠ [] := List.ne_nil_of_mem hx
    simp only [pick, hb, Option.bind_some, List.find?_eq_none, hne, iff_false, not_forall]
    exact ⟨x, hx, by simp⟩

/-- A resting order that no other one beats on price, first of its price, is the one picked. -/
theorem pick_eq_some (hr : o.Crosses r.price)
    (hbest : ∀ x ∈ book, x.side = o.side.opposite → ¬ Better o.side.opposite x.price r.price)
    (hfirst : (book.filter fun x => x.side = o.side.opposite ∧ x.price = r.price).head? = some r) :
    pick o book = some r := by
  have hmem := List.mem_of_mem_head? hfirst
  simp only [List.mem_filter, decide_eq_true_eq] at hmem
  have hp : bestPrice o.side.opposite ((candidates o book).map Resting.price) = some r.price := by
    refine bestPrice_eq_some.mpr ⟨List.mem_map_of_mem ?_, ?_⟩
    · exact mem_candidates.mpr ⟨hmem.1, hmem.2.1, hr⟩
    · intro q hq
      obtain ⟨x, hx, rfl⟩ := List.mem_map.mp hq
      have hx := mem_candidates.mp hx
      exact hbest x hx.1 hx.2.1
  have hc : (candidates o book).filter (fun x => x.price = r.price) =
      book.filter fun x => x.side = o.side.opposite ∧ x.price = r.price := by
    unfold candidates
    rw [List.filter_filter]
    refine List.filter_congr fun x _ => ?_
    by_cases hx : x.price = r.price <;> simp [hx, hr]
  rw [pick, hp, Option.bind_some, ← List.head?_filter, hc, hfirst]

theorem mem_of_pick (h : pick o book = some r) :
    r ∈ book ∧ r.side = o.side.opposite ∧ o.Crosses r.price := by
  obtain ⟨p, -, hp⟩ := Option.bind_eq_some_iff.mp h
  exact mem_candidates.mp (List.mem_of_find?_eq_some hp)

end Picking

section Loop

variable [DecidableEq ι] {o : Incoming ι π} {book : List (Resting ι π)} {r : Resting ι π}
  {st st' : State ι π} {id : ι} {n : ℕ}

theorem deduct_length_le (id : ι) (n : ℕ) (book : List (Resting ι π)) :
    (deduct id n book).length ≤ book.length :=
  List.length_filterMap_le _ _

/-- An order whose whole quantity is deducted leaves the list. -/
theorem deduct_length_lt (hr : r ∈ book) (hn : r.quantity ≤ n) :
    (deduct r.id n book).length < book.length := by
  induction book with
  | nil => cases hr
  | cons x book ih =>
    rcases List.mem_cons.mp hr with rfl | hr
    · have := deduct_length_le r.id n book
      simp only [deduct] at this
      simp only [deduct, if_true, hn, List.filterMap_cons_none, List.length_cons]
      omega
    · have ih := ih hr
      simp only [deduct] at ih
      simp only [deduct, List.filterMap_cons, List.length_cons]
      split
      · omega
      · simp only [List.length_cons]
        omega

variable [LinearOrder π]

theorem tradeStep_cases (h : tradeStep st = some st') :
    0 < st.incoming.quantity ∧ ∃ r, pick st.incoming st.book = some r ∧
      st' = { incoming := { st.incoming with
                quantity := st.incoming.quantity - min st.incoming.quantity r.quantity }
              book := deduct r.id (min st.incoming.quantity r.quantity) st.book
              trades := st.trades ++ [⟨r.id, st.incoming.id, r.side, r.price,
                min st.incoming.quantity r.quantity⟩] } := by
  unfold tradeStep at h
  split at h
  · rename_i hq
    obtain ⟨r, hr, rfl⟩ := Option.map_eq_some_iff.mp h
    exact ⟨hq, r, hr, rfl⟩
  · cases h

theorem tradeStep_eq_none :
    tradeStep st = none ↔ st.incoming.quantity = 0 ∨ candidates st.incoming st.book = [] := by
  unfold tradeStep
  split
  · rename_i hq
    rw [Option.map_eq_none_iff, pick_eq_none]
    have : st.incoming.quantity ≠ 0 := by omega
    simp [this]
  · rename_i hq
    have : st.incoming.quantity = 0 := by omega
    simp [this]

def variant (st : State ι π) : ℕ := if st.incoming.quantity = 0 then 0 else st.book.length

theorem variant_step (h : tradeStep st = some st') : variant st' < variant st := by
  obtain ⟨hq, r, hr, rfl⟩ := tradeStep_cases h
  have hmem := (mem_of_pick hr).1
  have hpos := List.length_pos_of_mem hmem
  unfold variant
  rw [if_neg (by omega : ¬ st.incoming.quantity = 0)]
  split
  · exact hpos
  · rename_i hne
    simp only at hne
    exact deduct_length_lt hmem (by omega)

theorem matchAll_exit (o : Incoming ι π) (book : List (Resting ι π)) :
    tradeStep (matchAll o book) = none := by
  refine iterate_exit variant (fun _ _ => variant_step) ?_
  unfold variant
  split <;> simp

theorem matchAll_eq (h : Reaches tradeStep ⟨o, book, []⟩ st) (hst : tradeStep st = none) :
    matchAll o book = st := by
  refine iterate_eq variant (fun _ _ => variant_step) ?_ h hst
  unfold variant
  split <;> simp

end Loop
end Velo.Reference
