import Velo.Book.Refinement
import Velo.Book.Traceless

/-! Ids are only told apart and prices only compared: other ids and other prices in the same order
give the same trades between the same orders. -/
namespace Velo
namespace Reference
open Iteration

section Images

variable {ι π κ ρ : Type*}

def Resting.map (f : ι → κ) (g : π → ρ) (r : Resting ι π) : Resting κ ρ :=
  ⟨f r.id, r.side, g r.price, r.quantity⟩

def Incoming.map (f : ι → κ) (g : π → ρ) (o : Incoming ι π) : Incoming κ ρ :=
  ⟨f o.id, o.side, o.type, g o.price, o.quantity⟩

def Trade.map (f : ι → κ) (g : π → ρ) (t : Trade ι π) : Trade κ ρ :=
  ⟨f t.restingId, f t.incomingId, t.restingSide, g t.price, t.quantity⟩

def State.map (f : ι → κ) (g : π → ρ) (st : State ι π) : State κ ρ :=
  ⟨st.incoming.map f g, st.book.map (Resting.map f g), st.trades.map (Trade.map f g)⟩

def Call.map (f : ι → κ) (g : π → ρ) : Call ι π → Call κ ρ
  | .submit o => .submit (o.map f g)
  | .cancel id => .cancel (f id)

def Answer.map (f : ι → κ) (g : π → ρ) : Answer ι π → Answer κ ρ
  | .trades ts => .trades (ts.map (Trade.map f g))
  | .cancelled ok => .cancelled ok

variable {f : ι → κ} {g : π → ρ} {o : Incoming ι π} {book : List (Resting ι π)}
  {st : State ι π} {id : ι}

theorem mem_ids_map (hf : Function.Injective f) (g : π → ρ) :
    f id ∈ (book.map (Resting.map f g)).map Resting.id ↔ id ∈ book.map Resting.id := by
  have hids : (book.map (Resting.map f g)).map Resting.id = (book.map Resting.id).map f := by
    rw [List.map_map, List.map_map]
    rfl
  rw [hids, List.mem_map_of_injective hf]

section Ids

variable [DecidableEq ι] [DecidableEq κ]

theorem deduct_map (hf : Function.Injective f) (id : ι) (n : ℕ) :
    deduct (f id) n (book.map (Resting.map f g)) = (deduct id n book).map (Resting.map f g) := by
  rw [deduct, deduct, List.filterMap_map, List.map_filterMap]
  refine List.filterMap_congr fun r _ => ?_
  simp only [Function.comp_apply, Resting.map, hf.eq_iff]
  by_cases hid : r.id = id
  · by_cases hn : r.quantity ≤ n <;> simp [hid, hn, Resting.map]
  · simp [hid, Resting.map]

theorem cancel_map (hf : Function.Injective f) (id : ι) :
    cancel (book.map (Resting.map f g)) (f id) =
      ((cancel book id).1, (cancel book id).2.map (Resting.map f g)) := by
  by_cases hid : id ∈ book.map Resting.id
  · have hid' := (mem_ids_map hf g).mpr hid
    rw [cancel, cancel, if_pos hid, if_pos hid', List.filter_map]
    refine congrArg (Prod.mk true) (congrArg (List.map _) (List.filter_congr fun r _ => ?_))
    exact decide_eq_decide.mpr hf.ne_iff
  · have hid' := mt (mem_ids_map hf g).mp hid
    rw [cancel, cancel, if_neg hid, if_neg hid']

end Ids

variable [LinearOrder π] [LinearOrder ρ]

theorem crosses_map (hg : StrictMono g) {p : π} : (o.map f g).Crosses (g p) ↔ o.Crosses p := by
  unfold Incoming.Crosses Incoming.map
  cases o.side <;> simp [hg.le_iff_le]

theorem candidates_map (hg : StrictMono g) :
    candidates (o.map f g) (book.map (Resting.map f g)) =
      (candidates o book).map (Resting.map f g) := by
  rw [candidates, candidates, List.filter_map]
  congr 1
  refine List.filter_congr fun r _ => decide_eq_decide.mpr ?_
  have hcross : (o.map f g).Crosses (r.map f g).price ↔ o.Crosses r.price := crosses_map hg
  rw [hcross]
  rfl

theorem bestPrice_map (hg : StrictMono g) (s : Side) (prices : List π) :
    bestPrice s (prices.map g) = (bestPrice s prices).map g := by
  cases hb : bestPrice s prices with
  | none => rw [bestPrice_eq_none.mp hb]; cases s <;> rfl
  | some p =>
    obtain ⟨hp, hbest⟩ := bestPrice_eq_some.mp hb
    refine bestPrice_eq_some.mpr ⟨List.mem_map_of_mem hp, ?_⟩
    intro q' hq'
    obtain ⟨q, hq, rfl⟩ := List.mem_map.mp hq'
    have hqp := hbest q hq
    cases s with
    | buy => exact fun hlt => hqp (hg.lt_iff_lt.mp hlt)
    | sell => exact fun hlt => hqp (hg.lt_iff_lt.mp hlt)

theorem pick_relabel (hg : StrictMono g) : pick (o.map f g) (book.map (Resting.map f g)) =
    (pick o book).map (Resting.map f g) := by
  have hprices : ((candidates o book).map (Resting.map f g)).map Resting.price =
      ((candidates o book).map Resting.price).map g := by
    rw [List.map_map, List.map_map]
    rfl
  rw [pick, pick, candidates_map hg, hprices, show (o.map f g).side = o.side from rfl,
    bestPrice_map hg]
  cases bestPrice o.side.opposite ((candidates o book).map Resting.price) with
  | none => rfl
  | some p =>
    rw [Option.map_some, Option.bind_some, Option.bind_some, List.find?_map]
    congr 1
    refine congrArg (List.find? · _) (funext fun r => decide_eq_decide.mpr ?_)
    exact hg.injective.eq_iff

variable [DecidableEq ι] [DecidableEq κ]

/-- A trade in the one book is the trade in the other. -/
theorem tradeStep_map (hf : Function.Injective f) (hg : StrictMono g) :
    tradeStep (st.map f g) = (tradeStep st).map (State.map f g) := by
  by_cases hq : 0 < st.incoming.quantity
  · have hq' : 0 < (st.map f g).incoming.quantity := hq
    rw [tradeStep, tradeStep, if_pos hq, if_pos hq']
    have hpick : pick (st.map f g).incoming (st.map f g).book =
        (pick st.incoming st.book).map (Resting.map f g) := pick_relabel hg
    rw [hpick]
    cases pick st.incoming st.book with
    | none => rfl
    | some r =>
      have hdeduct : deduct (f r.id) (min st.incoming.quantity r.quantity) (st.map f g).book = _ :=
        deduct_map hf r.id _
      simp only [Option.map_some, Option.some.injEq, State.map, State.mk.injEq]
      exact ⟨rfl, hdeduct, by simp [Trade.map, Resting.map, Incoming.map]⟩
  · have hq' : ¬ 0 < (st.map f g).incoming.quantity := hq
    rw [tradeStep, tradeStep, if_neg hq, if_neg hq']
    rfl

theorem matchAll_map (hf : Function.Injective f) (hg : StrictMono g) :
    matchAll (o.map f g) (book.map (Resting.map f g)) = (matchAll o book).map f g := by
  have hstep (st : State ι π) (st' : State κ ρ) (hst : st' = st.map f g) :
      Option.Rel (fun st st' => st' = State.map f g st) (tradeStep st) (tradeStep st') := by
    subst hst
    rw [tradeStep_map hf hg]
    cases tradeStep st with
    | none => exact .none
    | some st' => exact .some rfl
  have hrelated := iterate_related hstep (rfl : State.map f g ⟨o, book, []⟩ = _) book.length
  rw [matchAll, List.length_map]
  exact hrelated

theorem submit_map (hf : Function.Injective f) (hg : StrictMono g) :
    submit (book.map (Resting.map f g)) (o.map f g) =
      ((submit book o).1.map (Trade.map f g), (submit book o).2.map (Resting.map f g)) := by
  by_cases hid : o.id ∈ book.map Resting.id
  · have hid' : (o.map f g).id ∈ (book.map (Resting.map f g)).map Resting.id :=
      (mem_ids_map hf g).mpr hid
    rw [submit, submit, if_pos hid, if_pos hid']
    rfl
  · have hid' : (o.map f g).id ∉ (book.map (Resting.map f g)).map Resting.id :=
      mt (mem_ids_map hf g).mp hid
    rw [submit_of_fresh hid, submit_of_fresh hid', matchAll_map hf hg]
    by_cases hrest : 0 < (matchAll o book).incoming.quantity ∧ o.type = .limit
    · have hrest' : 0 < ((matchAll o book).map f g).incoming.quantity ∧
          (o.map f g).type = .limit := hrest
      rw [if_pos hrest, if_pos hrest']
      simp [State.map, Incoming.map, Incoming.toResting, Resting.map]
    · have hrest' : ¬ (0 < ((matchAll o book).map f g).incoming.quantity ∧
          (o.map f g).type = .limit) := hrest
      rw [if_neg hrest, if_neg hrest', List.append_nil, List.append_nil]
      rfl

theorem apply_map (hf : Function.Injective f) (hg : StrictMono g) (c : Call ι π) :
    apply (book.map (Resting.map f g)) (c.map f g) =
      ((apply book c).1.map f g, (apply book c).2.map (Resting.map f g)) := by
  cases c with
  | submit o =>
    simp only [apply, Call.map, submit_map hf hg]
    rfl
  | cancel id =>
    simp only [apply, Call.map, cancel_map hf]
    rfl

theorem run_map (hf : Function.Injective f) (hg : StrictMono g) (book : List (Resting ι π))
    (cs : List (Call ι π)) :
    run (book.map (Resting.map f g)) (cs.map (Call.map f g)) =
      ((run book cs).1.map (Answer.map f g), (run book cs).2.map (Resting.map f g)) := by
  induction cs generalizing book with
  | nil => rfl
  | cons c cs ih =>
    rw [List.map_cons, run, apply_map hf hg, ih]
    rfl

end Images

/-- The ids and prices that a call names. -/
def Call.Within {ι π : Type*} (ids : Set ι) (prices : Set π) : Call ι π → Prop
  | .submit o => o.id ∈ ids ∧ o.price ∈ prices
  | .cancel id => id ∈ ids

theorem exists_call_val {ι π : Type*} {ids : Set ι} {prices : Set π} {cs : List (Call ι π)}
    (h : ∀ c ∈ cs, c.Within ids prices) :
    ∃ cs' : List (Call ids prices), cs'.map (Call.map Subtype.val Subtype.val) = cs := by
  induction cs with
  | nil => exact ⟨[], rfl⟩
  | cons c cs ih =>
    obtain ⟨hc, hcs⟩ := List.forall_mem_cons.mp h
    obtain ⟨cs', rfl⟩ := ih hcs
    cases c with
    | submit o =>
      exact ⟨.submit ⟨⟨o.id, hc.1⟩, o.side, o.type, ⟨o.price, hc.2⟩, o.quantity⟩ :: cs', rfl⟩
    | cancel id => exact ⟨.cancel ⟨id, hc⟩ :: cs', rfl⟩

theorem Call.map_map {ι π κ ρ μ τ : Type*} (f : ι → κ) (g : π → ρ) (f' : κ → μ) (g' : ρ → τ)
    (c : Call ι π) : (c.map f g).map f' g' = c.map (f' ∘ f) (g' ∘ g) := by
  cases c <;> rfl

theorem Answer.map_map {ι π κ ρ μ τ : Type*} (f : ι → κ) (g : π → ρ) (f' : κ → μ) (g' : ρ → τ)
    (a : Answer ι π) : (a.map f g).map f' g' = a.map (f' ∘ f) (g' ∘ g) := by
  cases a with
  | trades ts =>
    rw [Answer.map, Answer.map, List.map_map]
    rfl
  | cancelled ok => rfl

/-- It is enough that ids stay apart and prices in order where they occur. -/
theorem run_map_on {ι π κ ρ : Type*} [LinearOrder π] [LinearOrder ρ] [DecidableEq ι]
    [DecidableEq κ] {f : ι → κ} {g : π → ρ} {ids : Set ι} {prices : Set π}
    (hf : Set.InjOn f ids) (hg : StrictMonoOn g prices) {cs : List (Call ι π)}
    (h : ∀ c ∈ cs, c.Within ids prices) :
    run [] (cs.map (Call.map f g)) =
      ((run [] cs).1.map (Answer.map f g), (run [] cs).2.map (Resting.map f g)) := by
  obtain ⟨cs, rfl⟩ := exists_call_val h
  have hval := run_map Subtype.val_injective
    (Subtype.strictMono_coe fun p => p ∈ prices) [] cs
  have hmap := run_map (f := f ∘ Subtype.val) (g := g ∘ Subtype.val)
    (fun i j hij => Subtype.ext (hf i.2 j.2 hij)) (fun p q hpq => hg p.2 q.2 hpq) [] cs
  simp only [List.map_nil] at hval hmap
  rw [hval, List.map_map, List.map_map, List.map_map]
  simp only [Function.comp_def, Call.map_map, Answer.map_map] at hmap ⊢
  exact hmap

end Reference

open Reference

def Request.relabel (f : UInt64 → UInt64) (g : Int64 → Int64) : Request → Request
  | .submit o => .submit { o with id := f o.id, priceTicks := g o.priceTicks }
  | .cancel id => .cancel (f id)

/-- The prices that are named by some requests. -/
def limits (rs : List Request) : List Int64 :=
  rs.filterMap fun
    | .submit o => some o.priceTicks
    | .cancel _ => none

theorem toCall_relabel (f : UInt64 → UInt64) (g : Int64 → Int64) (r : Request) :
    (r.relabel f g).toCall = r.toCall.map f g := by
  cases r <;> rfl

/-- Other ids, told apart as the first were, and other prices in the same order: call by call the
book makes the same trades, and the same orders are left. -/
theorem book_relabelled (rs : List Request) {f : UInt64 → UInt64} {g : Int64 → Int64}
    (hf : ∀ r ∈ rs, ∀ r' ∈ rs, f r.id = f r'.id → r.id = r'.id)
    (hg : ∀ p ∈ limits rs, ∀ q ∈ limits rs, p < q → g p < g q) :
    let code := OrderBook.empty.run rs
    let code' := OrderBook.empty.run (rs.map (Request.relabel f g))
    code'.1.map Reply.toAnswer = code.1.map (fun a => a.toAnswer.map f g) ∧
      (code'.2.resting.map Order.toResting).Perm
        (code.2.resting.map fun o => o.toResting.map f g) := by
  intro code code'
  obtain ⟨L, hL, hrun⟩ := represents_empty.run rs
  obtain ⟨L', hL', hrun'⟩ := represents_empty.run (rs.map (Request.relabel f g))
  have hids : Set.InjOn f {id | ∃ r ∈ rs, r.id = id} := by
    rintro _ ⟨r, hr, rfl⟩ _ ⟨r', hr', rfl⟩
    exact hf r hr r' hr'
  have hprices : StrictMonoOn g {p | p ∈ limits rs} := fun p hp q hq => hg p hp q hq
  have hcalls : ∀ c ∈ rs.map Request.toCall,
      c.Within {id | ∃ r ∈ rs, r.id = id} {p | p ∈ limits rs} := by
    intro c hc
    obtain ⟨r, hr, rfl⟩ := List.mem_map.mp hc
    cases r with
    | submit o => exact ⟨⟨_, hr, rfl⟩, List.mem_filterMap.mpr ⟨_, hr, rfl⟩⟩
    | cancel id => exact ⟨_, hr, rfl⟩
  have hmap := run_map_on hids hprices hcalls
  rw [List.map_nil] at hrun hrun'
  rw [List.map_map] at hrun'
  rw [hrun, List.map_map] at hmap
  simp only [Function.comp_def, toCall_relabel] at hrun' hmap
  rw [hrun', Prod.mk.injEq, List.map_map, List.map_map] at hmap
  refine ⟨hmap.1, (hL'.resting_perm.map _).trans ?_⟩
  rw [hmap.2]
  exact (hL.resting_perm.map _).symm


/-- Ids are doubled, and prices moved up by fifty. -/
theorem book_relabelled_by_a_shift :
    let rs : List Request := [.submit ⟨1, .sell, .limit, 101, 5, 0⟩,
      .submit ⟨2, .sell, .limit, 100, 5, 0⟩, .submit ⟨3, .buy, .limit, 101, 7, 0⟩, .cancel 2]
    let f : UInt64 → UInt64 := fun id => 2 * id
    let g : Int64 → Int64 := fun p => p + 50
    (OrderBook.empty.run (rs.map (Request.relabel f g))).1.map Reply.toAnswer =
      (OrderBook.empty.run rs).1.map fun a => a.toAnswer.map f g := by
  refine (book_relabelled _ (by decide) ?_).1
  simp only [limits, List.filterMap_cons, List.filterMap_nil, List.forall_mem_cons,
    List.not_mem_nil, false_implies, implies_true, and_true]
  decide

end Velo
