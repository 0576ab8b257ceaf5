import Velo.Book.Cancellation

/-! The book as two queues: an order that comes in sweeps the other side's queue in one pass, from
the front, and what is left of it goes to its place in its own. -/
namespace Velo
open Iteration

variable {s : Side} {b : OrderBook} {L : List Order} {o r : Order} {queue queue' : List Order}
  {st st' : LevelState} {m m' : MatchState s} {key p : Int64} {t : UInt64} {id : UInt64}

/-- What one pass over a queue leaves: its fills, the incoming order and the queue. -/
structure Swept where
  fills : List Fill
  incoming : Order
  queue : List Order

/-- The front order is traded with while it is reached by the price and there is quantity left. -/
def sweep (s : Side) (incoming : Order) (t : UInt64) : List Order → Swept
  | [] => ⟨[], incoming, []⟩
  | resting :: queue =>
    if 0 < incoming.quantity ∧
        (incoming.type = .market ∨ limitReaches s incoming.priceTicks resting.priceTicks) then
      let n := traded incoming resting
      let fill : Fill := ⟨resting.id, incoming.id, s, resting.priceTicks, n, t⟩
      if resting.quantity - n = 0 then
        let rest := sweep s (incoming.minus n) (t + 1) queue
        { rest with fills := fill :: rest.fills }
      else ⟨[fill], incoming.minus n, resting.minus n :: queue⟩
    else ⟨[], incoming, resting :: queue⟩

/-- The place of an order is behind all that are at least as good. -/
def enqueue (s : Side) (o : Order) : List Order → List Order
  | [] => [o]
  | resting :: queue =>
    if Better s o.priceTicks resting.priceTicks then o :: resting :: queue
    else resting :: enqueue s o queue

/-- Both queues, best first, and the clock. -/
structure Queues where
  bids : List Order
  asks : List Order
  clock : UInt64
  deriving DecidableEq

namespace Queues

def empty : Queues := ⟨[], [], 0⟩

def side (q : Queues) : Side → List Order
  | .buy => q.bids
  | .sell => q.asks

def setSide (q : Queues) : Side → List Order → Queues
  | .buy, queue => { q with bids := queue }
  | .sell, queue => { q with asks := queue }

@[simp] theorem side_setSide (q : Queues) (s : Side) (queue : List Order) :
    (q.setSide s queue).side s = queue := by
  cases s <;> rfl

@[simp] theorem side_setSide_opposite (q : Queues) (s : Side) (queue : List Order) :
    (q.setSide s queue).side s.opposite = q.side s.opposite := by
  cases s <;> rfl

@[simp] theorem opposite_side_setSide (q : Queues) (s : Side) (queue : List Order) :
    (q.setSide s.opposite queue).side s = q.side s := by
  cases s <;> rfl

@[simp] theorem side_setClock (q : Queues) (s : Side) (t : UInt64) :
    ({ q with clock := t } : Queues).side s = q.side s := by
  cases s <;> rfl

def ids (q : Queues) : List UInt64 := (q.bids ++ q.asks).map Order.id

def submit (q : Queues) (order : Order) : List Fill × Queues :=
  if order.id ∈ q.ids then ([], q)
  else
    let opposite := order.side.opposite
    let swept := sweep opposite { order with timestamp := q.clock } (q.clock + 1) (q.side opposite)
    let q' := { q.setSide opposite swept.queue with
      clock := q.clock + 1 + UInt64.ofNat swept.fills.length }
    if 0 < swept.incoming.quantity ∧ order.type = .limit then
      (swept.fills, q'.setSide order.side (enqueue order.side swept.incoming (q.side order.side)))
    else (swept.fills, q')

def cancel (q : Queues) (id : UInt64) : Bool × Queues :=
  (id ∈ q.ids, { q with bids := without id q.bids, asks := without id q.asks })

def apply (q : Queues) : Request → Reply × Queues
  | .submit order => (.fills (q.submit order).1, (q.submit order).2)
  | .cancel id => (.cancelled (q.cancel id).1, (q.cancel id).2)

def run (q : Queues) : List Request → List Reply × Queues
  | [] => ([], q)
  | r :: rs => ((q.apply r).1 :: ((q.apply r).2.run rs).1, ((q.apply r).2.run rs).2)

end Queues

/-- The book without its containers. -/
def OrderBook.queues (b : OrderBook) : Queues := ⟨b.queue .buy, b.queue .sell, b.nextTimestamp⟩

@[simp] theorem OrderBook.side_queues (b : OrderBook) (s : Side) :
    b.queues.side s = b.queue s := by
  cases s <;> rfl

@[simp] theorem OrderBook.clock_queues (b : OrderBook) : b.queues.clock = b.nextTimestamp := rfl

section Pass

theorem sweep_stop (h : o.quantity = 0 ∨ ∀ r ∈ queue.head?,
    ¬ (o.type = .market ∨ limitReaches s o.priceTicks r.priceTicks)) :
    sweep s o t queue = ⟨[], o, queue⟩ := by
  cases queue with
  | nil => rfl
  | cons r queue =>
    rw [sweep, if_neg]
    rintro ⟨hq, hc⟩
    rcases h with h | h
    · simp [h] at hq
    · exact h r rfl hc

/-- The pass that is still to come from a state of the loops. -/
def finish (s : Side) (fills : List Fill) (incoming : Order) (t : UInt64) (queue : List Order) :
    Swept :=
  let rest := sweep s incoming t queue
  { rest with fills := fills ++ rest.fills }

theorem finish_levelStep (h : levelStep s key st = some st')
    (hkey : ∀ r ∈ st.orders, r.priceTicks = key)
    (hc : st.incoming.type = .market ∨ limitReaches s st.incoming.priceTicks key)
    (tail : List Order) :
    finish s st'.fills st'.incoming st'.nextTimestamp (st'.orders ++ tail) =
      finish s st.fills st.incoming st.nextTimestamp (st.orders ++ tail) := by
  obtain ⟨hq, r, rest, ho, rfl⟩ := levelStep_cases h
  have hr : r.priceTicks = key := hkey r (ho ▸ List.mem_cons_self)
  rw [ho, List.cons_append]
  simp only [finish, sweep, hr, hq, hc, and_self, if_true, fillOf]
  split
  · simp
  · rename_i hne
    have hz : (st.incoming.minus (traded st.incoming r)).quantity = 0 :=
      (traded_exhausts st.incoming r).resolve_right hne
    rw [List.cons_append, sweep_stop (Or.inl hz)]
    simp

theorem levelStep_frame (h : levelStep s key st = some st')
    (hkey : ∀ r ∈ st.orders, r.priceTicks = key) :
    (∀ r ∈ st'.orders, r.priceTicks = key) ∧ st'.incoming.emptied = st.incoming.emptied := by
  obtain ⟨-, r, rest, ho, rfl⟩ := levelStep_cases h
  rw [ho] at hkey
  refine ⟨fun x hx => ?_, rfl⟩
  simp only at hx
  split at hx
  · exact hkey x (List.mem_cons_of_mem r hx)
  · rcases List.mem_cons.mp hx with rfl | hx
    · exact hkey r List.mem_cons_self
    · exact hkey x (List.mem_cons_of_mem r hx)

/-- Working through a level is working through its orders, whatever comes after them. -/
theorem finish_levelLoop (hr : Reaches (levelStep s key) st st')
    (hkey : ∀ r ∈ st.orders, r.priceTicks = key)
    (hc : st.incoming.type = .market ∨ limitReaches s st.incoming.priceTicks key) :
    (∀ r ∈ st'.orders, r.priceTicks = key) ∧ ∀ tail,
      finish s st'.fills st'.incoming st'.nextTimestamp (st'.orders ++ tail) =
        finish s st.fills st.incoming st.nextTimestamp (st.orders ++ tail) := by
  let P : LevelState → Prop := fun u => (∀ r ∈ u.orders, r.priceTicks = key) ∧
    u.incoming.emptied = st.incoming.emptied ∧ ∀ tail,
      finish s u.fills u.incoming u.nextTimestamp (u.orders ++ tail) =
        finish s st.fills st.incoming st.nextTimestamp (st.orders ++ tail)
  have hP : ∀ u u', P u → levelStep s key u = some u' → P u' := by
    rintro u u' ⟨hu, he, hsame⟩ hstep
    obtain ⟨hu', he'⟩ := levelStep_frame hstep hu
    obtain ⟨-, -, htype, hprice, -⟩ := fields_of_emptied he
    refine ⟨hu', he'.trans he, fun tail => ?_⟩
    rw [finish_levelStep hstep hu (by rwa [htype, hprice]), hsame]
  obtain ⟨hu, -, hsame⟩ := hr.invariant hP ⟨hkey, rfl, fun _ => rfl⟩
  exact ⟨hu, hsame⟩

end Pass

section Levels

/-- The orders of some levels, best first. -/
def flatten (entries : List (Int64 × PriceLevel)) : List Order :=
  entries.flatMap fun e => e.2.orders

/-- No level is empty, and every order is at the price of its key. -/
def Stocked (entries : List (Int64 × PriceLevel)) : Prop :=
  ∀ e ∈ entries, e.2.orders ≠ [] ∧ e.2.priceTicks = e.1 ∧ ∀ o ∈ e.2.orders, o.priceTicks = e.1

theorem flatten_cons (e : Int64 × PriceLevel) (entries : List (Int64 × PriceLevel)) :
    flatten (e :: entries) = e.2.orders ++ flatten entries := rfl

theorem not_key_of_sorted {e : Int64 × PriceLevel} {es : List (Int64 × PriceLevel)}
    (h : ((e :: es).map Prod.fst).Pairwise (Better s)) : ∀ d ∈ es, d.1 ≠ e.1 := by
  intro d hd he
  have hlt := (List.pairwise_cons.mp h).1 d.1 (List.mem_map_of_mem hd)
  rw [he] at hlt
  exact irrefl e.1 hlt

/-- Closing the best level changes the front of the entries alone. -/
theorem entries_closeLevel {levels : Levels s} {level : PriceLevel}
    {es : List (Int64 × PriceLevel)} (h : levels.entries = (key, level) :: es)
    (orders : List Order) : (closeLevel levels key orders).entries =
      if orders.isEmpty then es else (key, { level with orders := orders }) :: es := by
  have hsorted := levels.sorted
  rw [h] at hsorted
  have hne := not_key_of_sorted hsorted
  rw [closeLevel]
  split
  · simp only [SortedMap.erase, h]
    rw [List.filter_cons_of_neg (by simp), List.filter_eq_self]
    intro d hd
    simp [hne d hd]
  · simp only [SortedMap.update, h, List.map_cons, if_true, List.cons.injEq, true_and]
    refine (List.map_congr_left fun d hd => ?_).trans (List.map_id es)
    simp [hne d hd]

theorem finish_matchStep (h : matchStep s m = some m') (hm : Stocked m.levels.entries) :
    Stocked m'.levels.entries ∧
      finish s m'.fills m'.incoming m'.nextTimestamp (flatten m'.levels.entries) =
        finish s m.fills m.incoming m.nextTimestamp (flatten m.levels.entries) := by
  obtain ⟨-, key, level, hb, hc, rfl⟩ := matchStep_cases h
  obtain ⟨es, hes⟩ := List.head?_eq_some_iff.mp hb
  obtain ⟨-, hprice, horders⟩ := hm (key, level) (hes ▸ List.mem_cons_self)
  simp only at hprice horders
  obtain ⟨hkept, hsame⟩ := finish_levelLoop
    (iterate_reaches _ level.orders.length (innerStart m level)) (hprice ▸ horders) hc
  have hrest : ∀ e ∈ es, e ∈ m.levels.entries := fun e he => hes ▸ List.mem_cons_of_mem _ he
  have hflat : flatten (closeLevel m.levels key (innerLoop m level).orders).entries =
      (innerLoop m level).orders ++ flatten es := by
    rw [entries_closeLevel hes]
    split
    · rename_i hempty
      rw [List.isEmpty_iff.mp hempty, List.nil_append]
    · rfl
  refine ⟨?_, ?_⟩
  · rw [entries_closeLevel hes]
    intro e he
    split at he
    · exact hm e (hrest e he)
    · rename_i hempty
      rcases List.mem_cons.mp he with rfl | he
      · refine ⟨fun hnil => hempty (List.isEmpty_iff.mpr hnil), hprice, ?_⟩
        rw [← hprice]
        exact hkept
      · exact hm e (hrest e he)
  · rw [hflat, hes]
    exact hsame (flatten es)

/-- The two nested loops are one pass over the queue. -/
theorem matchLoop_sweep (hm : Stocked m.levels.entries) :
    let m' := iterate (matchStep s) m.levels.entries.length m
    ⟨m'.fills, m'.incoming, flatten m'.levels.entries⟩ =
      finish s m.fills m.incoming m.nextTimestamp (flatten m.levels.entries) := by
  intro m'
  let P : MatchState s → Prop := fun u => Stocked u.levels.entries ∧
    finish s u.fills u.incoming u.nextTimestamp (flatten u.levels.entries) =
      finish s m.fills m.incoming m.nextTimestamp (flatten m.levels.entries)
  have hP : ∀ u u', P u → matchStep s u = some u' → P u' := by
    rintro u u' ⟨hu, hsame⟩ hstep
    obtain ⟨hu', hsame'⟩ := finish_matchStep hstep hu
    exact ⟨hu', hsame'.trans hsame⟩
  obtain ⟨hstocked, hsame⟩ : P m' := iterate_invariant hP ⟨hm, rfl⟩
  have hstop : sweep s m'.incoming m'.nextTimestamp (flatten m'.levels.entries) =
      ⟨[], m'.incoming, flatten m'.levels.entries⟩ := by
    apply sweep_stop
    rcases matchStep_eq_none (matchLoop_exit s m) with hq | hb | ⟨key, level, hb, hc⟩
    · exact Or.inl hq
    · right
      have hnil : m'.levels.entries = [] := List.head?_eq_none_iff.mp hb
      rw [hnil]
      simp [flatten]
    · right
      obtain ⟨es, hes⟩ := List.head?_eq_some_iff.mp hb
      have hes : m'.levels.entries = (key, level) :: es := hes
      obtain ⟨hne, hprice, horders⟩ := hstocked (key, level) (hes ▸ List.mem_cons_self)
      obtain ⟨r, rest, hr⟩ := List.exists_cons_of_ne_nil hne
      rw [hes, flatten_cons, hr]
      intro x hx
      cases hx
      rwa [horders r (hr ▸ List.mem_cons_self), ← hprice]
  rw [← hsame, finish, hstop, List.append_nil]

theorem Represents.stocked (h : Represents b L) (s : Side) : Stocked (b.levels s).entries := by
  rintro ⟨p, level⟩ he
  obtain ⟨hne, rfl⟩ := h.mem_levels.mp he
  exact ⟨hne, rfl, fun o ho => (mem_atLevel.mp ho).2.2⟩

/-- Matching on the book, as one pass over the queue that is matched against. -/
theorem Represents.matchOrder_sweep (h : Represents b L) (o : Order) :
    let swept := sweep o.side.opposite { o with timestamp := b.nextTimestamp }
      (b.nextTimestamp + 1) (b.queue o.side.opposite)
    (b.matchOrder o).fills = swept.fills ∧ (b.matchOrder o).incoming = swept.incoming ∧
      (b.matchOrder o).book.queue o.side.opposite = swept.queue ∧
      (b.matchOrder o).book.levels o.side = b.levels o.side := by
  intro swept
  have hstocked := h.stocked o.side.opposite
  have hlevels : ({ b with nextTimestamp := b.nextTimestamp + 1 } : OrderBook).levels
      o.side.opposite = b.levels o.side.opposite := by
    cases o.side.opposite <;> rfl
  have hloop := matchLoop_sweep (s := o.side.opposite) (m := ⟨{ o with timestamp :=
    b.nextTimestamp }, b.levels o.side.opposite, b.orderIndex, b.nextTimestamp + 1, []⟩) hstocked
  simp only [finish, List.nil_append] at hloop
  rw [b.matchOrder_eq, OrderBook.matchAgainst, hlevels]
  refine ⟨congrArg Swept.fills hloop, congrArg Swept.incoming hloop, ?_, ?_⟩
  · simp only [OrderBook.queue, OrderBook.levels_mk_index, OrderBook.levels_setLevels]
    exact congrArg Swept.queue hloop
  · have hside : ∀ m : Levels o.side.opposite, (({ b with nextTimestamp := b.nextTimestamp + 1 } :
        OrderBook).setLevels o.side.opposite m).levels o.side = b.levels o.side := by
      cases o.side <;> exact fun _ => rfl
    rw [OrderBook.levels_mk_index, hside]

theorem enqueue_append {front : List Order}
    (h : ∀ r ∈ front, ¬ Better s o.priceTicks r.priceTicks) :
    enqueue s o (front ++ queue) = front ++ enqueue s o queue := by
  induction front with
  | nil => rfl
  | cons r front ih =>
    rw [List.cons_append, enqueue, if_neg (h r List.mem_cons_self),
      ih fun x hx => h x (List.mem_cons_of_mem r hx), List.cons_append]

theorem enqueue_of_better (h : ∀ r ∈ queue, Better s o.priceTicks r.priceTicks) :
    enqueue s o queue = o :: queue := by
  cases queue with
  | nil => rfl
  | cons r queue => rw [enqueue, if_pos (h r List.mem_cons_self)]

theorem price_of_mem_flatten {entries : List (Int64 × PriceLevel)} (h : Stocked entries)
    (hr : r ∈ flatten entries) : r.priceTicks ∈ entries.map Prod.fst := by
  obtain ⟨e, he, hr⟩ := List.mem_flatMap.mp hr
  rw [(h e he).2.2 r hr]
  exact List.mem_map_of_mem he

/-- A new level or the back of a level that is there: either is the place in the queue. -/
theorem flatten_emplace {entries : List (Int64 × PriceLevel)}
    (hsorted : (entries.map Prod.fst).Pairwise (Better s)) (hstocked : Stocked entries) :
    flatten ((SortedMap.emplaceEntries (Better s) o.priceTicks ⟨o.priceTicks, []⟩ entries).map
      fun e => if e.1 = o.priceTicks then (e.1, { e.2 with orders := e.2.orders ++ [o] }) else e) =
        enqueue s o (flatten entries) := by
  induction entries with
  | nil => simp [SortedMap.emplaceEntries, flatten, enqueue]
  | cons e es ih =>
    obtain ⟨he, hes⟩ := List.pairwise_cons.mp hsorted
    have hstocked' : Stocked es := fun d hd => hstocked d (List.mem_cons_of_mem e hd)
    obtain ⟨-, -, hprice⟩ := hstocked e List.mem_cons_self
    have hafter : ∀ r ∈ flatten es, Better s e.1 r.priceTicks :=
      fun r hr => he _ (price_of_mem_flatten hstocked' hr)
    have hsame : ∀ d ∈ es, d.1 ≠ e.1 := not_key_of_sorted hsorted
    have hkeep : ∀ ds : List (Int64 × PriceLevel), (∀ d ∈ ds, d.1 ≠ o.priceTicks) →
        (ds.map fun e => if e.1 = o.priceTicks then
          (e.1, { e.2 with orders := e.2.orders ++ [o] }) else e) = ds := by
      intro ds hds
      refine (List.map_congr_left fun d hd => ?_).trans (List.map_id ds)
      rw [if_neg (hds d hd), id]
    rw [SortedMap.emplaceEntries]
    split
    · rename_i hkey
      rw [List.map_cons, if_pos hkey, hkeep es fun d hd => hkey ▸ hsame d hd, flatten_cons,
        flatten_cons, enqueue_append, enqueue_of_better]
      · simp
      · exact hkey ▸ hafter
      · intro r hr
        rw [hprice r hr, hkey]
        exact irrefl o.priceTicks
    · rename_i hne
      split
      · rename_i hlt
        have hall : ∀ d ∈ e :: es, Better s o.priceTicks d.1 := by
          intro d hd
          rcases List.mem_cons.mp hd with rfl | hd
          · exact hlt
          · exact IsTrans.trans _ _ _ hlt (he _ (List.mem_map_of_mem hd))
        have hother : ∀ d ∈ e :: es, d.1 ≠ o.priceTicks := by
          intro d hd heq
          have hbetter := hall d hd
          rw [heq] at hbetter
          exact irrefl o.priceTicks hbetter
        rw [List.map_cons, if_pos rfl, hkeep _ hother, enqueue_of_better]
        · rfl
        · intro r hr
          obtain ⟨d, hd, hkey⟩ := List.mem_map.mp (price_of_mem_flatten hstocked hr)
          exact hkey ▸ hall d hd
      · rename_i hge
        rw [List.map_cons, if_neg hne, flatten_cons, flatten_cons, ih hes hstocked', enqueue_append]
        intro r hr
        rw [hprice r hr]
        exact hge

theorem queue_rest (hb : Stocked (b.levels o.side).entries) :
    (b.rest o).queue o.side = enqueue o.side o (b.queue o.side) ∧
      (b.rest o).queue o.side.opposite = b.queue o.side.opposite := by
  constructor
  · simp only [OrderBook.queue, OrderBook.rest, OrderBook.levels_mk_index,
      OrderBook.levels_setLevels]
    exact flatten_emplace (b.levels o.side).sorted hb
  · simp only [OrderBook.queue, OrderBook.rest, OrderBook.levels_mk_index,
      OrderBook.levels_setLevels_opposite]

end Levels

/-- A removed order leaves its queue, and the queues keep their order. -/
theorem Removes.queue_eq {b' : OrderBook} (h : Removes id b b') (s : Side) :
    b'.queue s = without id (b.queue s) := by
  have hentries : (b'.levels s).entries = (b.levels s).entries.filterMap fun e =>
      (e.2.without? id).map fun level => (e.1, level) := by
    refine SortedMap.entries_ext (b'.levels s).sorted ?_ ?_
    · rw [List.pairwise_map, List.pairwise_filterMap]
      refine (List.pairwise_map.mp (b.levels s).sorted).imp ?_
      rintro ⟨p, level⟩ ⟨q, level'⟩ hpq d hd d' hd'
      obtain ⟨_, -, rfl⟩ := Option.map_eq_some_iff.mp hd
      obtain ⟨_, -, rfl⟩ := Option.map_eq_some_iff.mp hd'
      exact hpq
    · rintro ⟨p, level⟩
      rw [SortedMap.mem_entries_iff, h.levels, Option.bind_eq_some_iff, List.mem_filterMap]
      constructor
      · rintro ⟨level', hlevel', hwithout⟩
        exact ⟨(p, level'), SortedMap.mem_entries_iff.mpr hlevel', by rw [hwithout]; rfl⟩
      · rintro ⟨⟨q, level'⟩, hmem, heq⟩
        obtain ⟨_, hwithout, heq⟩ := Option.map_eq_some_iff.mp heq
        cases heq
        exact ⟨level', SortedMap.mem_entries_iff.mp hmem, hwithout⟩
  rw [OrderBook.queue, OrderBook.queue, hentries]
  generalize (b.levels s).entries = es
  induction es with
  | nil => rfl
  | cons e es ih =>
    rw [List.flatMap_cons, without, List.filter_append]
    change _ = without id e.2.orders ++ without id _
    rw [← ih, List.filterMap_cons]
    have hnone : ∀ x : Order, (without id e.2.orders).isEmpty → x ∉ without id e.2.orders := by
      intro x hx
      rw [List.isEmpty_iff.mp hx]
      exact List.not_mem_nil
    simp only [PriceLevel.without?]
    change _ = without id e.2.orders ++ _
    split
    · rename_i hx
      split at hx
      · rename_i hempty
        have hnil : without id e.2.orders = [] := List.isEmpty_iff.mp hempty
        rw [hnil, List.nil_append]
      · cases hx
    · rename_i d hx
      split at hx
      · cases hx
      · cases hx
        rfl

theorem Represents.mem_ids (h : Represents b L) : id ∈ b.queues.ids ↔ b.contains id := by
  rw [← h.rests_iff]
  rfl

theorem Represents.cancel_queues (h : Represents b L) (id : UInt64) :
    b.queues.cancel id = ((b.cancel id).1, (b.cancel id).2.queues) := by
  have hfound : (decide (id ∈ b.queues.ids) : Bool) = (b.cancel id).1 := by
    rw [(h.cancel id).2]
    simp only [h.mem_ids, h.contains_iff]
  rw [Queues.cancel, hfound]
  cases hok : (b.cancel id).1 with
  | true =>
    have hremoves := h.removes hok
    simp only [OrderBook.queues, hremoves.queue_eq, hremoves.nextTimestamp]
  | false =>
    have hfresh : ∀ s, ∀ o ∈ b.queue s, o.id ≠ id := by
      intro s o ho hid
      refine (h.cancel_eq_false_iff id).mp hok (List.mem_map.mpr ⟨o, ?_, hid⟩)
      rw [OrderBook.resting, List.mem_append]
      cases s with
      | buy => exact Or.inl ho
      | sell => exact Or.inr ho
    rw [OrderBook.cancel_of_false hok]
    simp only [OrderBook.queues, without_of_fresh (hfresh _)]

theorem Represents.submit_queues (h : Represents b L) (o : Order) :
    b.queues.submit o = ((b.submit o).1, (b.submit o).2.queues) := by
  by_cases hc : b.contains o.id
  · rw [Queues.submit, if_pos (h.mem_ids.mpr hc), OrderBook.submit, if_pos hc]
  · obtain ⟨hfills, hincoming, hopposite, hown⟩ := h.matchOrder_sweep o
    obtain ⟨M, hM, -, he, -⟩ := h.matchOrder o
    obtain ⟨-, hside, htype, -⟩ := fields_of_emptied he
    have hclock := (submit_emits hc).2
    have hownQueue : (b.matchOrder o).book.queue o.side = b.queue o.side := by
      rw [OrderBook.queue, hown, OrderBook.queue]
    obtain ⟨hrest, hrest'⟩ := queue_rest (b := (b.matchOrder o).book)
      (hM.stocked (b.matchOrder o).incoming.side)
    rw [Queues.submit, if_neg (mt h.mem_ids.mp hc)]
    simp only [OrderBook.side_queues]
    simp only [OrderBook.queues, ← hfills, ← hincoming, ← hopposite]
    simp only [OrderBook.submit, hc, Bool.false_eq_true, if_false, htype] at hclock ⊢
    rw [hside] at hrest hrest'
    by_cases hleft : 0 < (b.matchOrder o).incoming.quantity ∧ o.type = .limit
    · simp only [if_pos hleft] at hclock ⊢
      rw [hclock]
      congr 1
      cases hs : o.side <;>
        simp only [hs, Queues.setSide, Side.opposite] at hrest hrest' hownQueue ⊢ <;>
        simp only [hrest, hrest', hownQueue]
    · simp only [if_neg hleft] at hclock ⊢
      rw [hclock]
      congr 1
      cases hs : o.side <;>
        simp only [hs, Queues.setSide, Side.opposite] at hownQueue ⊢ <;>
        simp only [hownQueue]

theorem Represents.apply_queues (h : Represents b L) (r : Request) :
    b.queues.apply r = ((b.apply r).1, (b.apply r).2.queues) := by
  cases r with
  | submit o =>
    rw [Queues.apply, h.submit_queues]
    rfl
  | cancel id =>
    rw [Queues.apply, h.cancel_queues]
    rfl

theorem Represents.run_queues (h : Represents b L) (rs : List Request) :
    b.queues.run rs = ((b.run rs).1, (b.run rs).2.queues) := by
  induction rs generalizing b L with
  | nil => rfl
  | cons r rs ih =>
    obtain ⟨L', hL', -⟩ := h.apply r
    rw [Queues.run, h.apply_queues, ih hL']
    rfl

/-- The maps, the deques, the index and the nested loops of the book are, call by call and to the
last timestamp, two queues and one pass. -/
theorem book_is_two_queues (rs : List Request) :
    Queues.empty.run rs = ((OrderBook.empty.run rs).1, (OrderBook.empty.run rs).2.queues) :=
  represents_empty.run_queues rs

end Velo
