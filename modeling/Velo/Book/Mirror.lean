import Velo.Book.Representation

/-! Buying and selling mirrored: every side swapped and every price negated. -/
namespace Velo
open Iteration SortedMap

def Order.mirror (o : Order) : Order :=
  { o with side := o.side.opposite, priceTicks := -o.priceTicks }

def Fill.mirror (f : Fill) : Fill :=
  { f with restingSide := f.restingSide.opposite, priceTicks := -f.priceTicks }

def PriceLevel.mirror (l : PriceLevel) : PriceLevel :=
  ⟨-l.priceTicks, l.orders.map .mirror⟩

def Request.mirror : Request → Request
  | .submit o => .submit o.mirror
  | .cancel id => .cancel id

def Reply.mirror : Reply → Reply
  | .fills fs => .fills (fs.map .mirror)
  | .cancelled ok => .cancelled ok

/-- Levels of one side, and the mirrored ones of the other side in the same order. -/
def MirrorLevels {s : Side} (m : Levels s) (m' : Levels s.opposite) : Prop :=
  Image Neg.neg PriceLevel.mirror m m'

/-- An index and the mirrored one. -/
def MirrorIndex (index index' : Finmap fun _ : UInt64 => Int64 × Side) : Prop :=
  ∀ id, index'.lookup id = (index.lookup id).map fun e => (-e.1, e.2.opposite)

structure MirrorImage (b b' : OrderBook) : Prop where
  levels : ∀ s, MirrorLevels (b.levels s) (b'.levels s.opposite)
  orderIndex : MirrorIndex b.orderIndex b'.orderIndex
  nextTimestamp : b'.nextTimestamp = b.nextTimestamp

/-- Negation turns the order of these prices round. -/
def AboveMin {s : Side} (m : Levels s) : Prop :=
  ∀ e ∈ m.entries, e.1 ≠ Int64.minValue ∧ e.2.priceTicks = e.1

variable {s : Side} {p q : Int64} {id : UInt64} {o : Order}
  {index index' : Finmap fun _ : UInt64 => Int64 × Side}

theorem better_neg_iff (hp : p ≠ .minValue) (hq : q ≠ .minValue) :
    Better s.opposite (-p) (-q) ↔ Better s p q := by
  cases s with
  | buy => exact neg_lt_neg_iff_of_ne hp hq
  | sell => exact neg_lt_neg_iff_of_ne hq hp

theorem limitReaches_neg (hp : p ≠ .minValue) (hq : q ≠ .minValue) :
    limitReaches s.opposite (-p) (-q) = limitReaches s p q := by
  cases s with
  | buy => exact decide_eq_decide.mpr (neg_le_neg_iff_of_ne hq hp)
  | sell => exact decide_eq_decide.mpr (neg_le_neg_iff_of_ne hp hq)

theorem MirrorIndex.erase (h : MirrorIndex index index') (id : UInt64) :
    MirrorIndex (index.erase id) (index'.erase id) := by
  intro i
  by_cases hi : i = id
  · subst hi
    rw [Finmap.lookup_erase, Finmap.lookup_erase]
    rfl
  · rw [Finmap.lookup_erase_ne hi, Finmap.lookup_erase_ne hi, h]

theorem MirrorIndex.insert (h : MirrorIndex index index') (o : Order) :
    MirrorIndex (index.insert o.id (o.priceTicks, o.side))
      (index'.insert o.id (o.mirror.priceTicks, o.mirror.side)) := by
  intro i
  by_cases hi : i = o.id
  · subst hi
    rw [Finmap.lookup_insert, Finmap.lookup_insert]
    rfl
  · rw [Finmap.lookup_insert_of_ne _ hi, Finmap.lookup_insert_of_ne _ hi, h]

theorem neg_injective_int64 : Function.Injective (Neg.neg : Int64 → Int64) :=
  fun _ _ => Int64.neg_inj.mp

/-- The inner loop and its mirror image. -/
structure MirrorLevelState (st st' : LevelState) : Prop where
  incoming : st'.incoming = st.incoming.mirror
  price : st.incoming.priceTicks ≠ .minValue
  orders : st'.orders = st.orders.map .mirror
  orderIndex : MirrorIndex st.orderIndex st'.orderIndex
  nextTimestamp : st'.nextTimestamp = st.nextTimestamp
  fills : st'.fills = st.fills.map .mirror

theorem MirrorLevelState.step {st st' : LevelState} (h : MirrorLevelState st st') :
    Option.Rel MirrorLevelState (levelStep s p st) (levelStep s.opposite (-p) st') := by
  obtain ⟨incoming, orders, index, t, fills⟩ := st
  obtain ⟨incoming', orders', index', t', fills'⟩ := st'
  obtain ⟨hin, hprice, hor, hix, ht, hfi⟩ := h
  dsimp only at hin hprice hor hix ht hfi
  subst hin hor ht hfi
  by_cases hq : 0 < incoming.quantity
  · have hq' : 0 < incoming.mirror.quantity := hq
    simp only [levelStep, if_pos hq, if_pos hq']
    cases orders with
    | nil => exact .none
    | cons resting rest =>
      have htraded : traded incoming.mirror resting.mirror = traded incoming resting := rfl
      simp only [List.map_cons, htraded]
      by_cases hz : resting.quantity - traded incoming resting = 0
      · have hz' : resting.mirror.quantity - traded incoming resting = 0 := hz
        rw [if_pos hz, if_pos hz']
        exact .some ⟨rfl, hprice, rfl, hix.erase _, rfl, by simp [Fill.mirror, Order.mirror]⟩
      · have hz' : ¬ resting.mirror.quantity - traded incoming resting = 0 := hz
        rw [if_neg hz, if_neg hz']
        exact .some ⟨rfl, hprice, rfl, hix, rfl, by simp [Fill.mirror, Order.mirror]⟩
  · have hq' : ¬ 0 < incoming.mirror.quantity := hq
    rw [levelStep, levelStep, if_neg hq, if_neg hq']
    exact .none

/-- The outer loop and its mirror image. -/
structure MirrorMatch (st : MatchState s) (st' : MatchState s.opposite) : Prop where
  incoming : st'.incoming = st.incoming.mirror
  price : st.incoming.priceTicks ≠ .minValue
  levels : MirrorLevels st.levels st'.levels
  above : AboveMin st.levels
  orderIndex : MirrorIndex st.orderIndex st'.orderIndex
  nextTimestamp : st'.nextTimestamp = st.nextTimestamp
  fills : st'.fills = st.fills.map .mirror

theorem AboveMin.erase {m : Levels s} (h : AboveMin m) (p : Int64) : AboveMin (m.erase p) :=
  fun e he => h e (List.mem_filter.mp he).1

theorem AboveMin.update {m : Levels s} (h : AboveMin m) (p : Int64) {u : PriceLevel → PriceLevel}
    (hu : ∀ l, (u l).priceTicks = l.priceTicks) : AboveMin (m.update p u) := by
  intro e he
  obtain ⟨d, hd, rfl⟩ := List.mem_map.mp he
  obtain ⟨hne, hprice⟩ := h d hd
  split
  · exact ⟨hne, (hu d.2).trans hprice⟩
  · exact ⟨hne, hprice⟩

theorem MirrorLevels.update {m : Levels s} {m' : Levels s.opposite} (h : MirrorLevels m m')
    (p : Int64) {u u' : PriceLevel → PriceLevel} (hu : ∀ l, u' l.mirror = (u l).mirror) :
    MirrorLevels (m.update p u) (m'.update (-p) u') :=
  Image.update neg_injective_int64 h hu

theorem MirrorLevels.erase {m : Levels s} {m' : Levels s.opposite} (h : MirrorLevels m m')
    (p : Int64) : MirrorLevels (m.erase p) (m'.erase (-p)) :=
  Image.erase neg_injective_int64 h

theorem MirrorMatch.inner {st : MatchState s} {st' : MatchState s.opposite}
    (h : MirrorMatch st st') (level : PriceLevel) :
    MirrorLevelState
      (iterate (levelStep s level.priceTicks) level.orders.length
        ⟨st.incoming, level.orders, st.orderIndex, st.nextTimestamp, st.fills⟩)
      (iterate (levelStep s.opposite level.mirror.priceTicks) level.mirror.orders.length
        ⟨st'.incoming, level.mirror.orders, st'.orderIndex, st'.nextTimestamp, st'.fills⟩) := by
  have hlen : level.mirror.orders.length = level.orders.length := List.length_map _
  rw [hlen]
  exact iterate_related (fun _ _ hr => hr.step)
    ⟨h.incoming, h.price, rfl, h.orderIndex, h.nextTimestamp, h.fills⟩ _

theorem MirrorMatch.step {st : MatchState s} {st' : MatchState s.opposite}
    (h : MirrorMatch st st') :
    Option.Rel MirrorMatch (matchStep s st) (matchStep s.opposite st') := by
  have hbegin := Image.begin? h.levels
  have hfields : st'.incoming.quantity = st.incoming.quantity ∧
      st'.incoming.type = st.incoming.type ∧
      st'.incoming.priceTicks = -st.incoming.priceTicks := by
    rw [h.incoming]
    exact ⟨rfl, rfl, rfl⟩
  obtain ⟨hq, htype, hlimit⟩ := hfields
  rw [matchStep, matchStep, hq, hbegin]
  by_cases hpos : 0 < st.incoming.quantity
  swap
  · rw [if_neg hpos, if_neg hpos]
    exact .none
  rw [if_pos hpos, if_pos hpos]
  cases hb : st.levels.begin? with
  | none => exact .none
  | some e =>
    obtain ⟨key, level⟩ := e
    obtain ⟨hkey, hlevel⟩ := h.above _ (List.mem_of_mem_head? hb)
    dsimp only at hkey hlevel
    have hreach : limitReaches s.opposite st'.incoming.priceTicks level.mirror.priceTicks =
        limitReaches s st.incoming.priceTicks level.priceTicks := by
      rw [hlimit]
      exact limitReaches_neg h.price (hlevel ▸ hkey)
    simp only [Option.map_some, Prod.map, htype, hreach]
    by_cases hcross : st.incoming.type = .market ∨
        limitReaches s st.incoming.priceTicks level.priceTicks = true
    swap
    · rw [if_neg hcross, if_neg hcross]
      exact .none
    rw [if_pos hcross, if_pos hcross]
    obtain ⟨hin, hprice, hor, hix, ht, hfi⟩ := h.inner level
    rw [hor, List.isEmpty_map]
    refine .some ⟨hin, hprice, ?_, ?_, hix, ht, hfi⟩
    · dsimp only
      split
      · exact h.levels.erase key
      · exact h.levels.update key fun l => rfl
    · dsimp only
      split
      · exact h.above.erase key
      · exact h.above.update key fun l => rfl

/-- A book and its mirror image, with no price at the minimum. -/
structure MirrorBooks (b b' : OrderBook) : Prop extends MirrorImage b b' where
  above : ∀ s, AboveMin (b.levels s)

/-- A matching call and its mirror image. -/
structure MirrorMatched (m m' : Matched) : Prop where
  fills : m'.fills = m.fills.map .mirror
  incoming : m'.incoming = m.incoming.mirror
  price : m.incoming.priceTicks ≠ .minValue
  book : MirrorBooks m.book m'.book

variable {b b' : OrderBook}

theorem MirrorBooks.setLevels (h : MirrorBooks b b') {m : Levels s} {m' : Levels s.opposite}
    (hm : MirrorLevels m m') (hab : AboveMin m) (hix : MirrorIndex index index') :
    MirrorBooks { b.setLevels s m with orderIndex := index }
      { b'.setLevels s.opposite m' with orderIndex := index' } where
  levels := by
    intro s'
    cases s <;> cases s'
    · exact hm
    · exact h.levels .sell
    · exact h.levels .buy
    · exact hm
  orderIndex := hix
  nextTimestamp := by
    simp only [OrderBook.nextTimestamp_setLevels]
    exact h.nextTimestamp
  above := by
    intro s'
    cases s <;> cases s'
    · exact hab
    · exact h.above .sell
    · exact h.above .buy
    · exact hab

theorem MirrorBooks.setTimestamp (h : MirrorBooks b b') (t : UInt64) :
    MirrorBooks { b with nextTimestamp := t } { b' with nextTimestamp := t } where
  levels := by
    intro s
    cases s
    · exact h.levels .buy
    · exact h.levels .sell
  orderIndex := h.orderIndex
  nextTimestamp := rfl
  above := by
    intro s
    cases s
    · exact h.above .buy
    · exact h.above .sell

theorem MirrorBooks.matchAgainst (h : MirrorBooks b b') (ho : o.priceTicks ≠ .minValue) (s : Side) :
    MirrorMatched (b.matchAgainst s o) (b'.matchAgainst s.opposite o.mirror) := by
  have hlen : (b'.levels s.opposite).entries.length = (b.levels s).entries.length := by
    rw [h.levels s, List.length_map]
  have hend := iterate_related (fun _ _ hr => MirrorMatch.step hr)
    (s := ⟨o, b.levels s, b.orderIndex, b.nextTimestamp, []⟩)
    (a := ⟨o.mirror, b'.levels s.opposite, b'.orderIndex, b'.nextTimestamp, []⟩)
    ⟨rfl, ho, h.levels s, h.above s, h.orderIndex, h.nextTimestamp, rfl⟩
    (b.levels s).entries.length
  rw [OrderBook.matchAgainst, OrderBook.matchAgainst, hlen]
  refine ⟨hend.fills, hend.incoming, hend.price, ?_⟩
  rw [hend.nextTimestamp]
  exact (h.setLevels hend.levels hend.above hend.orderIndex).setTimestamp _

theorem MirrorBooks.matchOrder (h : MirrorBooks b b') (ho : o.priceTicks ≠ .minValue) :
    MirrorMatched (b.matchOrder o) (b'.matchOrder o.mirror) := by
  rw [b.matchOrder_eq, b'.matchOrder_eq]
  rw [h.nextTimestamp]
  exact (h.setTimestamp _).matchAgainst (o := { o with timestamp := b.nextTimestamp }) ho
    o.side.opposite

theorem AboveMin.tryEmplace {m : Levels s} (h : AboveMin m) (hp : p ≠ .minValue) :
    AboveMin (m.tryEmplace p ⟨p, []⟩) := by
  rintro ⟨q, level⟩ he
  rw [mem_entries_iff, get?_tryEmplace] at he
  split at he
  · rename_i hq
    subst hq
    refine ⟨hp, ?_⟩
    cases hl : m.get? q with
    | none =>
      rw [hl] at he
      cases he
      rfl
    | some l =>
      rw [hl] at he
      cases he
      exact (h _ (mem_entries_iff.mpr hl)).2
  · exact h _ (mem_entries_iff.mpr he)

theorem MirrorBooks.rest (h : MirrorBooks b b') (ho : o.priceTicks ≠ .minValue) :
    MirrorBooks (b.rest o) (b'.rest o.mirror) := by
  have hplace : MirrorLevels ((b.levels o.side).tryEmplace o.priceTicks ⟨o.priceTicks, []⟩)
      ((b'.levels o.side.opposite).tryEmplace (-o.priceTicks) ⟨-o.priceTicks, []⟩) :=
    Image.tryEmplace neg_injective_int64 (h.levels o.side) fun e he =>
      better_neg_iff ho (h.above o.side e he).1
  have hpush : MirrorLevels (((b.levels o.side).tryEmplace o.priceTicks ⟨o.priceTicks, []⟩).update
        o.priceTicks fun level => { level with orders := level.orders ++ [o] })
      (((b'.levels o.side.opposite).tryEmplace (-o.priceTicks) ⟨-o.priceTicks, []⟩).update
        (-o.priceTicks) fun level => { level with orders := level.orders ++ [o.mirror] }) := by
    refine hplace.update _ fun level => ?_
    rw [PriceLevel.mirror, PriceLevel.mirror, List.map_append, List.map_singleton]
  exact h.setLevels hpush (((h.above o.side).tryEmplace ho).update _ fun _ => rfl)
    (h.orderIndex.insert o)

theorem MirrorBooks.submit (h : MirrorBooks b b') (ho : o.priceTicks ≠ .minValue) :
    (b'.submit o.mirror).1 = (b.submit o).1.map .mirror ∧
      MirrorBooks (b.submit o).2 (b'.submit o.mirror).2 := by
  have hcontains : b'.contains o.mirror.id = b.contains o.id := by
    rw [OrderBook.contains, OrderBook.contains, decide_eq_decide, ← Finmap.lookup_isSome,
      ← Finmap.lookup_isSome]
    rw [h.orderIndex, Option.isSome_map]
    rfl
  have hm := h.matchOrder ho
  rw [OrderBook.submit, OrderBook.submit, hcontains]
  by_cases hc : b.contains o.id = true
  · rw [if_pos hc, if_pos hc]
    exact ⟨rfl, h⟩
  rw [if_neg hc, if_neg hc]
  dsimp only
  rw [hm.incoming]
  by_cases hrest : 0 < (b.matchOrder o).incoming.quantity ∧
      (b.matchOrder o).incoming.type = .limit
  · have hrest' : 0 < (b.matchOrder o).incoming.mirror.quantity ∧
        (b.matchOrder o).incoming.mirror.type = .limit := hrest
    rw [if_pos hrest, if_pos hrest']
    exact ⟨hm.fills, hm.book.rest hm.price⟩
  · have hrest' : ¬ (0 < (b.matchOrder o).incoming.mirror.quantity ∧
        (b.matchOrder o).incoming.mirror.type = .limit) := hrest
    rw [if_neg hrest, if_neg hrest']
    exact ⟨hm.fills, hm.book⟩

theorem any_id_mirror (os : List Order) (id : UInt64) :
    (os.map Order.mirror).any (·.id = id) = os.any (·.id = id) := by
  rw [List.any_map]
  rfl

theorem eraseP_id_mirror (os : List Order) (id : UInt64) :
    (os.map Order.mirror).eraseP (·.id = id) = (os.eraseP (·.id = id)).map Order.mirror := by
  rw [List.eraseP_map]
  rfl

theorem MirrorBooks.cancel (h : MirrorBooks b b') (id : UInt64) :
    (b'.cancel id).1 = (b.cancel id).1 ∧ MirrorBooks (b.cancel id).2 (b'.cancel id).2 := by
  have hlookup := h.orderIndex id
  rw [OrderBook.cancel, OrderBook.cancel, hlookup]
  cases hix : b.orderIndex.lookup id with
  | none => exact ⟨rfl, h⟩
  | some e =>
    obtain ⟨price, side⟩ := e
    have hget := Image.get? neg_injective_int64 (h.levels side) (k := price)
    simp only [Option.map_some]
    rw [hget]
    cases hl : (b.levels side).get? price with
    | none => exact ⟨rfl, h⟩
    | some level =>
      simp only [Option.map_some, PriceLevel.mirror, any_id_mirror, eraseP_id_mirror,
        List.isEmpty_map]
      by_cases hany : level.orders.any (·.id = id) = true
      · rw [if_pos hany, if_pos hany]
        refine ⟨rfl, h.setLevels ?_ ?_ (h.orderIndex.erase id)⟩
        · split
          · exact (h.levels side).erase price
          · exact (h.levels side).update price fun l => rfl
        · split
          · exact (h.above side).erase price
          · exact (h.above side).update price fun l => rfl
      · rw [if_neg hany, if_neg hany]
        exact ⟨rfl, h⟩

theorem MirrorBooks.run (h : MirrorBooks b b') {rs : List Request}
    (hrs : ∀ o, .submit o ∈ rs → o.priceTicks ≠ Int64.minValue) :
    (b'.run (rs.map .mirror)).1 = (b.run rs).1.map .mirror ∧
      MirrorBooks (b.run rs).2 (b'.run (rs.map .mirror)).2 := by
  induction rs generalizing b b' with
  | nil => exact ⟨rfl, h⟩
  | cons r rs ih =>
    have happly : (b'.apply r.mirror).1 = (b.apply r).1.mirror ∧
        MirrorBooks (b.apply r).2 (b'.apply r.mirror).2 := by
      cases r with
      | submit o =>
        obtain ⟨hfills, hbook⟩ := h.submit (hrs o List.mem_cons_self)
        exact ⟨congrArg Reply.fills hfills, hbook⟩
      | cancel id =>
        obtain ⟨hok, hbook⟩ := h.cancel id
        exact ⟨congrArg Reply.cancelled hok, hbook⟩
    obtain ⟨hreplies, hbook⟩ := ih happly.2 fun o ho => hrs o (List.mem_cons_of_mem r ho)
    refine ⟨?_, hbook⟩
    simp only [List.map_cons, OrderBook.run, happly.1, hreplies]

theorem mirrorBooks_empty : MirrorBooks .empty .empty where
  levels := by
    intro s
    cases s <;> rfl
  orderIndex := fun id => by
    simp [OrderBook.empty]
  nextTimestamp := rfl
  above := by
    intro s e he
    cases s <;> cases he

/-- Call by call the mirrored sequence is answered in mirror image, the timestamps the same, and it
ends in the mirrored book. -/
theorem mirrored_run {rs : List Request}
    (h : ∀ o, .submit o ∈ rs → Int64.minValue < o.priceTicks) :
    (OrderBook.empty.run (rs.map .mirror)).1 = (OrderBook.empty.run rs).1.map .mirror ∧
      MirrorImage (OrderBook.empty.run rs).2 (OrderBook.empty.run (rs.map .mirror)).2 := by
  obtain ⟨hreplies, hbook⟩ := mirrorBooks_empty.run fun o ho => (h o ho).ne'
  exact ⟨hreplies, hbook.toMirrorImage⟩

theorem mirrored_run_of_a_sweep :
    let rs : List Request := [.submit ⟨1, .sell, .limit, 101, 5, 0⟩,
      .submit ⟨2, .sell, .limit, 100, 5, 0⟩, .submit ⟨3, .buy, .limit, 101, 12, 0⟩, .cancel 3]
    (OrderBook.empty.run (rs.map .mirror)).1 = (OrderBook.empty.run rs).1.map .mirror := by
  intro rs
  refine (mirrored_run fun o ho => ?_).1
  simp only [rs, List.mem_cons, Request.submit.injEq, reduceCtorEq, List.not_mem_nil,
    or_false] at ho
  rcases ho with rfl | rfl | rfl
  · decide
  · decide
  · decide

end Velo
