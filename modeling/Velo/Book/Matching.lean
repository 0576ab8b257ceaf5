import Velo.Book.Simulation

/-! The nested loops of `matchBuy` and `matchSell` against the single loop of the plain book. -/
namespace Velo
open Iteration Reference

variable {s : Side} {key : Int64} {levels : Levels s} {L L' L'' : List Order} {o : Order}
  {st st' : LevelState} {m m' : MatchState s} {id : UInt64} {n : UInt32}

theorem traded_le_incoming (incoming resting : Order) :
    traded incoming resting ≤ incoming.quantity := by
  rw [UInt32.le_iff_toNat_le, traded, UInt32.toNat_min]
  exact Nat.min_le_left _ _

theorem traded_le_resting (incoming resting : Order) :
    traded incoming resting ≤ resting.quantity := by
  rw [UInt32.le_iff_toNat_le, traded, UInt32.toNat_min]
  exact Nat.min_le_right _ _

theorem traded_toNat (incoming resting : Order) :
    (traded incoming resting).toNat = min incoming.quantity.toNat resting.quantity.toNat :=
  UInt32.toNat_min _ _

theorem traded_exhausts (incoming resting : Order) :
    incoming.quantity - traded incoming resting = 0 ∨
      resting.quantity - traded incoming resting = 0 := by
  simp only [← UInt32.toNat_inj, UInt32.toNat_zero,
    UInt32.toNat_sub_of_le _ _ (traded_le_incoming _ _),
    UInt32.toNat_sub_of_le _ _ (traded_le_resting _ _), traded_toNat]
  omega

/-- The fill that a round of the inner loop reports. -/
def fillOf (s : Side) (key : Int64) (st : LevelState) (resting : Order) : Fill :=
  ⟨resting.id, st.incoming.id, s, key, traded st.incoming resting, st.nextTimestamp⟩

/-- All that a round of the inner loop can do. -/
theorem levelStep_cases (h : levelStep s key st = some st') :
    0 < st.incoming.quantity ∧ ∃ resting rest, st.orders = resting :: rest ∧
      st' = { incoming := st.incoming.minus (traded st.incoming resting)
              orders := if resting.quantity - traded st.incoming resting = 0 then rest
                else resting.minus (traded st.incoming resting) :: rest
              orderIndex := if resting.quantity - traded st.incoming resting = 0
                then st.orderIndex.erase resting.id else st.orderIndex
              nextTimestamp := st.nextTimestamp + 1
              fills := st.fills ++ [fillOf s key st resting] } := by
  unfold levelStep at h
  split at h
  · rename_i hq
    refine ⟨hq, ?_⟩
    cases ho : st.orders with
    | nil => simp [ho] at h
    | cons resting rest =>
      refine ⟨resting, rest, rfl, ?_⟩
      rw [ho] at h
      simp only at h
      split at h
      all_goals
        rename_i hz
        cases h
        simp only [hz, if_true, if_false]
        rfl
  · cases h

theorem levelStep_eq_none (h : levelStep s key st = none) :
    st.incoming.quantity = 0 ∨ st.orders = [] := by
  unfold levelStep at h
  split at h
  · cases ho : st.orders with
    | nil => exact Or.inr rfl
    | cons resting rest =>
      rw [ho] at h
      simp only at h
      split at h <;> cases h
  · rename_i hq
    exact Or.inl (eq_zero_of_not_pos hq)

def levelVariant (st : LevelState) : ℕ := if st.incoming.quantity = 0 then 0 else st.orders.length

theorem levelVariant_step (h : levelStep s key st = some st') :
    levelVariant st' < levelVariant st := by
  obtain ⟨hq, resting, rest, ho, rfl⟩ := levelStep_cases h
  have hpos : st.incoming.quantity ≠ 0 := by
    rintro hz
    simp [hz] at hq
  have hfull : levelVariant st = rest.length + 1 := by simp [levelVariant, hpos, ho]
  rw [hfull]
  unfold levelVariant
  rcases traded_exhausts st.incoming resting with hz | hz
  · simp [hz]
  · simp only [hz, if_true]
    split <;> omega

/-- The inner loop with its fuel. -/
theorem levelLoop_exit (s : Side) (key : Int64) (st : LevelState) :
    levelStep s key (iterate (levelStep s key) st.orders.length st) = none := by
  refine iterate_exit levelVariant (fun _ _ => levelVariant_step) ?_
  unfold levelVariant
  split <;> omega

/-- Matching against side `s` shrinks the accepted orders of that side and leaves the others. -/
structure Shrinks (s : Side) (L L' : List Order) : Prop where
  emptied : (L'.map Order.emptied).Sublist (L.map Order.emptied)
  others : L'.filter (·.side ≠ s) = L.filter (·.side ≠ s)

theorem Shrinks.refl (s : Side) (L : List Order) : Shrinks s L L := ⟨List.Sublist.refl _, rfl⟩

theorem Shrinks.trans (h : Shrinks s L L') (h' : Shrinks s L' L'') : Shrinks s L L'' :=
  ⟨h'.emptied.trans h.emptied, h'.others.trans h.others⟩

theorem Shrinks.reduce (h : ∀ o ∈ L, o.id = id → o.side = s) : Shrinks s L (reduce id n L) where
  emptied := emptied_reduce_sublist
  others := by
    rw [filter_reduce fun _ => rfl]
    refine reduce_of_fresh fun o ho hid => ?_
    rw [List.mem_filter] at ho
    simp [h o ho.1 hid] at ho

/-- The acceptance list while the inner loop works on the level at `key`: the other levels are
those in the map, and no order of the side has a better price. -/
structure InLevel (levels : Levels s) (key : Int64) (L : List Order) (st : LevelState) : Prop where
  tracks : Tracks st.orderIndex L
  orders : atLevel L s key = st.orders
  others : ∀ p, p ≠ key → levels.get? p = levelOf p (atLevel L s p)
  best : ∀ o ∈ L, o.side = s → o.priceTicks = key ∨ Better s key o.priceTicks

/-- The plain book's view of a loop state. -/
def plainState (incoming : Order) (L : List Order) (fills : List Fill) : State UInt64 Int64 :=
  ⟨incoming.toIncoming, L.map Order.toResting, fills.map Fill.toTrade⟩

theorem crosses_of_emptied {a b : Order} (h : a.emptied = b.emptied) :
    a.toIncoming.Crosses key ↔ b.toIncoming.Crosses key := by
  obtain ⟨-, hside, htype, hprice, -⟩ := fields_of_emptied h
  simp [Incoming.Crosses, Order.toIncoming, hside, htype, hprice]

/-- The front of the best level is what the plain book picks. -/
theorem InLevel.pick (h : InLevel levels key L st) {resting : Order} {rest : List Order}
    (ho : st.orders = resting :: rest) {incoming : Order} (hs : incoming.side.opposite = s)
    (hc : incoming.toIncoming.Crosses key) :
    pick incoming.toIncoming (L.map Order.toResting) = some resting.toResting := by
  have hmem : resting ∈ atLevel L s key := by simp [h.orders, ho]
  obtain ⟨-, hside, hprice⟩ := mem_atLevel.mp hmem
  refine pick_eq_some (by simpa [Order.toResting, hprice] using hc) ?_ ?_
  · intro x hx hxs
    obtain ⟨a, ha, rfl⟩ := List.mem_map.mp hx
    change ¬ Better incoming.side.opposite a.priceTicks resting.priceTicks
    rw [hs, hprice]
    rcases h.best a ha (hxs.trans hs) with he | hb
    · rw [he]
      exact irrefl key
    · exact asymm hb
  · have hf : (L.map Order.toResting).filter (fun x =>
        x.side = incoming.toIncoming.side.opposite ∧ x.price = resting.toResting.price) =
        (atLevel L s key).map Order.toResting := by
      rw [List.filter_map, atLevel]
      congr 1
      refine List.filter_congr fun a _ => decide_eq_decide.mpr ?_
      change a.side = incoming.side.opposite ∧ a.priceTicks = resting.priceTicks ↔ _
      rw [hs, hprice]
    rw [hf, h.orders, ho]
    rfl

/-- A round of the inner loop is one trade of the plain book. -/
theorem InLevel.step (h : InLevel levels key L st) (hs : st.incoming.side.opposite = s)
    (hc : st.incoming.toIncoming.Crosses key) (hst : levelStep s key st = some st') :
    ∃ L', InLevel levels key L' st' ∧ Shrinks s L L' ∧
      tradeStep (plainState st.incoming L st.fills) =
        some (plainState st'.incoming L' st'.fills) := by
  obtain ⟨hq, resting, rest, ho, rfl⟩ := levelStep_cases hst
  have hmem : resting ∈ atLevel L s key := by simp [h.orders, ho]
  obtain ⟨hrL, hside, hprice⟩ := mem_atLevel.mp hmem
  have hone : ∀ a ∈ L, a.id = resting.id → a = resting := fun a ha => h.tracks.eq_of_id ha hrL
  generalize hn : traded st.incoming resting = n
  have hle : n ≤ resting.quantity := hn ▸ traded_le_resting _ _
  have hrest : ∀ a ∈ rest, a.id ≠ resting.id := by
    have hsub : ((resting :: rest).map Order.id).Nodup := by
      rw [← ho, ← h.orders]
      exact h.tracks.nodup.sublist (List.filter_sublist.map _)
    exact fresh_of_not_mem (List.nodup_cons.mp hsub).1
  refine ⟨reduce resting.id n L, ⟨h.tracks.reduce hrL, ?_, ?_, ?_⟩, ?_, ?_⟩
  · rw [atLevel_reduce, h.orders, ho]
    have := reduce_of_fresh (n := n) hrest
    by_cases hz : resting.quantity - n = 0
    · simpa [reduce, hz] using this
    · simpa [reduce, hz] using this
  · intro p hp
    rw [atLevel_reduce, reduce_of_fresh, h.others p hp]
    intro a ha hid
    obtain ⟨haL, -, hap⟩ := mem_atLevel.mp ha
    exact hp (by rw [← hap, hone a haL hid, hprice])
  · intro a ha has
    rcases mem_reduce.mp ha with ⟨ha, -⟩ | ⟨b, hb, -, -, rfl⟩
    · exact h.best a ha has
    · exact h.best b hb has
  · exact Shrinks.reduce fun a ha hid => hone a ha hid ▸ hside
  · have hpos : 0 < st.incoming.quantity.toNat := UInt32.lt_iff_toNat_lt.mp hq
    have hmin : min st.incoming.quantity.toNat resting.quantity.toNat = n.toNat := by
      rw [← hn, traded_toNat]
    have hsub : (st.incoming.quantity - n).toNat = st.incoming.quantity.toNat - n.toNat :=
      UInt32.toNat_sub_of_le _ _ (hn ▸ traded_le_incoming _ _)
    have hred : (reduce resting.id n L).map Order.toResting =
        deduct resting.id n.toNat (L.map Order.toResting) :=
      toResting_reduce fun a ha hid => hone a ha hid ▸ hle
    have hpick := h.pick ho hs hc
    have hq' : 0 < (plainState st.incoming L st.fills).incoming.quantity := hpos
    rw [tradeStep, if_pos hq']
    change Option.map _ (Reference.pick st.incoming.toIncoming (L.map Order.toResting)) = _
    rw [hpick]
    simp [plainState, hred, Order.toIncoming, Order.toResting, hmin, hsub, fillOf, Fill.toTrade,
      hside, hprice, hn]

/-- The plain book follows a whole inner loop, and only quantities change. -/
theorem InLevel.run (h : InLevel levels key L st) (hs : st.incoming.side.opposite = s)
    (hc : st.incoming.toIncoming.Crosses key) (hr : Reaches (levelStep s key) st st') :
    ∃ L', InLevel levels key L' st' ∧ Shrinks s L L' ∧
      st'.incoming.emptied = st.incoming.emptied ∧
      Reaches tradeStep (plainState st.incoming L st.fills)
        (plainState st'.incoming L' st'.fills) := by
  let R : LevelState → State UInt64 Int64 → Prop := fun u a => ∃ L', InLevel levels key L' u ∧
    Shrinks s L L' ∧ u.incoming.emptied = st.incoming.emptied ∧
    a = plainState u.incoming L' u.fills
  have hR : ∀ u u' a, R u a → levelStep s key u = some u' →
      ∃ a', Reaches tradeStep a a' ∧ R u' a' := by
    rintro u u' a ⟨L', hL', hsh, he, rfl⟩ hu
    have hs' : u.incoming.side.opposite = s :=
      (congrArg (Side.opposite ∘ Order.side) he).trans hs
    have hc' : u.incoming.toIncoming.Crosses key := (crosses_of_emptied he).mpr hc
    obtain ⟨L'', hL'', hsh', ht⟩ := hL'.step hs' hc' hu
    refine ⟨_, .single ht, L'', hL'', hsh.trans hsh', ?_, rfl⟩
    obtain ⟨-, resting, rest, -, rfl⟩ := levelStep_cases hu
    exact he
  obtain ⟨a, ha, L', hL', hsh, he, rfl⟩ := hr.simulation hR ⟨L, h, .refl s L, rfl, rfl⟩
  exact ⟨L', hL', hsh, he, ha⟩

/-- The levels of one side are those of an acceptance list. -/
structure InLevels (s : Side) (L : List Order) (m : MatchState s) : Prop where
  tracks : Tracks m.orderIndex L
  levels : ∀ p, m.levels.get? p = levelOf p (atLevel L s p)

/-- The start of an inner loop at the level `level`. -/
def innerStart (m : MatchState s) (level : PriceLevel) : LevelState :=
  ⟨m.incoming, level.orders, m.orderIndex, m.nextTimestamp, m.fills⟩

def innerLoop (m : MatchState s) (level : PriceLevel) : LevelState :=
  iterate (levelStep s level.priceTicks) level.orders.length (innerStart m level)

/-- The levels after an inner loop that left `orders` at `key`. -/
def closeLevel (levels : Levels s) (key : Int64) (orders : List Order) : Levels s :=
  if orders.isEmpty then levels.erase key
  else levels.update key fun level => { level with orders := orders }

theorem limitReaches_iff (s : Side) (limit price : Int64) :
    limitReaches s limit price ↔ ¬ Better s limit price := by
  cases s <;> simp [limitReaches, Better]

theorem crosses_toIncoming_iff (hs : o.side.opposite = s) :
    o.toIncoming.Crosses key ↔ o.type = .market ∨ limitReaches s o.priceTicks key := by
  rw [crosses_iff, limitReaches_iff, ← hs]
  rfl

/-- All that a round of the outer loop can do. -/
theorem matchStep_cases (h : matchStep s m = some m') :
    0 < m.incoming.quantity ∧ ∃ key level, m.levels.begin? = some (key, level) ∧
      (m.incoming.type = .market ∨ limitReaches s m.incoming.priceTicks level.priceTicks) ∧
      m' = ⟨(innerLoop m level).incoming, closeLevel m.levels key (innerLoop m level).orders,
        (innerLoop m level).orderIndex, (innerLoop m level).nextTimestamp,
        (innerLoop m level).fills⟩ := by
  unfold matchStep at h
  split at h
  · rename_i hq
    refine ⟨hq, ?_⟩
    cases hb : m.levels.begin? with
    | none => simp [hb] at h
    | some e =>
      obtain ⟨key, level⟩ := e
      rw [hb] at h
      simp only at h
      split at h
      · rename_i hc
        cases h
        exact ⟨key, level, rfl, hc, rfl⟩
      · cases h
  · cases h

/-- The three ways out of the outer loop. -/
theorem matchStep_eq_none (h : matchStep s m = none) :
    m.incoming.quantity = 0 ∨ m.levels.begin? = none ∨ ∃ key level,
      m.levels.begin? = some (key, level) ∧
      ¬ (m.incoming.type = .market ∨ limitReaches s m.incoming.priceTicks level.priceTicks) := by
  unfold matchStep at h
  split at h
  · right
    cases hb : m.levels.begin? with
    | none => exact Or.inl rfl
    | some e =>
      right
      obtain ⟨key, level⟩ := e
      rw [hb] at h
      simp only at h
      split at h
      · cases h
      · rename_i hc
        exact ⟨key, level, rfl, hc⟩
  · rename_i hq
    exact Or.inl (eq_zero_of_not_pos hq)

theorem InLevels.open (h : InLevels s L m) {level : PriceLevel}
    (hb : m.levels.begin? = some (key, level)) :
    level.priceTicks = key ∧ InLevel m.levels key L (innerStart m level) := by
  obtain ⟨hget, hmin⟩ := SortedMap.begin?_eq_some.mp hb
  rw [h.levels] at hget
  obtain ⟨hne, rfl⟩ := levelOf_eq_some.mp hget
  refine ⟨rfl, h.tracks, rfl, fun p _ => h.levels p, fun o ho hos => ?_⟩
  have hmem : o ∈ atLevel L s o.priceTicks := mem_atLevel.mpr ⟨ho, hos, rfl⟩
  have hlev := (h.levels o.priceTicks).trans (levelOf_of_ne_nil (List.ne_nil_of_mem hmem))
  exact hmin _ _ hlev

/-- Closing it again: an emptied level is erased, any other keeps its remaining orders. -/
theorem InLevel.close (h : InLevel levels key L st) {level : PriceLevel}
    (hget : levels.get? key = some level) (hkey : level.priceTicks = key) :
    InLevels s L ⟨st.incoming, closeLevel levels key st.orders, st.orderIndex,
      st.nextTimestamp, st.fills⟩ where
  tracks := h.tracks
  levels := by
    intro p
    simp only [closeLevel, List.isEmpty_iff]
    split
    · rename_i he
      rw [SortedMap.get?_erase]
      split
      · rename_i hp
        rw [hp, h.orders, he]
        rfl
      · rename_i hp
        exact h.others p hp
    · rename_i he
      rw [SortedMap.get?_update]
      split
      · rename_i hp
        rw [hp, h.orders, hget, levelOf_of_ne_nil he, Option.map_some, hkey]
      · rename_i hp
        exact h.others p hp

theorem InLevels.step (h : InLevels s L m) (hs : m.incoming.side.opposite = s)
    (hm : matchStep s m = some m') :
    ∃ L', InLevels s L' m' ∧ Shrinks s L L' ∧ m'.incoming.emptied = m.incoming.emptied ∧
      Reaches tradeStep (plainState m.incoming L m.fills)
        (plainState m'.incoming L' m'.fills) := by
  obtain ⟨-, key, level, hb, hc, rfl⟩ := matchStep_cases hm
  obtain ⟨hkey, hopen⟩ := h.open hb
  rw [hkey] at hc
  have hloop : Reaches (levelStep s key) (innerStart m level) (innerLoop m level) := by
    rw [innerLoop, hkey]
    exact iterate_reaches _ _ _
  obtain ⟨L', hL', hsh, he, hr⟩ := hopen.run hs ((crosses_toIncoming_iff hs).mpr hc) hloop
  exact ⟨L', hL'.close (SortedMap.begin?_eq_some.mp hb).1 hkey, hsh, he, hr⟩

theorem InLevels.run (h : InLevels s L m) (hs : m.incoming.side.opposite = s)
    (hr : Reaches (matchStep s) m m') :
    ∃ L', InLevels s L' m' ∧ Shrinks s L L' ∧ m'.incoming.emptied = m.incoming.emptied ∧
      Reaches tradeStep (plainState m.incoming L m.fills)
        (plainState m'.incoming L' m'.fills) := by
  induction hr with
  | refl => exact ⟨L, h, .refl s L, rfl, .refl⟩
  | tail _ hu ih =>
    obtain ⟨L₁, hL₁, hsh₁, he₁, hr₁⟩ := ih
    obtain ⟨-, hside, -⟩ := fields_of_emptied he₁
    obtain ⟨L₂, hL₂, hsh₂, he₂, hr₂⟩ := hL₁.step (hside ▸ hs) hu
    exact ⟨L₂, hL₂, hsh₁.trans hsh₂, he₂.trans he₁, hr₁.trans hr₂⟩

/-- Where the outer loop is left, the plain book has nothing to trade either. -/
theorem InLevels.exit (h : InLevels s L m) (hs : m.incoming.side.opposite = s)
    (hm : matchStep s m = none) : tradeStep (plainState m.incoming L m.fills) = none := by
  rw [tradeStep_eq_none]
  rcases matchStep_eq_none hm with hq | hb | ⟨key, level, hb, hc⟩
  · left
    simp [plainState, Order.toIncoming, hq]
  · right
    refine List.eq_nil_iff_forall_not_mem.mpr fun x hx => ?_
    obtain ⟨hx, hxs, -⟩ := mem_candidates.mp hx
    obtain ⟨a, ha, rfl⟩ := List.mem_map.mp hx
    have hmem : a ∈ atLevel L s a.priceTicks := mem_atLevel.mpr ⟨ha, hxs.trans hs, rfl⟩
    have hnone := SortedMap.begin?_eq_none.mp hb a.priceTicks
    rw [h.levels, levelOf_eq_none] at hnone
    simp [hnone] at hmem
  · right
    obtain ⟨hkey, hopen⟩ := h.open hb
    rw [hkey, ← crosses_toIncoming_iff hs] at hc
    refine List.eq_nil_iff_forall_not_mem.mpr fun x hx => ?_
    obtain ⟨hx, hxs, hxc⟩ := mem_candidates.mp hx
    obtain ⟨a, ha, rfl⟩ := List.mem_map.mp hx
    refine hc (Incoming.Crosses.mono hxc ?_)
    rcases hopen.best a ha (hxs.trans hs) with he | hb
    · exact Or.inl he.symm
    · right
      change Better m.incoming.side.opposite key a.priceTicks
      rwa [hs]

theorem closeLevel_length_lt {level : PriceLevel} (hb : levels.begin? = some (key, level)) :
    (closeLevel levels key []).entries.length < levels.entries.length := by
  obtain ⟨es, hes⟩ := List.head?_eq_some_iff.mp hb
  have hle := List.length_filter_le (fun e => decide (e.1 ≠ key)) es
  have hes' : levels.entries.filter (fun e => decide (e.1 ≠ key)) =
      es.filter fun e => decide (e.1 ≠ key) := by
    rw [hes]
    exact List.filter_cons_of_neg (by simp)
  change (levels.entries.filter fun e => decide (e.1 ≠ key)).length < levels.entries.length
  rw [hes', hes, List.length_cons]
  omega

def matchVariant (m : MatchState s) : ℕ :=
  if m.incoming.quantity = 0 then 0 else m.levels.entries.length

/-- A round either uses up the incoming order or erases the best level. -/
theorem matchVariant_step (h : matchStep s m = some m') : matchVariant m' < matchVariant m := by
  obtain ⟨hq, key, level, hb, -, rfl⟩ := matchStep_cases h
  have hpos : m.incoming.quantity ≠ 0 := by
    intro hz
    simp [hz] at hq
  have hfull : matchVariant m = m.levels.entries.length := if_neg hpos
  obtain ⟨es, hes⟩ := List.head?_eq_some_iff.mp hb
  rw [hfull]
  unfold matchVariant
  rcases levelStep_eq_none (levelLoop_exit s level.priceTicks (innerStart m level)) with hz | ho
  · have hz : (innerLoop m level).incoming.quantity = 0 := hz
    rw [if_pos hz, hes]
    exact Nat.succ_pos _
  · have ho : (innerLoop m level).orders = [] := ho
    split
    · rw [hes]
      exact Nat.succ_pos _
    · simp only [ho]
      exact closeLevel_length_lt hb

/-- The outer loop with its fuel. -/
theorem matchLoop_exit (s : Side) (m : MatchState s) :
    matchStep s (iterate (matchStep s) m.levels.entries.length m) = none := by
  refine iterate_exit matchVariant (fun _ _ => matchVariant_step) ?_
  unfold matchVariant
  split <;> omega

end Velo
