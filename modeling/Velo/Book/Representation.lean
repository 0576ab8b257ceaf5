import Velo.Book.Matching

/-! A book represents an acceptance list, and every call keeps it in step with the plain book. -/
namespace Velo
open Iteration Reference

variable {b : OrderBook} {s : Side} {p : Int64} {id : UInt64} {o r : Order} {L L' : List Order}

/-- Levels and index hold the orders of `L`, each level in acceptance order. -/
structure Represents (b : OrderBook) (L : List Order) : Prop where
  tracks : Tracks b.orderIndex L
  levels : ∀ s p, (b.levels s).get? p = levelOf p (atLevel L s p)

theorem represents_empty : Represents .empty [] where
  tracks := ⟨by simp [OrderBook.empty], List.nodup_nil, by simp⟩
  levels := by
    intro s p
    cases s <;> rfl

theorem Represents.contains_iff (h : Represents b L) : b.contains id ↔ id ∈ L.map Order.id := by
  rw [OrderBook.contains, decide_eq_true_eq, h.tracks.mem_iff]

theorem Shrinks.atLevel_opposite (h : Shrinks s L L') :
    atLevel L' s.opposite p = atLevel L s.opposite p := by
  have hf : ∀ M : List Order, atLevel M s.opposite p =
      (M.filter (·.side ≠ s)).filter fun o => o.side = s.opposite ∧ o.priceTicks = p := by
    intro M
    rw [List.filter_filter, atLevel]
    refine List.filter_congr fun o _ => ?_
    by_cases ho : o.side = s.opposite
    · simp [ho, s.opposite_ne]
    · simp [ho]
  rw [hf, hf, h.others]

/-- Matching against one side, on the whole book. -/
theorem Represents.matchAgainst (h : Represents b L) (hs : o.side.opposite = s) :
    ∃ L', Represents (b.matchAgainst s o).book L' ∧ Shrinks s L L' ∧
      (b.matchAgainst s o).incoming.emptied = o.emptied ∧
      matchAll o.toIncoming (L.map Order.toResting) =
        plainState (b.matchAgainst s o).incoming L' (b.matchAgainst s o).fills := by
  let m : MatchState s := ⟨o, b.levels s, b.orderIndex, b.nextTimestamp, []⟩
  have hm : InLevels s L m := ⟨h.tracks, h.levels s⟩
  obtain ⟨L', hL', hsh, he, hr⟩ := hm.run hs (iterate_reaches (matchStep s) _ m)
  have hside : (iterate (matchStep s) m.levels.entries.length m).incoming.side.opposite = s :=
    (fields_of_emptied he).2.1 ▸ hs
  refine ⟨L', ⟨hL'.tracks, ?_⟩, hsh, he, matchAll_eq hr (hL'.exit hside (matchLoop_exit s m))⟩
  intro s' p
  rcases s.eq_or_eq_opposite s' with rfl | rfl
  · have hget := hL'.levels p
    simpa [OrderBook.matchAgainst] using hget
  · have hget := h.levels s.opposite p
    rw [← hsh.atLevel_opposite] at hget
    simpa [OrderBook.matchAgainst] using hget

theorem OrderBook.matchOrder_eq (b : OrderBook) (o : Order) :
    b.matchOrder o = { b with nextTimestamp := b.nextTimestamp + 1 }.matchAgainst o.side.opposite
      { o with timestamp := b.nextTimestamp } := by
  unfold OrderBook.matchOrder
  cases h : o.side <;> rfl

theorem Represents.matchOrder (h : Represents b L) (o : Order) :
    ∃ L', Represents (b.matchOrder o).book L' ∧ Shrinks o.side.opposite L L' ∧
      (b.matchOrder o).incoming.emptied = { o with timestamp := b.nextTimestamp }.emptied ∧
      matchAll o.toIncoming (L.map Order.toResting) =
        plainState (b.matchOrder o).incoming L' (b.matchOrder o).fills := by
  have hb : Represents { b with nextTimestamp := b.nextTimestamp + 1 } L := by
    refine ⟨h.tracks, fun s p => ?_⟩
    rw [← h.levels]
    cases s <;> rfl
  rw [b.matchOrder_eq]
  exact hb.matchAgainst rfl

theorem atLevel_append_singleton : atLevel (L ++ [o]) s p =
    if o.side = s ∧ o.priceTicks = p then atLevel L s p ++ [o] else atLevel L s p := by
  rw [atLevel, List.filter_append]
  split <;> simp_all [atLevel]

/-- A remainder goes to the back of its level. -/
theorem Represents.rest (h : Represents b L) (hid : o.id ∉ L.map Order.id)
    (ho : o.type = .limit ∧ 0 < o.quantity) : Represents (b.rest o) (L ++ [o]) where
  tracks := by
    refine ⟨?_, ?_, ?_⟩
    · intro id p s
      by_cases he : id = o.id
      · subst he
        simp only [OrderBook.rest, Finmap.lookup_insert, Option.some.injEq, Prod.mk.injEq,
          List.mem_append, List.mem_singleton]
        constructor
        · rintro ⟨rfl, rfl⟩
          exact ⟨o, Or.inr rfl, rfl, rfl, rfl⟩
        · rintro ⟨a, ha | rfl, hao, rfl, rfl⟩
          · exact absurd (hao ▸ List.mem_map_of_mem ha) hid
          · exact ⟨rfl, rfl⟩
      · simp only [OrderBook.rest, Finmap.lookup_insert_of_ne _ he, h.tracks.index,
          List.mem_append, List.mem_singleton]
        constructor
        · rintro ⟨a, ha, hps⟩
          exact ⟨a, Or.inl ha, hps⟩
        · rintro ⟨a, ha | rfl, hao, hps⟩
          · exact ⟨a, ha, hao, hps⟩
          · exact absurd hao.symm he
    · rw [List.map_append, List.map_singleton]
      exact List.nodup_append.mpr ⟨h.tracks.nodup, List.nodup_singleton _, by
        rintro a ha c hc rfl
        exact hid (List.mem_singleton.mp hc ▸ ha)⟩
    · intro a ha
      rcases List.mem_append.mp ha with ha | ha
      · exact h.tracks.live a ha
      · exact List.mem_singleton.mp ha ▸ ho
  levels := by
    intro s p
    rw [atLevel_append_singleton]
    rcases o.side.eq_or_eq_opposite s with rfl | rfl
    · simp only [OrderBook.rest, OrderBook.levels_mk_index, OrderBook.levels_setLevels,
        SortedMap.get?_update, SortedMap.get?_tryEmplace, true_and]
      by_cases hp : p = o.priceTicks
      · subst hp
        simp only [if_true, h.levels]
        cases atLevel L o.side o.priceTicks <;> simp [levelOf]
      · simp [hp, Ne.symm hp, h.levels]
    · simp [OrderBook.rest, o.side.opposite_ne.symm, h.levels]

/-- What an accepted submission does to the acceptance list: the opposite side shrinks, and the
stamped remainder may be appended. -/
def Accepts (t : UInt64) (o : Order) (L L' : List Order) : Prop :=
  ∃ M, Shrinks o.side.opposite L M ∧
    (L' = M ∨ ∃ r, r.emptied = { o with timestamp := t }.emptied ∧ L' = M ++ [r])

theorem Shrinks.id_subset (h : Shrinks s L L') (hid : id ∈ L'.map Order.id) :
    id ∈ L.map Order.id :=
  (ids_of_emptied h.emptied).subset hid

theorem map_id_toResting (L : List Order) :
    (L.map Order.toResting).map Resting.id = L.map Order.id := by
  rw [List.map_map]
  rfl

theorem Represents.submit (h : Represents b L) (o : Order) :
    ∃ L', Represents (b.submit o).2 L' ∧
      Reference.submit (L.map Order.toResting) o.toIncoming =
        ((b.submit o).1.map Fill.toTrade, L'.map Order.toResting) ∧
      (if b.contains o.id then L' = L else Accepts b.nextTimestamp o L L') := by
  by_cases hc : b.contains o.id
  · refine ⟨L, by simpa [OrderBook.submit, hc] using h, ?_, by simp [hc]⟩
    have hid : o.toIncoming.id ∈ (L.map Order.toResting).map Resting.id := by
      rw [map_id_toResting]
      exact h.contains_iff.mp hc
    rw [Reference.submit, if_pos hid]
    simp [OrderBook.submit, hc]
  · obtain ⟨M, hM, hsh, he, hall⟩ := h.matchOrder o
    have hid : o.id ∉ L.map Order.id := fun hmem => hc (h.contains_iff.mpr hmem)
    have hid' : o.toIncoming.id ∉ (L.map Order.toResting).map Resting.id := by
      rwa [map_id_toResting]
    obtain ⟨hrid, -, hrtype, -⟩ := fields_of_emptied he
    have hpos : 0 < (b.matchOrder o).incoming.quantity ↔
        0 < (b.matchOrder o).incoming.quantity.toNat := UInt32.lt_iff_toNat_lt
    by_cases hrest : 0 < (b.matchOrder o).incoming.quantity ∧
        (b.matchOrder o).incoming.type = .limit
    · refine ⟨M ++ [(b.matchOrder o).incoming], ?_, ?_, ?_⟩
      · have hfresh : (b.matchOrder o).incoming.id ∉ M.map Order.id := by
          rw [hrid]
          exact fun hmem => hid (hsh.id_subset hmem)
        simpa [OrderBook.submit, hc, hrest] using hM.rest hfresh hrest.symm
      · have hrest' : 0 < (b.matchOrder o).incoming.quantity.toNat ∧ o.type = .limit :=
          ⟨hpos.mp hrest.1, hrtype ▸ hrest.2⟩
        rw [Reference.submit, if_neg hid', hall]
        simp only [plainState, Order.toIncoming, hrest', and_self, if_true]
        simp [OrderBook.submit, hc, hrest, Incoming.toResting, Order.toResting]
      · rw [if_neg hc]
        exact ⟨M, hsh, Or.inr ⟨_, he, rfl⟩⟩
    · refine ⟨M, ?_, ?_, ?_⟩
      · simpa [OrderBook.submit, hc, hrest] using hM
      · have hrest' : ¬ (0 < (b.matchOrder o).incoming.quantity.toNat ∧ o.type = .limit) := by
          rw [← hpos, ← hrtype]
          exact hrest
        rw [Reference.submit, if_neg hid', hall]
        simp only [plainState, Order.toIncoming, hrest', if_false]
        simp [OrderBook.submit, hc, hrest]
      · rw [if_neg hc]
        exact ⟨M, hsh, Or.inl rfl⟩

/-- The acceptance list after a cancel. -/
def without (id : UInt64) (L : List Order) : List Order := L.filter fun o => o.id ≠ id

@[simp] theorem mem_without : o ∈ without id L ↔ o ∈ L ∧ o.id ≠ id := by
  simp [without]

theorem without_of_fresh (h : ∀ o ∈ L, o.id ≠ id) : without id L = L :=
  List.filter_eq_self.mpr fun o ho => decide_eq_true (h o ho)

theorem atLevel_without : atLevel (without id L) s p = without id (atLevel L s p) := by
  rw [atLevel, without, List.filter_comm]
  rfl

theorem without_sublist : (without id L).Sublist L := List.filter_sublist

theorem eraseP_id (h : (L.map Order.id).Nodup) (id : UInt64) :
    L.eraseP (·.id = id) = without id L := by
  induction L with
  | nil => rfl
  | cons o L ih =>
    obtain ⟨ho, hL⟩ := List.nodup_cons.mp h
    by_cases hid : o.id = id
    · have hfresh : ∀ a ∈ L, a.id ≠ id := fresh_of_not_mem (hid ▸ ho)
      have hL : without id (o :: L) = without id L := by simp [without, hid]
      rw [hL, without_of_fresh hfresh, List.eraseP_cons_of_pos (by simpa using hid)]
    · have hL' : without id (o :: L) = o :: without id L := by simp [without, hid]
      rw [hL', List.eraseP_cons_of_neg (by simpa using hid), ih hL]

theorem Tracks.without {index : Finmap fun _ : UInt64 => Int64 × Side} (h : Tracks index L)
    (id : UInt64) : Tracks (index.erase id) (without id L) where
  nodup := h.nodup.sublist (without_sublist.map _)
  live := fun o ho => h.live o (mem_without.mp ho).1
  index := by
    intro id' p s
    by_cases hid : id' = id
    · subst hid
      simp only [Finmap.lookup_erase, reduceCtorEq, false_iff]
      rintro ⟨o, ho, hid, -⟩
      exact (mem_without.mp ho).2 hid
    · rw [Finmap.lookup_erase_ne hid, h.index]
      constructor
      · rintro ⟨o, ho, rfl, hps⟩
        exact ⟨o, mem_without.mpr ⟨ho, hid⟩, rfl, hps⟩
      · rintro ⟨o, ho, hps⟩
        exact ⟨o, (mem_without.mp ho).1, hps⟩

/-- Cancelling takes exactly the order with that id out of the acceptance list. -/
theorem Represents.cancel (h : Represents b L) (id : UInt64) :
    Represents (b.cancel id).2 (without id L) ∧
      (b.cancel id).1 = decide (id ∈ L.map Order.id) := by
  cases hidx : b.orderIndex.lookup id with
  | none =>
    have hmem : id ∉ L.map Order.id := by
      rw [← h.tracks.mem_iff, ← Finmap.lookup_eq_none]
      exact hidx
    rw [without_of_fresh (fresh_of_not_mem hmem)]
    exact ⟨by simpa [OrderBook.cancel, hidx] using h,
      by rw [decide_eq_false hmem]; simp [OrderBook.cancel, hidx]⟩
  | some ps =>
    obtain ⟨price, side⟩ := ps
    obtain ⟨o, ho, rfl, rfl, rfl⟩ := (h.tracks.index id price side).mp hidx
    have hmem : o ∈ atLevel L o.side o.priceTicks := mem_atLevel.mpr ⟨ho, rfl, rfl⟩
    have hget := h.levels o.side o.priceTicks
    rw [levelOf_of_ne_nil (List.ne_nil_of_mem hmem)] at hget
    have hany : (atLevel L o.side o.priceTicks).any (·.id = o.id) = true := by
      rw [List.any_eq_true]
      exact ⟨o, hmem, by simp⟩
    have herase : (atLevel L o.side o.priceTicks).eraseP (·.id = o.id) =
        atLevel (Velo.without o.id L) o.side o.priceTicks := by
      rw [atLevel_without]
      exact eraseP_id (h.tracks.nodup.sublist (List.filter_sublist.map _)) o.id
    -- No other level holds an order with this id.
    have hother : ∀ s p, ¬ (s = o.side ∧ p = o.priceTicks) →
        atLevel (Velo.without o.id L) s p = atLevel L s p := by
      intro s p hsp
      rw [atLevel_without]
      refine without_of_fresh fun a ha hid => ?_
      obtain ⟨haL, has, hap⟩ := mem_atLevel.mp ha
      cases h.tracks.eq_of_id haL ho hid
      exact hsp ⟨has.symm, hap.symm⟩
    refine ⟨⟨?_, ?_⟩, ?_⟩
    · simpa [OrderBook.cancel, hidx, hget, hany] using h.tracks.without o.id
    · intro s p
      simp only [OrderBook.cancel, hidx, hget, hany, if_true, herase, List.isEmpty_iff,
        OrderBook.levels_mk_index]
      rcases o.side.eq_or_eq_opposite s with rfl | rfl
      · rw [OrderBook.levels_setLevels]
        by_cases hp : p = o.priceTicks
        · subst hp
          split
          · rename_i he
            rw [SortedMap.get?_erase, if_pos rfl, he]
            rfl
          · rename_i he
            rw [SortedMap.get?_update, if_pos rfl, hget, levelOf_of_ne_nil he]
            rfl
        · rw [hother _ _ (fun hsp => hp hsp.2), ← h.levels]
          split <;> simp [SortedMap.get?_erase, SortedMap.get?_update, hp]
      · rw [hother _ _ (fun hsp => o.side.opposite_ne hsp.1), ← h.levels]
        simp
    · simpa [OrderBook.cancel, hidx, hget, hany] using ⟨o, ho, rfl⟩

theorem toResting_without (id : UInt64) (L : List Order) :
    (Velo.without id L).map Order.toResting =
      (L.map Order.toResting).filter fun r => r.id ≠ id := by
  rw [List.filter_map]
  rfl

/-- A cancel of the book is a cancel of the plain book. -/
theorem Represents.cancel_eq (h : Represents b L) (id : UInt64) :
    Reference.cancel (L.map Order.toResting) id =
      ((b.cancel id).1, (Velo.without id L).map Order.toResting) := by
  rw [(h.cancel id).2, Reference.cancel, map_id_toResting]
  split
  · rename_i hid
    rw [toResting_without, decide_eq_true hid]
  · rename_i hid
    rw [without_of_fresh (fresh_of_not_mem hid), decide_eq_false hid]

def Request.toCall : Request → Call UInt64 Int64
  | .submit o => .submit o.toIncoming
  | .cancel id => .cancel id

def Reply.toAnswer : Reply → Answer UInt64 Int64
  | .fills fs => .trades (fs.map Fill.toTrade)
  | .cancelled ok => .cancelled ok

/-- What a call does to the acceptance list. -/
def Evolves (b : OrderBook) : Request → List Order → List Order → Prop
  | .submit o, L, L' => if b.contains o.id then L' = L else Accepts b.nextTimestamp o L L'
  | .cancel id, L, L' => L' = without id L

theorem Represents.apply (h : Represents b L) (r : Request) :
    ∃ L', Represents (b.apply r).2 L' ∧ Evolves b r L L' ∧
      Reference.apply (L.map Order.toResting) r.toCall =
        ((b.apply r).1.toAnswer, L'.map Order.toResting) := by
  cases r with
  | submit o =>
    obtain ⟨L', hL', hsub, hev⟩ := h.submit o
    refine ⟨L', hL', hev, ?_⟩
    simp [Request.toCall, Reference.apply, OrderBook.apply, Reply.toAnswer, hsub]
  | cancel id =>
    refine ⟨Velo.without id L, (h.cancel id).1, rfl, ?_⟩
    simp [Request.toCall, Reference.apply, OrderBook.apply, Reply.toAnswer, h.cancel_eq id]

theorem Represents.run (h : Represents b L) (rs : List Request) :
    ∃ L', Represents (b.run rs).2 L' ∧
      Reference.run (L.map Order.toResting) (rs.map Request.toCall) =
        ((b.run rs).1.map Reply.toAnswer, L'.map Order.toResting) := by
  induction rs generalizing b L with
  | nil => exact ⟨L, h, rfl⟩
  | cons r rs ih =>
    obtain ⟨L₁, hL₁, -, hr⟩ := h.apply r
    obtain ⟨L₂, hL₂, hrs⟩ := ih hL₁
    refine ⟨L₂, hL₂, ?_⟩
    simp [Reference.run, OrderBook.run, hr, hrs]

end Velo
