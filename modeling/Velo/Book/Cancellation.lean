import Velo.Book.Conservation

/-! What `submit` and `cancel` leave alone. -/
namespace Velo

variable {b b' : OrderBook} {id : UInt64} {o : Order} {L : List Order} {s : Side} {p : Int64}

/-- A level without one order, and none if it was the only one. -/
def PriceLevel.without? (id : UInt64) (level : PriceLevel) : Option PriceLevel :=
  let orders := level.orders.filter (·.id ≠ id)
  if orders.isEmpty then none else some { level with orders := orders }

/-- One order is gone, with its index entry and with its level if that has no other order; all
other orders are where they were. -/
structure Removes (id : UInt64) (b b' : OrderBook) : Prop where
  levels : ∀ s p, (b'.levels s).get? p = ((b.levels s).get? p).bind (PriceLevel.without? id)
  orderIndex : b'.orderIndex = b.orderIndex.erase id
  nextTimestamp : b'.nextTimestamp = b.nextTimestamp
  order : ∃ o, o.id = id ∧ b.resting.Perm (o :: b'.resting) ∧
    ((b'.levels o.side).get? o.priceTicks = none ↔ b.ordersAt o.side o.priceTicks = [o])

theorem OrderBook.cancel_of_false (h : (b.cancel id).1 = false) : (b.cancel id).2 = b := by
  rw [cancel] at h ⊢
  split
  · rfl
  · split
    · rfl
    · split
      · simp_all
      · rfl

theorem OrderBook.fields_of_cancel (h : (b.cancel id).1 = true) :
    (b.cancel id).2.orderIndex = b.orderIndex.erase id ∧
      (b.cancel id).2.nextTimestamp = b.nextTimestamp := by
  rw [cancel] at h ⊢
  split
  · simp_all
  · split
    · simp_all
    · split
      · simp
      · simp_all

theorem Represents.found (h : Represents b L) (hix : b.orderIndex.lookup id = some (p, s)) :
    ∃ level, (b.levels s).get? p = some level ∧ level.orders.any (·.id = id) := by
  obtain ⟨o, ho, rfl, rfl, rfl⟩ := (h.tracks.index id p s).mp hix
  have hmem : o ∈ atLevel L o.side o.priceTicks := mem_atLevel.mpr ⟨ho, rfl, rfl⟩
  refine ⟨⟨o.priceTicks, atLevel L o.side o.priceTicks⟩, ?_, ?_⟩
  · rw [h.levels, levelOf_of_ne_nil (List.ne_nil_of_mem hmem)]
  · rw [List.any_eq_true]
    exact ⟨o, hmem, decide_eq_true rfl⟩

theorem Represents.cancel_eq_false_iff (h : Represents b L) (id : UInt64) :
    (b.cancel id).1 = false ↔ ¬ b.Rests id := by
  rw [(h.cancel id).2, decide_eq_false_iff_not, h.rests_iff, h.contains_iff]

theorem perm_cons_without (h : (L.map Order.id).Nodup) (ho : o ∈ L) :
    L.Perm (o :: without o.id L) := by
  have hnodup : L.Nodup := h.of_map
  have hcons : (o :: without o.id L).Nodup :=
    List.nodup_cons.mpr ⟨fun hm => (mem_without.mp hm).2 rfl, hnodup.sublist without_sublist⟩
  refine (List.perm_ext_iff_of_nodup hnodup hcons).mpr fun a => ?_
  rw [List.mem_cons, mem_without]
  constructor
  · intro ha
    by_cases hid : a.id = o.id
    · exact Or.inl (List.inj_on_of_nodup_map h ha ho hid)
    · exact Or.inr ⟨ha, hid⟩
  · rintro (rfl | ⟨ha, -⟩)
    · exact ho
    · exact ha

theorem without_eq_nil_iff (h : (L.map Order.id).Nodup) (ho : o ∈ L) :
    without o.id L = [] ↔ L = [o] := by
  constructor
  · intro hnil
    have hperm := perm_cons_without h ho
    rw [hnil] at hperm
    exact List.perm_singleton.mp hperm
  · rintro rfl
    simp [without]

theorem levelOf_without (p : Int64) (os : List Order) (id : UInt64) :
    levelOf p (without id os) = (levelOf p os).bind (PriceLevel.without? id) := by
  cases os with
  | nil => rfl
  | cons o os =>
    rw [levelOf, Option.bind_some, PriceLevel.without?]
    change levelOf p (without id (o :: os)) = if (without id (o :: os)).isEmpty then none
      else some ⟨p, without id (o :: os)⟩
    cases without id (o :: os) <;> rfl

theorem Represents.removes (h : Represents b L) (hok : (b.cancel id).1 = true) :
    Removes id b (b.cancel id).2 := by
  obtain ⟨hb', hfound⟩ := h.cancel id
  obtain ⟨hindex, htime⟩ := OrderBook.fields_of_cancel hok
  rw [hfound, decide_eq_true_eq, List.mem_map] at hok
  obtain ⟨o, ho, rfl⟩ := hok
  refine ⟨fun s p => ?_, hindex, htime, o, rfl, ?_, ?_⟩
  · rw [hb'.levels, h.levels, atLevel_without, levelOf_without]
  · exact (h.resting_perm.trans (perm_cons_without h.tracks.nodup ho)).trans
      (hb'.resting_perm.symm.cons o)
  · rw [hb'.levels, levelOf_eq_none, h.ordersAt, atLevel_without]
    exact without_eq_nil_iff (h.tracks.nodup.sublist (List.filter_sublist.map _))
      (mem_atLevel.mpr ⟨ho, rfl, rfl⟩)

/-- In every reachable book: a submit under a resting id and a cancel of one that does not rest
change nothing, any other cancel takes out its order alone, and it finds the level and the order
that the index names. -/
theorem failed_requests_change_nothing (rs : List Request) :
    let b := (OrderBook.empty.run rs).2
    (∀ o : Order, b.Rests o.id → b.submit o = ([], b)) ∧
      ∀ id, ((b.cancel id).1 = false ↔ ¬ b.Rests id) ∧
        ((b.cancel id).1 = false → (b.cancel id).2 = b) ∧
        ((b.cancel id).1 = true → Removes id b (b.cancel id).2) ∧
        ∀ p s, b.orderIndex.lookup id = some (p, s) →
          ∃ level, (b.levels s).get? p = some level ∧ level.orders.any (·.id = id) := by
  intro b
  obtain ⟨L, hL, -⟩ := represents_empty.run rs
  have hL : Represents b L := hL
  exact ⟨fun o => hL.submit_rejected, fun id => ⟨hL.cancel_eq_false_iff id,
    OrderBook.cancel_of_false, hL.removes, fun p s => hL.found⟩⟩

end Velo
