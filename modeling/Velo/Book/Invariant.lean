import Velo.Book.Refinement

/-! What the three containers of the book have to do with each other in every reachable state. -/
namespace Velo

variable {b : OrderBook} {t : UInt64} {L : List Order}

/-- The containers agree: the index with the levels, the levels with their keys, and each stored
order with its place. -/
structure OrderBook.Consistent (b : OrderBook) : Prop where
  index_iff : ∀ id p s, b.orderIndex.lookup id = some (p, s) ↔
    ∃ level, (p, level) ∈ (b.levels s).entries ∧ ∃ o ∈ level.orders, o.id = id
  index_card : b.orderIndex.keys.card = b.resting.length
  ids_nodup : (b.resting.map Order.id).Nodup
  levels_nonempty : ∀ s, ∀ e ∈ (b.levels s).entries, e.2.orders ≠ []
  levels_price : ∀ s, ∀ e ∈ (b.levels s).entries,
    e.2.priceTicks = e.1 ∧ ∀ o ∈ e.2.orders, o.priceTicks = e.1
  orders_live : ∀ s, ∀ e ∈ (b.levels s).entries, ∀ o ∈ e.2.orders,
    o.type = .limit ∧ o.side = s ∧ 0 < o.quantity

/-- Within a level time priority is timestamp order, and the clock is ahead of every order. -/
structure OrderBook.InTimeOrder (b : OrderBook) : Prop where
  increasing : ∀ s, ∀ e ∈ (b.levels s).entries,
    e.2.orders.Pairwise fun a c => a.timestamp < c.timestamp
  below : ∀ o ∈ b.resting, o.timestamp < b.nextTimestamp

theorem Represents.keys_eq (h : Represents b L) :
    b.orderIndex.keys = (L.map Order.id).toFinset := by
  ext id
  rw [Finmap.mem_keys, h.tracks.mem_iff, List.mem_toFinset]

theorem Represents.consistent (h : Represents b L) : b.Consistent where
  index_iff := by
    intro id p s
    rw [h.tracks.index]
    constructor
    · rintro ⟨o, ho, hid, rfl, rfl⟩
      have hmem : o ∈ atLevel L o.side o.priceTicks := mem_atLevel.mpr ⟨ho, rfl, rfl⟩
      exact ⟨_, h.mem_levels.mpr ⟨List.ne_nil_of_mem hmem, rfl⟩, o, hmem, hid⟩
    · rintro ⟨level, hlevel, o, ho, hid⟩
      obtain ⟨-, rfl⟩ := h.mem_levels.mp hlevel
      obtain ⟨hoL, hos, hop⟩ := mem_atLevel.mp ho
      exact ⟨o, hoL, hid, hop, hos⟩
  index_card := by
    rw [h.keys_eq, List.toFinset_card_of_nodup h.tracks.nodup, List.length_map]
    exact h.resting_perm.length_eq.symm
  ids_nodup := (h.resting_perm.map Order.id).nodup_iff.mpr h.tracks.nodup
  levels_nonempty := by
    rintro s ⟨p, level⟩ he
    obtain ⟨hne, rfl⟩ := h.mem_levels.mp he
    exact hne
  levels_price := by
    rintro s ⟨p, level⟩ he
    obtain ⟨-, rfl⟩ := h.mem_levels.mp he
    exact ⟨rfl, fun o ho => (mem_atLevel.mp ho).2.2⟩
  orders_live := by
    rintro s ⟨p, level⟩ he o ho
    obtain ⟨-, rfl⟩ := h.mem_levels.mp he
    obtain ⟨hoL, hos, -⟩ := mem_atLevel.mp ho
    exact ⟨(h.tracks.live o hoL).1, hos, (h.tracks.live o hoL).2⟩

theorem Represents.inTimeOrder (h : Represents b L) (ht : Timely b.nextTimestamp L) :
    b.InTimeOrder where
  increasing := by
    rintro s ⟨p, level⟩ he
    obtain ⟨-, rfl⟩ := h.mem_levels.mp he
    exact ht.increasing.sublist List.filter_sublist
  below := fun o ho => ht.below o (h.resting_perm.mem_iff.mp ho)

/-- Every run from the empty book, on a clock that does not wrap, keeps the containers consistent
and in time order, and reports its fills with strictly increasing timestamps. -/
theorem reachable_book_consistent (rs : List Request)
    (hn : OrderBook.empty.timestampsUsed rs < 2 ^ 64) :
    (OrderBook.empty.run rs).2.Consistent ∧ (OrderBook.empty.run rs).2.InTimeOrder ∧
      ((OrderBook.empty.run rs).1.flatMap Reply.fillList).Pairwise
        fun f g => f.timestamp < g.timestamp := by
  obtain ⟨L, hL, ht, -, hp, -⟩ := represents_empty.run_timely (timely_nil _) rs
    (by simpa [OrderBook.empty] using hn)
  exact ⟨hL.consistent, hL.inTimeOrder ht, hp⟩

theorem reachable_book_consistent_after_reuse :
    (OrderBook.empty.run [.submit ⟨1, .sell, .limit, 100, 5, 0⟩,
      .submit ⟨2, .buy, .limit, 100, 5, 0⟩, .submit ⟨1, .buy, .limit, 99, 3, 0⟩]).2.Consistent :=
  (reachable_book_consistent _ (by decide)).1

end Velo
