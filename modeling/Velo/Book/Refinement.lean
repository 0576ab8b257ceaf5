import Velo.Book.Timestamps

/-! The book of nested containers refines the plain book, over whole runs. -/
namespace Velo
open Reference

variable {b : OrderBook} {s : Side} {p : Int64} {o : Order} {L : List Order}

theorem Represents.ordersAt (h : Represents b L) (s : Side) (p : Int64) :
    b.ordersAt s p = atLevel L s p := by
  rw [OrderBook.ordersAt, h.levels]
  cases atLevel L s p <;> rfl

/-- A stored level is the non-empty level of the acceptance list. -/
theorem Represents.mem_levels (h : Represents b L) {level : PriceLevel} :
    (p, level) ∈ (b.levels s).entries ↔ atLevel L s p ≠ [] ∧ level = ⟨p, atLevel L s p⟩ := by
  rw [SortedMap.mem_entries_iff, h.levels, levelOf_eq_some]

theorem Represents.mem_queue (h : Represents b L) : o ∈ b.queue s ↔ o ∈ L ∧ o.side = s := by
  rw [OrderBook.queue, List.mem_flatMap]
  constructor
  · rintro ⟨⟨p, level⟩, he, ho⟩
    obtain ⟨-, rfl⟩ := h.mem_levels.mp he
    obtain ⟨hoL, hos, -⟩ := mem_atLevel.mp ho
    exact ⟨hoL, hos⟩
  · rintro ⟨hoL, hos⟩
    have ho : o ∈ atLevel L s o.priceTicks := mem_atLevel.mpr ⟨hoL, hos, rfl⟩
    exact ⟨_, h.mem_levels.mpr ⟨List.ne_nil_of_mem ho, rfl⟩, ho⟩

theorem Represents.nodup (h : Represents b L) : L.Nodup := List.Nodup.of_map _ h.tracks.nodup

theorem Represents.queue_nodup (h : Represents b L) (s : Side) : (b.queue s).Nodup := by
  rw [OrderBook.queue, List.nodup_flatMap]
  constructor
  · rintro ⟨p, level⟩ he
    obtain ⟨-, rfl⟩ := h.mem_levels.mp he
    exact h.nodup.sublist List.filter_sublist
  · have hkeys := List.pairwise_map.mp (List.nodup_iff_pairwise_ne.mp (b.levels s).keys_nodup)
    refine List.Pairwise.imp_of_mem ?_ hkeys
    rintro ⟨p, level⟩ ⟨q, level'⟩ hp hq hne o ho ho'
    obtain ⟨-, rfl⟩ := h.mem_levels.mp hp
    obtain ⟨-, rfl⟩ := h.mem_levels.mp hq
    exact hne ((mem_atLevel.mp ho).2.2.symm.trans (mem_atLevel.mp ho').2.2)

theorem Represents.resting_perm (h : Represents b L) : b.resting.Perm L := by
  refine (List.perm_ext_iff_of_nodup ?_ h.nodup).mpr fun o => ?_
  · refine List.nodup_append.mpr ⟨h.queue_nodup .buy, h.queue_nodup .sell, ?_⟩
    rintro o ho o' ho' rfl
    have hb := (h.mem_queue.mp ho).2
    rw [(h.mem_queue.mp ho').2] at hb
    cases hb
  · rw [OrderBook.resting, List.mem_append, h.mem_queue, h.mem_queue]
    cases o.side <;> simp

/-- Read off in timestamp order, the book is the acceptance list itself. -/
theorem Timely.sort_eq {t : UInt64} (h : Timely t L) {os : List Order} (hp : os.Perm L) :
    (os.mergeSort fun a b => a.timestamp ≤ b.timestamp) = L := by
  have hsorted : (os.mergeSort fun a b => a.timestamp ≤ b.timestamp).Pairwise
      fun a b => decide (a.timestamp ≤ b.timestamp) = true := by
    refine List.pairwise_mergeSort ?_ ?_ os
    · intro a b c hab hbc
      exact decide_eq_true (UInt64.le_trans (of_decide_eq_true hab) (of_decide_eq_true hbc))
    · intro a b
      simpa using UInt64.le_total a.timestamp b.timestamp
  refine ((List.mergeSort_perm os _).trans hp).eq_of_pairwise ?_ hsorted
    (h.increasing.imp fun hab => decide_eq_true (UInt64.le_of_lt hab))
  intro a b ha hb hab hba
  have hts := UInt64.le_antisymm (of_decide_eq_true hab) (of_decide_eq_true hba)
  have ha := hp.mem_iff.mp ((List.mergeSort_perm os _).mem_iff.mp ha)
  have hne : L.Pairwise fun a b => a.timestamp ≠ b.timestamp := h.increasing.imp UInt64.ne_of_lt
  exact List.inj_on_of_nodup_map (List.nodup_iff_pairwise_ne.mpr (List.pairwise_map.mpr hne))
    ha hb hts

/-- Call by call the book answers as the plain book does, and it ends with the same resting orders:
as a collection, level by level in acceptance order, and, as long as the clock has not wrapped, in
acceptance order throughout. -/
theorem book_refines_plain_book (rs : List Request) :
    let code := OrderBook.empty.run rs
    let plain := Reference.run [] (rs.map Request.toCall)
    code.1.map Reply.toAnswer = plain.1 ∧
      (code.2.resting.map Order.toResting).Perm plain.2 ∧
      (∀ s p, (code.2.ordersAt s p).map Order.toResting =
        plain.2.filter fun r => r.side = s ∧ r.price = p) ∧
      (OrderBook.empty.timestampsUsed rs < 2 ^ 64 →
        (code.2.resting.mergeSort fun a b => a.timestamp ≤ b.timestamp).map Order.toResting =
          plain.2) := by
  intro code plain
  obtain ⟨L, hL, hrun⟩ := represents_empty.run rs
  have hplain : plain = (code.1.map Reply.toAnswer, L.map Order.toResting) := hrun
  rw [hplain]
  refine ⟨rfl, hL.resting_perm.map _, fun s p => ?_, fun hn => ?_⟩
  · rw [hL.ordersAt, atLevel, List.filter_map]
    rfl
  · obtain ⟨L', hL', ht', hrun', -⟩ := represents_empty.run_timely (timely_nil _) rs
      (by simpa [OrderBook.empty] using hn)
    have hsame : L'.map Order.toResting = L.map Order.toResting := by
      have := hrun'.symm.trans hrun
      exact congrArg Prod.snd this
    rw [ht'.sort_eq hL'.resting_perm, hsame]

theorem book_refines_plain_book_on_a_crossing :
    let rs : List Request := [.submit ⟨1, .sell, .limit, 101, 5, 0⟩,
      .submit ⟨2, .sell, .limit, 100, 5, 0⟩, .submit ⟨3, .buy, .limit, 101, 7, 0⟩, .cancel 2]
    ((OrderBook.empty.run rs).2.resting.mergeSort
        fun a b => a.timestamp ≤ b.timestamp).map Order.toResting =
      (Reference.run [] (rs.map Request.toCall)).2 :=
  (book_refines_plain_book _).2.2.2 (by decide)

end Velo
