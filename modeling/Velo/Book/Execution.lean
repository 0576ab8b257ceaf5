import Velo.Book.Priority

/-! What an incoming order gets: all that it reaches, at the best prices there are. -/
namespace Velo

variable {s : Side} {b : OrderBook} {L : List Order} {o : Order} {queue : List Order} {t : UInt64}

/-- An accepted order trades as much as it can, within its limit, from the best price on, and
trades through nothing: what is left on the other side is no better than any of its fills. -/
structure BestExecution (b : OrderBook) (o : Order) : Prop where
  quantity : filled (b.submit o).1 = min o.quantity.toNat (b.liquidity o)
  limit : ∀ f ∈ (b.submit o).1,
    o.type = .market ∨ limitReaches o.side.opposite o.priceTicks f.priceTicks
  worsening : (b.submit o).1.Pairwise fun f g =>
    ¬ Better o.side.opposite g.priceTicks f.priceTicks
  through : ∀ f ∈ (b.submit o).1, ∀ r ∈ (b.submit o).2.queue o.side.opposite,
    ¬ Better o.side.opposite r.priceTicks f.priceTicks

theorem Represents.queue_prices (h : Represents b L) (s : Side) :
    (b.queue s).Pairwise fun x y => ¬ Better s y.priceTicks x.priceTicks := by
  rw [OrderBook.queue, List.pairwise_flatMap]
  constructor
  · rintro ⟨p, level⟩ he
    obtain ⟨-, -, hprice⟩ := h.stocked s (p, level) he
    refine List.pairwise_of_forall_mem_list fun x hx y hy => ?_
    rw [hprice x hx, hprice y hy]
    exact irrefl p
  · refine (List.pairwise_map.mp (b.levels s).sorted).imp_of_mem ?_
    intro e e' he he' hbetter x hx y hy
    rw [(h.stocked s e he).2.2 x hx, (h.stocked s e' he').2.2 y hy]
    exact asymm hbetter

/-- An accepted submission sweeps the other side's queue. -/
theorem Represents.submit_sweep (h : Represents b L) (hid : ¬ b.contains o.id) :
    let swept := sweep o.side.opposite { o with timestamp := b.nextTimestamp }
      (b.nextTimestamp + 1) (b.queue o.side.opposite)
    (b.submit o).1 = swept.fills ∧ (b.submit o).2.queue o.side.opposite = swept.queue := by
  intro swept
  have hq := h.submit_queues o
  have hside := OrderBook.side_queues (b.submit o).2 o.side.opposite
  rw [Queues.submit, if_neg (mt h.mem_ids.mp hid)] at hq
  dsimp only at hq
  split at hq
  · obtain ⟨hfills, hqueues⟩ := Prod.mk.inj hq
    rw [← hqueues] at hside
    exact ⟨by simpa [swept] using hfills.symm, by simpa [swept] using hside.symm⟩
  · obtain ⟨hfills, hqueues⟩ := Prod.mk.inj hq
    rw [← hqueues] at hside
    exact ⟨by simpa [swept] using hfills.symm, by simpa [swept] using hside.symm⟩

theorem price_of_mem_sweep {f : Fill} (h : f ∈ (sweep s o t queue).fills) :
    (∃ r ∈ queue, f.priceTicks = r.priceTicks) ∧
      (o.type = .market ∨ limitReaches s o.priceTicks f.priceTicks) := by
  induction queue generalizing o t with
  | nil => simp [sweep] at h
  | cons r queue ih =>
    rw [sweep] at h
    split at h
    · rename_i hcross
      dsimp only at h
      split at h
      · rcases List.mem_cons.mp h with rfl | h
        · exact ⟨⟨r, List.mem_cons_self, rfl⟩, hcross.2⟩
        · obtain ⟨⟨x, hx, hprice⟩, hreach⟩ := ih h
          exact ⟨⟨x, List.mem_cons_of_mem r hx, hprice⟩, hreach⟩
      · cases List.mem_singleton.mp h
        exact ⟨⟨r, List.mem_cons_self, rfl⟩, hcross.2⟩
    · simp at h

/-- A pass over a queue in order of price meets prices that get no better. -/
theorem sweep_worsens (hqueue : queue.Pairwise fun x y => ¬ Better s y.priceTicks x.priceTicks) :
    ((sweep s o t queue).fills.Pairwise fun f g => ¬ Better s g.priceTicks f.priceTicks) ∧
      ∀ f ∈ (sweep s o t queue).fills, ∀ r ∈ (sweep s o t queue).queue,
        ¬ Better s r.priceTicks f.priceTicks := by
  induction queue generalizing o t with
  | nil => simp [sweep]
  | cons r queue ih =>
    obtain ⟨hr, hqueue⟩ := List.pairwise_cons.mp hqueue
    rw [sweep]
    split
    · dsimp only
      split
      · obtain ⟨hfills, hrest⟩ := ih (o := o.minus (traded o r)) (t := t + 1) hqueue
        constructor
        · refine List.pairwise_cons.mpr ⟨fun g hg => ?_, hfills⟩
          obtain ⟨⟨x, hx, hprice⟩, -⟩ := price_of_mem_sweep hg
          rw [hprice]
          exact hr x hx
        · intro f hf x hx
          rcases List.mem_cons.mp hf with rfl | hf
          · obtain ⟨y, hy, he⟩ := exists_of_emptied emptied_sweep_sublist hx
            rw [← (fields_of_emptied he).2.2.2.1]
            exact hr y hy
          · exact hrest f hf x hx
      · refine ⟨List.pairwise_singleton _ _, ?_⟩
        intro f hf x hx
        cases List.mem_singleton.mp hf
        rcases List.mem_cons.mp hx with rfl | hx
        · exact irrefl r.priceTicks
        · exact hr x hx
    · simp

theorem Represents.leftover_eq (h : Represents b L) (o : Order) :
    b.leftover o = o.quantity.toNat - b.liquidity o := by
  obtain ⟨M, -, -, -, hall⟩ := h.matchOrder o
  have hleft := Reference.matchAll_leftover o.toIncoming h.ids_nodup h.all_live
  rw [hall, ← Reference.liquidity_perm (h.resting_perm.map _)] at hleft
  exact hleft

/-- In every reachable book an accepted order is executed as well as it can be. -/
theorem best_execution (rs : List Request) (o : Order)
    (hid : ¬ (OrderBook.empty.run rs).2.Rests o.id) :
    BestExecution (OrderBook.empty.run rs).2 o := by
  obtain ⟨L, hL, -⟩ := represents_empty.run rs
  generalize (OrderBook.empty.run rs).2 = b at hL hid
  obtain ⟨hfills, hqueue⟩ := hL.submit_sweep (mt hL.rests_iff.mpr hid)
  obtain ⟨hworsening, hthrough⟩ := sweep_worsens (o := { o with timestamp := b.nextTimestamp })
    (t := b.nextTimestamp + 1) (hL.queue_prices o.side.opposite)
  constructor
  · have htotal := (hL.submit_balanced hid).1
    have hleft := hL.leftover_eq o
    omega
  · intro f hf
    rw [hfills] at hf
    exact (price_of_mem_sweep hf).2
  · rw [hfills]
    exact hworsening
  · rw [hfills, hqueue]
    exact hthrough

/-- A buy for more than there is, at two prices and with a third out of its reach. -/
theorem best_execution_over_two_levels :
    BestExecution (OrderBook.empty.run [.submit ⟨1, .sell, .limit, 101, 5, 0⟩,
      .submit ⟨2, .sell, .limit, 100, 5, 0⟩, .submit ⟨3, .sell, .limit, 102, 5, 0⟩]).2
        ⟨4, .buy, .limit, 101, 20, 0⟩ :=
  best_execution [.submit ⟨1, .sell, .limit, 101, 5, 0⟩, .submit ⟨2, .sell, .limit, 100, 5, 0⟩,
    .submit ⟨3, .sell, .limit, 102, 5, 0⟩] ⟨4, .buy, .limit, 101, 20, 0⟩ (by decide)

end Velo
