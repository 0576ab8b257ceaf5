import Velo.Book.Remainder
import Velo.Book.Sweep

/-! Price-time priority over whole runs: an order with priority over another is never overtaken. -/
namespace Velo

variable {s : Side} {b : OrderBook} {L L' : List Order} {a a' c o r : Order} {queue : List Order}
  {t t' : UInt64}

/-- Priority within a side: a better price, or an earlier acceptance at the same one. -/
def Order.Precedes (a c : Order) : Prop :=
  a.side = c.side ∧ (Better a.side a.priceTicks c.priceTicks ∨
    a.priceTicks = c.priceTicks ∧ a.timestamp < c.timestamp)

instance (a c : Order) : Decidable (a.Precedes c) := inferInstanceAs (Decidable (_ ∧ _))

theorem Order.Precedes.not_precedes (h : a.Precedes c) : ¬ c.Precedes a := by
  rintro ⟨-, h'⟩
  obtain ⟨hside, h⟩ := h
  rw [← hside] at h'
  rcases h with h | ⟨heq, h⟩
  · rcases h' with h' | ⟨heq', -⟩
    · exact asymm h h'
    · rw [heq'] at h
      exact irrefl _ h
  · rcases h' with h' | ⟨-, h'⟩
    · rw [heq] at h'
      exact irrefl _ h'
    · exact UInt64.lt_asymm h h'

/-- Quantities do not matter to priority. -/
theorem Order.Precedes.of_emptied (h : a.Precedes c) (he : a'.emptied = a.emptied) :
    a'.Precedes c := by
  obtain ⟨-, hside, -, hprice, htime⟩ := fields_of_emptied he
  rw [Order.Precedes, hside, hprice, htime]
  exact h

section Queue

/-- In a sorted list the one that precedes the other comes first. -/
theorem sublist_of_precedes (h : queue.Pairwise Order.Precedes) (ha : a ∈ queue) (hc : c ∈ queue)
    (hac : a.Precedes c) : [a, c].Sublist queue := by
  induction queue with
  | nil => cases ha
  | cons r queue ih =>
    obtain ⟨hr, hqueue⟩ := List.pairwise_cons.mp h
    rcases List.mem_cons.mp ha with har | haq
    · rcases List.mem_cons.mp hc with hcr | hcq
      · rw [har, ← hcr] at hac
        exact absurd hac hac.not_precedes
      · rw [har]
        exact (List.singleton_sublist.mpr hcq).cons_cons r
    · rcases List.mem_cons.mp hc with hcr | hcq
      · rw [hcr] at hac
        exact absurd (hr a haq) hac.not_precedes
      · exact (ih hqueue haq hcq).cons r

theorem mem_enqueue : r ∈ enqueue s o queue ↔ r = o ∨ r ∈ queue := by
  induction queue with
  | nil => simp [enqueue]
  | cons x queue ih =>
    rw [enqueue]
    split
    · simp
    · rw [List.mem_cons, ih, List.mem_cons]
      tauto

/-- A queue of a book stands in the order of priority. -/
theorem Represents.queue_sorted (h : Represents b L) (ht : Timely t L) (s : Side) :
    (b.queue s).Pairwise Order.Precedes := by
  rw [OrderBook.queue, List.pairwise_flatMap]
  constructor
  · rintro ⟨p, level⟩ he
    obtain ⟨-, rfl⟩ := h.mem_levels.mp he
    refine (ht.increasing.sublist List.filter_sublist).imp_of_mem ?_
    intro x y hx hy hxy
    obtain ⟨-, hxs, hxp⟩ := mem_atLevel.mp hx
    obtain ⟨-, hys, hyp⟩ := mem_atLevel.mp hy
    exact ⟨hxs.trans hys.symm, Or.inr ⟨hxp.trans hyp.symm, hxy⟩⟩
  · refine (List.pairwise_map.mp (b.levels s).sorted).imp_of_mem ?_
    rintro ⟨p, level⟩ ⟨q, level'⟩ hp hq hpq x hx y hy
    obtain ⟨-, rfl⟩ := h.mem_levels.mp hp
    obtain ⟨-, rfl⟩ := h.mem_levels.mp hq
    obtain ⟨-, hxs, hxp⟩ := mem_atLevel.mp hx
    obtain ⟨-, hys, hyp⟩ := mem_atLevel.mp hy
    refine ⟨hxs.trans hys.symm, Or.inl ?_⟩
    rw [hxs, hxp, hyp]
    exact hpq

theorem emptied_sweep_sublist : (((sweep s o t queue).queue).map Order.emptied).Sublist
    (queue.map Order.emptied) := by
  induction queue generalizing o t with
  | nil => exact List.Sublist.refl _
  | cons r queue ih =>
    rw [sweep]
    split
    · dsimp only
      split
      · exact ih.cons _
      · exact List.Sublist.refl _
    · exact List.Sublist.refl _

/-- A pass that leaves something of an order leaves all that is behind it. -/
theorem sweep_keeps (hnd : (queue.map Order.timestamp).Nodup) (h : [a, c].Sublist queue)
    (ha : a' ∈ (sweep s o t queue).queue) (htime : a'.timestamp = a.timestamp) :
    c ∈ (sweep s o t queue).queue := by
  induction queue generalizing o t with
  | nil => cases h
  | cons r queue ih =>
    obtain ⟨hr, hnd⟩ := List.nodup_cons.mp hnd
    have hc : c ∈ queue := by
      cases h with
      | cons _ h => exact h.subset (by simp)
      | cons_cons _ h => exact h.subset (by simp)
    rw [sweep] at ha ⊢
    split at ha
    · rename_i hcross
      rw [if_pos hcross]
      dsimp only at ha ⊢
      split at ha
      · rename_i hgone
        rw [if_pos hgone]
        obtain ⟨x, hx, he⟩ := exists_of_emptied emptied_sweep_sublist ha
        cases h with
        | cons _ h => exact ih hnd h ha
        | cons_cons _ h =>
          have hxr : x.timestamp = a.timestamp := (fields_of_emptied he).2.2.2.2.trans htime
          exact absurd (hxr ▸ List.mem_map_of_mem hx) hr
      · rename_i hleft
        rw [if_neg hleft]
        exact List.mem_cons_of_mem _ hc
    · rename_i hcross
      rw [if_neg hcross]
      exact List.mem_cons_of_mem r hc

end Queue

section Runs

/-- What rests after a call rested before it, quantities aside, or carries the clock's time. -/
theorem Represents.kept_of_apply (h : Represents b L) {r : Request}
    (ha : a' ∈ (b.apply r).2.resting) :
    (∃ a ∈ b.resting, a.emptied = a'.emptied) ∨ a'.timestamp = b.nextTimestamp := by
  obtain ⟨L', hL', hev, -⟩ := h.apply r
  have hmem := hL'.resting_perm.mem_iff.mp ha
  have hkept : ∀ {x : Order}, x ∈ L → x.emptied = a'.emptied →
      ∃ a ∈ b.resting, a.emptied = a'.emptied :=
    fun hx he => ⟨_, h.resting_perm.mem_iff.mpr hx, he⟩
  cases r with
  | cancel id =>
    cases hev
    exact Or.inl (hkept (without_sublist.subset hmem) rfl)
  | submit o =>
    simp only [Evolves] at hev
    split at hev
    · exact Or.inl (hkept (hev ▸ hmem) rfl)
    · obtain ⟨M, hM, rfl | ⟨left, hleft, rfl⟩⟩ := hev
      · obtain ⟨x, hx, he⟩ := exists_of_emptied hM.emptied hmem
        exact Or.inl (hkept hx he)
      · rcases List.mem_append.mp hmem with hmem | hmem
        · obtain ⟨x, hx, he⟩ := exists_of_emptied hM.emptied hmem
          exact Or.inl (hkept hx he)
        · cases List.mem_singleton.mp hmem
          exact Or.inr (fields_of_emptied hleft).2.2.2.2

theorem mem_resting : o ∈ b.resting ↔ ∃ s, o ∈ b.queue s := by
  rw [OrderBook.resting, List.mem_append]
  constructor
  · rintro (ho | ho)
    · exact ⟨.buy, ho⟩
    · exact ⟨.sell, ho⟩
  · rintro ⟨s, ho⟩
    cases s with
    | buy => exact Or.inl ho
    | sell => exact Or.inr ho

theorem Timely.eq_of_timestamp (h : Timely t L) (ha : a ∈ L) (hc : c ∈ L)
    (htime : a.timestamp = c.timestamp) : a = c := by
  have hne : L.Pairwise fun x y => x.timestamp ≠ y.timestamp := h.increasing.imp UInt64.ne_of_lt
  exact List.inj_on_of_nodup_map (List.nodup_iff_pairwise_ne.mpr (List.pairwise_map.mpr hne)) ha hc
    htime

/-- The queues after a submission: one has been swept, the other may have grown. -/
theorem Represents.queue_submit (h : Represents b L) (o : Order) (s : Side) :
    (b.submit o).2.queue s = b.queue s ∨
      (s = o.side.opposite ∧ (b.submit o).2.queue s =
        (sweep s { o with timestamp := b.nextTimestamp } (b.nextTimestamp + 1) (b.queue s)).queue) ∨
      ∃ r, (b.submit o).2.queue s = enqueue s r (b.queue s) := by
  have hq : (b.queues.submit o).2 = (b.submit o).2.queues := congrArg Prod.snd (h.submit_queues o)
  rw [← OrderBook.side_queues, ← hq, Queues.submit]
  split
  · exact Or.inl (OrderBook.side_queues b s)
  · rcases o.side.eq_or_eq_opposite s with rfl | rfl
    · dsimp only
      split
      · simp only [Queues.side_setSide, OrderBook.side_queues]
        exact Or.inr (Or.inr ⟨_, rfl⟩)
      · exact Or.inl (by simp)
    · refine Or.inr (Or.inl ⟨rfl, ?_⟩)
      dsimp only
      split <;> simp

/-- One call: as long as an order has something left, what it precedes is untouched. -/
theorem Represents.apply_keeps (h : Represents b L) (ht : Timely b.nextTimestamp L) {r : Request}
    (ha : a ∈ b.resting) (hc : c ∈ b.resting) (hac : a.Precedes c)
    (ha' : a' ∈ (b.apply r).2.resting) (htime : a'.timestamp = a.timestamp) :
    c ∈ (b.apply r).2.resting ∨ r = .cancel c.id := by
  cases r with
  | cancel id =>
    by_cases hid : c.id = id
    · exact Or.inr (by rw [hid])
    · left
      change c ∈ (b.cancel id).2.resting
      rw [(h.cancel id).1.resting_perm.mem_iff]
      exact mem_without.mpr ⟨h.resting_perm.mem_iff.mp hc, hid⟩
  | submit o =>
    left
    obtain ⟨s, hcs⟩ := mem_resting.mp hc
    have hcL := h.mem_queue.mp hcs
    have has : a ∈ b.queue s :=
      h.mem_queue.mpr ⟨h.resting_perm.mem_iff.mp ha, hac.1.trans hcL.2⟩
    refine mem_resting.mpr ⟨s, ?_⟩
    rcases h.queue_submit o s with hq | ⟨-, hq⟩ | ⟨x, hq⟩
    · exact hq ▸ hcs
    · have ha's : a' ∈ (b.submit o).2.queue s := by
        obtain ⟨L', hL', -⟩ := h.submit o
        have hmem := hL'.resting_perm.mem_iff.mp ha'
        refine hL'.mem_queue.mpr ⟨hmem, ?_⟩
        rcases h.kept_of_apply (r := .submit o) ha' with ⟨x, hx, he⟩ | hclock
        · obtain ⟨-, hside, -, -, hxtime⟩ := fields_of_emptied he
          have hxa : x = a := ht.eq_of_timestamp (h.resting_perm.mem_iff.mp hx)
            (h.resting_perm.mem_iff.mp ha) (hxtime.trans htime)
          rw [← hside, hxa, hac.1]
          exact hcL.2
        · have hbelow := ht.below a (h.resting_perm.mem_iff.mp ha)
          rw [← htime, hclock] at hbelow
          exact absurd hbelow (UInt64.lt_irrefl _)
      change c ∈ (b.submit o).2.queue s
      rw [hq] at ha's ⊢
      have hsorted := h.queue_sorted ht s
      have hnd : ((b.queue s).map Order.timestamp).Nodup := by
        refine List.Nodup.map_on ?_ (h.queue_nodup s)
        intro x hx y hy hxy
        exact ht.eq_of_timestamp (h.mem_queue.mp hx).1 (h.mem_queue.mp hy).1 hxy
      exact sweep_keeps hnd (sublist_of_precedes hsorted has hcs hac) ha's htime
    · exact hq ▸ mem_enqueue.mpr (Or.inr hcs)

theorem timestampsUsed_append (b : OrderBook) (rs rs' : List Request) :
    b.timestampsUsed (rs ++ rs') = b.timestampsUsed rs + (b.run rs).2.timestampsUsed rs' := by
  induction rs generalizing b with
  | nil => exact (Nat.zero_add _).symm
  | cons r rs ih =>
    rw [List.cons_append, OrderBook.timestampsUsed, ih, OrderBook.timestampsUsed, Nat.add_assoc]
    rfl

theorem nextTimestamp_run {rs : List Request}
    (hn : b.nextTimestamp.toNat + b.timestampsUsed rs < 2 ^ 64) :
    (b.run rs).2.nextTimestamp.toNat = b.nextTimestamp.toNat + b.timestampsUsed rs := by
  induction rs generalizing b with
  | nil => rfl
  | cons r rs ih =>
    rw [OrderBook.timestampsUsed] at hn ⊢
    have hnext : (b.apply r).2.nextTimestamp.toNat = b.nextTimestamp.toNat + b.ticks r := by
      rw [nextTimestamp_apply, toNat_add_ofNat (by omega)]
    exact (ih (by omega)).trans (by omega)

/-- What rests at the end of a run has rested since its time. -/
theorem Represents.kept_of_run (h : Represents b L) (ht : Timely b.nextTimestamp L)
    {rs : List Request} (hn : b.nextTimestamp.toNat + b.timestampsUsed rs < 2 ^ 64)
    (ha : a' ∈ (b.run rs).2.resting) (htime : a'.timestamp < b.nextTimestamp) :
    ∃ a ∈ b.resting, a.emptied = a'.emptied := by
  induction rs generalizing b L with
  | nil => exact ⟨a', ha, rfl⟩
  | cons r rs ih =>
    rw [OrderBook.timestampsUsed] at hn
    obtain ⟨L₁, hL₁, hev, -⟩ := h.apply r
    have ht₁ := ht.apply hev (by omega)
    have hnext : (b.apply r).2.nextTimestamp.toNat = b.nextTimestamp.toNat + b.ticks r := by
      rw [nextTimestamp_apply, toNat_add_ofNat (by omega)]
    have htime₁ : a'.timestamp < (b.apply r).2.nextTimestamp := by
      rw [UInt64.lt_iff_toNat_lt] at htime ⊢
      omega
    obtain ⟨x, hx, he⟩ := ih hL₁ ht₁ (by omega) ha htime₁
    rcases h.kept_of_apply hx with ⟨y, hy, he'⟩ | hclock
    · exact ⟨y, hy, he'.trans he⟩
    · rw [← (fields_of_emptied he).2.2.2.2, hclock] at htime
      exact absurd htime (UInt64.lt_irrefl _)

theorem Represents.run_keeps (h : Represents b L) (ht : Timely b.nextTimestamp L)
    {rs : List Request} (hn : b.nextTimestamp.toNat + b.timestampsUsed rs < 2 ^ 64)
    (ha : a ∈ b.resting) (hc : c ∈ b.resting) (hac : a.Precedes c)
    (ha' : a' ∈ (b.run rs).2.resting) (htime : a'.timestamp = a.timestamp) :
    c ∈ (b.run rs).2.resting ∨ .cancel c.id ∈ rs := by
  induction rs generalizing b L a with
  | nil => exact Or.inl hc
  | cons r rs ih =>
    rw [OrderBook.timestampsUsed] at hn
    obtain ⟨L₁, hL₁, hev, -⟩ := h.apply r
    have ht₁ := ht.apply hev (by omega)
    have hnext : (b.apply r).2.nextTimestamp.toNat = b.nextTimestamp.toNat + b.ticks r := by
      rw [nextTimestamp_apply, toNat_add_ofNat (by omega)]
    have hbelow := ht.below a (h.resting_perm.mem_iff.mp ha)
    have hbelow₁ : a'.timestamp < (b.apply r).2.nextTimestamp := by
      rw [htime, UInt64.lt_iff_toNat_lt]
      rw [UInt64.lt_iff_toNat_lt] at hbelow
      omega
    obtain ⟨x, hx, he⟩ := hL₁.kept_of_run ht₁ (by omega) ha' hbelow₁
    have hxtime : x.timestamp = a.timestamp := (fields_of_emptied he).2.2.2.2.trans htime
    have hxa : x.emptied = a.emptied := by
      rcases h.kept_of_apply hx with ⟨y, hy, he'⟩ | hclock
      · have hya : y = a := ht.eq_of_timestamp (h.resting_perm.mem_iff.mp hy)
          (h.resting_perm.mem_iff.mp ha) ((fields_of_emptied he').2.2.2.2.trans hxtime)
        rw [← he', hya]
      · rw [hxtime] at hclock
        exact absurd (hclock ▸ hbelow) (UInt64.lt_irrefl _)
    rcases h.apply_keeps ht ha hc hac hx hxtime with hc | hcancel
    · have hlater := ih hL₁ ht₁ (by omega) hx hc (hac.of_emptied hxa) ha' (htime.trans hxtime.symm)
      rcases hlater with hc | hc
      · exact Or.inl hc
      · exact Or.inr (List.mem_cons_of_mem r hc)
    · exact Or.inr (hcancel ▸ List.mem_cons_self)

/-- No order is overtaken: of two orders that rest together, the one with priority has to be gone
before anything is traded with the other, whatever is submitted and cancelled meanwhile. -/
theorem no_overtaking (before after : List Request)
    (hn : OrderBook.empty.timestampsUsed (before ++ after) < 2 ^ 64) {a c : Order}
    (ha : a ∈ (OrderBook.empty.run before).2.resting)
    (hc : c ∈ (OrderBook.empty.run before).2.resting) (hac : a.Precedes c)
    (hstays : ∃ a' ∈ (OrderBook.empty.run (before ++ after)).2.resting,
      a'.timestamp = a.timestamp) :
    c ∈ (OrderBook.empty.run (before ++ after)).2.resting ∨ .cancel c.id ∈ after := by
  obtain ⟨a', ha', htime⟩ := hstays
  rw [OrderBook.run_append] at ha' ⊢
  rw [timestampsUsed_append] at hn
  have hzero : OrderBook.empty.nextTimestamp.toNat = 0 := rfl
  have hbefore : OrderBook.empty.nextTimestamp.toNat +
      OrderBook.empty.timestampsUsed before < 2 ^ 64 := by omega
  obtain ⟨L, hL, ht, -⟩ := represents_empty.run_timely (timely_nil _) before hbefore
  refine hL.run_keeps ht ?_ ha hc hac ha' htime
  rw [nextTimestamp_run hbefore]
  omega

/-- The second of two orders at a price keeps its quantity while the first is filled in part. -/
theorem no_overtaking_at_a_price :
    (⟨2, .sell, .limit, 100, 5, 1⟩ : Order) ∈ (OrderBook.empty.run [.submit
      ⟨1, .sell, .limit, 100, 5, 0⟩, .submit ⟨2, .sell, .limit, 100, 5, 0⟩, .submit
        ⟨3, .buy, .limit, 101, 3, 0⟩]).2.resting ∨
      .cancel 2 ∈ [Request.submit ⟨3, .buy, .limit, 101, 3, 0⟩] :=
  no_overtaking [.submit ⟨1, .sell, .limit, 100, 5, 0⟩, .submit ⟨2, .sell, .limit, 100, 5, 0⟩]
    [.submit ⟨3, .buy, .limit, 101, 3, 0⟩] (a := ⟨1, .sell, .limit, 100, 5, 0⟩)
    (c := ⟨2, .sell, .limit, 100, 5, 1⟩) (by decide) (by decide) (by decide) (by decide)
    ⟨⟨1, .sell, .limit, 100, 2, 0⟩, by decide, rfl⟩

end Runs

end Velo
