import Velo.Book.Representation

/-! The clock of the book. As long as it does not wrap, acceptance order is timestamp order. -/
namespace Velo
open Iteration

variable {b : OrderBook} {s : Side} {key : Int64} {o : Order} {L L' : List Order}
  {st st' : LevelState} {m m' : MatchState s} {t t' t'' : UInt64} {fills fills' fills'' : List Fill}

/-- Fills stamped one after the other, from `t` on. -/
def Consecutive (t : UInt64) (fills : List Fill) : Prop :=
  fills.map Fill.timestamp = (List.range fills.length).map fun i => t + UInt64.ofNat i

/-- The clock went from `t` to `t'` while exactly the fills after `fills` were reported. -/
def Emits (t : UInt64) (fills : List Fill) (t' : UInt64) (fills' : List Fill) : Prop :=
  ∃ new, fills' = fills ++ new ∧ Consecutive t new ∧ t' = t + UInt64.ofNat new.length

theorem Emits.refl (t : UInt64) (fills : List Fill) : Emits t fills t fills :=
  ⟨[], by simp, rfl, by simp⟩

theorem Consecutive.append (h : Consecutive t fills)
    (h' : Consecutive (t + UInt64.ofNat fills.length) fills') :
    Consecutive t (fills ++ fills') := by
  unfold Consecutive at *
  rw [List.map_append, h, h', List.length_append, List.range_add, List.map_append, List.map_map]
  congr 1
  refine List.map_congr_left fun i _ => ?_
  simp [UInt64.ofNat_add, UInt64.add_assoc]

theorem Emits.trans (h : Emits t fills t' fills') (h' : Emits t' fills' t'' fills'') :
    Emits t fills t'' fills'' := by
  obtain ⟨new, rfl, hc, rfl⟩ := h
  obtain ⟨new', rfl, hc', rfl⟩ := h'
  refine ⟨new ++ new', by simp, hc.append hc', ?_⟩
  simp [UInt64.ofNat_add, UInt64.add_assoc]

theorem levelStep_emits (h : levelStep s key st = some st') :
    Emits st.nextTimestamp st.fills st'.nextTimestamp st'.fills := by
  obtain ⟨-, resting, rest, -, rfl⟩ := levelStep_cases h
  exact ⟨[_], rfl, by simp [Consecutive, fillOf], rfl⟩

theorem levelLoop_emits (h : Reaches (levelStep s key) st st') :
    Emits st.nextTimestamp st.fills st'.nextTimestamp st'.fills := by
  induction h with
  | refl => exact .refl _ _
  | tail _ hu ih => exact ih.trans (levelStep_emits hu)

theorem matchStep_emits (h : matchStep s m = some m') :
    Emits m.nextTimestamp m.fills m'.nextTimestamp m'.fills := by
  obtain ⟨-, key, level, -, -, rfl⟩ := matchStep_cases h
  exact levelLoop_emits (iterate_reaches _ _ (innerStart m level))

theorem matchLoop_emits (h : Reaches (matchStep s) m m') :
    Emits m.nextTimestamp m.fills m'.nextTimestamp m'.fills := by
  induction h with
  | refl => exact .refl _ _
  | tail _ hu ih => exact ih.trans (matchStep_emits hu)

theorem matchAgainst_emits (b : OrderBook) (s : Side) (o : Order) :
    Emits b.nextTimestamp [] (b.matchAgainst s o).book.nextTimestamp (b.matchAgainst s o).fills :=
  matchLoop_emits (iterate_reaches (matchStep s) _
    ⟨o, b.levels s, b.orderIndex, b.nextTimestamp, []⟩)

theorem matchOrder_emits (b : OrderBook) (o : Order) :
    Consecutive (b.nextTimestamp + 1) (b.matchOrder o).fills ∧
      (b.matchOrder o).book.nextTimestamp =
        b.nextTimestamp + 1 + UInt64.ofNat (b.matchOrder o).fills.length := by
  rw [b.matchOrder_eq]
  obtain ⟨new, hf, hc, ht⟩ := matchAgainst_emits { b with nextTimestamp := b.nextTimestamp + 1 }
    o.side.opposite { o with timestamp := b.nextTimestamp }
  rw [List.nil_append] at hf
  rw [hf]
  exact ⟨hc, ht⟩

theorem nextTimestamp_rest (b : OrderBook) (o : Order) :
    (b.rest o).nextTimestamp = b.nextTimestamp := by
  simp [OrderBook.rest]

theorem submit_emits (hc : ¬ b.contains o.id) :
    Consecutive (b.nextTimestamp + 1) (b.submit o).1 ∧
      (b.submit o).2.nextTimestamp =
        b.nextTimestamp + 1 + UInt64.ofNat (b.submit o).1.length := by
  have hm := matchOrder_emits b o
  simp only [OrderBook.submit, hc, Bool.false_eq_true, if_false]
  split
  · simpa only [nextTimestamp_rest] using hm
  · exact hm

theorem nextTimestamp_cancel (b : OrderBook) (id : UInt64) :
    (b.cancel id).2.nextTimestamp = b.nextTimestamp := by
  unfold OrderBook.cancel
  split
  · rfl
  · split
    · rfl
    · split
      · exact OrderBook.nextTimestamp_setLevels _ _ _
      · rfl

theorem nextTimestamp_apply (b : OrderBook) (r : Request) :
    (b.apply r).2.nextTimestamp = b.nextTimestamp + UInt64.ofNat (b.ticks r) := by
  cases r with
  | cancel id => simpa [OrderBook.apply, OrderBook.ticks] using nextTimestamp_cancel b id
  | submit o =>
    by_cases hc : b.contains o.id
    · simp [OrderBook.apply, OrderBook.ticks, OrderBook.submit, hc]
    · simp [OrderBook.apply, OrderBook.ticks, hc, (submit_emits hc).2, UInt64.ofNat_add,
        UInt64.add_assoc]

theorem toNat_add_ofNat {n : ℕ} (h : t.toNat + n < 2 ^ 64) :
    (t + UInt64.ofNat n).toNat = t.toNat + n := by
  rw [UInt64.toNat_add, UInt64.toNat_ofNat', Nat.mod_eq_of_lt (a := n) (by omega),
    Nat.mod_eq_of_lt h]

/-- Without a wrap, consecutive fills carry increasing timestamps from `t` on. -/
theorem Consecutive.increasing (h : Consecutive t fills)
    (hn : t.toNat + fills.length ≤ 2 ^ 64) :
    fills.Pairwise (fun f g => f.timestamp < g.timestamp) ∧
      ∀ f ∈ fills, t.toNat ≤ f.timestamp.toNat ∧ f.timestamp.toNat < t.toNat + fills.length := by
  constructor
  · rw [← List.pairwise_map (f := Fill.timestamp) (R := (· < ·)), h, List.pairwise_map]
    refine List.Pairwise.imp_of_mem ?_ List.pairwise_lt_range
    intro i j _ hj hij
    have hj := List.mem_range.mp hj
    rw [UInt64.lt_iff_toNat_lt, toNat_add_ofNat (by omega), toNat_add_ofNat (by omega)]
    omega
  · intro f hf
    have hmem : f.timestamp ∈ (List.range fills.length).map fun i => t + UInt64.ofNat i := by
      rw [← h]
      exact List.mem_map_of_mem hf
    obtain ⟨i, hi, he⟩ := List.mem_map.mp hmem
    have hi := List.mem_range.mp hi
    rw [← he, toNat_add_ofNat (by omega)]
    omega

/-- Accepted orders carry increasing timestamps below the clock. -/
structure Timely (t : UInt64) (L : List Order) : Prop where
  increasing : L.Pairwise fun a b => a.timestamp < b.timestamp
  below : ∀ o ∈ L, o.timestamp < t

theorem timely_nil (t : UInt64) : Timely t [] := ⟨List.Pairwise.nil, by simp⟩

theorem Timely.shrink (h : Timely t L) (hL : (L'.map Order.emptied).Sublist (L.map Order.emptied))
    (ht : t ≤ t') : Timely t' L' := by
  have hts : (L'.map Order.timestamp).Sublist (L.map Order.timestamp) := by
    have := hL.map Order.timestamp
    rwa [List.map_map, List.map_map] at this
  constructor
  · have hp : (L.map Order.timestamp).Pairwise (· < ·) := List.pairwise_map.mpr h.increasing
    exact List.pairwise_map.mp (hp.sublist hts)
  · intro o ho
    obtain ⟨a, ha, he⟩ := List.mem_map.mp (hts.subset (List.mem_map_of_mem ho))
    exact he ▸ UInt64.lt_of_lt_of_le (h.below a ha) ht

theorem Timely.append (h : Timely t L) (ho : o.timestamp = t) (ht : t < t') :
    Timely t' (L ++ [o]) := by
  constructor
  · refine List.pairwise_append.mpr ⟨h.increasing, List.pairwise_singleton _ _, ?_⟩
    intro a ha c hc
    rw [List.mem_singleton.mp hc, ho]
    exact h.below a ha
  · intro a ha
    rcases List.mem_append.mp ha with ha | ha
    · exact UInt64.lt_trans (h.below a ha) ht
    · rw [List.mem_singleton.mp ha, ho]
      exact ht

/-- One call, on a clock that does not wrap. -/
theorem Timely.apply (h : Timely b.nextTimestamp L) {r : Request} (hev : Evolves b r L L')
    (hn : b.nextTimestamp.toNat + b.ticks r < 2 ^ 64) :
    Timely (b.apply r).2.nextTimestamp L' := by
  rw [nextTimestamp_apply]
  have ht := toNat_add_ofNat hn
  have hle : b.nextTimestamp ≤ b.nextTimestamp + UInt64.ofNat (b.ticks r) := by
    rw [UInt64.le_iff_toNat_le, ht]
    omega
  cases r with
  | cancel id =>
    cases hev
    exact h.shrink (without_sublist.map _) hle
  | submit o =>
    by_cases hc : b.contains o.id
    · simp only [Evolves, hc, if_true] at hev
      subst hev
      exact h.shrink (List.Sublist.refl _) hle
    · simp only [Evolves, hc, Bool.false_eq_true, if_false] at hev
      obtain ⟨M, hM, rfl | ⟨r, hr, rfl⟩⟩ := hev
      · exact h.shrink hM.emptied hle
      · refine (h.shrink hM.emptied (UInt64.le_refl _)).append (fields_of_emptied hr).2.2.2.2 ?_
        rw [UInt64.lt_iff_toNat_lt, ht]
        simp only [OrderBook.ticks, hc, Bool.false_eq_true, if_false]
        omega

/-- The fills of one call, on a clock that does not wrap. -/
theorem apply_fills_increasing (b : OrderBook) (r : Request)
    (hn : b.nextTimestamp.toNat + b.ticks r < 2 ^ 64) :
    (b.apply r).1.fillList.Pairwise (fun f g => f.timestamp < g.timestamp) ∧
      ∀ f ∈ (b.apply r).1.fillList, b.nextTimestamp.toNat ≤ f.timestamp.toNat ∧
        f.timestamp.toNat < b.nextTimestamp.toNat + b.ticks r := by
  cases r with
  | cancel id => simp [OrderBook.apply, Reply.fillList]
  | submit o =>
    by_cases hc : b.contains o.id
    · simp [OrderBook.apply, OrderBook.submit, hc, Reply.fillList]
    · simp only [OrderBook.ticks, hc, Bool.false_eq_true, if_false] at hn ⊢
      have hone : (b.nextTimestamp + 1).toNat = b.nextTimestamp.toNat + 1 :=
        toNat_add_ofNat (n := 1) (by omega)
      obtain ⟨hp, hb⟩ := (submit_emits hc).1.increasing (by omega)
      refine ⟨hp, fun f hf => ?_⟩
      have := hb f hf
      omega

/-- A whole run on a clock that does not wrap: it is a run of the plain book, the list stays in
timestamp order, and the fills come out in timestamp order. -/
theorem Represents.run_timely (h : Represents b L) (ht : Timely b.nextTimestamp L)
    (rs : List Request) (hn : b.nextTimestamp.toNat + b.timestampsUsed rs < 2 ^ 64) :
    ∃ L', Represents (b.run rs).2 L' ∧ Timely (b.run rs).2.nextTimestamp L' ∧
      Reference.run (L.map Order.toResting) (rs.map Request.toCall) =
        ((b.run rs).1.map Reply.toAnswer, L'.map Order.toResting) ∧
      ((b.run rs).1.flatMap Reply.fillList).Pairwise (fun f g => f.timestamp < g.timestamp) ∧
      ∀ f ∈ (b.run rs).1.flatMap Reply.fillList, b.nextTimestamp.toNat ≤ f.timestamp.toNat := by
  induction rs generalizing b L with
  | nil => exact ⟨L, h, ht, rfl, List.Pairwise.nil, by simp [OrderBook.run]⟩
  | cons r rs ih =>
    rw [OrderBook.timestampsUsed] at hn
    obtain ⟨L₁, hL₁, hev, hr⟩ := h.apply r
    have ht₁ := ht.apply hev (by omega)
    have hnext : (b.apply r).2.nextTimestamp.toNat = b.nextTimestamp.toNat + b.ticks r := by
      rw [nextTimestamp_apply, toNat_add_ofNat (by omega)]
    obtain ⟨L₂, hL₂, ht₂, hrs, hp, hb⟩ := ih hL₁ ht₁ (by omega)
    obtain ⟨hp₁, hb₁⟩ := apply_fills_increasing b r (by omega)
    refine ⟨L₂, hL₂, ht₂, ?_, ?_, ?_⟩
    · simp [Reference.run, OrderBook.run, hr, hrs]
    · rw [OrderBook.run, List.flatMap_cons]
      refine List.pairwise_append.mpr ⟨hp₁, hp, fun f hf g hg => ?_⟩
      have := hb₁ f hf
      have := hb g hg
      rw [UInt64.lt_iff_toNat_lt]
      omega
    · intro f hf
      rw [OrderBook.run, List.flatMap_cons] at hf
      rcases List.mem_append.mp hf with hf | hf
      · exact (hb₁ f hf).1
      · have := hb f hf
        omega

end Velo
