import Velo.Book.Refinement

/-! `OrderBook::snapshot`, and what a reader may take it for. -/
namespace Velo

structure BookLevelSnapshot where
  priceTicks : Int64
  totalQuantity : UInt32
  orderCount : ℕ
  deriving DecidableEq

/-- Best first. -/
structure BookSnapshot where
  bids : List BookLevelSnapshot
  asks : List BookLevelSnapshot
  deriving DecidableEq

def BookSnapshot.side (snap : BookSnapshot) : Side → List BookLevelSnapshot
  | .buy => snap.bids
  | .sell => snap.asks

/-- What is pushed for one level; the sum is one of 32 bits. -/
def levelSnapshot (e : Int64 × PriceLevel) : BookLevelSnapshot :=
  ⟨e.1, e.2.orders.foldl (fun total o => total + o.quantity) 0, e.2.orders.length⟩

/-- The loop over the levels of one side, with what it has pushed so far. -/
def snapshotLoop (depth : ℕ) (pushed : List BookLevelSnapshot) :
    List (Int64 × PriceLevel) → List BookLevelSnapshot
  | [] => pushed
  | e :: es =>
    if depth ≤ pushed.length then pushed
    else snapshotLoop depth (pushed ++ [levelSnapshot e]) es

namespace OrderBook

def snapshot (b : OrderBook) (depth : ℕ) : BookSnapshot :=
  ⟨snapshotLoop depth [] b.bids.entries, snapshotLoop depth [] b.asks.entries⟩

/-- `best_bid` or `best_ask`. -/
def best (b : OrderBook) : Side → Option Int64
  | .buy => b.bestBid
  | .sell => b.bestAsk

/-- The orders resting on one side at one price. -/
def restingAt (b : OrderBook) (s : Side) (p : Int64) : List Order :=
  b.resting.filter fun o => o.side = s ∧ o.priceTicks = p

/-- The prices that orders rest at on one side, each once. -/
def prices (b : OrderBook) (s : Side) : List Int64 :=
  ((b.resting.filter fun o => o.side = s).map Order.priceTicks).dedup

/-- The quantity resting at a price, however large. -/
def quantityAt (b : OrderBook) (s : Side) (p : Int64) : ℕ :=
  ((b.restingAt s p).map fun o => o.quantity.toNat).sum

/-- The list of the best prices of a side, best first, with the number of orders at each. -/
structure ListsBest (b : OrderBook) (s : Side) (depth : ℕ) (ls : List BookLevelSnapshot) :
    Prop where
  length : ls.length = min depth (b.prices s).length
  sorted : (ls.map BookLevelSnapshot.priceTicks).Pairwise (Better s)
  listed : ∀ l ∈ ls, l.priceTicks ∈ b.prices s ∧
    l.orderCount = (b.restingAt s l.priceTicks).length
  unlisted : ∀ p ∈ b.prices s, p ∉ ls.map BookLevelSnapshot.priceTicks →
    ∀ l ∈ ls, Better s l.priceTicks p
  first : 0 < depth → (ls.head?.map BookLevelSnapshot.priceTicks) = b.best s

/-- All that a snapshot promises: the best levels, their quantities, and no other levels first at a
greater depth. -/
structure ExactSnapshot (b : OrderBook) (depth : ℕ) : Prop where
  lists : ∀ s, b.ListsBest s depth ((b.snapshot depth).side s)
  totals : ∀ s, ∀ l ∈ (b.snapshot depth).side s,
    l.totalQuantity.toNat = b.quantityAt s l.priceTicks
  deeper : ∀ depth', depth ≤ depth' → ∀ s,
    (b.snapshot depth).side s <+: (b.snapshot depth').side s

end OrderBook

variable {b : OrderBook} {s : Side} {p : Int64} {L : List Order} {depth : ℕ}

theorem snapshotLoop_eq (depth : ℕ) (pushed : List BookLevelSnapshot)
    (es : List (Int64 × PriceLevel)) :
    snapshotLoop depth pushed es =
      pushed ++ (es.take (depth - pushed.length)).map levelSnapshot := by
  induction es generalizing pushed with
  | nil => simp [snapshotLoop]
  | cons e es ih =>
    rw [snapshotLoop]
    split
    · rename_i hfull
      rw [Nat.sub_eq_zero_of_le hfull, List.take_zero, List.map_nil, List.append_nil]
    · rename_i hroom
      have hsub : depth - pushed.length = depth - (pushed.length + 1) + 1 := by omega
      rw [ih, List.length_append, List.length_singleton, hsub, List.take_succ_cons, List.map_cons,
        List.append_assoc]
      rfl

theorem OrderBook.side_snapshot (b : OrderBook) (depth : ℕ) (s : Side) :
    (b.snapshot depth).side s = ((b.levels s).entries.take depth).map levelSnapshot := by
  cases s
  · exact (snapshotLoop_eq depth [] _).trans (List.nil_append _)
  · exact (snapshotLoop_eq depth [] _).trans (List.nil_append _)

theorem toNat_total (os : List Order) (n : UInt32) :
    (os.foldl (fun total o => total + o.quantity) n).toNat =
      (n.toNat + (os.map fun o => o.quantity.toNat).sum) % 2 ^ 32 := by
  induction os generalizing n with
  | nil => exact (Nat.mod_eq_of_lt n.toNat_lt).symm
  | cons o os ih =>
    rw [List.foldl_cons, ih, UInt32.toNat_add, List.map_cons, List.sum_cons, Nat.mod_add_mod,
      Nat.add_assoc]

theorem Represents.restingAt_perm (h : Represents b L) (s : Side) (p : Int64) :
    (b.restingAt s p).Perm (atLevel L s p) :=
  h.resting_perm.filter _

theorem Represents.quantityAt_eq (h : Represents b L) (s : Side) (p : Int64) :
    b.quantityAt s p = ((atLevel L s p).map fun o => o.quantity.toNat).sum :=
  ((h.restingAt_perm s p).map _).sum_eq

theorem Represents.mem_prices (h : Represents b L) : p ∈ b.prices s ↔ atLevel L s p ≠ [] := by
  rw [OrderBook.prices, List.mem_dedup, ((h.resting_perm.filter _).map _).mem_iff, List.mem_map]
  constructor
  · rintro ⟨o, ho, rfl⟩
    obtain ⟨hoL, hos⟩ := List.mem_filter.mp ho
    exact List.ne_nil_of_mem (mem_atLevel.mpr ⟨hoL, of_decide_eq_true hos, rfl⟩)
  · intro hne
    obtain ⟨o, ho⟩ := List.exists_mem_of_ne_nil _ hne
    obtain ⟨hoL, hos, hop⟩ := mem_atLevel.mp ho
    exact ⟨o, List.mem_filter.mpr ⟨hoL, decide_eq_true hos⟩, hop⟩

theorem Represents.keys_perm (h : Represents b L) (s : Side) :
    ((b.levels s).entries.map Prod.fst).Perm (b.prices s) := by
  refine (List.perm_ext_iff_of_nodup (b.levels s).keys_nodup (List.nodup_dedup _)).mpr fun p => ?_
  rw [List.mem_map]
  change _ ↔ p ∈ b.prices s
  rw [h.mem_prices]
  constructor
  · rintro ⟨⟨q, level⟩, he, rfl⟩
    exact (h.mem_levels.mp he).1
  · intro hne
    exact ⟨_, h.mem_levels.mpr ⟨hne, rfl⟩, rfl⟩

theorem Represents.level_eq (h : Represents b L) {e : Int64 × PriceLevel}
    (he : e ∈ (b.levels s).entries) : e.2.orders = atLevel L s e.1 := by
  obtain ⟨-, hlevel⟩ := h.mem_levels.mp he
  rw [hlevel]

theorem priceTicks_levelSnapshot (es : List (Int64 × PriceLevel)) :
    (es.map levelSnapshot).map BookLevelSnapshot.priceTicks = es.map Prod.fst := by
  rw [List.map_map]
  rfl

theorem Represents.listsBest (h : Represents b L) (depth : ℕ) (s : Side) :
    b.ListsBest s depth ((b.snapshot depth).side s) := by
  have hsorted := (b.levels s).sorted
  have hsplit := List.take_append_drop depth (b.levels s).entries
  rw [← hsplit, List.map_append, List.pairwise_append] at hsorted
  obtain ⟨hfront, -, hacross⟩ := hsorted
  rw [b.side_snapshot]
  constructor
  · rw [List.length_map, List.length_take, ← (h.keys_perm s).length_eq, List.length_map]
  · rw [priceTicks_levelSnapshot]
    exact hfront
  · intro l hl
    obtain ⟨e, he, rfl⟩ := List.mem_map.mp hl
    have hmem := List.mem_of_mem_take he
    refine ⟨(h.keys_perm s).subset (List.mem_map_of_mem hmem), ?_⟩
    rw [levelSnapshot, h.level_eq hmem]
    exact (h.restingAt_perm s e.1).length_eq.symm
  · intro p hp hnot l hl
    rw [priceTicks_levelSnapshot] at hnot
    obtain ⟨e, he, rfl⟩ := List.mem_map.mp hl
    refine hacross e.1 (List.mem_map_of_mem he) p ?_
    have hkey := (h.keys_perm s).mem_iff.mpr hp
    rw [← hsplit, List.map_append, List.mem_append] at hkey
    exact hkey.resolve_left hnot
  · intro hpos
    have hbest : b.best s = (b.levels s).entries.head?.map Prod.fst := by
      cases s <;> rfl
    rw [hbest, List.head?_map, Option.map_map, List.head?_take, if_neg hpos.ne']
    rfl

theorem Represents.total_eq_iff (h : Represents b L) {e : Int64 × PriceLevel}
    (he : e ∈ (b.levels s).entries) :
    (levelSnapshot e).totalQuantity.toNat = b.quantityAt s e.1 ↔ b.quantityAt s e.1 < 2 ^ 32 := by
  have htotal : (levelSnapshot e).totalQuantity.toNat = b.quantityAt s e.1 % 2 ^ 32 := by
    rw [h.quantityAt_eq, ← h.level_eq he]
    exact (toNat_total e.2.orders 0).trans (by rw [UInt32.toNat_zero, Nat.zero_add])
  rw [htotal]
  omega

theorem OrderBook.snapshot_extends (b : OrderBook) {depth depth' : ℕ} (h : depth ≤ depth')
    (s : Side) : (b.snapshot depth).side s <+: (b.snapshot depth').side s := by
  rw [b.side_snapshot, b.side_snapshot]
  exact (List.take_prefix_take_left h).map _

/-- In every reachable book and at every depth: a snapshot is exact if and only if none of the
levels in it holds a quantity of 32 bits or more. -/
theorem exactSnapshot_iff (rs : List Request) (depth : ℕ) :
    let b := (OrderBook.empty.run rs).2
    b.ExactSnapshot depth ↔
      ∀ s, ∀ e ∈ (b.levels s).entries.take depth, b.quantityAt s e.1 < 2 ^ 32 := by
  intro b
  obtain ⟨L, hL, -⟩ := represents_empty.run rs
  have hL : Represents b L := hL
  constructor
  · intro hexact s e he
    have hmem : levelSnapshot e ∈ (b.snapshot depth).side s := by
      rw [b.side_snapshot]
      exact List.mem_map_of_mem he
    exact (hL.total_eq_iff (List.mem_of_mem_take he)).mp (hexact.totals s _ hmem)
  · intro hsmall
    refine ⟨hL.listsBest depth, fun s l hl => ?_, fun depth' hle s => b.snapshot_extends hle s⟩
    rw [b.side_snapshot] at hl
    obtain ⟨e, he, rfl⟩ := List.mem_map.mp hl
    exact (hL.total_eq_iff (List.mem_of_mem_take he)).mpr (hsmall s e he)

/-- The other parts of it hold in every reachable book. -/
theorem snapshot_lists_best (rs : List Request) (depth : ℕ) (s : Side) :
    (OrderBook.empty.run rs).2.ListsBest s depth
      (((OrderBook.empty.run rs).2.snapshot depth).side s) := by
  obtain ⟨L, hL, -⟩ := represents_empty.run rs
  exact hL.listsBest depth s

/-- Two orders at one price that are two to the 32 together: the snapshot says none. -/
theorem not_exactSnapshot_of_two_orders :
    ¬ (OrderBook.empty.run [.submit ⟨1, .buy, .limit, 100, 4294967295, 0⟩,
      .submit ⟨2, .buy, .limit, 100, 1, 0⟩]).2.ExactSnapshot 1 := by
  intro h
  have htotal := h.totals .buy ⟨100, 0, 2⟩ (by decide +kernel)
  revert htotal
  decide +kernel

end Velo
