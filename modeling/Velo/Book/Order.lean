import Mathlib
import Velo.Lib.FixedWidth
import Velo.Lib.SortedMap

/-! The data of the order book: `engine/include/orderbook/order.hpp` and the state declared in
`order_book.hpp`. Prices are only compared, so the price order is the one thing fixed here. -/
namespace Velo

inductive Side
  | buy
  | sell
  deriving DecidableEq, Repr

inductive OrderType
  | limit
  | market
  deriving DecidableEq, Repr

structure Order where
  id : UInt64
  side : Side
  type : OrderType
  priceTicks : Int64
  quantity : UInt32
  timestamp : UInt64
  deriving DecidableEq, Repr

structure Fill where
  restingOrderId : UInt64
  incomingOrderId : UInt64
  restingSide : Side
  priceTicks : Int64
  quantity : UInt32
  timestamp : UInt64
  deriving DecidableEq, Repr

def Side.opposite : Side → Side
  | .buy => .sell
  | .sell => .buy

@[simp] theorem Side.opposite_opposite (s : Side) : s.opposite.opposite = s := by
  cases s <;> rfl

theorem Side.eq_or_eq_opposite (s s' : Side) : s' = s ∨ s' = s.opposite := by
  cases s <;> cases s' <;> simp [Side.opposite]

theorem Side.opposite_ne (s : Side) : s.opposite ≠ s := by
  cases s <;> simp [Side.opposite]

section Better

variable {π : Type*} [LinearOrder π]

/-- The order of a side's price levels, best first: `std::greater` for bids, `std::less` for
asks. -/
def Better : Side → π → π → Prop
  | .buy => (· > ·)
  | .sell => (· < ·)

instance (s : Side) : DecidableRel (Better (π := π) s) :=
  match s with
  | .buy => fun a b => inferInstanceAs (Decidable (b < a))
  | .sell => fun a b => inferInstanceAs (Decidable (a < b))

instance (s : Side) : IsStrictTotalOrder π (Better s) :=
  match s with
  | .buy => inferInstanceAs (IsStrictTotalOrder π (· > ·))
  | .sell => inferInstanceAs (IsStrictTotalOrder π (· < ·))

end Better

/-- All orders resting at one price, in time priority. -/
structure PriceLevel where
  priceTicks : Int64
  orders : List Order
  deriving DecidableEq

/-- `bids_` or `asks_`, ordered by the side's own comparator. -/
abbrev Levels (s : Side) := SortedMap (Better (π := Int64) s) PriceLevel

structure OrderBook where
  bids : Levels .buy
  asks : Levels .sell
  orderIndex : Finmap fun _ : UInt64 => Int64 × Side
  nextTimestamp : UInt64

namespace OrderBook

/-- A freshly constructed book. -/
def empty : OrderBook := ⟨.empty, .empty, ∅, 0⟩

/-- The mirrored code paths read and write one map each; `s` says which. -/
def levels (b : OrderBook) : (s : Side) → Levels s
  | .buy => b.bids
  | .sell => b.asks

def setLevels (b : OrderBook) : (s : Side) → Levels s → OrderBook
  | .buy, m => { b with bids := m }
  | .sell, m => { b with asks := m }

variable (b : OrderBook) (s : Side) (m : Levels s)

@[simp] theorem levels_setLevels : (b.setLevels s m).levels s = m := by
  cases s <;> rfl

@[simp] theorem levels_setLevels_opposite :
    (b.setLevels s m).levels s.opposite = b.levels s.opposite := by
  cases s <;> rfl

@[simp] theorem orderIndex_setLevels : (b.setLevels s m).orderIndex = b.orderIndex := by
  cases s <;> rfl

@[simp] theorem nextTimestamp_setLevels : (b.setLevels s m).nextTimestamp = b.nextTimestamp := by
  cases s <;> rfl

@[simp] theorem levels_mk_index (i : Finmap fun _ : UInt64 => Int64 × Side) (t : UInt64) :
    ({ b with orderIndex := i, nextTimestamp := t } : OrderBook).levels s = b.levels s := by
  cases s <;> rfl

end OrderBook
end Velo
