import Velo.Book.Order
import Velo.Lib.Iteration

/-! `engine/src/order_book.cpp`. `matchBuy` and `matchSell`, and the two halves of `submit` and
`cancel`, differ in the map they work on and in the price test; the side of that map is a
parameter here. -/
namespace Velo
open Iteration

/-- `std::min(incoming.quantity, resting.quantity)`. -/
def traded (incoming resting : Order) : UInt32 := min incoming.quantity resting.quantity

/-- The variables of the inner loop; `orders` is the deque of the level at the front. -/
structure LevelState where
  incoming : Order
  orders : List Order
  orderIndex : Finmap fun _ : UInt64 => Int64 × Side
  nextTimestamp : UInt64
  fills : List Fill

/-- One round of the inner loop against the level of side `s` at `priceTicks`. -/
def levelStep (s : Side) (priceTicks : Int64) (st : LevelState) : Option LevelState :=
  if 0 < st.incoming.quantity then
    match st.orders with
    | [] => none
    | resting :: rest =>
      let quantity := traded st.incoming resting
      let fill : Fill := ⟨resting.id, st.incoming.id, s, priceTicks, quantity, st.nextTimestamp⟩
      let resting' := { resting with quantity := resting.quantity - quantity }
      let st' := { st with
        incoming := { st.incoming with quantity := st.incoming.quantity - quantity }
        orders := resting' :: rest
        nextTimestamp := st.nextTimestamp + 1
        fills := st.fills ++ [fill] }
      if resting'.quantity = 0 then
        some { st' with orderIndex := st.orderIndex.erase resting.id, orders := rest }
      else some st'
  else none

/-- The variables of the outer loop. -/
structure MatchState (s : Side) where
  incoming : Order
  levels : Levels s
  orderIndex : Finmap fun _ : UInt64 => Int64 × Side
  nextTimestamp : UInt64
  fills : List Fill

/-- The price test for a limit order against a level of side `s`. -/
def limitReaches (s : Side) (limit levelPrice : Int64) : Bool :=
  match s with
  | .sell => limit ≥ levelPrice
  | .buy => limit ≤ levelPrice

/-- One round of the outer loop; `none` where its test fails or the best level does not cross. -/
def matchStep (s : Side) (st : MatchState s) : Option (MatchState s) :=
  if 0 < st.incoming.quantity then
    match st.levels.begin? with
    | none => none
    | some (key, level) =>
      if st.incoming.type = .market ∨ limitReaches s st.incoming.priceTicks level.priceTicks then
        let inner := iterate (levelStep s level.priceTicks) level.orders.length
          ⟨st.incoming, level.orders, st.orderIndex, st.nextTimestamp, st.fills⟩
        some
          { incoming := inner.incoming
            levels :=
              if inner.orders.isEmpty then st.levels.erase key
              else st.levels.update key fun level => { level with orders := inner.orders }
            orderIndex := inner.orderIndex
            nextTimestamp := inner.nextTimestamp
            fills := inner.fills }
      else none
  else none

/-- What a matching call leaves behind: its fills, the incoming order and the book. -/
structure Matched where
  fills : List Fill
  incoming : Order
  book : OrderBook

namespace OrderBook

def matchAgainst (b : OrderBook) (s : Side) (incoming : Order) : Matched :=
  let st := iterate (matchStep s) (b.levels s).entries.length
    ⟨incoming, b.levels s, b.orderIndex, b.nextTimestamp, []⟩
  ⟨st.fills, st.incoming, { b.setLevels s st.levels with
    orderIndex := st.orderIndex, nextTimestamp := st.nextTimestamp }⟩

def matchBuy (b : OrderBook) (incoming : Order) : Matched := b.matchAgainst .sell incoming

def matchSell (b : OrderBook) (incoming : Order) : Matched := b.matchAgainst .buy incoming

/-- `order_index_.count(order_id) > 0`. -/
def contains (b : OrderBook) (orderId : UInt64) : Bool := orderId ∈ b.orderIndex

/-- `try_emplace` at the order's price, `push_back`, and the index entry. -/
def rest (b : OrderBook) (order : Order) : OrderBook :=
  let levels := (b.levels order.side).tryEmplace order.priceTicks ⟨order.priceTicks, []⟩
  let levels := levels.update order.priceTicks fun level =>
    { level with orders := level.orders ++ [order] }
  { b.setLevels order.side levels with
    orderIndex := b.orderIndex.insert order.id (order.priceTicks, order.side) }

/-- The accepted order gets its timestamp and is matched. -/
def matchOrder (b : OrderBook) (order : Order) : Matched :=
  let order := { order with timestamp := b.nextTimestamp }
  let b := { b with nextTimestamp := b.nextTimestamp + 1 }
  match order.side with
  | .buy => b.matchBuy order
  | .sell => b.matchSell order

def submit (b : OrderBook) (order : Order) : List Fill × OrderBook :=
  if b.contains order.id then ([], b)
  else
    let m := b.matchOrder order
    if 0 < m.incoming.quantity ∧ m.incoming.type = .limit then (m.fills, m.book.rest m.incoming)
    else (m.fills, m.book)

def cancel (b : OrderBook) (orderId : UInt64) : Bool × OrderBook :=
  match b.orderIndex.lookup orderId with
  | none => (false, b)
  | some (price, side) =>
    match (b.levels side).get? price with
    | none => (false, b)
    | some level =>
      if level.orders.any (·.id = orderId) then
        let orders := level.orders.eraseP (·.id = orderId)
        let levels :=
          if orders.isEmpty then (b.levels side).erase price
          else (b.levels side).update price fun level => { level with orders := orders }
        (true, { b.setLevels side levels with orderIndex := b.orderIndex.erase orderId })
      else (false, b)

def bestBid (b : OrderBook) : Option Int64 := b.bids.begin?.map Prod.fst

def bestAsk (b : OrderBook) : Option Int64 := b.asks.begin?.map Prod.fst

end OrderBook

/-- A call on the book. -/
inductive Request
  | submit (order : Order)
  | cancel (orderId : UInt64)

/-- What the call returns. -/
inductive Reply
  | fills (fs : List Fill)
  | cancelled (ok : Bool)
  deriving DecidableEq

/-- The fills a reply carries. -/
def Reply.fillList : Reply → List Fill
  | .fills fs => fs
  | .cancelled _ => []

namespace OrderBook

def apply (b : OrderBook) : Request → Reply × OrderBook
  | .submit order => (.fills (b.submit order).1, (b.submit order).2)
  | .cancel orderId => (.cancelled (b.cancel orderId).1, (b.cancel orderId).2)

/-- The replies to a sequence of calls, and the book after them. -/
def run (b : OrderBook) : List Request → List Reply × OrderBook
  | [] => ([], b)
  | r :: rs => ((b.apply r).1 :: ((b.apply r).2.run rs).1, ((b.apply r).2.run rs).2)

theorem run_append (b : OrderBook) (rs rs' : List Request) :
    (b.run (rs ++ rs')).2 = ((b.run rs).2.run rs').2 := by
  induction rs generalizing b with
  | nil => rfl
  | cons r rs ih => exact ih _

/-- The timestamps a call takes: one for an accepted order and one for each fill. -/
def ticks (b : OrderBook) : Request → ℕ
  | .submit order => if b.contains order.id then 0 else 1 + (b.submit order).1.length
  | .cancel _ => 0

def timestampsUsed (b : OrderBook) : List Request → ℕ
  | [] => 0
  | r :: rs => b.ticks r + (b.apply r).2.timestampsUsed rs

/-- The deque of a level, empty where no level is stored. -/
def ordersAt (b : OrderBook) (s : Side) (priceTicks : Int64) : List Order :=
  ((b.levels s).get? priceTicks).elim [] PriceLevel.orders

/-- The orders of one side, best price first and in time priority within a price. -/
def queue (b : OrderBook) (s : Side) : List Order :=
  (b.levels s).entries.flatMap fun e => e.2.orders

/-- Every order the book stores. -/
def resting (b : OrderBook) : List Order := b.queue .buy ++ b.queue .sell

end OrderBook
end Velo
