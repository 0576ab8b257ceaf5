import Velo.Strategy.Protocol

/-! `strategy/orderbook_client/strategy.py` -/
namespace Velo.Strategy

structure OrderRequest where
  orderId : ℤ
  side : Side
  orderType : OrderType
  priceTicks : ℤ
  quantity : ℤ
  deriving DecidableEq

structure CancelRequest where
  orderId : ℤ
  deriving DecidableEq

inductive StrategyAction
  | order (request : OrderRequest)
  | cancel (request : CancelRequest)
  deriving DecidableEq

/-- `nextId` is what `itertools.count(1)` yields next; what rests is an order's id and price. -/
structure FixedOffsetQuoter where
  offset : ℤ
  size : ℤ
  nextId : ℤ
  restingBuy : Option (ℤ × ℤ)
  restingSell : Option (ℤ × ℤ)
  deriving DecidableEq

namespace FixedOffsetQuoter

def init (offset size : ℤ) : FixedOffsetQuoter := ⟨offset, size, 1, none, none⟩

def resting (q : FixedOffsetQuoter) : Side → Option (ℤ × ℤ)
  | .buy => q.restingBuy
  | .sell => q.restingSell

/-- One round of the loop of `on_price`: what it appends to `new_orders` and to `cancels`. -/
def quoteSide (q : FixedOffsetQuoter) (side : Side) (targetPrice : ℤ) :
    List OrderRequest × List CancelRequest × FixedOffsetQuoter :=
  let current := q.resting side
  if current.map Prod.snd = some targetPrice then ([], [], q)
  else
    let newOrder := ⟨q.nextId, side, .limit, targetPrice, q.size⟩
    let cancels := (current.map fun c => ⟨c.1⟩).toList
    let newState := some (q.nextId, targetPrice)
    match side with
    | .buy => ([newOrder], cancels, { q with nextId := q.nextId + 1, restingBuy := newState })
    | .sell => ([newOrder], cancels, { q with nextId := q.nextId + 1, restingSell := newState })

def onPrice (q : FixedOffsetQuoter) (priceTicks : ℤ) : List StrategyAction × FixedOffsetQuoter :=
  let buy := q.quoteSide .buy (priceTicks - q.offset)
  let sell := buy.2.2.quoteSide .sell (priceTicks + q.offset)
  ((buy.1 ++ sell.1).map .order ++ (buy.2.1 ++ sell.2.1).map .cancel, sell.2.2)

def onFill (q : FixedOffsetQuoter) (event : FillEvent) : FixedOffsetQuoter :=
  if q.restingBuy.map Prod.fst = some event.restingOrderId then { q with restingBuy := none }
  else if q.restingSell.map Prod.fst = some event.restingOrderId then { q with restingSell := none }
  else q

/-- What an `on_price` asks for, and what it remembers: a side stays, or it is quoted anew and what
was remembered of it is cancelled. -/
structure Requotes (q : FixedOffsetQuoter) (orders : List OrderRequest)
    (cancels : List CancelRequest) (q' : FixedOffsetQuoter) : Prop where
  increasing : (orders.map OrderRequest.orderId).Pairwise (· < ·)
  nextId_le : q.nextId ≤ q'.nextId
  fresh : ∀ o ∈ orders, q.nextId ≤ o.orderId ∧ o.orderId < q'.nextId
  limit : ∀ o ∈ orders, o.orderType = .limit
  quoted : ∀ o ∈ orders, q'.resting o.side = some (o.orderId, o.priceTicks)
  side : ∀ side, q'.resting side = q.resting side ∨ (∃ o ∈ orders, o.side = side) ∧
    ∀ id, (q.resting side).map Prod.fst = some id → id ∈ cancels.map CancelRequest.orderId
  stale : ∀ id ∈ cancels.map CancelRequest.orderId, ∃ side,
    (q.resting side).map Prod.fst = some id ∧ ∃ o ∈ orders, o.side = side

theorem quoteSide_cases (q : FixedOffsetQuoter) (side : Side) (targetPrice : ℤ) :
    q.quoteSide side targetPrice = ([], [], q) ∨ ∃ cancels q', q.quoteSide side targetPrice =
        ([⟨q.nextId, side, .limit, targetPrice, q.size⟩], cancels, q') ∧
      cancels.map CancelRequest.orderId = ((q.resting side).map Prod.fst).toList ∧
      q'.nextId = q.nextId + 1 ∧ q'.resting side = some (q.nextId, targetPrice) ∧
      q'.resting side.opposite = q.resting side.opposite := by
  by_cases h : (q.resting side).map Prod.snd = some targetPrice
  · exact Or.inl (if_pos h)
  · refine Or.inr ⟨((q.resting side).map fun c => ⟨c.1⟩).toList, ?_⟩
    simp only [quoteSide, h, if_false]
    have hids : (((q.resting side).map fun c => CancelRequest.mk c.1).toList.map
        CancelRequest.orderId) = ((q.resting side).map Prod.fst).toList := by
      cases q.resting side <;> rfl
    cases side with
    | buy => exact ⟨_, rfl, hids, rfl, rfl, rfl⟩
    | sell => exact ⟨_, rfl, hids, rfl, rfl, rfl⟩

theorem requotes_onPrice (q : FixedOffsetQuoter) (priceTicks : ℤ) : ∃ orders cancels,
    (q.onPrice priceTicks).1 = orders.map .order ++ cancels.map .cancel ∧
      q.Requotes orders cancels (q.onPrice priceTicks).2 := by
  refine ⟨_, _, rfl, ?_⟩
  unfold onPrice
  rcases q.quoteSide_cases .buy (priceTicks - q.offset) with
    hbuy | ⟨cb, q₁, hbuy, hcb, hn₁, hb₁, hs₁⟩
  · simp only [hbuy]
    rcases q.quoteSide_cases .sell (priceTicks + q.offset) with
      hsell | ⟨cs, q₂, hsell, hcs, hn₂, hs₂, hb₂⟩
    · simp only [hsell]
      constructor <;> simp
    · simp only [hsell, List.nil_append]
      simp only [Side.opposite] at hb₂
      constructor
      case side =>
        intro side
        cases side <;> simp [hs₂, hb₂, hcs]
      all_goals simp [hn₂, hs₂, hcs]
  · simp only [hbuy]
    simp only [Side.opposite] at hs₁
    rcases q₁.quoteSide_cases .sell (priceTicks + q.offset) with
      hsell | ⟨cs, q₂, hsell, hcs, hn₂, hs₂, hb₂⟩
    · simp only [hsell, List.append_nil]
      constructor
      case side =>
        intro side
        cases side <;> simp [hs₁, hb₁, hcb]
      all_goals simp [hn₁, hb₁, hcb]
    · simp only [hsell]
      simp only [Side.opposite] at hb₂
      constructor
      case side =>
        intro side
        refine Or.inr ⟨by cases side <;> simp, fun id hid => ?_⟩
        rw [List.map_append, hcb, hcs, hs₁, List.mem_append, Option.mem_toList, Option.mem_toList]
        cases side with
        | buy => exact Or.inl hid
        | sell => exact Or.inr hid
      case stale =>
        intro id hid
        rw [List.map_append, hcb, hcs, hs₁, List.mem_append, Option.mem_toList,
          Option.mem_toList] at hid
        rcases hid with hid | hid
        · exact ⟨.buy, hid, by simp⟩
        · exact ⟨.sell, hid, by simp⟩
      case nextId_le =>
        simp only [hn₁, hn₂]
        omega
      all_goals simp [hn₁, hn₂, hb₁, hb₂, hs₂]

@[simp] theorem nextId_onFill (q : FixedOffsetQuoter) (event : FillEvent) :
    (q.onFill event).nextId = q.nextId := by
  unfold onFill
  split
  · rfl
  · split <;> rfl

end FixedOffsetQuoter
end Velo.Strategy
