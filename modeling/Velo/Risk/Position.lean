import Velo.Book.Order

/-! `risk/src/position.rs`: net position and P&L of the account whose orders are the incoming ones.
The floating average is exact here. -/
namespace Velo.Risk

structure PositionTracker where
  netPosition : ℤ
  realizedPnlTicks : ℤ
  lastTradePriceTicks : ℤ
  avgEntryPriceTicks : ℚ
  deriving DecidableEq

/-- `as i64` on the average. -/
def truncate (q : ℚ) : ℤ := q.num.tdiv q.den

def signedQty (incomingSide : Side) (quantity : UInt32) : ℤ :=
  match incomingSide with
  | .buy => quantity.toNat
  | .sell => -quantity.toNat

namespace PositionTracker

def new : PositionTracker := ⟨0, 0, 0, 0⟩

def onFill (p : PositionTracker) (incomingSide : Side) (quantity : UInt32) (priceTicks : ℤ) :
    PositionTracker :=
  let qty := signedQty incomingSide quantity
  let p := { p with lastTradePriceTicks := priceTicks }
  if p.netPosition = 0 ∨ p.netPosition.sign = qty.sign then
    let oldAbs : ℚ := p.netPosition.natAbs
    let addAbs : ℚ := qty.natAbs
    { p with
      avgEntryPriceTicks :=
        (p.avgEntryPriceTicks * oldAbs + priceTicks * addAbs) / (oldAbs + addAbs)
      netPosition := p.netPosition + qty }
  else
    let direction := p.netPosition.sign
    let closingQty := min |qty| |p.netPosition|
    let p :=
      { p with
        realizedPnlTicks := p.realizedPnlTicks +
          direction * closingQty * (priceTicks - truncate p.avgEntryPriceTicks)
        netPosition := p.netPosition + qty }
    if p.netPosition ≠ 0 ∧ p.netPosition.sign ≠ direction then
      { p with avgEntryPriceTicks := priceTicks }
    else p

def unrealizedPnlTicks (p : PositionTracker) : ℤ :=
  p.netPosition * (p.lastTradePriceTicks - truncate p.avgEntryPriceTicks)

@[simp] theorem netPosition_onFill (p : PositionTracker) (side : Side) (quantity : UInt32)
    (priceTicks : ℤ) :
    (p.onFill side quantity priceTicks).netPosition = p.netPosition + signedQty side quantity := by
  simp only [onFill]
  split
  · rfl
  · split <;> rfl

end PositionTracker
end Velo.Risk
