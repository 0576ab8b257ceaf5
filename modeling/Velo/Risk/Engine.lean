import Velo.Risk.Position
import Velo.Wire.Protocol

/-! `risk/src/limits.rs` and the read loop of `risk/src/main.rs`. -/
namespace Velo.Risk

structure RiskLimits where
  maxAbsPosition : ℤ

structure FlattenAction where
  side : Side
  quantity : UInt32
  deriving DecidableEq

/-- The cast of the quantity to `u32` keeps its low 32 bits. -/
def checkBreach (limits : RiskLimits) (netPosition : ℤ) : Option FlattenAction :=
  if |netPosition| ≤ limits.maxAbsPosition then none
  else
    let side := if netPosition > 0 then .sell else .buy
    some ⟨side, UInt32.ofNat netPosition.natAbs⟩

/-- A decoded fill; the incoming side is the opposite of the resting one. -/
structure FillEvent where
  restingOrderId : UInt64
  incomingOrderId : UInt64
  restingSide : Side
  priceTicks : Int64
  quantity : UInt32
  timestamp : UInt64
  deriving DecidableEq

def FillEvent.incomingSide (f : FillEvent) : Side := f.restingSide.opposite

/-- What moves the position when a fill is read. -/
def FillEvent.signedQuantity (f : FillEvent) : ℤ := signedQty f.incomingSide f.quantity

/-- An order as this engine encodes it. -/
structure OrderMsg where
  clientOrderId : UInt64
  side : Side
  orderType : OrderType
  priceTicks : Int64
  quantity : UInt32
  deriving DecidableEq

/-- A message read from the server. -/
inductive Incoming
  | fill (f : FillEvent)
  | ack (a : AckMsg)
  deriving DecidableEq

def flattenOrderIdBase : UInt64 := 1000000000

structure RiskEngine where
  limits : RiskLimits
  position : PositionTracker
  nextFlattenId : UInt64

namespace RiskEngine

def start (limits : RiskLimits) : RiskEngine := ⟨limits, .new, flattenOrderIdBase⟩

/-- One round of the read loop, and the order it sends. Acknowledgements are not looked at. -/
def read (e : RiskEngine) : Incoming → Option OrderMsg × RiskEngine
  | .ack _ => (none, e)
  | .fill f =>
    let position := e.position.onFill f.incomingSide f.quantity f.priceTicks.toInt
    match checkBreach e.limits position.netPosition with
    | none => (none, { e with position := position })
    | some action =>
      (some ⟨e.nextFlattenId, action.side, .market, 0, action.quantity⟩,
        { e with position := position, nextFlattenId := e.nextFlattenId + 1 })

variable {e : RiskEngine} {f : FillEvent}

@[simp] theorem netPosition_read (e : RiskEngine) (f : FillEvent) :
    (e.read (.fill f)).2.position.netPosition =
      e.position.netPosition + f.signedQuantity := by
  simp only [read]
  split <;> simp [FillEvent.signedQuantity]

@[simp] theorem limits_read (e : RiskEngine) (m : Incoming) : (e.read m).2.limits = e.limits := by
  cases m with
  | ack a => rfl
  | fill f =>
    simp only [read]
    split <;> rfl

/-- An order is sent exactly when the fill leaves the position beyond the limit. -/
theorem read_eq_none : (e.read (.fill f)).1 = none ↔
    |e.position.netPosition + f.signedQuantity| ≤ e.limits.maxAbsPosition := by
  simp only [read, PositionTracker.netPosition_onFill, FillEvent.signedQuantity]
  generalize e.position.netPosition + signedQty f.incomingSide f.quantity = net
  cases hb : checkBreach e.limits net with
  | none =>
    simp only [checkBreach] at hb
    split at hb
    · rename_i hle
      simpa using hle
    · cases hb
  | some action =>
    simp only [checkBreach] at hb
    split at hb
    · cases hb
    · rename_i hlt
      simpa using hlt

/-- It is against the position and no larger. -/
theorem read_eq_some {o : OrderMsg} (h : (e.read (.fill f)).1 = some o) :
    (o.side = .sell ∧ (o.quantity.toNat : ℤ) ≤ e.position.netPosition + f.signedQuantity) ∨
      o.side = .buy ∧ (o.quantity.toNat : ℤ) ≤ -(e.position.netPosition + f.signedQuantity) := by
  simp only [read, PositionTracker.netPosition_onFill, FillEvent.signedQuantity] at h ⊢
  generalize e.position.netPosition + signedQty f.incomingSide f.quantity = net at h ⊢
  simp only [checkBreach] at h
  split at h
  · cases h
  · rename_i action haction
    split at haction
    · cases haction
    · cases haction
      cases h
      have hle : (UInt32.ofNat net.natAbs).toNat ≤ net.natAbs := by
        rw [UInt32.toNat_ofNat']
        exact Nat.mod_le _ _
      by_cases hpos : net > 0
      · left
        simp only [hpos, if_true, true_and]
        omega
      · right
        simp only [hpos, if_false, true_and]
        omega

end RiskEngine
end Velo.Risk
