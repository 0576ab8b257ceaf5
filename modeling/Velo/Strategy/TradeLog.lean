import Velo.Strategy.Client

/-! `trade_log.py`, and what the loops of `session_runner.py` and `run_delta_hedge_backtest.py`
write to it. The times of the rows are left out. -/
namespace Velo.Strategy

inductive LogRow
  | orderSent (orderId : ℤ) (side : Side) (priceTicks qty : ℤ)
  | cancelSent (orderId : ℤ)
  | ack (orderId status : ℤ)
  | fill (restingId incomingId : ℤ) (incomingSide : Side) (priceTicks qty : ℤ)
  deriving DecidableEq

def StrategyAction.row : StrategyAction → LogRow
  | .order action => .orderSent action.orderId action.side action.priceTicks action.quantity
  | .cancel action => .cancelSent action.orderId

/-- What `drain` writes. -/
def Event.row : Event → LogRow
  | .ack event => .ack event.clientOrderId event.status
  | .fill event => .fill event.restingOrderId event.incomingOrderId event.incomingSide
      event.priceTicks event.quantity

/-- A fill is handled only if its side can be read. -/
theorem Client.handle_fill {σ : Type} {onFill : σ → FillEvent → σ} {c c' : Client σ}
    {f : FillWireMsg} {events : List ServerMsg} (h : c.handle onFill = some c')
    (hevents : c.events = .fill f :: events) :
    ∃ side, side? f.restingSide.toNat = some side ∧
      c' = { c with events := events, strategy := onFill c.strategy (ofFill side f) } := by
  unfold handle at h
  rw [hevents] at h
  cases hrunning : c.running with
  | false => simp [hrunning] at h
  | true =>
    have htag : Wire.tag (.fill f) = msgTypeValue .fill := rfl
    simp only [hrunning, decodeEvent, if_pos htag, Wire.payload] at h
    cases hside : side? f.restingSide.toNat with
    | none => simp [decodeFill, Struct.unpack_pack (pack_fill f), hside] at h
    | some side =>
      rw [decodeFill_encodeFill hside] at h
      exact ⟨side, rfl, (Option.some.inj h).symm⟩

/-- What a strategy asked for, and not what the server said. -/
def LogRow.isRequest : LogRow → Bool
  | .orderSent .. | .cancelSent _ => true
  | .ack .. | .fill .. => false

theorem filter_isRequest_row (actions : List StrategyAction) :
    (actions.map StrategyAction.row).filter LogRow.isRequest = actions.map StrategyAction.row := by
  rw [List.filter_eq_self]
  intro row hrow
  obtain ⟨action, -, rfl⟩ := List.mem_map.mp hrow
  cases action <;> rfl

theorem filter_isRequest_event (events : List Event) :
    (events.map Event.row).filter LogRow.isRequest = [] := by
  rw [List.filter_eq_nil_iff]
  intro row hrow
  obtain ⟨event, -, rfl⟩ := List.mem_map.mp hrow
  cases event <;> simp [Event.row, LogRow.isRequest]

theorem filter_not_isRequest_row (actions : List StrategyAction) :
    (actions.map StrategyAction.row).filter (! LogRow.isRequest ·) = [] := by
  rw [List.filter_eq_nil_iff]
  intro row hrow
  obtain ⟨action, -, rfl⟩ := List.mem_map.mp hrow
  cases action <;> simp [StrategyAction.row, LogRow.isRequest]

theorem filter_not_isRequest_event (events : List Event) :
    (events.map Event.row).filter (! LogRow.isRequest ·) = events.map Event.row := by
  rw [List.filter_eq_self]
  intro row hrow
  obtain ⟨event, -, rfl⟩ := List.mem_map.mp hrow
  cases event <;> rfl

end Velo.Strategy
