import Velo.Strategy.DeltaHedger
import Velo.Strategy.TradeLog

/-! The loop of `run_delta_hedge_backtest.py`, for any prices, option values, deltas and events that
it meets. Values, deltas and P&L are rational numbers where the code has floats. -/
namespace Velo.Strategy
open Machine

/-- `baselineValue` and `prevPriceTicks` are `none` before the first tick; `sent` is what has been
written to the connection. -/
structure HedgeSession where
  hedger : DeltaHedger
  log : List LogRow
  sent : List UInt8
  unhedgedPnl : List ℚ
  hedgedPnl : List ℚ
  baselineValue : Option ℚ
  cumulativeFuturesPnl : ℚ
  prevPriceTicks : Option ℤ

/-- What a round of the loop meets: the price of the feed, what the option book is worth and what
its delta is at that price, and the events that are polled. -/
structure HedgeTick where
  priceTicks : ℤ
  bookValue : ℚ
  aggregateDelta : ℚ
  events : List Event

/-- The fills that count: those of the hedger's own orders. -/
def DeltaHedger.own (h : DeltaHedger) (events : List Event) : List FillEvent :=
  events.filterMap fun
    | .ack _ => none
    | .fill event => if event.incomingOrderId ∈ h.myOrderIds then some event else none

namespace HedgeSession

def start (hedgeBandContracts : ℤ) : HedgeSession :=
  ⟨.init hedgeBandContracts, [], [], [], [], none, 0, none⟩

/-- The position held before the tick earns the move of its price. -/
def earn (s : HedgeSession) (priceTicks : ℤ) : HedgeSession :=
  match s.prevPriceTicks with
  | none => s
  | some prevPriceTicks =>
    let priceMovePoints : ℚ := (priceTicks - prevPriceTicks : ℤ) * 0.25
    { s with
      cumulativeFuturesPnl :=
        s.cumulativeFuturesPnl + s.hedger.currentFuturesPosition * priceMovePoints }

def mark (s : HedgeSession) (bookValue : ℚ) : HedgeSession :=
  let baselineValue := s.baselineValue.getD bookValue
  { s with
    baselineValue := some baselineValue
    unhedgedPnl := s.unhedgedPnl ++ [bookValue - baselineValue]
    hedgedPnl := s.hedgedPnl ++ [bookValue - baselineValue + s.cumulativeFuturesPnl] }

/-- Only orders are sent here; one that does not fit its fields raises. -/
def submit (s : HedgeSession) (action : StrategyAction) : Option HedgeSession :=
  match action with
  | .order request => do
    let buf ← (StrategyAction.order request).encode
    return { s with sent := s.sent ++ buf, log := s.log ++ [action.row] }
  | .cancel _ => none

def handle (s : HedgeSession) (event : Event) : HedgeSession :=
  match event with
  | .ack _ => { s with log := s.log ++ [event.row] }
  | .fill fill => { s with log := s.log ++ [event.row], hedger := s.hedger.onFill fill }

def drain (s : HedgeSession) (events : List Event) : HedgeSession := events.foldl handle s

/-- One round of the loop. What it logs for the proofs: the fills that count, with the price of the
round. -/
def step (s : HedgeSession) (t : HedgeTick) : Option (List (ℤ × FillEvent) × HedgeSession) := do
  let s := (s.earn t.priceTicks).mark t.bookValue
  let (actions, hedger) := s.hedger.onPrice t.aggregateDelta
  let s ← actions.foldlM submit { s with hedger }
  return ((s.hedger.own t.events).map (t.priceTicks, ·),
    { s.drain t.events with prevPriceTicks := some t.priceTicks })

/-- After the last round the loop drains until a poll is empty. -/
def finish (s : HedgeSession) (polls : List (List Event)) : HedgeSession := polls.foldl drain s

/-- The gap between the position and the target, at a tick. -/
def gap (s : HedgeSession) (t : HedgeTick) : ℤ :=
  s.hedger.currentFuturesPosition - roundHalfEven (-t.aggregateDelta)

/-- What the futures add to the P&L, round by round. -/
def futuresPnl (s : HedgeSession) : List ℚ := List.zipWith (· - ·) s.hedgedPnl s.unhedgedPnl

end HedgeSession

/-- The order that closes a gap. -/
def DeltaHedger.closing (orderId gap : ℤ) : OrderRequest :=
  ⟨orderId, if 0 < gap then .sell else .buy, .market, 0, |gap|⟩

/-- The orders for the gaps beyond the band, numbered from `n` on. -/
def DeltaHedger.hedges (band : ℤ) (n : ℤ) : List ℤ → List OrderRequest
  | [] => []
  | gap :: gaps =>
    if |gap| ≤ band then hedges band n gaps else closing n gap :: hedges band (n + 1) gaps

theorem DeltaHedger.onPrice_eq (h : DeltaHedger) (aggregateDelta : ℚ) :
    let gap := h.currentFuturesPosition - roundHalfEven (-aggregateDelta)
    let orders := DeltaHedger.hedges h.hedgeBand h.nextId [gap]
    h.onPrice aggregateDelta = (orders.map .order,
      { h with
        hedgeErrorHistory := h.hedgeErrorHistory ++ [gap]
        rehedgeCount := h.rehedgeCount + orders.length
        nextId := h.nextId + orders.length
        myOrderIds := (orders.map OrderRequest.orderId).toFinset ∪ h.myOrderIds }) := by
  intro gap orders
  by_cases hgap : |gap| ≤ h.hedgeBand
  · have horders : orders = [] := if_pos hgap
    rw [horders]
    refine (if_pos hgap).trans ?_
    simp [gap]
  · have horders : orders = [DeltaHedger.closing h.nextId gap] := if_neg hgap
    rw [horders]
    refine (if_neg hgap).trans ?_
    simp [gap, DeltaHedger.closing]

namespace HedgeSession

variable {s u : HedgeSession} {t : HedgeTick} {l : List (ℤ × FillEvent)} {events : List Event}
  {band : ℤ} {ticks : List HedgeTick} {trades : List (ℤ × FillEvent)}

theorem foldlM_submit (orders : List OrderRequest)
    (h : (orders.map .order).foldlM submit s = some u) :
    ∃ bufs, orders.mapM (fun o => StrategyAction.encode (.order o)) = some bufs ∧
      u = { s with
        sent := s.sent ++ bufs.flatten
        log := s.log ++ orders.map fun o => StrategyAction.row (.order o) } := by
  induction orders generalizing s with
  | nil =>
    cases h
    exact ⟨[], rfl, by simp⟩
  | cons o orders ih =>
    rw [List.map_cons, List.foldlM_cons, Option.bind_eq_bind, Option.bind_eq_some_iff] at h
    obtain ⟨v, hv, h⟩ := h
    obtain ⟨buf, hbuf, hsome⟩ := Option.bind_eq_some_iff.mp hv
    cases hsome
    obtain ⟨bufs, hbufs, rfl⟩ := ih h
    exact ⟨buf :: bufs, by simp [hbuf, hbufs], by simp⟩

theorem drain_eq (s : HedgeSession) (events : List Event) :
    s.drain events = { s with
      log := s.log ++ events.map Event.row
      hedger := { s.hedger with
        currentFuturesPosition := s.hedger.currentFuturesPosition +
          ((s.hedger.own events).map FillEvent.signedQty).sum } } := by
  induction events generalizing s with
  | nil => simp [drain, DeltaHedger.own]
  | cons event events ih =>
    refine (ih (s.handle event)).trans ?_
    cases event with
    | ack ack =>
      have hown : s.hedger.own (.ack ack :: events) = s.hedger.own events := rfl
      simp [handle, hown]
    | fill fill =>
      by_cases hown : fill.incomingOrderId ∈ s.hedger.myOrderIds
      · have hqty : (if fill.incomingSide = .buy then fill.quantity else -fill.quantity) =
            fill.signedQty := by
          rw [FillEvent.signedQty]
          cases fill.incomingSide <;> rfl
        simp [handle, DeltaHedger.onFill, DeltaHedger.own, hown, hqty, add_assoc]
      · simp [handle, DeltaHedger.onFill, DeltaHedger.own, hown]

/-- All that a round does. -/
structure Round (s : HedgeSession) (t : HedgeTick) (l : List (ℤ × FillEvent))
    (u : HedgeSession) : Prop where
  orders : ∃ bufs, (DeltaHedger.hedges s.hedger.hedgeBand s.hedger.nextId [s.gap t]).mapM
      (fun o => StrategyAction.encode (.order o)) = some bufs ∧ u.sent = s.sent ++ bufs.flatten
  log : u.log = s.log ++ (DeltaHedger.hedges s.hedger.hedgeBand s.hedger.nextId [s.gap t]).map
      (fun o => StrategyAction.row (.order o)) ++ t.events.map Event.row
  hedger : u.hedger =
    let orders := DeltaHedger.hedges s.hedger.hedgeBand s.hedger.nextId [s.gap t]
    { s.hedger with
      hedgeErrorHistory := s.hedger.hedgeErrorHistory ++ [s.gap t]
      rehedgeCount := s.hedger.rehedgeCount + orders.length
      nextId := s.hedger.nextId + orders.length
      myOrderIds := (orders.map OrderRequest.orderId).toFinset ∪ s.hedger.myOrderIds
      currentFuturesPosition := s.hedger.currentFuturesPosition +
        (l.map fun p => p.2.signedQty).sum }
  price : ∀ p ∈ l, p.1 = t.priceTicks
  marked : ∃ v, v = s.baselineValue.getD t.bookValue ∧ u.baselineValue = some v ∧
    u.unhedgedPnl = s.unhedgedPnl ++ [t.bookValue - v] ∧
    u.hedgedPnl = s.hedgedPnl ++ [t.bookValue - v + u.cumulativeFuturesPnl]
  earned : u.cumulativeFuturesPnl = (s.earn t.priceTicks).cumulativeFuturesPnl
  prevPriceTicks : u.prevPriceTicks = some t.priceTicks

theorem earn_eq (s : HedgeSession) (priceTicks : ℤ) :
    s.earn priceTicks =
      { s with cumulativeFuturesPnl := (s.earn priceTicks).cumulativeFuturesPnl } := by
  rw [earn]
  split <;> rfl

theorem round_of_step (h : s.step t = some (l, u)) : Round s t l u := by
  rw [step, earn_eq] at h
  simp only [mark, DeltaHedger.onPrice_eq, Option.bind_eq_bind, Option.bind_eq_some_iff] at h
  obtain ⟨v, hv, h⟩ := h
  obtain ⟨bufs, hbufs, rfl⟩ := foldlM_submit _ hv
  simp only [drain_eq, Option.pure_def, Option.some.injEq, Prod.mk.injEq] at h
  obtain ⟨rfl, rfl⟩ := h
  constructor
  · exact ⟨bufs, hbufs, rfl⟩
  · rfl
  · simp [gap, Function.comp_def]
  · simp
  · exact ⟨_, rfl, rfl, rfl, rfl⟩
  · rfl
  · rfl

/-- What the trades have earned at a price, in ticks. -/
def cashPnl (priceTicks : ℤ) (trades : List (ℤ × FillEvent)) : ℤ :=
  (trades.map fun p => p.2.signedQty * (priceTicks - p.2.priceTicks)).sum

/-- What the trades cost more than the prices of their rounds. -/
def slippage (trades : List (ℤ × FillEvent)) : ℤ :=
  (trades.map fun p => p.2.signedQty * (p.2.priceTicks - p.1)).sum

/-- What the loop books for the trades: each earns from the price of its round on. -/
def bookedPnl (priceTicks : ℤ) (trades : List (ℤ × FillEvent)) : ℤ :=
  (trades.map fun p => p.2.signedQty * (priceTicks - p.1)).sum

theorem bookedPnl_eq (priceTicks : ℤ) (trades : List (ℤ × FillEvent)) :
    bookedPnl priceTicks trades = cashPnl priceTicks trades + slippage trades := by
  rw [bookedPnl, cashPnl, slippage, ← List.sum_map_add]
  congr 2
  funext p
  ring

theorem bookedPnl_append (priceTicks : ℤ) (trades l : List (ℤ × FillEvent)) :
    bookedPnl priceTicks (trades ++ l) = bookedPnl priceTicks trades + bookedPnl priceTicks l := by
  simp [bookedPnl]

theorem bookedPnl_move (p q : ℤ) (trades : List (ℤ × FillEvent)) :
    bookedPnl q trades = bookedPnl p trades +
      (trades.map fun x => x.2.signedQty).sum * (q - p) := by
  induction trades with
  | nil => simp [bookedPnl]
  | cons x trades ih =>
    simp only [bookedPnl, List.map_cons, List.sum_cons] at ih ⊢
    rw [ih]
    ring

theorem bookedPnl_own {p : ℤ} (h : ∀ x ∈ l, x.1 = p) : bookedPnl p l = 0 := by
  refine List.sum_eq_zero ?_
  intro y hy
  obtain ⟨x, hx, rfl⟩ := List.mem_map.mp hy
  rw [h x hx, sub_self, mul_zero]

/-- The position is the net of the trades, and the futures P&L is what they are booked for. -/
structure Attributed (trades : List (ℤ × FillEvent)) (s : HedgeSession) : Prop where
  position : s.hedger.currentFuturesPosition = (trades.map fun p => p.2.signedQty).sum
  fresh : s.prevPriceTicks = none → trades = [] ∧ s.cumulativeFuturesPnl = 0
  booked : ∀ p, s.prevPriceTicks = some p → s.cumulativeFuturesPnl = bookedPnl p trades * 0.25

theorem Attributed.earn (h : Attributed trades s) (priceTicks : ℤ) :
    (s.earn priceTicks).cumulativeFuturesPnl = bookedPnl priceTicks trades * 0.25 := by
  rw [HedgeSession.earn]
  split
  · rename_i hprev
    obtain ⟨rfl, hzero⟩ := h.fresh hprev
    rw [hzero, bookedPnl, List.map_nil, List.sum_nil, Int.cast_zero, zero_mul]
  · rename_i p hprev
    rw [bookedPnl_move p, ← h.position, Int.cast_add, Int.cast_mul, add_mul, ← h.booked p hprev,
      mul_assoc]

theorem Attributed.step (h : Attributed trades s) (hst : s.step t = some (l, u)) :
    Attributed (trades ++ l) u := by
  have hr := round_of_step hst
  refine ⟨?_, ?_, ?_⟩
  · simp [hr.hedger, h.position]
  · intro hprev
    rw [hr.prevPriceTicks] at hprev
    cases hprev
  · intro p hprev
    rw [hr.prevPriceTicks, Option.some.injEq] at hprev
    subst hprev
    rw [hr.earned, h.earn, bookedPnl_append, bookedPnl_own hr.price, add_zero]

theorem Attributed.run (h : Machine.run HedgeSession.step (start band) ticks = some (trades, s)) :
    Attributed trades s :=
  run_history (P := Attributed) (fun _ _ _ _ _ hs hst => hs.step hst) h []
    ⟨rfl, fun _ => ⟨rfl, rfl⟩, fun _ hp => by cases hp⟩

/-- The series and the errors only grow, by one entry a tick. -/
theorem grows_run (h : Machine.run step s ticks = some (l, u)) :
    s.unhedgedPnl <+: u.unhedgedPnl ∧ s.hedgedPnl <+: u.hedgedPnl ∧
      s.hedger.hedgeErrorHistory <+: u.hedger.hedgeErrorHistory ∧
      u.unhedgedPnl.length = s.unhedgedPnl.length + ticks.length ∧
      u.hedgedPnl.length = s.hedgedPnl.length + ticks.length ∧
      u.hedger.hedgeErrorHistory.length = s.hedger.hedgeErrorHistory.length + ticks.length := by
  induction ticks generalizing s l with
  | nil =>
    obtain ⟨-, rfl⟩ := run_nil.mp h
    simp
  | cons t ticks ih =>
    obtain ⟨l₁, v, l₂, hst, hrest, rfl⟩ := run_cons.mp h
    have hr := round_of_step hst
    obtain ⟨x, -, -, hunhedged, hhedged⟩ := hr.marked
    obtain ⟨hu, hh, he, hulen, hhlen, helen⟩ := ih hrest
    rw [hunhedged] at hu hulen
    rw [hhedged] at hh hhlen
    rw [hr.hedger] at he helen
    refine ⟨(List.prefix_append _ _).trans hu, (List.prefix_append _ _).trans hh,
      (List.prefix_append _ _).trans he, ?_, ?_, ?_⟩
    · simp only [List.length_append, List.length_cons, List.length_nil] at hulen ⊢
      omega
    · simp only [List.length_append, List.length_cons, List.length_nil] at hhlen ⊢
      omega
    · simp only [List.length_append, List.length_cons, List.length_nil] at helen ⊢
      omega

theorem baselineValue_run (h : Machine.run step s ticks = some (l, u)) :
    u.baselineValue = s.baselineValue.or (ticks.head?.map HedgeTick.bookValue) := by
  induction ticks generalizing s l with
  | nil =>
    obtain ⟨-, rfl⟩ := run_nil.mp h
    simp
  | cons t ticks ih =>
    obtain ⟨l₁, v, l₂, hst, hrest, rfl⟩ := run_cons.mp h
    obtain ⟨x, rfl, hbase, -⟩ := (round_of_step hst).marked
    rw [ih hrest, hbase]
    cases s.baselineValue <;> rfl

theorem getElem?_of_concat_prefix {α : Type*} {xs ys : List α} {x : α} (h : xs ++ [x] <+: ys) :
    ys[xs.length]? = some x := by
  obtain ⟨zs, rfl⟩ := h
  simp

theorem round_of_run {before after : List HedgeTick}
    (h : Machine.run step (start band) (before ++ t :: after) = some (trades, u)) :
    ∃ trades₁ trades₂ s l v, Machine.run step (start band) before = some (trades₁, s) ∧
      trades = trades₁ ++ trades₂ ∧ Round s t l v ∧ v.unhedgedPnl <+: u.unhedgedPnl ∧
      v.hedgedPnl <+: u.hedgedPnl ∧
      v.hedger.hedgeErrorHistory <+: u.hedger.hedgeErrorHistory := by
  obtain ⟨trades₁, s, trades₂, hbefore, hrest, rfl⟩ := run_append.mp h
  obtain ⟨l, v, l', hst, hafter, rfl⟩ := run_cons.mp hrest
  obtain ⟨hunhedged, hhedged, herrors, -⟩ := grows_run hafter
  exact ⟨trades₁, l ++ l', s, l, v, hbefore, rfl, round_of_step hst, hunhedged, hhedged, herrors⟩

theorem error_at {before after : List HedgeTick} {trades₁ : List (ℤ × FillEvent)}
    (h : Machine.run step (start band) (before ++ t :: after) = some (trades, u))
    (hbefore : Machine.run step (start band) before = some (trades₁, s)) :
    u.hedger.hedgeErrorHistory[before.length]? = some (s.gap t) := by
  obtain ⟨trades₁', -, s', l, v, hbefore', -, hr, -, -, herrors⟩ := round_of_run h
  obtain ⟨rfl, rfl⟩ := Prod.mk.inj (Option.some.inj (hbefore.symm.trans hbefore'))
  obtain ⟨-, -, -, -, -, hlen⟩ := grows_run hbefore
  have hlen' : s.hedger.hedgeErrorHistory.length = before.length := hlen.trans (Nat.zero_add _)
  rw [hr.hedger] at herrors
  rw [← hlen']
  exact getElem?_of_concat_prefix herrors

/-- The entries of the two series for a round. -/
theorem series_at (before : List HedgeTick) {after : List HedgeTick}
    (h : Machine.run step (start band) (before ++ t :: after) = some (trades, u)) :
    ∃ trades₁ trades₂ s, Machine.run step (start band) before = some (trades₁, s) ∧
      trades = trades₁ ++ trades₂ ∧
      let change := t.bookValue - (before.headD t).bookValue
      u.unhedgedPnl[before.length]? = some change ∧
        u.hedgedPnl[before.length]? =
          some (change + bookedPnl t.priceTicks trades₁ * 0.25) := by
  obtain ⟨trades₁, trades₂, s, l, v, hbefore, rfl, hr, hunhedged, hhedged, -⟩ := round_of_run h
  refine ⟨trades₁, trades₂, s, hbefore, rfl, ?_⟩
  obtain ⟨-, -, -, hulen, hhlen, -⟩ := grows_run hbefore
  obtain ⟨x, hx, -, hu, hh⟩ := hr.marked
  have hfirst : x = (before.headD t).bookValue := by
    rw [hx, baselineValue_run hbefore]
    cases before <;> rfl
  rw [hfirst] at hu hh
  rw [hr.earned, (Attributed.run hbefore).earn] at hh
  rw [hu] at hunhedged
  rw [hh] at hhedged
  have hlen : s.unhedgedPnl.length = before.length := hulen.trans (Nat.zero_add _)
  have hlen' : s.hedgedPnl.length = before.length := hhlen.trans (Nat.zero_add _)
  exact ⟨hlen ▸ getElem?_of_concat_prefix hunhedged, hlen' ▸ getElem?_of_concat_prefix hhedged⟩

/-- In every run, at every round of it: the unhedged P&L is the change of the option book's value
since the first round, and the hedged P&L adds to it what the hedger's own fills before the round
have earned at its price, but for their slippage, which the loop does not charge. -/
theorem hedged_pnl_at_every_round (before : List HedgeTick) {after : List HedgeTick}
    (h : Machine.run step (start band) (before ++ t :: after) = some (trades, u)) :
    ∃ trades₁ trades₂ s, Machine.run step (start band) before = some (trades₁, s) ∧
      trades = trades₁ ++ trades₂ ∧
      let change := t.bookValue - (before.headD t).bookValue
      u.unhedgedPnl[before.length]? = some change ∧
        u.hedgedPnl[before.length]? =
          some (change + (cashPnl t.priceTicks trades₁ + slippage trades₁ : ℤ) * 0.25) := by
  obtain ⟨trades₁, trades₂, s, hbefore, htrades, hunhedged, hhedged⟩ := series_at before h
  rw [bookedPnl_eq] at hhedged
  exact ⟨trades₁, trades₂, s, hbefore, htrades, hunhedged, hhedged⟩

/-- Twelve sold at 99 in the round of 100: worth five ticks less each at 104, and booked with
four. -/
theorem hedged_pnl_at_every_round_after_a_sale :
    ∃ trades s, Machine.run step (start 5) [⟨100, 7, 25 / 2, [.fill ⟨7, 1, .buy, 99, 12, 1⟩]⟩,
        ⟨104, 9, 15, []⟩] = some (trades, s) ∧
      s.unhedgedPnl[1]? = some 2 ∧ s.hedgedPnl[1]? = some (2 + ((-60 + 12 : ℤ) : ℚ) * 0.25) := by
  have hrun : (Machine.run step (start 5) [⟨100, 7, 25 / 2, [.fill ⟨7, 1, .buy, 99, 12, 1⟩]⟩,
      ⟨104, 9, 15, []⟩]).isSome := by
    decide +kernel
  have hfirst : (Machine.run step (start 5) [⟨100, 7, 25 / 2,
      [.fill ⟨7, 1, .buy, 99, 12, 1⟩]⟩]).map Prod.fst =
        some [(100, ⟨7, 1, .buy, 99, 12, 1⟩)] := by
    decide +kernel
  obtain ⟨⟨trades, s⟩, hrun⟩ := Option.isSome_iff_exists.mp hrun
  obtain ⟨trades₁, -, v, hbefore, -, hunhedged, hhedged⟩ := hedged_pnl_at_every_round
    [⟨100, 7, 25 / 2, [.fill ⟨7, 1, .buy, 99, 12, 1⟩]⟩] hrun
  rw [hbefore] at hfirst
  obtain rfl := Option.some.inj hfirst
  refine ⟨trades, s, hrun, hunhedged.trans (congrArg some ?_), hhedged.trans (congrArg some ?_)⟩
  · norm_num
  · norm_num [cashPnl, slippage, FillEvent.signedQty, FillEvent.incomingSide, signed]

/-- What the orders of a hedger should look like, given its errors. -/
structure Hedges (s : HedgeSession) : Prop where
  nextId : s.hedger.nextId =
    1 + (DeltaHedger.hedges s.hedger.hedgeBand 1 s.hedger.hedgeErrorHistory).length
  rehedgeCount : s.hedger.rehedgeCount =
    (DeltaHedger.hedges s.hedger.hedgeBand 1 s.hedger.hedgeErrorHistory).length
  myOrderIds : ∀ id, id ∈ s.hedger.myOrderIds ↔ id ∈
    (DeltaHedger.hedges s.hedger.hedgeBand 1 s.hedger.hedgeErrorHistory).map OrderRequest.orderId
  sent : ∃ bufs, (DeltaHedger.hedges s.hedger.hedgeBand 1 s.hedger.hedgeErrorHistory).mapM
    (fun o => StrategyAction.encode (.order o)) = some bufs ∧ s.sent = bufs.flatten
  log : s.log.filter LogRow.isRequest =
    (DeltaHedger.hedges s.hedger.hedgeBand 1 s.hedger.hedgeErrorHistory).map
      (fun o => StrategyAction.row (.order o))

theorem hedges_append (band n : ℤ) (gaps gaps' : List ℤ) :
    DeltaHedger.hedges band n (gaps ++ gaps') = DeltaHedger.hedges band n gaps ++
      DeltaHedger.hedges band (n + (DeltaHedger.hedges band n gaps).length) gaps' := by
  induction gaps generalizing n with
  | nil => simp [DeltaHedger.hedges]
  | cons gap gaps ih =>
    by_cases hgap : |gap| ≤ band
    · simp only [List.cons_append, DeltaHedger.hedges, if_pos hgap]
      exact ih n
    · simp only [List.cons_append, DeltaHedger.hedges, if_neg hgap, ih (n + 1), List.length_cons]
      congr 3
      push_cast
      ring

theorem Hedges.step (h : Hedges s) (hst : s.step t = some (l, u)) : Hedges u := by
  have hr := round_of_step hst
  have happend := hedges_append s.hedger.hedgeBand 1 s.hedger.hedgeErrorHistory [s.gap t]
  rw [← h.nextId] at happend
  have hband : u.hedger.hedgeBand = s.hedger.hedgeBand := by rw [hr.hedger]
  have herrors : u.hedger.hedgeErrorHistory = s.hedger.hedgeErrorHistory ++ [s.gap t] := by
    rw [hr.hedger]
  constructor
  · rw [hband, herrors, happend, hr.hedger, List.length_append, h.nextId]
    push_cast
    ring
  · rw [hband, herrors, happend, hr.hedger, List.length_append, h.rehedgeCount]
    push_cast
    ring
  · intro id
    rw [hband, herrors, happend, hr.hedger, List.map_append, List.mem_append, ← h.myOrderIds]
    simp [or_comm]
  · obtain ⟨bufs, hbufs, hsent⟩ := h.sent
    obtain ⟨bufs', hbufs', hsent'⟩ := hr.orders
    refine ⟨bufs ++ bufs', ?_, by rw [hsent', hsent, List.flatten_append]⟩
    rw [hband, herrors, happend, List.mapM_append, hbufs, hbufs']
    rfl
  · have hrows := filter_isRequest_row
      ((DeltaHedger.hedges s.hedger.hedgeBand s.hedger.nextId [s.gap t]).map .order)
    rw [List.map_map] at hrows
    rw [hband, herrors, happend, hr.log, List.filter_append, List.filter_append, h.log,
      filter_isRequest_event, List.append_nil, List.map_append]
    exact congrArg _ hrows

/-- The band stays, and the server's rows are those of the events. -/
theorem rows_run (h : Machine.run step s ticks = some (l, u)) :
    u.hedger.hedgeBand = s.hedger.hedgeBand ∧
      u.log.filter (! LogRow.isRequest ·) = s.log.filter (! LogRow.isRequest ·) ++
        ticks.flatMap fun t => t.events.map Event.row := by
  induction ticks generalizing s l with
  | nil =>
    obtain ⟨-, rfl⟩ := run_nil.mp h
    simp
  | cons t ticks ih =>
    obtain ⟨l₁, v, l₂, hst, hrest, rfl⟩ := run_cons.mp h
    have hr := round_of_step hst
    obtain ⟨hband, hrows⟩ := ih hrest
    have hrequests := filter_not_isRequest_row
      ((DeltaHedger.hedges s.hedger.hedgeBand s.hedger.nextId [s.gap t]).map .order)
    rw [List.map_map] at hrequests
    refine ⟨hband.trans (by rw [hr.hedger]), ?_⟩
    rw [hrows, hr.log, List.filter_append, List.filter_append, filter_not_isRequest_event,
      List.flatMap_cons, ← List.append_assoc]
    congr 2
    exact (congrArg _ hrequests).trans (List.append_nil _)

theorem finish_eq (s : HedgeSession) (polls : List (List Event)) :
    s.finish polls = s.drain polls.flatten := by
  rw [finish, drain, List.foldl_flatten]
  rfl

/-- In every session: the errors are, round by round, what the hedger's own fills so far net to less
the target; the orders written to the connection and to the log are those that close the errors
beyond the band, numbered from 1 on, and nothing else; the rest of the log are the events. -/
theorem hedges_answer_errors (h : Machine.run step (start band) ticks = some (trades, s))
    (polls : List (List Event)) :
    let e := s.finish polls
    let errors := e.hedger.hedgeErrorHistory
    let orders := DeltaHedger.hedges band 1 errors
    errors.length = ticks.length ∧
      (∀ before t after, ticks = before ++ t :: after → ∃ trades₁ trades₂ v,
        Machine.run step (start band) before = some (trades₁, v) ∧ trades = trades₁ ++ trades₂ ∧
          errors[before.length]? = some
            ((trades₁.map fun p => p.2.signedQty).sum - roundHalfEven (-t.aggregateDelta))) ∧
      e.hedger.rehedgeCount = orders.length ∧
      (∃ bufs, orders.mapM (fun o => StrategyAction.encode (.order o)) = some bufs ∧
        e.sent = bufs.flatten) ∧
      e.log.filter LogRow.isRequest = orders.map (fun o => StrategyAction.row (.order o)) ∧
      e.log.filter (! LogRow.isRequest ·) =
        (ticks.flatMap HedgeTick.events ++ polls.flatten).map Event.row := by
  rw [finish_eq, drain_eq]
  intro e errors orders
  obtain ⟨hband, hrows⟩ := rows_run h
  have hhedges : Hedges s := run_invariant (P := Hedges) (fun _ _ _ _ hs hst => hs.step hst) h
    ⟨rfl, rfl, fun id => by simp [start, DeltaHedger.init, DeltaHedger.hedges], ⟨[], rfl, rfl⟩, rfl⟩
  have horders : DeltaHedger.hedges s.hedger.hedgeBand 1 errors = orders := by rw [hband]; rfl
  obtain ⟨-, -, -, -, -, hlen⟩ := grows_run h
  refine ⟨hlen.trans (Nat.zero_add _), ?_, ?_, ?_, ?_, ?_⟩
  · rintro before t after rfl
    obtain ⟨trades₁, trades₂, v, hbefore, htrades, -⟩ := series_at before h
    refine ⟨trades₁, trades₂, v, hbefore, htrades, ?_⟩
    have herror := error_at h hbefore
    rw [gap, (Attributed.run hbefore).position] at herror
    exact herror
  · rw [← horders]
    exact hhedges.rehedgeCount
  · rw [← horders]
    exact hhedges.sent
  · rw [← horders, List.filter_append, filter_isRequest_event, List.append_nil]
    exact hhedges.log
  · rw [List.filter_append, filter_not_isRequest_event, hrows, List.map_append, List.map_flatMap]
    rfl

/-- Twelve sold, filled a tick low, and one ack in the last poll. -/
theorem hedges_answer_errors_of_a_sale :
    ∃ trades s, Machine.run step (start 5) [⟨100, 7, 25 / 2, [.fill ⟨7, 1, .buy, 99, 12, 1⟩]⟩,
        ⟨104, 9, 15, []⟩] = some (trades, s) ∧
      (s.finish [[.ack ⟨1, 1, 0⟩]]).log.filter (! LogRow.isRequest ·) =
        [.fill 7 1 .sell 99 12, .ack 1 0] := by
  have hrun : (Machine.run step (start 5) [⟨100, 7, 25 / 2, [.fill ⟨7, 1, .buy, 99, 12, 1⟩]⟩,
      ⟨104, 9, 15, []⟩]).isSome := by
    decide +kernel
  obtain ⟨⟨trades, s⟩, hrun⟩ := Option.isSome_iff_exists.mp hrun
  exact ⟨trades, s, hrun, (hedges_answer_errors hrun [[.ack ⟨1, 1, 0⟩]]).2.2.2.2.2⟩

end HedgeSession
end Velo.Strategy
