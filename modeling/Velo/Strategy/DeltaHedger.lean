import Velo.Lib.Fold
import Velo.Lib.Rounding
import Velo.Strategy.Quoter

/-! `strategy/orderbook_client/delta_hedger.py`, and what it does while its orders are in flight. -/
namespace Velo.Strategy
open Fold Machine

/-- Python's `round`: to the nearest integer, halves to the even one. -/
def roundHalfEven (x : ℚ) : ℤ :=
  let below := x.num / x.den
  let rest := x.num % x.den
  if 2 * rest < x.den then below
  else if x.den < 2 * rest then below + 1
  else if below % 2 = 0 then below
  else below + 1

theorem roundHalfEven_nearest (x : ℚ) : NearestEven x (roundHalfEven x) := by
  have hx : (x.num / x.den : ℤ) + (x.num % x.den : ℤ) / (x.den : ℚ) = x := by
    have hden : (x.den : ℚ) ≠ 0 := Nat.cast_ne_zero.mpr x.den_pos.ne'
    have hnum : (x.den : ℚ) * (x.num / x.den : ℤ) + (x.num % x.den : ℤ) = x.num := by
      exact_mod_cast Int.mul_ediv_add_emod x.num x.den
    rw [← mul_div_cancel_left₀ ((x.num / x.den : ℤ) : ℚ) hden, ← add_div, hnum, Rat.num_div_den]
  have hnear : NearestEven ((x.num / x.den : ℤ) + (x.num % x.den : ℤ) / (x.den : ℚ))
      (roundHalfEven x) :=
    nearestEven_add_div (Int.emod_nonneg x.num (Nat.cast_ne_zero.mpr x.den_pos.ne'))
      (Int.emod_lt_of_pos x.num (Nat.cast_pos.mpr x.den_pos))
  rwa [hx] at hnear

/-- `nextId` is what `itertools.count(1)` yields next. -/
structure DeltaHedger where
  hedgeBand : ℤ
  nextId : ℤ
  currentFuturesPosition : ℤ
  myOrderIds : Finset ℤ
  hedgeErrorHistory : List ℤ
  rehedgeCount : ℤ
  deriving DecidableEq

namespace DeltaHedger

def init (hedgeBandContracts : ℤ) : DeltaHedger := ⟨hedgeBandContracts, 1, 0, ∅, [], 0⟩

/-- `aggregateDelta` is what the option book answers for the price. -/
def onPrice (h : DeltaHedger) (aggregateDelta : ℚ) : List StrategyAction × DeltaHedger :=
  let targetFuturesPosition := -aggregateDelta
  let hedgeError := h.currentFuturesPosition - roundHalfEven targetFuturesPosition
  let h := { h with hedgeErrorHistory := h.hedgeErrorHistory ++ [hedgeError] }
  if |hedgeError| ≤ h.hedgeBand then ([], h)
  else
    let side := if 0 < hedgeError then .sell else .buy
    ([.order ⟨h.nextId, side, .market, 0, |hedgeError|⟩],
      { h with
        rehedgeCount := h.rehedgeCount + 1
        nextId := h.nextId + 1
        myOrderIds := insert h.nextId h.myOrderIds })

def onFill (h : DeltaHedger) (event : FillEvent) : DeltaHedger :=
  if event.incomingOrderId ∉ h.myOrderIds then h
  else
    let signedQty := if event.incomingSide = .buy then event.quantity else -event.quantity
    { h with currentFuturesPosition := h.currentFuturesPosition + signedQty }

end DeltaHedger

/-- Where the position should be, in whole contracts. -/
def targetOf (aggregateDelta : ℚ) : ℤ := roundHalfEven (-aggregateDelta)

def signed : Side → ℤ → ℤ
  | .buy, quantity => quantity
  | .sell, quantity => -quantity

def FillEvent.signedQty (event : FillEvent) : ℤ := signed event.incomingSide event.quantity

theorem DeltaHedger.onFill_of_mem {h : DeltaHedger} {event : FillEvent}
    (hmem : event.incomingOrderId ∈ h.myOrderIds) :
    h.onFill event =
      { h with currentFuturesPosition := h.currentFuturesPosition + event.signedQty } := by
  have hqty : (if event.incomingSide = .buy then event.quantity else -event.quantity) =
      event.signedQty := by
    rw [FillEvent.signedQty]
    cases event.incomingSide <;> rfl
  simp only [onFill, hmem, not_true_eq_false, if_false, hqty]

/-- The hedger, and its orders with the quantities that no fill has reported yet. -/
structure Hedging where
  hedger : DeltaHedger
  unreported : List OrderRequest
  deriving DecidableEq

inductive HedgeEvent
  | price (aggregateDelta : ℚ)
  | fill (event : FillEvent)
  deriving DecidableEq

/-- Just after an `on_price`: where the position should be, where it is by the fills reported so
far, and what the orders in flight will add. -/
structure Exposure where
  target : ℤ
  position : ℤ
  inFlight : ℤ
  deriving DecidableEq

namespace Hedging

def start (hedgeBandContracts : ℤ) : Hedging := ⟨.init hedgeBandContracts, []⟩

def inFlight (s : Hedging) : ℤ := (s.unreported.map fun o => signed o.side o.quantity).sum

def onPrice (s : Hedging) (aggregateDelta : ℚ) : Hedging :=
  let r := s.hedger.onPrice aggregateDelta
  { hedger := r.2
    unreported := s.unreported ++ r.1.filterMap fun
      | .order request => some request
      | .cancel _ => none }

def report (event : FillEvent) (o : OrderRequest) : OrderRequest :=
  if o.orderId = event.incomingOrderId then { o with quantity := o.quantity - event.quantity }
  else o

/-- A fill reports part of an order of the hedger, or what is left of it. -/
def Reports (event : FillEvent) (o : OrderRequest) : Prop :=
  o.orderId = event.incomingOrderId ∧ o.side = event.incomingSide ∧ 0 < event.quantity ∧
    event.quantity ≤ o.quantity

instance (event : FillEvent) (o : OrderRequest) : Decidable (Reports event o) :=
  inferInstanceAs (Decidable (_ ∧ _))

def step (s : Hedging) : HedgeEvent → Option (List Exposure × Hedging)
  | .price aggregateDelta =>
    let t := s.onPrice aggregateDelta
    some ([⟨targetOf aggregateDelta, t.hedger.currentFuturesPosition, t.inFlight⟩], t)
  | .fill event =>
    if ∃ o ∈ s.unreported, Reports event o then
      some ([], ⟨s.hedger.onFill event, s.unreported.map (report event)⟩)
    else none

end Hedging

/-- What the events alone tell, without the hedger: where the last order aimed, and what has been
reported. An order closes the gap that the reported position leaves, so it aims at its target and
besides at whatever is in flight when it is sent. -/
structure Aim where
  aimed : ℤ
  reported : ℤ
  deriving DecidableEq

namespace Aim

def start : Aim := ⟨0, 0⟩

/-- What is ordered and not yet reported. -/
def inFlight (a : Aim) : ℤ := a.aimed - a.reported

def after (band : ℤ) (a : Aim) : HedgeEvent → Aim
  | .price aggregateDelta =>
    if |a.reported - targetOf aggregateDelta| ≤ band then a
    else { a with aimed := targetOf aggregateDelta + a.inFlight }
  | .fill event => { a with reported := a.reported + event.signedQty }

/-- An order is sent while no more than the band is in flight; and where none is sent, the target is
still within the band of where the last one aimed. -/
def OnTarget (band : ℤ) (a : Aim) : HedgeEvent → Prop
  | .price aggregateDelta =>
    if |a.reported - targetOf aggregateDelta| ≤ band then
      |a.aimed - targetOf aggregateDelta| ≤ band
    else |a.inFlight| ≤ band
  | .fill _ => True

instance (band : ℤ) (a : Aim) (e : HedgeEvent) : Decidable (a.OnTarget band e) := by
  cases e <;> unfold OnTarget <;> infer_instance

/-- The price comes when all that was ordered has been reported. -/
def Quiet (a : Aim) : HedgeEvent → Prop
  | .price _ => a.inFlight = 0
  | .fill _ => True

theorem Quiet.onTarget {band : ℤ} (hband : 0 ≤ band) {a : Aim} {e : HedgeEvent} (h : a.Quiet e) :
    a.OnTarget band e := by
  cases e with
  | fill event => trivial
  | price aggregateDelta =>
    have hquiet : a.inFlight = 0 := h
    have haimed : a.aimed = a.reported := sub_eq_zero.mp hquiet
    simp only [OnTarget, haimed, hquiet, abs_zero]
    split
    · assumption
    · exact hband

end Aim

namespace Hedging

variable {s t : Hedging} {band : ℤ} {e : HedgeEvent} {l : List Exposure} {aggregateDelta : ℚ}
  {a : Aim} {orders : List OrderRequest} {event : FillEvent}

/-- An order closes the gap that the reported position leaves, under an id of its own. -/
theorem onPrice_cases (s : Hedging) (aggregateDelta : ℚ) :
    let gap := s.hedger.currentFuturesPosition - targetOf aggregateDelta
    (s.onPrice aggregateDelta).hedger.currentFuturesPosition = s.hedger.currentFuturesPosition ∧
      (s.onPrice aggregateDelta).hedger.hedgeBand = s.hedger.hedgeBand ∧
      ((|gap| ≤ s.hedger.hedgeBand ∧ (s.onPrice aggregateDelta).unreported = s.unreported ∧
          (s.onPrice aggregateDelta).hedger.myOrderIds = s.hedger.myOrderIds ∧
          (s.onPrice aggregateDelta).hedger.nextId = s.hedger.nextId) ∨
        ¬ |gap| ≤ s.hedger.hedgeBand ∧ ∃ order, order.orderId = s.hedger.nextId ∧
          signed order.side order.quantity = -gap ∧
          (s.onPrice aggregateDelta).unreported = s.unreported ++ [order] ∧
          (s.onPrice aggregateDelta).hedger.myOrderIds =
            insert s.hedger.nextId s.hedger.myOrderIds ∧
          (s.onPrice aggregateDelta).hedger.nextId = s.hedger.nextId + 1) := by
  intro gap
  by_cases hgap : |gap| ≤ s.hedger.hedgeBand
  · have hquiet : s.hedger.onPrice aggregateDelta =
        ([], { s.hedger with hedgeErrorHistory := s.hedger.hedgeErrorHistory ++ [gap] }) :=
      if_pos hgap
    simp [onPrice, hquiet, hgap]
  · have hside : signed (if 0 < gap then .sell else .buy) |gap| = -gap := by
      by_cases hpos : 0 < gap
      · simp [hpos, signed, abs_of_pos hpos]
      · simp [hpos, signed, abs_of_nonpos (not_lt.1 hpos)]
    have horder : s.hedger.onPrice aggregateDelta =
        ([.order ⟨s.hedger.nextId, if 0 < gap then .sell else .buy, .market, 0, |gap|⟩],
          { s.hedger with
            hedgeErrorHistory := s.hedger.hedgeErrorHistory ++ [gap]
            rehedgeCount := s.hedger.rehedgeCount + 1
            nextId := s.hedger.nextId + 1
            myOrderIds := insert s.hedger.nextId s.hedger.myOrderIds }) :=
      if_neg hgap
    simp [onPrice, horder, hgap, hside]

/-- The observer knows the position and all that is ordered; the orders in flight are the hedger's
own, told apart by their ids. -/
structure Follows (band : ℤ) (a : Aim) (s : Hedging) : Prop where
  band : s.hedger.hedgeBand = band
  reported : s.hedger.currentFuturesPosition = a.reported
  aimed : s.hedger.currentFuturesPosition + s.inFlight = a.aimed
  mine : ∀ o ∈ s.unreported, o.orderId ∈ s.hedger.myOrderIds
  issued : ∀ o ∈ s.unreported, o.orderId < s.hedger.nextId
  distinct : (s.unreported.map OrderRequest.orderId).Nodup

theorem follows_start (band : ℤ) : Follows band .start (start band) where
  band := rfl
  reported := rfl
  aimed := rfl
  mine := by simp [start]
  issued := by simp [start]
  distinct := by simp [start]

theorem Follows.inFlight (h : Follows band a s) : s.inFlight = a.inFlight := by
  have haimed := h.aimed
  rw [h.reported] at haimed
  rw [Aim.inFlight]
  omega

theorem map_orderId_report (event : FillEvent) (orders : List OrderRequest) :
    (orders.map (report event)).map OrderRequest.orderId = orders.map OrderRequest.orderId := by
  rw [List.map_map]
  refine List.map_congr_left fun o _ => ?_
  simp only [Function.comp_apply, report]
  split <;> rfl

theorem map_report_of_notMem (h : event.incomingOrderId ∉ orders.map OrderRequest.orderId) :
    orders.map (report event) = orders := by
  conv_rhs => rw [← List.map_id orders]
  refine List.map_congr_left fun o ho => if_neg ?_
  rintro hid
  exact h (hid ▸ List.mem_map_of_mem ho)

/-- A report takes from the orders in flight what it adds to the position. -/
theorem sum_report (hids : (orders.map OrderRequest.orderId).Nodup)
    (h : ∃ o ∈ orders, Reports event o) :
    ((orders.map (report event)).map fun o => signed o.side o.quantity).sum =
      (orders.map fun o => signed o.side o.quantity).sum - event.signedQty := by
  induction orders with
  | nil => simp at h
  | cons o orders ih =>
    rw [List.map_cons, List.nodup_cons] at hids
    obtain ⟨hfirst, hrest⟩ := hids
    obtain ⟨o', ho', hreports⟩ := h
    rcases List.mem_cons.mp ho' with rfl | ho'
    · obtain ⟨hid, hside, -⟩ := hreports
      rw [List.map_cons, List.map_cons, List.sum_cons, List.map_cons, List.sum_cons,
        map_report_of_notMem (hid ▸ hfirst), report, if_pos hid, hside,
        FillEvent.signedQty]
      cases event.incomingSide <;> simp only [signed] <;> omega
    · have hne : o.orderId ≠ event.incomingOrderId := by
        rintro hid
        exact hfirst (hid ▸ hreports.1 ▸ List.mem_map_of_mem ho')
      rw [List.map_cons, List.map_cons, List.sum_cons, List.map_cons, List.sum_cons,
        ih hrest ⟨o', ho', hreports⟩, report, if_neg hne]
      omega

theorem Follows.fill (h : Follows band a s) (hreports : ∃ o ∈ s.unreported, Reports event o) :
    Follows band (a.after band (.fill event))
      ⟨s.hedger.onFill event, s.unreported.map (report event)⟩ := by
  have ⟨o, ho, hid, _⟩ := hreports
  rw [DeltaHedger.onFill_of_mem (hid ▸ h.mine o ho)]
  have hids := map_orderId_report event s.unreported
  have hmem : ∀ o' ∈ s.unreported.map (report event),
      ∃ o ∈ s.unreported, o.orderId = o'.orderId := by
    intro o' ho'
    have hid' := List.mem_map_of_mem (f := OrderRequest.orderId) ho'
    rw [hids] at hid'
    exact List.mem_map.mp hid'
  constructor
  · exact h.band
  · exact congrArg (· + _) h.reported
  · have haimed := h.aimed
    simp only [Hedging.inFlight, Aim.after] at haimed ⊢
    rw [sum_report h.distinct hreports]
    omega
  · intro o' ho'
    obtain ⟨o, ho, hsame⟩ := hmem o' ho'
    exact hsame ▸ h.mine o ho
  · intro o' ho'
    obtain ⟨o, ho, hsame⟩ := hmem o' ho'
    exact hsame ▸ h.issued o ho
  · exact hids ▸ h.distinct

theorem Follows.price (h : Follows band a s) (aggregateDelta : ℚ) :
    Follows band (a.after band (.price aggregateDelta)) (s.onPrice aggregateDelta) ∧
      (|(s.onPrice aggregateDelta).hedger.currentFuturesPosition +
          (s.onPrice aggregateDelta).inFlight - targetOf aggregateDelta| ≤ band ↔
        a.OnTarget band (.price aggregateDelta)) := by
  have hflight := h.inFlight
  obtain ⟨hposition, hkeep, hcases⟩ := onPrice_cases s aggregateDelta
  rw [h.band, h.reported] at hcases
  have haimed : a.reported + a.inFlight = a.aimed := by
    rw [Aim.inFlight]
    omega
  rcases hcases with ⟨hgap, hsame, hmine, hnext⟩ | ⟨hgap, order, hid, hsigned, hmore, hmine, hnext⟩
  · have hinFlight : (s.onPrice aggregateDelta).inFlight = a.inFlight := by
      rw [← hflight, Hedging.inFlight, hsame, Hedging.inFlight]
    have hafter : a.after band (.price aggregateDelta) = a := if_pos hgap
    refine ⟨?_, ?_⟩
    · rw [hafter]
      refine ⟨hkeep.trans h.band, hposition.trans h.reported, ?_, ?_, ?_, ?_⟩
      · rw [hposition, h.reported, hinFlight, haimed]
      · rw [hsame, hmine]
        exact h.mine
      · rw [hsame, hnext]
        exact h.issued
      · rw [hsame]
        exact h.distinct
    · rw [hposition, h.reported, hinFlight, haimed, Aim.OnTarget, if_pos hgap]
  · have hinFlight : (s.onPrice aggregateDelta).inFlight =
        a.inFlight - (a.reported - targetOf aggregateDelta) := by
      rw [← hflight, Hedging.inFlight, hmore, List.map_append, List.sum_append, List.map_singleton,
        List.sum_singleton, hsigned, ← sub_eq_add_neg]
      rfl
    have hafter : a.after band (.price aggregateDelta) =
        { a with aimed := targetOf aggregateDelta + a.inFlight } := if_neg hgap
    have hfresh : order.orderId ∉ s.unreported.map OrderRequest.orderId := by
      intro hmem
      obtain ⟨o, ho, hsame⟩ := List.mem_map.mp hmem
      have hlt := h.issued o ho
      omega
    refine ⟨?_, ?_⟩
    · rw [hafter]
      refine ⟨hkeep.trans h.band, hposition.trans h.reported, ?_, ?_, ?_, ?_⟩
      · rw [hposition, h.reported, hinFlight]
        change _ = targetOf aggregateDelta + a.inFlight
        omega
      · rw [hmore, hmine, List.forall_mem_append, List.forall_mem_singleton, hid]
        exact ⟨fun o ho => Finset.mem_insert_of_mem (h.mine o ho), Finset.mem_insert_self _ _⟩
      · rw [hmore, hnext, List.forall_mem_append, List.forall_mem_singleton, hid]
        exact ⟨fun o ho => (h.issued o ho).trans (Int.lt_succ _), Int.lt_succ _⟩
      · rw [hmore, List.map_append, List.map_singleton, List.nodup_append]
        refine ⟨h.distinct, List.nodup_singleton _, ?_⟩
        rintro id hmem _ hlast rfl
        exact hfresh (List.mem_singleton.mp hlast ▸ hmem)
    · have hcancel : a.reported + (a.inFlight - (a.reported - targetOf aggregateDelta)) -
          targetOf aggregateDelta = a.inFlight := by
        omega
      rw [hposition, h.reported, hinFlight, hcancel, Aim.OnTarget, if_neg hgap]

theorem Follows.step (h : Follows band a s) (hst : s.step e = some (l, t)) :
    Follows band (a.after band e) t ∧
      ((∀ x ∈ l, |x.position + x.inFlight - x.target| ≤ band) ↔ a.OnTarget band e) := by
  cases e with
  | price aggregateDelta =>
    simp only [Hedging.step, Option.some.injEq, Prod.mk.injEq] at hst
    obtain ⟨rfl, rfl⟩ := hst
    simpa only [List.mem_singleton, forall_eq] using h.price aggregateDelta
  | fill event =>
    simp only [Hedging.step] at hst
    split at hst
    · rename_i hreports
      simp only [Option.some.injEq, Prod.mk.injEq] at hst
      obtain ⟨rfl, rfl⟩ := hst
      exact ⟨h.fill hreports, by simp [Aim.OnTarget]⟩
    · simp at hst

/-- For every band, every sequence of deltas and every order in which fills are reported: after
every `on_price` the position with the orders in flight is within the band of the target exactly if
no order is sent with more than the band in flight, and no order is left out with the target farther
than the band from where the last one aimed. So it is if all is reported before every price. -/
theorem hedge_bounded_iff (band : ℤ) {es : List HedgeEvent} {log : List Exposure}
    (h : run step (start band) es = some (log, s)) :
    ((∀ x ∈ log, |x.position + x.inFlight - x.target| ≤ band) ↔
        Throughout (Aim.after band) (Aim.OnTarget band) .start es) ∧
      (0 ≤ band → Throughout (Aim.after band) Aim.Quiet .start es →
        ∀ x ∈ log, |x.position + x.inFlight - x.target| ≤ band) := by
  have hiff : (∀ x ∈ log, |x.position + x.inFlight - x.target| ≤ band) ↔
      Throughout (Aim.after band) (Aim.OnTarget band) .start es :=
    Fold.forall_log_iff (fun _ _ _ _ _ hs hst => hs.step hst) h (follows_start band)
  exact ⟨hiff, fun hband hquiet => hiff.mpr (hquiet.mono fun _ _ hq => hq.onTarget hband)⟩

/-- Twelve sold, reported in two parts before the next price. -/
theorem hedge_bounded_at_fills :
    ∃ log s, run step (start 5) [.price (25 / 2), .fill ⟨7, 1, .buy, 100, 4, 1⟩,
        .fill ⟨9, 1, .buy, 99, 8, 2⟩, .price 20] = some (log, s) ∧
      ∀ x ∈ log, |x.position + x.inFlight - x.target| ≤ 5 := by
  have hlog : (run step (start 5) [.price (25 / 2), .fill ⟨7, 1, .buy, 100, 4, 1⟩,
      .fill ⟨9, 1, .buy, 99, 8, 2⟩, .price 20]).map Prod.fst =
        some [⟨-12, 0, -12⟩, ⟨-20, -12, -8⟩] := by
    decide +kernel
  obtain ⟨⟨log, s⟩, hrun, -⟩ := Option.map_eq_some_iff.1 hlog
  exact ⟨log, s, hrun, (hedge_bounded_iff 5 hrun).1.mpr (by decide +kernel)⟩

/-- A second price before the first order is reported: twenty sold for a target of minus ten. -/
theorem hedged_twice :
    ∃ log s, run step (start 5) [.price 10, .price 10] = some (log, s) ∧
      ∃ x ∈ log, ¬ |x.position + x.inFlight - x.target| ≤ 5 := by
  have hlog : (run step (start 5) [.price 10, .price 10]).map Prod.fst =
      some [⟨-10, 0, -10⟩, ⟨-10, 0, -20⟩] := by
    decide +kernel
  obtain ⟨⟨log, s⟩, hrun, rfl⟩ := Option.map_eq_some_iff.1 hlog
  exact ⟨_, s, hrun, ⟨-10, 0, -20⟩, by simp, by decide⟩

end Hedging
end Velo.Strategy
