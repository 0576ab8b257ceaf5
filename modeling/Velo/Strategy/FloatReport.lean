import Velo.Lib.Binary64
import Velo.Strategy.Report

/-! `backtest_report.py` on its own floats. Integers are exact in Python, and an operation that
raises is `none`. -/
namespace Velo.Strategy
open Binary64 Fold Machine Risk

/-- Python's `round` of a float. -/
def round (x : Float.Model) : Option ℤ := (value x).map roundHalfEven

structure FloatReplay where
  netPosition : ℤ
  realizedPnlTicks : ℤ
  avgEntryPriceTicks : Float.Model
  deriving DecidableEq

namespace FloatReplay

def init : FloatReplay := ⟨0, 0, .ofInt 0⟩

/-- The fill's own realized P&L is returned with the state. -/
def onFill (p : FloatReplay) (incomingSide quantity priceTicks : ℤ) : Option (ℤ × FloatReplay) := do
  let signedQty := if incomingSide = 0 then quantity else -quantity
  if p.netPosition = 0 ∨ sign p.netPosition = sign signedQty then
    let oldAbs := |p.netPosition|
    let addAbs := |signedQty|
    let old ← ofInt oldAbs
    let added ← ofInt (priceTicks * addAbs)
    let both ← ofInt (oldAbs + addAbs)
    let avg ← div (p.avgEntryPriceTicks * old + added) both
    return (0, { p with
      avgEntryPriceTicks := avg
      netPosition := p.netPosition + signedQty })
  else
    let direction := sign p.netPosition
    let closingQty := min |signedQty| |p.netPosition|
    let closed ← ofInt (direction * closingQty)
    let price ← ofInt priceTicks
    let delta ← round (closed * (price - p.avgEntryPriceTicks))
    let p :=
      { p with
        realizedPnlTicks := p.realizedPnlTicks + delta
        netPosition := p.netPosition + signedQty }
    if p.netPosition ≠ 0 ∧ sign p.netPosition ≠ direction then
      return (delta, { p with avgEntryPriceTicks := price })
    else return (delta, p)

end FloatReplay

structure FloatReport where
  sharpeRatio : Float.Model
  maxDrawdownTicks : ℤ
  winRate : Float.Model
  numTrades : ℕ
  totalRealizedPnlTicks : ℤ

/-- What `build_report` accumulates over the rows. -/
structure FloatLoop where
  replay : FloatReplay
  tradePnls : List ℤ
  equityCurve : List ℤ

namespace FloatLoop

def start : FloatLoop := ⟨.init, [], [0]⟩

def step (s : FloatLoop) : TradeLogRow → Option FloatLoop
  | .fill row => do
    let (delta, replay) ← s.replay.onFill row.incomingSide row.qty row.priceTicks
    return {
      replay
      tradePnls := if delta ≠ 0 then s.tradePnls ++ [delta] else s.tradePnls
      equityCurve := s.equityCurve ++ [s.equityCurve.getLastD 0 + delta] }
  | _ => some s

end FloatLoop

section

-- `statistics.mean` and `statistics.stdev` of some integers, and the power of two floats
variable (mean stdev : List ℤ → Float.Model) (pow : Float.Model → Float.Model → Float.Model)

def floatSharpeRatio (tradePnls : List ℤ) (periodsPerYear : Float.Model) : Float.Model :=
  if tradePnls.length < 2 then .ofInt 0
  else
    let mean := mean tradePnls
    let stdev := stdev tradePnls
    if stdev == .ofInt 0 then .ofInt 0 else mean / stdev * pow periodsPerYear (quotient 1 2)

def floatWinRate (tradePnls : List ℤ) : Float.Model :=
  if tradePnls = [] then .ofInt 0
  else quotient (tradePnls.filter (0 < ·)).length tradePnls.length

def buildFloatReport (tradeLogRows : List TradeLogRow) (periodsPerYear : Float.Model) :
    Option FloatReport := do
  let loop ← tradeLogRows.foldlM FloatLoop.step .start
  return {
    sharpeRatio := floatSharpeRatio mean stdev pow loop.tradePnls periodsPerYear
    maxDrawdownTicks := maxDrawdown loop.equityCurve
    winRate := floatWinRate loop.tradePnls
    numTrades := loop.tradePnls.length
    totalRealizedPnlTicks := loop.replay.realizedPnlTicks }

end

/-- What becomes of a fill row: whether it reduces, closes or flips the position, and the P&L that
it realizes. -/
structure RowEffect where
  closes : Bool
  delta : ℤ
  deriving DecidableEq

/-- It closes something, and at a profit. -/
def RowEffect.Wins (e : RowEffect) : Prop := e.closes ∧ 0 < e.delta

instance : DecidablePred RowEffect.Wins := fun _ => inferInstanceAs (Decidable (_ ∧ _))

namespace FloatReplay

def step (r : FloatReplay) (row : FillRow) : Option (List RowEffect × FloatReplay) :=
  (r.onFill row.incomingSide row.qty row.priceTicks).map fun (delta, r') =>
    ([⟨¬ Adds r.netPosition row.signedQty, delta⟩], r')

/-- What a closing row realizes, before it is rounded to ticks. -/
def amount (r : FloatReplay) (row : FillRow) : Option ℚ := do
  let closed ← ofInt (closedQty r.netPosition row.signedQty)
  let price ← ofInt row.priceTicks
  value (closed * (price - r.avgEntryPriceTicks))

/-- A closing row realizes more than half a tick. -/
def Counts (r : FloatReplay) (row : FillRow) : Prop :=
  ¬ Adds r.netPosition row.signedQty → ∃ amount ∈ r.amount row, 1 / 2 < |amount|

end FloatReplay

/-- The rows that reduce, close or flip the position. -/
def closings (rows : List TradeLogRow) : ℕ :=
  countAlong (fun net (row : FillRow) => net + row.signedQty)
    (fun net row => ¬ Adds net row.signedQty) 0 (rows.filterMap TradeLogRow.fill?)

/-- Those among them that realize a profit. -/
def winningClosings (rows : List TradeLogRow) : ℕ :=
  (Machine.run FloatReplay.step .init (rows.filterMap TradeLogRow.fill?)).elim 0 fun p =>
    (p.1.filter RowEffect.Wins).length

/-- The trades of the report are the closing rows, and its winners are counted among these. -/
def CountsClosings (report : FloatReport) (rows : List TradeLogRow) : Prop :=
  report.numTrades = closings rows ∧
    report.winRate =
      if closings rows = 0 then .ofInt 0 else quotient (winningClosings rows) (closings rows)

instance (report : FloatReport) (rows : List TradeLogRow) :
    Decidable (CountsClosings report rows) :=
  inferInstanceAs (Decidable (_ ∧ _))

namespace FloatReplay

variable {r r' : FloatReplay} {row : FillRow} {fills : List FillRow} {effects : List RowEffect}
  {delta : ℤ}

/-- All that a row does where nothing raises. -/
theorem onFill_cases (h : r.onFill row.incomingSide row.qty row.priceTicks = some (delta, r')) :
    r'.netPosition = r.netPosition + row.signedQty ∧
      ((Adds r.netPosition row.signedQty ∧ delta = 0) ∨
        ¬ Adds r.netPosition row.signedQty ∧
          ∃ amount ∈ r.amount row, delta = roundHalfEven amount) := by
  have hqty : (if row.incomingSide = 0 then (row.qty : ℤ) else -row.qty) = row.signedQty := rfl
  simp only [onFill, hqty, sign_eq] at h
  by_cases hadds : Adds r.netPosition row.signedQty
  · obtain ⟨old, -, h⟩ := Option.bind_eq_some_iff.mp ((if_pos hadds).symm.trans h)
    obtain ⟨added, -, h⟩ := Option.bind_eq_some_iff.mp h
    obtain ⟨both, -, h⟩ := Option.bind_eq_some_iff.mp h
    obtain ⟨avg, -, h⟩ := Option.bind_eq_some_iff.mp h
    cases h
    exact ⟨rfl, Or.inl ⟨hadds, rfl⟩⟩
  · obtain ⟨closed, hclosed, h⟩ := Option.bind_eq_some_iff.mp ((if_neg hadds).symm.trans h)
    obtain ⟨price, hprice, h⟩ := Option.bind_eq_some_iff.mp h
    obtain ⟨delta', hdelta, h⟩ := Option.bind_eq_some_iff.mp h
    obtain ⟨amount, hamount, rfl⟩ := Option.map_eq_some_iff.mp hdelta
    have hmem : amount ∈ r.amount row :=
      Option.bind_eq_some_iff.mpr ⟨closed, hclosed,
        Option.bind_eq_some_iff.mpr ⟨price, hprice, hamount⟩⟩
    split at h
    · cases h
      exact ⟨rfl, Or.inr ⟨hadds, amount, hmem, rfl⟩⟩
    · cases h
      exact ⟨rfl, Or.inr ⟨hadds, amount, hmem, rfl⟩⟩

theorem step_cases (h : r.step row = some (effects, r')) :
    ∃ delta, effects = [⟨¬ Adds r.netPosition row.signedQty, delta⟩] ∧
      r.onFill row.incomingSide row.qty row.priceTicks = some (delta, r') := by
  obtain ⟨⟨delta, r''⟩, hfill, heq⟩ := Option.map_eq_some_iff.mp h
  cases heq
  exact ⟨delta, rfl, hfill⟩

theorem closes_of_delta (h : r.step row = some (effects, r')) :
    ∀ e ∈ effects, e.delta ≠ 0 → e.closes := by
  obtain ⟨delta, rfl, hfill⟩ := step_cases h
  intro e he hdelta
  rw [List.mem_singleton.mp he] at hdelta ⊢
  rcases (onFill_cases hfill).2 with ⟨-, hzero⟩ | ⟨hcloses, -⟩
  · exact absurd hzero hdelta
  · exact decide_eq_true hcloses

theorem delta_iff_counts (h : r.step row = some (effects, r')) :
    (∀ e ∈ effects, e.closes → e.delta ≠ 0) ↔ r.Counts row := by
  obtain ⟨delta, rfl, hfill⟩ := step_cases h
  rw [List.forall_mem_singleton, decide_eq_true_iff, Counts]
  refine imp_congr_right fun hcloses => ?_
  rcases (onFill_cases hfill).2 with ⟨hadds, -⟩ | ⟨-, amount, hamount, rfl⟩
  · exact absurd hadds hcloses
  · rw [roundHalfEven_ne_zero_iff]
    constructor
    · exact fun hlarge => ⟨amount, hamount, hlarge⟩
    · rintro ⟨amount', hamount', hlarge⟩
      rwa [Option.mem_unique hamount hamount']

theorem closes_run (h : Machine.run step r fills = some (effects, r')) :
    ∀ e ∈ effects, e.delta ≠ 0 → e.closes := by
  induction fills generalizing r effects with
  | nil =>
    obtain ⟨rfl, -⟩ := run_nil.mp h
    simp
  | cons row fills ih =>
    obtain ⟨first, r₁, rest, hst, hrest, rfl⟩ := run_cons.mp h
    exact List.forall_mem_append.mpr ⟨closes_of_delta hst, ih hrest⟩

theorem closings_run (h : Machine.run step r fills = some (effects, r')) :
    (effects.filter RowEffect.closes).length =
      countAlong (fun net (row : FillRow) => net + row.signedQty)
        (fun net row => ¬ Adds net row.signedQty) r.netPosition fills := by
  induction fills generalizing r effects with
  | nil =>
    obtain ⟨rfl, -⟩ := run_nil.mp h
    rfl
  | cons row fills ih =>
    obtain ⟨first, r₁, rest, hst, hrest, rfl⟩ := run_cons.mp h
    obtain ⟨delta, rfl, hfill⟩ := step_cases hst
    rw [countAlong_cons, ← (onFill_cases hfill).1, ← ih hrest, List.filter_append,
      List.length_append, List.filter_singleton]
    by_cases hadds : Adds r.netPosition row.signedQty
    · simp [hadds]
    · simp [hadds]

end FloatReplay

variable {mean stdev : List ℤ → Float.Model} {pow : Float.Model → Float.Model → Float.Model}
  {rows : List TradeLogRow}

/-- The loop takes the fill rows one by one, and keeps what is not nothing. -/
theorem foldlM_step (s : FloatLoop) (rows : List TradeLogRow) :
    (rows.foldlM FloatLoop.step s).map FloatLoop.tradePnls =
      (Machine.run FloatReplay.step s.replay (rows.filterMap TradeLogRow.fill?)).map fun p =>
        s.tradePnls ++ (p.1.map RowEffect.delta).filter (· ≠ 0) := by
  induction rows generalizing s with
  | nil => simp [Machine.run]
  | cons row rows ih =>
    cases row with
    | fill row =>
      have hfills : (TradeLogRow.fill row :: rows).filterMap TradeLogRow.fill? =
          row :: rows.filterMap TradeLogRow.fill? := rfl
      rw [List.foldlM_cons, hfills, Machine.run, FloatReplay.step]
      cases hfill : s.replay.onFill row.incomingSide row.qty row.priceTicks with
      | none => simp [FloatLoop.step, hfill]
      | some p =>
        obtain ⟨delta, r⟩ := p
        simp only [FloatLoop.step, hfill, Option.bind_eq_bind, Option.bind_some, Option.pure_def,
          Option.map_some, ih, Option.map_map]
        congr 1
        funext p
        by_cases hdelta : delta = 0
        · simp [hdelta]
        · simp [hdelta]
    | orderSent => exact ih s
    | cancelSent => exact ih s
    | ack => exact ih s

/-- Of rows of which only closing ones realize anything, the trades are the closing ones exactly if
each of these realizes something. -/
theorem length_deltas_iff {effects : List RowEffect}
    (h : ∀ e ∈ effects, e.delta ≠ 0 → e.closes) :
    ((effects.map RowEffect.delta).filter (· ≠ 0)).length =
        (effects.filter RowEffect.closes).length ↔
      ∀ e ∈ effects, e.closes → e.delta ≠ 0 := by
  have hfilter : effects.filter (fun e => e.delta ≠ 0) =
      (effects.filter RowEffect.closes).filter fun e => e.delta ≠ 0 := by
    rw [List.filter_filter]
    refine List.filter_congr fun e he => ?_
    by_cases hdelta : e.delta = 0
    · simp [hdelta]
    · simp [hdelta, h e he hdelta]
  rw [List.filter_map, List.length_map]
  change (effects.filter fun e => e.delta ≠ 0).length = _ ↔ _
  rw [hfilter, List.length_filter_eq_length_iff]
  simp only [List.mem_filter, decide_eq_true_eq, and_imp]

theorem length_wins {effects : List RowEffect} (h : ∀ e ∈ effects, e.delta ≠ 0 → e.closes) :
    (((effects.map RowEffect.delta).filter (· ≠ 0)).filter (0 < ·)).length =
      (effects.filter RowEffect.Wins).length := by
  rw [List.filter_filter, List.filter_map, List.length_map]
  congr 1
  refine List.filter_congr fun e he => ?_
  by_cases hpos : 0 < e.delta
  · simp [RowEffect.Wins, hpos, hpos.ne', h e he hpos.ne']
  · simp [RowEffect.Wins, hpos]

/-- For every trade log: there is a report and it counts the closing trades, exactly if no row
raises and each closing row realizes more than half a tick, so that it is not rounded to nothing. -/
theorem counts_closings_iff (mean stdev : List ℤ → Float.Model)
    (pow : Float.Model → Float.Model → Float.Model) (rows : List TradeLogRow)
    (periodsPerYear : Float.Model) :
    (∃ report, buildFloatReport mean stdev pow rows periodsPerYear = some report ∧
        CountsClosings report rows) ↔
      Along FloatReplay.step (fun r row _ => r.Counts row) .init
        (rows.filterMap TradeLogRow.fill?) := by
  have hloop := foldlM_step .start rows
  change _ = (Machine.run FloatReplay.step .init _).map _ at hloop
  cases hrun : Machine.run FloatReplay.step .init (rows.filterMap TradeLogRow.fill?) with
  | none =>
    rw [hrun, Option.map_none, Option.map_eq_none_iff] at hloop
    refine iff_of_false ?_ fun halong => ?_
    · rintro ⟨report, hreport, -⟩
      simp [buildFloatReport, hloop] at hreport
    · obtain ⟨effects, r, hsome⟩ := halong.exists_run
      rw [hrun] at hsome
      cases hsome
  | some p =>
    obtain ⟨effects, r⟩ := p
    rw [hrun, Option.map_some] at hloop
    obtain ⟨loop, hfold, hpnls⟩ := Option.map_eq_some_iff.mp hloop
    replace hpnls : loop.tradePnls = (effects.map RowEffect.delta).filter (· ≠ 0) := hpnls
    have hcloses := FloatReplay.closes_run hrun
    have hclosings : (effects.filter RowEffect.closes).length = closings rows :=
      FloatReplay.closings_run hrun
    have hwins : winningClosings rows = (effects.filter RowEffect.Wins).length := by
      rw [winningClosings, hrun]
      rfl
    have hcounts : (∀ e ∈ effects, e.closes → e.delta ≠ 0) ↔
        Along FloatReplay.step (fun r row _ => r.Counts row) .init
          (rows.filterMap TradeLogRow.fill?) :=
      forall_log_iff (P := fun _ => True)
        (fun _ _ _ _ _ hst => ⟨trivial, FloatReplay.delta_iff_counts hst⟩) hrun trivial
    rw [← hcounts, ← length_deltas_iff hcloses, ← hpnls, hclosings]
    have hreport : buildFloatReport mean stdev pow rows periodsPerYear = some
        ⟨floatSharpeRatio mean stdev pow loop.tradePnls periodsPerYear,
          maxDrawdown loop.equityCurve, floatWinRate loop.tradePnls, loop.tradePnls.length,
          loop.replay.realizedPnlTicks⟩ := by
      rw [buildFloatReport, hfold]
      rfl
    simp only [hreport, Option.some.injEq, exists_eq_left', CountsClosings]
    refine and_iff_left_of_imp fun hnum => ?_
    rw [floatWinRate, hnum, hwins, ← length_wins hcloses, ← hpnls]
    simp only [← hnum, List.length_eq_zero_iff]

/-- Six bought for five sixths of a tick over 100 each, and three of them sold at 101: half a tick,
and in floats a little more. -/
example : (buildFloatReport (fun _ => .ofInt 0) (fun _ => .ofInt 0) (fun x _ => x)
    [.fill ⟨0, 1, 100⟩, .fill ⟨0, 5, 101⟩, .fill ⟨1, 3, 101⟩] (.ofInt 1)).map
      FloatReport.numTrades = some 1 := by
  decide +kernel

/-- Bought at 100 and sold at 100: no trade. -/
theorem not_counts_closings_at_cost :
    ∃ report, buildFloatReport (fun _ => .ofInt 0) (fun _ => .ofInt 0) (fun x _ => x)
        [.fill ⟨0, 1, 100⟩, .fill ⟨1, 1, 100⟩] (.ofInt 1) = some report ∧
      ¬ CountsClosings report [.fill ⟨0, 1, 100⟩, .fill ⟨1, 1, 100⟩] := by
  have hnot : ∀ report ∈ buildFloatReport (fun _ => .ofInt 0) (fun _ => .ofInt 0) (fun x _ => x)
      [.fill ⟨0, 1, 100⟩, .fill ⟨1, 1, 100⟩] (.ofInt 1),
        ¬ CountsClosings report [.fill ⟨0, 1, 100⟩, .fill ⟨1, 1, 100⟩] := by
    decide +kernel
  obtain ⟨report, hreport⟩ := Option.isSome_iff_exists.mp (show (buildFloatReport
    (fun _ => .ofInt 0) (fun _ => .ofInt 0) (fun x _ => x)
      [.fill ⟨0, 1, 100⟩, .fill ⟨1, 1, 100⟩] (.ofInt 1)).isSome by decide +kernel)
  exact ⟨report, hreport, hnot report hreport⟩

end Velo.Strategy
