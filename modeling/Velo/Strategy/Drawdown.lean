import Velo.Lib.Falls
import Velo.Strategy.Report

/-! The equity curve of `build_report`, against the cumulative P&L that it stands for. -/
namespace Velo.Strategy
open Falls Fold

/-- What each fill of a log realizes, in turn. -/
def deltas (rows : List TradeLogRow) : List ℤ :=
  along PositionReplay.take PositionReplay.delta .init (rows.filterMap TradeLogRow.fill?)

/-- Zero, and each fill's delta added in turn. -/
def cumulativePnl (rows : List TradeLogRow) : List ℤ := (deltas rows).scanl (· + ·) 0

variable {rows : List TradeLogRow} {s : ReportLoop} {last : ℤ}

/-- The loop goes on with the curve from its last element. -/
theorem foldl_equityCurve (past : List ℤ) (hs : s.equityCurve = past ++ [last]) :
    (rows.foldl ReportLoop.step s).equityCurve =
      past ++ (along PositionReplay.take PositionReplay.delta s.replay
        (rows.filterMap TradeLogRow.fill?)).scanl (· + ·) last := by
  induction rows generalizing s past last with
  | nil => exact hs
  | cons row rows ih =>
    cases row with
    | fill row =>
      have hstep : (s.step (.fill row)).equityCurve =
          (past ++ [last]) ++ [last + s.replay.delta row] := by
        have hlast : s.equityCurve.getLastD 0 = last := by
          rw [hs, List.getLastD_concat]
        change s.equityCurve ++ [s.equityCurve.getLastD 0 + s.replay.delta row] = _
        rw [hlast, hs]
      have hdeltas : along PositionReplay.take PositionReplay.delta s.replay
          ((TradeLogRow.fill row :: rows).filterMap TradeLogRow.fill?) =
            s.replay.delta row :: along PositionReplay.take PositionReplay.delta
              (s.step (.fill row)).replay (rows.filterMap TradeLogRow.fill?) := rfl
      rw [hdeltas, List.scanl_cons]
      exact (ih _ hstep).trans (List.append_assoc _ _ _)
    | orderSent => exact ih past hs
    | cancelSent => exact ih past hs
    | ack => exact ih past hs

theorem equityCurve_eq (rows : List TradeLogRow) :
    (rows.foldl ReportLoop.step .start).equityCurve = cumulativePnl rows :=
  foldl_equityCurve [] rfl

theorem maxDrawdown_cons (first : ℤ) (rest : List ℤ) :
    maxDrawdown (first :: rest) = (rest.foldl Falls.step (first, 0)).2 := by
  have hfirst : Falls.step (first, 0) first = (first, 0) := by
    simp [Falls.step]
  exact congrArg (fun s => (rest.foldl Falls.step s).2) hfirst

/-- From the first peak to the trough, though the curve ends above both. -/
example : maxDrawdown [0, 0, 100, 100, -50, -50, 150] = -150 := by decide

theorem maxDrawdownTicks_eq (sqrt : ℚ → ℚ) (rows : List TradeLogRow) (periodsPerYear : ℚ) :
    IsLeast (changes (cumulativePnl rows))
      (buildReport sqrt rows periodsPerYear).maxDrawdownTicks := by
  have hreport : (buildReport sqrt rows periodsPerYear).maxDrawdownTicks =
      maxDrawdown (cumulativePnl rows) := by
    rw [← equityCurve_eq]
    rfl
  rw [hreport]
  cases hcurve : cumulativePnl rows with
  | nil => exact absurd hcurve List.scanl_ne_nil
  | cons first rest =>
    rw [maxDrawdown_cons]
    exact (Falls.foldl_step first rest).2

theorem sum_tradePnls (rows : List TradeLogRow) :
    (rows.foldl ReportLoop.step .start).tradePnls.sum = (deltas rows).sum := by
  rw [tradePnls_eq]
  change ((deltas rows).filter (· ≠ 0)).sum = _
  induction deltas rows with
  | nil => rfl
  | cons delta rest ih =>
    by_cases hdelta : delta = 0
    · rw [List.filter_cons_of_neg (by simpa using hdelta), ih, hdelta, List.sum_cons, zero_add]
    · rw [List.filter_cons_of_pos (by simpa using hdelta), List.sum_cons, List.sum_cons, ih]

theorem totalRealizedPnlTicks_eq_sum (sqrt : ℚ → ℚ) (rows : List TradeLogRow)
    (periodsPerYear : ℚ) :
    (buildReport sqrt rows periodsPerYear).totalRealizedPnlTicks = (deltas rows).sum := by
  have hstep : ∀ r row, (PositionReplay.take r row).realizedPnlTicks =
      r.realizedPnlTicks + r.delta row := by
    intro r row
    rw [PositionReplay.take_eq]
  have hsum := sum_along hstep .init (rows.filterMap TradeLogRow.fill?)
  rw [totalRealizedPnlTicks_eq, PositionReplay.replayed, hsum]
  exact zero_add _

/-- For every trade log: the drawdown is the least change of the cumulative P&L from any point to
itself or a later one, so that it is none exactly if the P&L never falls; the total is where the
P&L ends, and the sum of the trades that are kept. -/
theorem drawdown_and_total (sqrt : ℚ → ℚ) (rows : List TradeLogRow) (periodsPerYear : ℚ) :
    let report := buildReport sqrt rows periodsPerYear
    IsLeast (changes (cumulativePnl rows)) report.maxDrawdownTicks ∧
      report.maxDrawdownTicks ≤ 0 ∧
      (report.maxDrawdownTicks = 0 ↔ (cumulativePnl rows).Pairwise (· ≤ ·)) ∧
      (cumulativePnl rows).getLast? = some report.totalRealizedPnlTicks ∧
      report.totalRealizedPnlTicks = (rows.foldl ReportLoop.step .start).tradePnls.sum := by
  intro report
  have hleast := maxDrawdownTicks_eq sqrt rows periodsPerYear
  have htotal := totalRealizedPnlTicks_eq_sum sqrt rows periodsPerYear
  obtain ⟨hnonpos, hzero⟩ := nonpos_of_isLeast List.scanl_ne_nil hleast
  refine ⟨hleast, hnonpos, hzero, ?_, ?_⟩
  · rw [cumulativePnl, List.getLast?_scanl, htotal, List.sum_eq_foldl]
  · rw [sum_tradePnls]
    exact htotal

end Velo.Strategy
