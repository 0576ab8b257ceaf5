import Velo.Lib.Statistics
import Velo.Strategy.HedgeSession

/-! `hedge_report.py`, on the series that a hedge session makes, in rational numbers. -/
namespace Velo.Strategy
open Machine Statistics

structure HedgeReport where
  meanAbsHedgeErrorContracts : ℚ
  rehedgeCount : ℤ
  hedgedPnlVariance : ℚ
  unhedgedPnlVariance : ℚ
  varianceReductionPct : ℚ

def buildHedgeReport (hedgeErrorHistory : List ℤ) (rehedgeCount : ℤ)
    (hedgedPnlSeries unhedgedPnlSeries : List ℚ) : HedgeReport :=
  let meanAbsHedgeError :=
    if hedgeErrorHistory ≠ [] then mean (hedgeErrorHistory.map fun e : ℤ => (|e| : ℚ)) else 0
  let hedgedVar := if 1 < hedgedPnlSeries.length then pvariance hedgedPnlSeries else 0
  let unhedgedVar := if 1 < unhedgedPnlSeries.length then pvariance unhedgedPnlSeries else 0
  let varianceReductionPct := if 0 < unhedgedVar then (1 - hedgedVar / unhedgedVar) * 100 else 0
  { meanAbsHedgeErrorContracts := meanAbsHedgeError
    rehedgeCount
    hedgedPnlVariance := hedgedVar
    unhedgedPnlVariance := unhedgedVar
    varianceReductionPct }

namespace HedgeSession

/-- The report that `run_hedge_backtest` returns. -/
def report (s : HedgeSession) : HedgeReport :=
  buildHedgeReport s.hedger.hedgeErrorHistory s.hedger.rehedgeCount s.hedgedPnl s.unhedgedPnl

variable {s : HedgeSession} {band : ℤ} {ticks : List HedgeTick} {trades : List (ℤ × FillEvent)}

theorem pvariance_of_short {xs : List ℚ} :
    (if 1 < xs.length then pvariance xs else 0) = pvariance xs := by
  split
  · rfl
  · rename_i hshort
    rcases xs with _ | ⟨x, _ | ⟨y, xs⟩⟩
    · simp [pvariance, mean]
    · simp [pvariance, mean]
    · exact absurd (by simp) hshort

theorem varianceReductionPct_eq (s : HedgeSession) :
    s.report.varianceReductionPct =
      if 0 < pvariance s.unhedgedPnl then
        (1 - pvariance s.hedgedPnl / pvariance s.unhedgedPnl) * 100
      else 0 := by
  simp only [report, buildHedgeReport, pvariance_of_short]

theorem length_futuresPnl (h : s.unhedgedPnl.length = s.hedgedPnl.length) :
    s.futuresPnl.length = s.hedgedPnl.length := by
  rw [futuresPnl, List.length_zipWith, h, min_self]

theorem zipWith_futuresPnl (h : s.unhedgedPnl.length = s.hedgedPnl.length) :
    List.zipWith (· + ·) s.unhedgedPnl s.futuresPnl = s.hedgedPnl := by
  rw [futuresPnl]
  generalize s.unhedgedPnl = xs at h ⊢
  generalize s.hedgedPnl = ys at h ⊢
  induction xs generalizing ys with
  | nil => exact (List.length_eq_zero_iff.mp h.symm).symm
  | cons x xs ih =>
    cases ys with
    | nil => cases h
    | cons y ys => simp [ih ys (Nat.succ.inj h)]

theorem unhedgedPnl_run {s u : HedgeSession} {v : ℚ} (h : run step s ticks = some (trades, u))
    (hv : u.baselineValue = some v) :
    u.unhedgedPnl = s.unhedgedPnl ++ ticks.map fun t => t.bookValue - v := by
  induction ticks generalizing s trades with
  | nil =>
    obtain ⟨-, rfl⟩ := run_nil.mp h
    simp
  | cons t ticks ih =>
    obtain ⟨l, w, l', hst, hrest, -⟩ := run_cons.mp h
    obtain ⟨x, -, hbase, hunhedged, -⟩ := (round_of_step hst).marked
    have hx : x = v := by
      rw [baselineValue_run hrest, hbase] at hv
      exact Option.some.inj hv
    rw [ih hrest, hunhedged, hx, List.append_assoc]
    rfl

theorem series_of_session {t : HedgeTick}
    (h : run step (start band) (t :: ticks) = some (trades, s)) :
    s.unhedgedPnl = (t :: ticks).map (fun t' => t'.bookValue - t.bookValue) ∧
      s.unhedgedPnl.length = s.hedgedPnl.length ∧ 0 ∈ s.unhedgedPnl ∧ 0 ∈ s.hedgedPnl := by
  have hbase : s.baselineValue = some t.bookValue := baselineValue_run h
  have hunhedged := unhedgedPnl_run h hbase
  obtain ⟨-, -, -, hulen, hhlen, -⟩ := grows_run h
  obtain ⟨trades₁, -, v, hbefore, -, -, hfirst⟩ := series_at [] h
  obtain ⟨rfl, -⟩ := run_nil.mp hbefore
  refine ⟨hunhedged, hulen.trans hhlen.symm, ?_, ?_⟩
  · rw [hunhedged]
    simp
  · refine List.mem_of_getElem? (hfirst.trans (congrArg some ?_))
    simp [bookedPnl]

/-- In every session: the reported reduction of variance is never more than a hundred percent; it is
that exactly if the value of the option book moved and the hedged P&L never did; and it is positive
exactly if the variance that the futures add is less than what they take by running against the
option book. -/
theorem report_of_session (h : run step (start band) ticks = some (trades, s))
    (polls : List (List Event)) :
    let pct := (s.finish polls).report.varianceReductionPct
    pct ≤ 100 ∧
      (pct = 100 ↔ (∃ t ∈ ticks, ∃ t' ∈ ticks, t'.bookValue ≠ t.bookValue) ∧
        ∀ x ∈ s.hedgedPnl, x = 0) ∧
      (0 < pct ↔ pvariance s.futuresPnl + 2 * covariance s.unhedgedPnl s.futuresPnl < 0) := by
  intro pct
  have hpct : pct = s.report.varianceReductionPct := by
    simp only [pct]
    rw [finish_eq, drain_eq]
    rfl
  rw [hpct, varianceReductionPct_eq]
  cases ticks with
  | nil =>
    obtain ⟨-, rfl⟩ := run_nil.mp h
    simp [start, futuresPnl, pvariance, covariance, mean]
  | cons t ticks =>
    obtain ⟨hunhedged, hlen, hu0, hh0⟩ := series_of_session h
    have hmoves : pvariance s.unhedgedPnl = 0 ↔
        ¬ ∃ t₁ ∈ t :: ticks, ∃ t₂ ∈ t :: ticks, t₂.bookValue ≠ t₁.bookValue := by
      rw [pvariance_eq_zero_iff_of_mem hu0, hunhedged]
      simp only [List.forall_mem_map, sub_eq_zero, not_exists, not_and, not_not]
      constructor
      · intro hall t₁ ht₁ t₂ ht₂
        rw [hall t₁ ht₁, hall t₂ ht₂]
      · intro hall t₁ ht₁
        exact hall t List.mem_cons_self t₁ ht₁
    have hsum := pvariance_zipWith_add (hlen.trans (length_futuresPnl hlen).symm)
    rw [zipWith_futuresPnl hlen] at hsum
    rcases (pvariance_nonneg s.unhedgedPnl).eq_or_lt with hzero | hpos
    · -- a book that never moves: there is nothing to reduce
      have hcov : covariance s.unhedgedPnl s.futuresPnl = 0 :=
        covariance_eq_zero (pvariance_eq_zero_iff.mp hzero.symm)
      have hfutures := pvariance_nonneg s.futuresPnl
      rw [if_neg hzero.not_lt, hcov, mul_zero, add_zero]
      refine ⟨by norm_num, ?_, iff_of_false (lt_irrefl 0) hfutures.not_gt⟩
      exact iff_of_false (by norm_num) fun hmoved => hmoves.mp hzero.symm hmoved.1
    · have hhedged := pvariance_nonneg s.hedgedPnl
      have hratio : 0 ≤ pvariance s.hedgedPnl / pvariance s.unhedgedPnl :=
        div_nonneg hhedged hpos.le
      rw [if_pos hpos]
      refine ⟨by linarith, ?_, ?_⟩
      · rw [← pvariance_eq_zero_iff_of_mem hh0, and_iff_right (not_not.mp (mt hmoves.mpr hpos.ne'))]
        constructor
        · intro hfull
          have hnone : pvariance s.hedgedPnl / pvariance s.unhedgedPnl = 0 := by linarith
          exact (div_eq_zero_iff.mp hnone).resolve_right hpos.ne'
        · intro hnone
          rw [hnone, zero_div, sub_zero, one_mul]
      · have hless : 0 < (1 - pvariance s.hedgedPnl / pvariance s.unhedgedPnl) * 100 ↔
            pvariance s.hedgedPnl < pvariance s.unhedgedPnl := by
          rw [mul_pos_iff_of_pos_right (by norm_num), sub_pos, div_lt_one hpos]
        rw [hless, hsum]
        constructor
        · intro hlt
          linarith
        · intro hlt
          linarith

/-- Twelve sold against a book that gains three points with each tick. -/
theorem report_of_session_of_a_full_hedge :
    ∃ trades s, run step (start 5) [⟨100, 7, 25 / 2, [.fill ⟨7, 1, .buy, 100, 12, 1⟩]⟩,
        ⟨104, 19, 15, []⟩] = some (trades, s) ∧
      (s.finish [[.ack ⟨1, 1, 0⟩]]).report.varianceReductionPct = 100 := by
  have hhedged : (run step (start 5) [⟨100, 7, 25 / 2, [.fill ⟨7, 1, .buy, 100, 12, 1⟩]⟩,
      ⟨104, 19, 15, []⟩]).map (fun r => r.2.hedgedPnl) = some [0, 0] := by
    decide +kernel
  obtain ⟨⟨trades, s⟩, hrun, hhedged⟩ := Option.map_eq_some_iff.mp hhedged
  refine ⟨trades, s, hrun, (report_of_session hrun [[.ack ⟨1, 1, 0⟩]]).2.1.mpr ⟨?_, ?_⟩⟩
  · exact ⟨_, List.mem_cons_self, _, List.mem_cons_of_mem _ List.mem_cons_self, by norm_num⟩
  · intro x hx
    rw [hhedged] at hx
    simpa using hx

end HedgeSession
end Velo.Strategy
