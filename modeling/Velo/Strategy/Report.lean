import Velo.Strategy.BacktestReport

/-! `build_report` of `strategy/orderbook_client/backtest_report.py`, over the rows of a trade log.
Floats are exact here, but for the square root. -/
namespace Velo.Strategy
open Fold Risk

structure FillRow where
  incomingSide : ℤ
  qty : ℕ+
  priceTicks : ℤ
  deriving DecidableEq

/-- Only fill rows are read. -/
inductive TradeLogRow
  | orderSent
  | cancelSent
  | ack
  | fill (row : FillRow)

structure BacktestReport where
  sharpeRatio : ℚ
  maxDrawdownTicks : ℤ
  winRate : ℚ
  numTrades : ℕ
  totalRealizedPnlTicks : ℤ

/-- What `build_report` accumulates over the rows. -/
structure ReportLoop where
  replay : PositionReplay
  tradePnls : List ℤ
  equityCurve : List ℤ

def ReportLoop.start : ReportLoop := ⟨.init, [], [0]⟩

def ReportLoop.step (s : ReportLoop) : TradeLogRow → ReportLoop
  | .fill row =>
    let (delta, replay) := s.replay.onFill row.incomingSide row.qty row.priceTicks
    { replay
      tradePnls := if delta ≠ 0 then s.tradePnls ++ [delta] else s.tradePnls
      equityCurve := s.equityCurve ++ [s.equityCurve.getLastD 0 + delta] }
  | _ => s

/-- `statistics.mean` and `statistics.stdev`, with the square root that the floats have. -/
def sharpeRatio (sqrt : ℚ → ℚ) (tradePnls : List ℤ) (periodsPerYear : ℚ) : ℚ :=
  if tradePnls.length < 2 then 0
  else
    let mean : ℚ := tradePnls.sum / tradePnls.length
    let stdev :=
      sqrt ((tradePnls.map fun p : ℤ => (p - mean) ^ 2).sum / (tradePnls.length - 1))
    if stdev = 0 then 0 else mean / stdev * sqrt periodsPerYear

def maxDrawdown (equityCurve : List ℤ) : ℤ :=
  (equityCurve.foldl (fun (peak, maxDd) value =>
    let peak := max peak value
    (peak, min maxDd (value - peak))) (equityCurve.headD 0, 0)).2

def winRate (tradePnls : List ℤ) : ℚ :=
  if tradePnls = [] then 0
  else (tradePnls.filter (0 < ·)).length / tradePnls.length

def buildReport (sqrt : ℚ → ℚ) (tradeLogRows : List TradeLogRow) (periodsPerYear : ℚ) :
    BacktestReport :=
  let loop := tradeLogRows.foldl ReportLoop.step .start
  { sharpeRatio := sharpeRatio sqrt loop.tradePnls periodsPerYear
    maxDrawdownTicks := maxDrawdown loop.equityCurve
    winRate := winRate loop.tradePnls
    numTrades := loop.tradePnls.length
    totalRealizedPnlTicks := loop.replay.realizedPnlTicks }

def TradeLogRow.fill? : TradeLogRow → Option FillRow
  | .fill row => some row
  | _ => none

def FillRow.signedQty (row : FillRow) : ℤ := replaySignedQty row.incomingSide row.qty

namespace PositionReplay

/-- The P&L that the row realizes. -/
def delta (r : PositionReplay) (row : FillRow) : ℤ :=
  (r.onFill row.incomingSide row.qty row.priceTicks).1

def take (r : PositionReplay) (row : FillRow) : PositionReplay :=
  (r.onFill row.incomingSide row.qty row.priceTicks).2

def replayed (rows : List TradeLogRow) : PositionReplay :=
  (rows.filterMap TradeLogRow.fill?).foldl take init

end PositionReplay

/-- What rounding takes off two amounts is less than half a tick in sum, or it is half a tick and
the rounded amounts are even in sum. -/
def RoundsAlike (x y : ℚ) : Prop :=
  let off := (x - roundHalfEven x) + (y - roundHalfEven y)
  |off| < 1 / 2 ∨ |off| = 1 / 2 ∧ Even (roundHalfEven x + roundHalfEven y)

variable {r : PositionReplay} {row : FillRow} {rows before after : List TradeLogRow} {x y : ℚ}

theorem roundHalfEven_ne_zero_iff : roundHalfEven x ≠ 0 ↔ 1 / 2 < |x| := by
  rw [Ne, roundHalfEven_eq_iff, nearestEven_iff, Int.cast_zero, sub_zero, and_iff_left Even.zero,
    ← le_iff_lt_or_eq, not_le]

theorem roundHalfEven_add_iff :
    roundHalfEven (x + y) = roundHalfEven x + roundHalfEven y ↔ RoundsAlike x y := by
  have hsum : x + y = (roundHalfEven x + roundHalfEven y : ℤ) -
      -((x - roundHalfEven x) + (y - roundHalfEven y)) := by
    push_cast
    ring
  rw [roundHalfEven_eq_iff]
  conv_lhs => rw [hsum, nearestEven_sub, abs_neg]
  exact Iff.rfl

namespace PositionReplay

theorem delta_eq (r : PositionReplay) (row : FillRow) :
    r.delta row = roundHalfEven (r.exactPnl row.signedQty row.priceTicks) := by
  rw [delta, onFill_eq]
  rfl

theorem take_eq (r : PositionReplay) (row : FillRow) :
    r.take row = ⟨r.netPosition + row.signedQty, r.realizedPnlTicks + r.delta row,
      averageAfter r.avgEntryPriceTicks r.netPosition row.signedQty row.priceTicks⟩ := by
  rw [delta_eq, take, onFill_eq]
  rfl

theorem foldl_take_realized (r : PositionReplay) (more : ℤ) (rows : List FillRow) :
    rows.foldl take { r with realizedPnlTicks := r.realizedPnlTicks + more } =
      { rows.foldl take r with
        realizedPnlTicks := (rows.foldl take r).realizedPnlTicks + more } := by
  induction rows generalizing r with
  | nil => rfl
  | cons row rows ih =>
    have hstep : take { r with realizedPnlTicks := r.realizedPnlTicks + more } row =
        { r.take row with realizedPnlTicks := (r.take row).realizedPnlTicks + more } := by
      rw [take_eq, take_eq, delta_eq, delta_eq, mk.injEq]
      exact ⟨rfl, add_right_comm _ _ _, rfl⟩
    rw [List.foldl_cons, List.foldl_cons, hstep, ih]

end PositionReplay

theorem foldl_step (s : ReportLoop) (rows : List TradeLogRow) :
    let fills := rows.filterMap TradeLogRow.fill?
    (rows.foldl ReportLoop.step s).replay = fills.foldl PositionReplay.take s.replay ∧
      (rows.foldl ReportLoop.step s).tradePnls =
        s.tradePnls ++
          (along PositionReplay.take PositionReplay.delta s.replay fills).filter (· ≠ 0) := by
  induction rows generalizing s with
  | nil => exact ⟨rfl, (List.append_nil _).symm⟩
  | cons row rows ih =>
    cases row with
    | fill row =>
      obtain ⟨hreplay, hpnls⟩ := ih (s.step (.fill row))
      refine ⟨hreplay, hpnls.trans ?_⟩
      have hstep : (s.step (.fill row)).tradePnls =
          if s.replay.delta row ≠ 0 then s.tradePnls ++ [s.replay.delta row] else s.tradePnls := rfl
      rw [hstep]
      change _ = s.tradePnls ++ (s.replay.delta row ::
        along PositionReplay.take PositionReplay.delta (s.replay.take row)
          (rows.filterMap TradeLogRow.fill?)).filter (· ≠ 0)
      by_cases hdelta : s.replay.delta row = 0
      · rw [if_neg (not_not.mpr hdelta), List.filter_cons_of_neg (by simpa using hdelta)]
        rfl
      · rw [if_pos hdelta, List.filter_cons_of_pos (by simpa using hdelta), List.append_assoc]
        rfl
    | orderSent => exact ih s
    | cancelSent => exact ih s
    | ack => exact ih s

theorem replay_eq (rows : List TradeLogRow) :
    (rows.foldl ReportLoop.step .start).replay = .replayed rows :=
  (foldl_step .start rows).1

theorem tradePnls_eq (rows : List TradeLogRow) :
    (rows.foldl ReportLoop.step .start).tradePnls =
      (along PositionReplay.take PositionReplay.delta .init
        (rows.filterMap TradeLogRow.fill?)).filter (· ≠ 0) :=
  (foldl_step .start rows).2

theorem totalRealizedPnlTicks_eq (sqrt : ℚ → ℚ) (rows : List TradeLogRow) (periodsPerYear : ℚ) :
    (buildReport sqrt rows periodsPerYear).totalRealizedPnlTicks =
      (PositionReplay.replayed rows).realizedPnlTicks := by
  rw [← replay_eq]
  rfl

theorem replaySignedQty_add (incomingSide : ℤ) (quantity more : ℕ+) :
    replaySignedQty incomingSide (quantity + more : ℕ+) =
      replaySignedQty incomingSide quantity + replaySignedQty incomingSide more := by
  simp only [replaySignedQty, PNat.add_coe, Nat.cast_add]
  split
  · rfl
  · exact neg_add _ _

theorem sameWay_replaySignedQty (incomingSide : ℤ) (quantity more : ℕ+) :
    SameWay (replaySignedQty incomingSide quantity) (replaySignedQty incomingSide more) := by
  have hquantity := quantity.pos
  have hmore := more.pos
  simp only [SameWay, replaySignedQty]
  split
  · omega
  · omega

/-- The two parts leave the position that the whole leaves, and what they have realized differs by
the roundings. -/
theorem take_take (r : PositionReplay) (incomingSide priceTicks : ℤ) (quantity more : ℕ+) :
    let part : FillRow := ⟨incomingSide, quantity, priceTicks⟩
    let rest : FillRow := ⟨incomingSide, more, priceTicks⟩
    let whole := r.take ⟨incomingSide, quantity + more, priceTicks⟩
    let x := r.exactPnl part.signedQty priceTicks
    let y := closes (r.netPosition + part.signedQty) rest.signedQty *
      (priceTicks - r.avgEntryPriceTicks)
    (r.take part).take rest = { whole with
      realizedPnlTicks := whole.realizedPnlTicks +
        (roundHalfEven x + roundHalfEven y - roundHalfEven (x + y)) } := by
  intro part rest whole x y
  have hway : SameWay part.signedQty rest.signedQty :=
    sameWay_replaySignedQty incomingSide quantity more
  have hqty : FillRow.signedQty ⟨incomingSide, quantity + more, priceTicks⟩ =
      part.signedQty + rest.signedQty :=
    replaySignedQty_add incomingSide quantity more
  have hx : r.delta part = roundHalfEven x := r.delta_eq part
  have hy : (r.take part).delta rest = roundHalfEven y := by
    rw [PositionReplay.delta_eq, PositionReplay.exactPnl, r.take_eq part]
    rcases closes_eq_zero_or_averageAfter_eq r.avgEntryPriceTicks r.netPosition priceTicks hway
      with hzero | havg
    · simp only [y, hzero, Int.cast_zero, zero_mul]
    · simp only [part, rest, y] at havg ⊢
      rw [havg]
  have hwhole : r.delta ⟨incomingSide, quantity + more, priceTicks⟩ = roundHalfEven (x + y) := by
    rw [PositionReplay.delta_eq, PositionReplay.exactPnl, hqty, ← closes_split _ hway]
    congr 1
    simp only [x, y, PositionReplay.exactPnl]
    push_cast
    ring
  rw [PositionReplay.take_eq (r.take part), hy, r.take_eq part, hx]
  simp only [whole]
  rw [r.take_eq ⟨incomingSide, quantity + more, priceTicks⟩, hwhole, hqty,
    ← averageAfter_split hway, PositionReplay.mk.injEq]
  refine ⟨add_assoc _ _ _, ?_, rfl⟩
  ring

/-- For every trade log and every fill row in it: two rows in its place leave the total as it is
exactly if the amounts that they realize, by the position and the average before them, are rounded
together as they are one by one. -/
theorem total_split_iff (sqrt : ℚ → ℚ) (periodsPerYear : ℚ) (before after : List TradeLogRow)
    (incomingSide priceTicks : ℤ) (quantity more : ℕ+) :
    let part : FillRow := ⟨incomingSide, quantity, priceTicks⟩
    let rest : FillRow := ⟨incomingSide, more, priceTicks⟩
    let r := PositionReplay.replayed before
    (buildReport sqrt (before ++ .fill ⟨incomingSide, quantity + more, priceTicks⟩ :: after)
        periodsPerYear).totalRealizedPnlTicks =
      (buildReport sqrt (before ++ .fill part :: .fill rest :: after)
        periodsPerYear).totalRealizedPnlTicks ↔
    RoundsAlike (closes r.netPosition part.signedQty * (priceTicks - r.avgEntryPriceTicks))
      (closes (r.netPosition + part.signedQty) rest.signedQty *
        (priceTicks - r.avgEntryPriceTicks)) := by
  intro part rest r
  have hwhole : PositionReplay.replayed
      (before ++ .fill ⟨incomingSide, quantity + more, priceTicks⟩ :: after) =
        (after.filterMap TradeLogRow.fill?).foldl PositionReplay.take
          (r.take ⟨incomingSide, quantity + more, priceTicks⟩) := by
    rw [PositionReplay.replayed, List.filterMap_append, List.foldl_append]
    rfl
  have hparts : PositionReplay.replayed (before ++ .fill part :: .fill rest :: after) =
      (after.filterMap TradeLogRow.fill?).foldl PositionReplay.take ((r.take part).take rest) := by
    rw [PositionReplay.replayed, List.filterMap_append, List.foldl_append]
    rfl
  rw [totalRealizedPnlTicks_eq, totalRealizedPnlTicks_eq, hwhole, hparts, take_take,
    PositionReplay.foldl_take_realized, left_eq_add, sub_eq_zero, eq_comm, roundHalfEven_add_iff]
  rfl

/-- Long of two at 100 and a half, sold at 101: one tick at once, none in two parts. -/
theorem not_total_split_of_half :
    (buildReport id [.fill ⟨0, 1, 100⟩, .fill ⟨0, 1, 101⟩, .fill ⟨1, 1 + 1, 101⟩]
        1).totalRealizedPnlTicks ≠
      (buildReport id [.fill ⟨0, 1, 100⟩, .fill ⟨0, 1, 101⟩, .fill ⟨1, 1, 101⟩,
        .fill ⟨1, 1, 101⟩] 1).totalRealizedPnlTicks := by
  decide +kernel

end Velo.Strategy
