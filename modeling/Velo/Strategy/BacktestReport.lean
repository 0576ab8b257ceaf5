import Velo.Risk.Splitting
import Velo.Strategy.DeltaHedger

/-! `_PositionReplay` of `strategy/orderbook_client/backtest_report.py`, against the position
tracker of the risk engine. The floating average is exact here. -/
namespace Velo.Strategy
open Fold Risk

def sign (x : ℤ) : ℤ := (if 0 < x then 1 else 0) - (if x < 0 then 1 else 0)

structure PositionReplay where
  netPosition : ℤ
  realizedPnlTicks : ℤ
  avgEntryPriceTicks : ℚ
  deriving DecidableEq

namespace PositionReplay

def init : PositionReplay := ⟨0, 0, 0⟩

/-- The fill's own realized P&L is returned with the state. -/
def onFill (p : PositionReplay) (incomingSide quantity priceTicks : ℤ) : ℤ × PositionReplay :=
  let signedQty := if incomingSide = 0 then quantity else -quantity
  if p.netPosition = 0 ∨ sign p.netPosition = sign signedQty then
    let oldAbs := |p.netPosition|
    let addAbs := |signedQty|
    (0, { p with
      avgEntryPriceTicks :=
        (p.avgEntryPriceTicks * oldAbs + priceTicks * addAbs) / (oldAbs + addAbs : ℤ)
      netPosition := p.netPosition + signedQty })
  else
    let direction := sign p.netPosition
    let closingQty := min |signedQty| |p.netPosition|
    let delta := roundHalfEven ((direction * closingQty : ℤ) * (priceTicks - p.avgEntryPriceTicks))
    let p :=
      { p with
        realizedPnlTicks := p.realizedPnlTicks + delta
        netPosition := p.netPosition + signedQty }
    if p.netPosition ≠ 0 ∧ sign p.netPosition ≠ direction then
      (delta, { p with avgEntryPriceTicks := priceTicks })
    else (delta, p)

def apply (p : PositionReplay) (f : AccountFill) : PositionReplay :=
  (p.onFill (sideValue f.side) f.quantity.toNat f.priceTicks).2

def run (fills : List AccountFill) : PositionReplay := fills.foldl apply init

end PositionReplay

/-- The same account, but for the P&L that each has realized. -/
structure SamePosition (p : PositionTracker) (r : PositionReplay) : Prop where
  netPosition : p.netPosition = r.netPosition
  avgEntryPriceTicks : p.avgEntryPriceTicks = r.avgEntryPriceTicks

def SameAccount (fills : List AccountFill) : Prop :=
  (PositionTracker.run fills).netPosition = (PositionReplay.run fills).netPosition ∧
    (PositionTracker.run fills).realizedPnlTicks = (PositionReplay.run fills).realizedPnlTicks

instance (fills : List AccountFill) : Decidable (SameAccount fills) :=
  inferInstanceAs (Decidable (_ ∧ _))

/-- How much more the replay realizes on a fill. -/
def drift (p : PositionTracker) (f : AccountFill) : ℤ :=
  if Adds p.netPosition f.signedQty then 0
  else
    roundHalfEven (closedQty p.netPosition f.signedQty * (f.priceTicks - p.avgEntryPriceTicks)) -
      closedQty p.netPosition f.signedQty * (f.priceTicks - truncate p.avgEntryPriceTicks)

/-- What is truncated of the average is less than half a tick on all that the fill closes, or just
half a tick and the P&L is even without it. -/
def TruncatesLittle (p : PositionTracker) (f : AccountFill) : Prop :=
  ¬ Adds p.netPosition f.signedQty →
    let closed := closedQty p.netPosition f.signedQty
    let truncated : ℚ := closed * (p.avgEntryPriceTicks - truncate p.avgEntryPriceTicks)
    |truncated| < 1 / 2 ∨
      |truncated| = 1 / 2 ∧ Even (closed * (f.priceTicks - truncate p.avgEntryPriceTicks))

instance (p : PositionTracker) (f : AccountFill) : Decidable (TruncatesLittle p f) :=
  inferInstanceAs (Decidable (_ → _ ∨ _))

variable {p : PositionTracker} {r : PositionReplay} {f : AccountFill} {fills : List AccountFill}

theorem sign_eq (x : ℤ) : sign x = x.sign := by
  rcases lt_trichotomy x 0 with hx | rfl | hx
  · rw [sign, if_neg (by omega), if_pos hx, Int.sign_eq_neg_one_of_neg hx]
    rfl
  · rfl
  · rw [sign, if_pos hx, if_neg (by omega), Int.sign_eq_one_of_pos hx]
    rfl

theorem roundHalfEven_eq_iff {x : ℚ} {n : ℤ} : roundHalfEven x = n ↔ NearestEven x n := by
  constructor
  · rintro rfl
    exact roundHalfEven_nearest x
  · exact fun h => (roundHalfEven_nearest x).unique h

@[simp] theorem roundHalfEven_zero : roundHalfEven 0 = 0 := by
  rw [roundHalfEven_eq_iff, nearestEven_iff]
  norm_num

theorem drift_eq (p : PositionTracker) (f : AccountFill) :
    drift p f =
      roundHalfEven (closes p.netPosition f.signedQty * (f.priceTicks - p.avgEntryPriceTicks)) -
        closes p.netPosition f.signedQty * (f.priceTicks - truncate p.avgEntryPriceTicks) := by
  by_cases hadds : Adds p.netPosition f.signedQty
  · rw [drift, if_pos hadds, closes_of_adds hadds, Int.cast_zero, zero_mul, zero_mul,
      roundHalfEven_zero, sub_zero]
  · rw [drift, if_neg hadds, closes_of_not_adds hadds]

theorem drift_eq_zero_iff : drift p f = 0 ↔ TruncatesLittle p f := by
  by_cases hadds : Adds p.netPosition f.signedQty
  · rw [drift, if_pos hadds]
    exact ⟨fun _ hc => absurd hadds hc, fun _ => rfl⟩
  · rw [drift, if_neg hadds, sub_eq_zero, roundHalfEven_eq_iff]
    generalize hclosed : closedQty p.netPosition f.signedQty = closed
    have hx : (closed * (f.priceTicks - p.avgEntryPriceTicks) : ℚ) =
        (closed * (f.priceTicks - truncate p.avgEntryPriceTicks) : ℤ) -
          closed * (p.avgEntryPriceTicks - truncate p.avgEntryPriceTicks) := by
      push_cast
      ring
    rw [hx, nearestEven_sub, TruncatesLittle, hclosed]
    exact ⟨fun h _ => h, fun h => h hadds⟩

/-- The incoming side's trade. -/
def replaySignedQty (incomingSide quantity : ℤ) : ℤ :=
  if incomingSide = 0 then quantity else -quantity

theorem replaySignedQty_sideValue (f : AccountFill) :
    replaySignedQty (sideValue f.side) f.quantity.toNat = f.signedQty := by
  rw [replaySignedQty, AccountFill.signedQty]
  cases f.side <;> rfl

namespace PositionReplay

/-- What a fill realizes, before it is rounded. -/
def exactPnl (r : PositionReplay) (signedQty priceTicks : ℤ) : ℚ :=
  closes r.netPosition signedQty * (priceTicks - r.avgEntryPriceTicks)

theorem onFill_eq (r : PositionReplay) (incomingSide quantity priceTicks : ℤ) :
    let signedQty := replaySignedQty incomingSide quantity
    let delta := roundHalfEven (r.exactPnl signedQty priceTicks)
    r.onFill incomingSide quantity priceTicks =
      (delta, ⟨r.netPosition + signedQty, r.realizedPnlTicks + delta,
        averageAfter r.avgEntryPriceTicks r.netPosition signedQty priceTicks⟩) := by
  intro signedQty delta
  have hqty : (if incomingSide = 0 then quantity else -quantity) = signedQty := rfl
  simp only [onFill, hqty, sign_eq]
  by_cases hadds : Adds r.netPosition signedQty
  · have hdelta : delta = 0 := by
      simp only [delta, exactPnl]
      rw [closes_of_adds hadds, Int.cast_zero, zero_mul, roundHalfEven_zero]
    refine (if_pos hadds).trans ?_
    rw [hdelta, averageAfter_of_adds hadds, add_zero, weightedAverage, Nat.cast_natAbs,
      Nat.cast_natAbs, Int.cast_add]
  · have hdelta : delta = roundHalfEven
        (closedQty r.netPosition signedQty * (priceTicks - r.avgEntryPriceTicks)) := by
      simp only [delta, exactPnl]
      rw [closes_of_not_adds hadds]
    refine (if_neg hadds).trans ?_
    rw [hdelta, averageAfter, if_neg hadds]
    by_cases hflips : Flips r.netPosition signedQty
    · rw [if_pos hflips]
      exact if_pos hflips
    · rw [if_neg hflips]
      exact if_neg hflips

theorem apply_eq (r : PositionReplay) (f : AccountFill) :
    r.apply f = ⟨r.netPosition + f.signedQty,
      r.realizedPnlTicks + roundHalfEven (r.exactPnl f.signedQty f.priceTicks),
      averageAfter r.avgEntryPriceTicks r.netPosition f.signedQty f.priceTicks⟩ := by
  rw [apply, onFill_eq, replaySignedQty_sideValue]

end PositionReplay

theorem SamePosition.apply (h : SamePosition p r) :
    SamePosition (p.apply f) (r.apply f) ∧
      (r.apply f).realizedPnlTicks - (p.apply f).realizedPnlTicks =
        r.realizedPnlTicks - p.realizedPnlTicks + drift p f := by
  obtain ⟨hnet, havg⟩ := h
  rw [PositionReplay.apply_eq, p.apply_eq f, hnet, havg]
  refine ⟨⟨rfl, rfl⟩, ?_⟩
  rw [drift_eq, PositionReplay.exactPnl, hnet, havg]
  ring

theorem SamePosition.foldl (h : SamePosition p r) (fills : List AccountFill) :
    SamePosition (fills.foldl .apply p) (fills.foldl .apply r) ∧
      (fills.foldl .apply r).realizedPnlTicks - (fills.foldl .apply p).realizedPnlTicks =
        r.realizedPnlTicks - p.realizedPnlTicks +
          (along PositionTracker.apply drift p fills).sum := by
  induction fills generalizing p r with
  | nil => exact ⟨h, (add_zero _).symm⟩
  | cons f fills ih =>
    obtain ⟨hstep, hdrift⟩ := h.apply (f := f)
    obtain ⟨hrest, hsum⟩ := ih hstep
    rw [hdrift] at hsum
    exact ⟨hrest, hsum.trans (by rw [along, List.sum_cons, add_assoc])⟩

theorem same_account_iff_sum (fills : List AccountFill) :
    SameAccount fills ↔ (along PositionTracker.apply drift .new fills).sum = 0 := by
  obtain ⟨hsame, hsum⟩ := SamePosition.foldl (p := .new) (r := .init) ⟨rfl, rfl⟩ fills
  have hzero : PositionReplay.init.realizedPnlTicks - PositionTracker.new.realizedPnlTicks = 0 :=
    rfl
  rw [hzero, zero_add] at hsum
  rw [← hsum, sub_eq_zero, eq_comm]
  exact and_iff_right hsame.netPosition

/-- For every sequence of fills: the net positions are the same, the realized P&L is the same at
the end exactly if the drifts of the fills cancel, and it is the same after every fill exactly if
no fill closes so much that the truncation of the average counts. -/
theorem same_account_iff (fills : List AccountFill) :
    (PositionTracker.run fills).netPosition = (PositionReplay.run fills).netPosition ∧
      (SameAccount fills ↔ (along PositionTracker.apply drift .new fills).sum = 0) ∧
      ((∀ some, some <+: fills → SameAccount some) ↔
        Throughout PositionTracker.apply TruncatesLittle .new fills) := by
  refine ⟨(SamePosition.foldl (p := .new) (r := .init) ⟨rfl, rfl⟩ fills).1.netPosition,
    same_account_iff_sum fills, ?_⟩
  simp only [same_account_iff_sum]
  rw [sums_eq_zero_iff]
  simp only [drift_eq_zero_iff]

/-- One bought at 100, one at 101, both sold at 102: four ticks realized, and three. -/
theorem not_same_account_of_half :
    ¬ SameAccount [⟨.buy, 1, 100, by decide⟩, ⟨.buy, 1, 101, by decide⟩,
      ⟨.sell, 2, 102, by decide⟩] := by
  decide +kernel

end Velo.Strategy
