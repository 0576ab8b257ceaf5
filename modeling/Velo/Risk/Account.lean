import Velo.Lib.Fold
import Velo.Risk.Position

/-! The account's fills one after another, and its P&L against the mark to market. -/
namespace Velo.Risk
open Fold

/-- A fill of some quantity. -/
structure AccountFill where
  side : Side
  quantity : UInt32
  priceTicks : ℤ
  quantity_ne_zero : quantity ≠ 0

/-- A fill in the direction of the position, or of none. -/
def Adds (net qty : ℤ) : Prop := net = 0 ∨ net.sign = qty.sign

instance (net qty : ℤ) : Decidable (Adds net qty) := inferInstanceAs (Decidable (_ ∨ _))

/-- What is closed of the position, with its sign. -/
def closedQty (net qty : ℤ) : ℤ := net.sign * min |qty| |net|

/-- The position is on the other side than before. -/
def Flips (net qty : ℤ) : Prop := net + qty ≠ 0 ∧ (net + qty).sign ≠ net.sign

instance (net qty : ℤ) : Decidable (Flips net qty) := inferInstanceAs (Decidable (_ ∧ _))

/-- The average of an old price and a new one, weighted. -/
def weightedAverage (avg : ℚ) (net qty priceTicks : ℤ) : ℚ :=
  (avg * net.natAbs + priceTicks * qty.natAbs) / (net.natAbs + qty.natAbs)

variable {net qty priceTicks : ℤ} {avg q : ℚ}

theorem adds_cases (hqty : qty ≠ 0) (h : Adds net qty) :
    (0 ≤ net ∧ 0 < qty) ∨ (net ≤ 0 ∧ qty < 0) := by
  rcases h with rfl | h
  · omega
  rcases lt_trichotomy net 0 with hn | rfl | hn
  · rw [Int.sign_eq_neg_one_of_neg hn, eq_comm, Int.sign_eq_neg_one_iff_neg] at h
    exact Or.inr ⟨hn.le, h⟩
  · omega
  · rw [Int.sign_eq_one_of_pos hn, eq_comm, Int.sign_eq_one_iff_pos] at h
    exact Or.inl ⟨hn.le, h⟩

theorem Adds.add_ne_zero (h : Adds net qty) (hqty : qty ≠ 0) : net + qty ≠ 0 := by
  rcases adds_cases hqty h with h | h <;> omega

theorem not_adds_cases (hqty : qty ≠ 0) (h : ¬ Adds net qty) :
    (0 < net ∧ qty < 0) ∨ (net < 0 ∧ 0 < qty) := by
  rw [Adds, not_or] at h
  obtain ⟨hnet, hsign⟩ := h
  rcases lt_or_gt_of_ne hnet with hn | hn
  · refine Or.inr ⟨hn, lt_of_le_of_ne ?_ hqty.symm⟩
    rw [← not_lt]
    intro hq
    exact hsign ((Int.sign_eq_neg_one_of_neg hn).trans (Int.sign_eq_neg_one_of_neg hq).symm)
  · refine Or.inl ⟨hn, lt_of_le_of_ne ?_ hqty⟩
    rw [← not_lt]
    intro hq
    exact hsign ((Int.sign_eq_one_of_pos hn).trans (Int.sign_eq_one_of_pos hq).symm)

theorem closedQty_cases (hqty : qty ≠ 0) (h : ¬ Adds net qty) :
    (closedQty net qty = -qty ∧ ¬ Flips net qty) ∨ (closedQty net qty = net ∧ Flips net qty) := by
  rcases not_adds_cases hqty h with ⟨hn, hq⟩ | ⟨hn, hq⟩
  · have hclosed : closedQty net qty = min (-qty) net := by
      rw [closedQty, Int.sign_eq_one_of_pos hn, abs_of_neg hq, abs_of_pos hn, one_mul]
    rw [hclosed, Flips, Int.sign_eq_one_of_pos hn, Ne, Ne, Int.sign_eq_one_iff_pos]
    omega
  · have hclosed : closedQty net qty = -min qty (-net) := by
      rw [closedQty, Int.sign_eq_neg_one_of_neg hn, abs_of_pos hq, abs_of_neg hn, neg_one_mul]
    rw [hclosed, Flips, Int.sign_eq_neg_one_of_neg hn, Ne, Ne, Int.sign_eq_neg_one_iff_neg]
    omega

theorem weightedAverage_mul (avg : ℚ) (priceTicks : ℤ) (hqty : qty ≠ 0) (h : Adds net qty) :
    (net + qty) * weightedAverage avg net qty priceTicks = net * avg + qty * priceTicks := by
  have hsum : (net + qty : ℚ) ≠ 0 := by exact_mod_cast h.add_ne_zero hqty
  rcases adds_cases hqty h with ⟨hn, hq⟩ | ⟨hn, hq⟩
  · have hnet : (net.natAbs : ℚ) = net := by
      rw [Nat.cast_natAbs, abs_of_nonneg hn]
    have hqty : (qty.natAbs : ℚ) = qty := by
      rw [Nat.cast_natAbs, abs_of_pos hq]
    rw [weightedAverage, hnet, hqty, mul_div_cancel₀ _ hsum]
    ring
  · have hnet : (net.natAbs : ℚ) = -net := by
      rw [Nat.cast_natAbs, abs_of_nonpos hn, Int.cast_neg]
    have hqty : (qty.natAbs : ℚ) = -qty := by
      rw [Nat.cast_natAbs, abs_of_neg hq, Int.cast_neg]
    rw [weightedAverage, hnet, hqty, ← neg_add, div_neg, ← neg_div, mul_div_cancel₀ _ hsum]
    ring

theorem truncate_eq_iff : (truncate q : ℚ) = q ↔ q.den = 1 := by
  constructor
  · intro h
    rw [← h]
    rfl
  · intro h
    rw [truncate, h, Nat.cast_one, Int.tdiv_one]
    exact (Rat.den_eq_one_iff q).mp h

@[simp] theorem truncate_intCast (n : ℤ) : truncate n = n := by
  have h : (truncate (n : ℚ) : ℚ) = n := truncate_eq_iff.mpr rfl
  exact_mod_cast h

namespace AccountFill

def signedQty (f : AccountFill) : ℤ := Risk.signedQty f.side f.quantity

theorem signedQty_ne_zero (f : AccountFill) : f.signedQty ≠ 0 := by
  have hpos := toNat_pos_of_ne_zero f.quantity_ne_zero
  simp only [signedQty, Risk.signedQty]
  cases f.side <;> simp only <;> omega

end AccountFill

namespace PositionTracker

def apply (p : PositionTracker) (f : AccountFill) : PositionTracker :=
  p.onFill f.side f.quantity f.priceTicks

def run (fills : List AccountFill) : PositionTracker := fills.foldl apply new

/-- The realized and the open P&L are the fills marked to the last price. -/
def MarkedToMarket (fills : List AccountFill) : Prop :=
  (run fills).realizedPnlTicks + (run fills).unrealizedPnlTicks =
    (fills.map fun f => f.signedQty * ((run fills).lastTradePriceTicks - f.priceTicks)).sum

instance (fills : List AccountFill) : Decidable (MarkedToMarket fills) :=
  inferInstanceAs (Decidable (_ = _))

/-- What a fill adds to the P&L for ever: an adding one, by truncating the new average. -/
def shortfall (p : PositionTracker) (f : AccountFill) : ℤ :=
  if Adds p.netPosition f.signedQty then
    p.netPosition * truncate p.avgEntryPriceTicks + f.signedQty * f.priceTicks -
      (p.netPosition + f.signedQty) * truncate
        (weightedAverage p.avgEntryPriceTicks p.netPosition f.signedQty f.priceTicks)
  else 0

/-- A fill that adds to the position leaves a whole number of ticks for the average. -/
def WholeAverage (p : PositionTracker) (f : AccountFill) : Prop :=
  Adds p.netPosition f.signedQty →
    (weightedAverage p.avgEntryPriceTicks p.netPosition f.signedQty f.priceTicks).den = 1

instance (p : PositionTracker) (f : AccountFill) : Decidable (WholeAverage p f) :=
  inferInstanceAs (Decidable (_ → _))

/-- The P&L but for the market value of the position. -/
def cash (p : PositionTracker) : ℤ :=
  p.realizedPnlTicks - p.netPosition * truncate p.avgEntryPriceTicks

variable {p : PositionTracker} {f : AccountFill} {fills : List AccountFill}

theorem apply_of_adds (h : Adds p.netPosition f.signedQty) :
    p.apply f = ⟨p.netPosition + f.signedQty, p.realizedPnlTicks, f.priceTicks,
      weightedAverage p.avgEntryPriceTicks p.netPosition f.signedQty f.priceTicks⟩ :=
  if_pos h

theorem apply_of_not_adds (h : ¬ Adds p.netPosition f.signedQty) :
    p.apply f = ⟨p.netPosition + f.signedQty,
      p.realizedPnlTicks + closedQty p.netPosition f.signedQty *
        (f.priceTicks - truncate p.avgEntryPriceTicks), f.priceTicks,
      if Flips p.netPosition f.signedQty then (f.priceTicks : ℚ) else p.avgEntryPriceTicks⟩ := by
  refine (if_neg h).trans ?_
  by_cases hflips : Flips p.netPosition f.signedQty
  · rw [if_pos hflips]
    exact if_pos hflips
  · rw [if_neg hflips]
    exact if_neg hflips

theorem apply_netPosition (p : PositionTracker) (f : AccountFill) :
    (p.apply f).netPosition = p.netPosition + f.signedQty :=
  netPosition_onFill p f.side f.quantity f.priceTicks

theorem cash_apply (p : PositionTracker) (f : AccountFill) :
    (p.apply f).cash = p.cash + (p.shortfall f + -(f.signedQty * f.priceTicks)) := by
  by_cases h : Adds p.netPosition f.signedQty
  · rw [apply_of_adds h, shortfall, if_pos h, cash, cash]
    ring
  · rw [apply_of_not_adds h, shortfall, if_neg h, cash, cash]
    rcases closedQty_cases f.signedQty_ne_zero h with ⟨hclosed, hflips⟩ | ⟨hclosed, hflips⟩
    · simp only [hclosed, if_neg hflips]
      ring
    · simp only [hclosed, if_pos hflips, truncate_intCast]
      ring

theorem netPosition_run (fills : List AccountFill) :
    (run fills).netPosition = (fills.map AccountFill.signedQty).sum := by
  rw [run, sum_along (μ := netPosition) apply_netPosition, along_map]
  exact zero_add _

theorem cash_run (fills : List AccountFill) :
    (run fills).cash = (along apply shortfall new fills).sum -
      (fills.map fun f => f.signedQty * f.priceTicks).sum := by
  have hneg : (fills.map fun f => -(f.signedQty * f.priceTicks)).sum =
      -(fills.map fun f => f.signedQty * f.priceTicks).sum := by
    rw [List.sum_neg, List.map_map]
    rfl
  rw [run, sum_along cash_apply, sum_along_add, along_map, hneg, ← sub_eq_add_neg]
  exact zero_add _

theorem marked_to_market_iff_sum (fills : List AccountFill) :
    MarkedToMarket fills ↔ (along apply shortfall new fills).sum = 0 := by
  have hcash := cash_run fills
  have hnet := netPosition_run fills
  have hmarked : (fills.map fun f => f.signedQty *
      ((run fills).lastTradePriceTicks - f.priceTicks)).sum =
        (run fills).netPosition * (run fills).lastTradePriceTicks -
          (fills.map fun f => f.signedQty * f.priceTicks).sum := by
    rw [hnet, eq_sub_iff_add_eq, ← List.sum_map_add, ← List.sum_map_mul_right]
    congr 1
    refine List.map_congr_left fun f _ => ?_
    ring
  rw [MarkedToMarket, hmarked, unrealizedPnlTicks]
  rw [cash] at hcash
  constructor
  · intro h
    linarith
  · intro h
    linarith

/-- From a whole average a fill adds nothing exactly if it leaves a whole one. -/
theorem shortfall_eq_zero_iff (h : p.avgEntryPriceTicks.den = 1) :
    p.shortfall f = 0 ↔ p.WholeAverage f := by
  by_cases hadds : Adds p.netPosition f.signedQty
  · have hne := hadds.add_ne_zero f.signedQty_ne_zero
    have hcast : (p.shortfall f : ℚ) = (p.netPosition + f.signedQty : ℤ) *
        (weightedAverage p.avgEntryPriceTicks p.netPosition f.signedQty f.priceTicks -
          truncate (weightedAverage p.avgEntryPriceTicks p.netPosition f.signedQty
            f.priceTicks)) := by
      rw [mul_sub, Int.cast_add, weightedAverage_mul _ _ f.signedQty_ne_zero hadds, shortfall,
        if_pos hadds]
      push_cast
      rw [truncate_eq_iff.mpr h]
    rw [← Int.cast_eq_zero (α := ℚ), hcast, mul_eq_zero, Int.cast_eq_zero, or_iff_right hne,
      sub_eq_zero, eq_comm, truncate_eq_iff]
    exact ⟨fun h _ => h, fun h => h hadds⟩
  · rw [shortfall, if_neg hadds]
    exact ⟨fun _ hc => absurd hc hadds, fun _ => rfl⟩

theorem den_apply (h : p.avgEntryPriceTicks.den = 1) (hf : p.WholeAverage f) :
    (p.apply f).avgEntryPriceTicks.den = 1 := by
  by_cases hadds : Adds p.netPosition f.signedQty
  · rw [apply_of_adds hadds]
    exact hf hadds
  · rw [apply_of_not_adds hadds]
    dsimp only
    split
    · rfl
    · exact h

/-- For every sequence of fills: the P&L is the mark to market exactly if what the truncations
add is nothing in sum, and it is so after every fill exactly if each fill that adds to the position
leaves a whole number of ticks for the average. -/
theorem marked_to_market_iff (fills : List AccountFill) :
    (MarkedToMarket fills ↔ (along apply shortfall new fills).sum = 0) ∧
      ((∀ some, some <+: fills → MarkedToMarket some) ↔
        Throughout apply WholeAverage new fills) := by
  refine ⟨marked_to_market_iff_sum fills, ?_⟩
  simp only [marked_to_market_iff_sum]
  rw [sums_eq_zero_iff]
  exact Throughout.congr (P := fun p => p.avgEntryPriceTicks.den = 1)
    (fun p f hp hf => den_apply hp ((shortfall_eq_zero_iff hp).mp hf))
    (fun p f hp => shortfall_eq_zero_iff hp) rfl

/-- One bought at 100 and one at 101: marked to 101 they have made one tick, not two. -/
theorem not_marked_to_market_of_half :
    ¬ MarkedToMarket [⟨.buy, 1, 100, by decide⟩, ⟨.buy, 1, 101, by decide⟩] := by
  decide +kernel

end PositionTracker
end Velo.Risk
