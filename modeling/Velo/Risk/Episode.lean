import Velo.Risk.Splitting

/-! The average entry price and the fills that it is an average of. -/
namespace Velo.Risk

/-- The fills since the position was last flat or last changed its side. -/
structure Episode where
  net : ℤ
  fills : List AccountFill

namespace Episode

def none : Episode := ⟨0, []⟩

/-- A fill that opens the position or changes its side is the first of an episode. -/
def add (e : Episode) (f : AccountFill) : Episode :=
  ⟨e.net + f.signedQty,
    if e.net = 0 ∨ (e.net + f.signedQty).sign ≠ e.net.sign then [f] else e.fills ++ [f]⟩

/-- The prices of the fills in the direction of the position. -/
def entryPrices (e : Episode) : List ℤ :=
  (e.fills.filter fun f => f.signedQty.sign = e.net.sign).map AccountFill.priceTicks

end Episode

def episode (fills : List AccountFill) : Episode := fills.foldl Episode.add .none

/-- An average between a lowest and a highest price. -/
def Between (prices : List ℤ) (avg : ℚ) : Prop :=
  ∃ lo hi, prices.min? = some lo ∧ prices.max? = some hi ∧ lo ≤ avg ∧ avg ≤ hi

/-- An open position has an average between two of the prices that it was entered at. -/
structure Entered (p : PositionTracker) (e : Episode) : Prop where
  netPosition : p.netPosition = e.net
  between : e.net ≠ 0 → ∃ lo ∈ e.entryPrices, ∃ hi ∈ e.entryPrices,
    lo ≤ p.avgEntryPriceTicks ∧ p.avgEntryPriceTicks ≤ hi

variable {net qty priceTicks : ℤ} {avg : ℚ} {prices : List ℤ} {e : Episode} {f : AccountFill}
  {p : PositionTracker}

theorem between_of_mem {lo hi : ℤ} (hlo : lo ∈ prices) (hhi : hi ∈ prices) (hle : lo ≤ avg)
    (hge : avg ≤ hi) : Between prices avg := by
  obtain ⟨low, hlow⟩ := Option.isSome_iff_exists.mp (List.isSome_min?_of_mem hlo)
  obtain ⟨high, hhigh⟩ := Option.isSome_iff_exists.mp (List.isSome_max?_of_mem hhi)
  have hlowLe : low ≤ lo := (List.min?_eq_some_iff.mp hlow).2 lo hlo
  have hleHigh : hi ≤ high := (List.max?_eq_some_iff.mp hhigh).2 hi hhi
  refine ⟨low, high, hlow, hhigh, ?_, ?_⟩
  · exact le_trans (by exact_mod_cast hlowLe) hle
  · exact le_trans hge (by exact_mod_cast hleHigh)

theorem weights_ne_zero (net : ℤ) (hqty : qty ≠ 0) : (net.natAbs + qty.natAbs : ℚ) ≠ 0 := by
  have hpos : 0 < net.natAbs + qty.natAbs := by omega
  exact_mod_cast hpos.ne'

theorem weightedAverage_mem (net : ℤ) (hqty : qty ≠ 0) {lo hi : ℚ} (hlo : lo ≤ avg)
    (hhi : avg ≤ hi) (hloPrice : lo ≤ priceTicks) (hhiPrice : priceTicks ≤ hi) :
    lo ≤ weightedAverage avg net qty priceTicks ∧
      weightedAverage avg net qty priceTicks ≤ hi := by
  have hpos : (0 : ℚ) < net.natAbs + qty.natAbs :=
    lt_of_le_of_ne (by positivity) (weights_ne_zero net hqty).symm
  have hnet : (0 : ℚ) ≤ net.natAbs := Nat.cast_nonneg _
  have hadd : (0 : ℚ) ≤ qty.natAbs := Nat.cast_nonneg _
  rw [weightedAverage, le_div_iff₀ hpos, div_le_iff₀ hpos, mul_add, mul_add]
  constructor
  · exact add_le_add (mul_le_mul_of_nonneg_right hlo hnet)
      (mul_le_mul_of_nonneg_right hloPrice hadd)
  · exact add_le_add (mul_le_mul_of_nonneg_right hhi hnet)
      (mul_le_mul_of_nonneg_right hhiPrice hadd)

namespace Episode

theorem add_of_first (h : e.net = 0 ∨ (e.net + f.signedQty).sign ≠ e.net.sign) :
    e.add f = ⟨e.net + f.signedQty, [f]⟩ := by
  rw [add, if_pos h]

theorem add_of_later (hopen : e.net ≠ 0) (hsign : (e.net + f.signedQty).sign = e.net.sign) :
    e.add f = ⟨e.net + f.signedQty, e.fills ++ [f]⟩ := by
  rw [add, if_neg]
  rw [not_or, not_not]
  exact ⟨hopen, hsign⟩

theorem entryPrices_first (hsign : f.signedQty.sign = net.sign) :
    entryPrices ⟨net, [f]⟩ = [f.priceTicks] := by
  rw [entryPrices, List.filter_cons_of_pos (by simpa using hsign)]
  rfl

theorem mem_entryPrices_later (f : AccountFill) (price : ℤ) (hsign : net.sign = e.net.sign) :
    price ∈ entryPrices ⟨net, e.fills ++ [f]⟩ ↔
      price ∈ e.entryPrices ∨ f.signedQty.sign = net.sign ∧ price = f.priceTicks := by
  simp only [entryPrices, List.filter_append, List.map_append, List.mem_append, hsign]
  apply or_congr_right
  by_cases hf : f.signedQty.sign = e.net.sign
  · rw [List.filter_cons_of_pos (by simpa using hf), List.filter_nil, List.map_singleton,
      List.mem_singleton]
    exact (and_iff_right hf).symm
  · rw [List.filter_cons_of_neg (by simpa using hf), List.filter_nil, List.map_nil]
    simp [hf]

end Episode

theorem entered_first (hnet : p.netPosition = net) (hsign : f.signedQty.sign = net.sign)
    (havg : p.avgEntryPriceTicks = f.priceTicks) : Entered p ⟨net, [f]⟩ := by
  refine ⟨hnet, fun _ => ⟨f.priceTicks, ?_, f.priceTicks, ?_, havg.ge, havg.le⟩⟩
  · rw [Episode.entryPrices_first hsign]
    exact List.mem_singleton_self _
  · rw [Episode.entryPrices_first hsign]
    exact List.mem_singleton_self _

/-- A fill that adds to an open position moves the average towards its price. -/
theorem Entered.apply_of_adds (h : Entered p e) (hadds : Adds p.netPosition f.signedQty) :
    Entered (p.apply f) (e.add f) := by
  obtain ⟨hnet, hbetween⟩ := h
  have hqty := f.signedQty_ne_zero
  rw [PositionTracker.apply_of_adds hadds, hnet]
  rw [hnet] at hadds
  by_cases hopen : e.net = 0
  · rw [Episode.add_of_first (Or.inl hopen)]
    refine entered_first rfl ?_ ?_
    · rw [hopen, zero_add]
    · apply weightedAverage_eq hqty hadds
      rw [hopen]
      push_cast
      ring
  · have hside : f.signedQty.sign = e.net.sign := (hadds.resolve_left hopen).symm
    have hsign : (e.net + f.signedQty).sign = e.net.sign := by
      rcases adds_cases hqty hadds with ⟨hn, hq⟩ | ⟨hn, hq⟩
      · rw [Int.sign_eq_one_of_pos (by omega), Int.sign_eq_one_of_pos (by omega)]
      · rw [Int.sign_eq_neg_one_of_neg (by omega), Int.sign_eq_neg_one_of_neg (by omega)]
    rw [Episode.add_of_later hopen hsign]
    refine ⟨rfl, fun _ => ?_⟩
    have hmem := fun price => Episode.mem_entryPrices_later f price hsign
    have hprice := (hmem f.priceTicks).mpr (Or.inr ⟨hside.trans hsign.symm, rfl⟩)
    obtain ⟨lo, hlo, hi, hhi, hle, hge⟩ := hbetween hopen
    rcases le_total p.avgEntryPriceTicks f.priceTicks with hup | hdown
    · have hbounds := weightedAverage_mem e.net hqty hle hup (hle.trans hup) le_rfl
      exact ⟨lo, (hmem lo).mpr (Or.inl hlo), f.priceTicks, hprice, hbounds⟩
    · have hbounds := weightedAverage_mem e.net hqty hdown hge le_rfl (hdown.trans hge)
      exact ⟨f.priceTicks, hprice, hi, (hmem hi).mpr (Or.inl hhi), hbounds⟩

/-- A fill against the position leaves the average, or is the first on the other side. -/
theorem Entered.apply_of_not_adds (h : Entered p e) (hadds : ¬ Adds p.netPosition f.signedQty) :
    Entered (p.apply f) (e.add f) := by
  obtain ⟨hnet, hbetween⟩ := h
  have hqty := f.signedQty_ne_zero
  rw [PositionTracker.apply_of_not_adds hadds, hnet]
  rw [hnet] at hadds
  have hcases := not_adds_cases hqty hadds
  have hopen : e.net ≠ 0 := by omega
  by_cases hflips : Flips e.net f.signedQty
  · rw [if_pos hflips, Episode.add_of_first (Or.inr hflips.2)]
    refine entered_first rfl ?_ rfl
    have hcross := flips_iff.mp hflips
    rcases hcases with ⟨hn, hq⟩ | ⟨hn, hq⟩
    · rw [Int.sign_eq_neg_one_of_neg hq, Int.sign_eq_neg_one_of_neg (by omega)]
    · rw [Int.sign_eq_one_of_pos hq, Int.sign_eq_one_of_pos (by omega)]
  · rw [if_neg hflips]
    refine ⟨rfl, fun hstill => ?_⟩
    have hsign : (e.net + f.signedQty).sign = e.net.sign := by
      by_contra hne
      exact hflips ⟨hstill, hne⟩
    have hmem := fun price => Episode.mem_entryPrices_later f price hsign
    obtain ⟨lo, hlo, hi, hhi, hle, hge⟩ := hbetween hopen
    rw [Episode.add_of_later hopen hsign]
    exact ⟨lo, (hmem lo).mpr (Or.inl hlo), hi, (hmem hi).mpr (Or.inl hhi), hle, hge⟩

theorem Entered.apply (h : Entered p e) (f : AccountFill) : Entered (p.apply f) (e.add f) := by
  by_cases hadds : Adds p.netPosition f.signedQty
  · exact h.apply_of_adds hadds
  · exact h.apply_of_not_adds hadds

theorem Entered.foldl (h : Entered p e) (fills : List AccountFill) :
    Entered (fills.foldl PositionTracker.apply p) (fills.foldl Episode.add e) := by
  induction fills generalizing p e with
  | nil => exact h
  | cons f fills ih => exact ih (h.apply f)

theorem entered_run (fills : List AccountFill) :
    Entered (PositionTracker.run fills) (episode fills) := by
  refine Entered.foldl ⟨rfl, fun hopen => ?_⟩ fills
  exact absurd rfl hopen

namespace PositionTracker

/-- After any fills: the position is their sum, an open one has an average between the lowest and
the highest price that it was entered at, and whatever the next fill is, there is something to
divide by when it adds to the position, which realizes nothing, and the average stays when it only
reduces it. -/
theorem average_entry (fills : List AccountFill) :
    (run fills).netPosition = (fills.map AccountFill.signedQty).sum ∧
      ((run fills).netPosition ≠ 0 →
        Between (episode fills).entryPrices (run fills).avgEntryPriceTicks) ∧
      ∀ f, (Adds (run fills).netPosition f.signedQty →
          ((run fills).netPosition.natAbs + f.signedQty.natAbs : ℚ) ≠ 0 ∧
            ((run fills).apply f).realizedPnlTicks = (run fills).realizedPnlTicks) ∧
        (¬ Adds (run fills).netPosition f.signedQty →
          |f.signedQty| ≤ |(run fills).netPosition| →
            ((run fills).apply f).avgEntryPriceTicks = (run fills).avgEntryPriceTicks) := by
  refine ⟨netPosition_run fills, fun hopen => ?_, fun f => ⟨fun hadds => ⟨?_, ?_⟩, ?_⟩⟩
  · obtain ⟨hnet, hbetween⟩ := entered_run fills
    obtain ⟨lo, hlo, hi, hhi, hle, hge⟩ := hbetween (hnet ▸ hopen)
    exact between_of_mem hlo hhi hle hge
  · exact weights_ne_zero _ f.signedQty_ne_zero
  · rw [PositionTracker.apply_of_adds hadds]
  · intro hadds hle
    have hcases := not_adds_cases f.signedQty_ne_zero hadds
    have hflips : ¬ Flips (run fills).netPosition f.signedQty := by
      rw [flips_iff]
      rw [Int.abs_eq_natAbs, Int.abs_eq_natAbs] at hle
      omega
    rw [PositionTracker.apply_of_not_adds hadds, if_neg hflips]

/-- Bought at 100 and at 110 and one sold: the average is between the two. -/
example : (episode [⟨.buy, 2, 100, by decide⟩, ⟨.buy, 2, 110, by decide⟩,
    ⟨.sell, 1, 50, by decide⟩]).entryPrices = [100, 110] := by
  decide

end PositionTracker
end Velo.Risk
