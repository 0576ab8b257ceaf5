import Velo.Risk.Account

/-! A trade in two parts: the account it leaves is the one that the whole trade leaves. -/
namespace Velo.Risk

/-- Bought both or sold both. -/
def SameWay (qty more : ℤ) : Prop := (0 < qty ∧ 0 < more) ∨ (qty < 0 ∧ more < 0)

/-- What a fill closes of the position, with its sign. One that adds to it closes nothing. -/
def closes (net qty : ℤ) : ℤ := if Adds net qty then 0 else closedQty net qty

/-- The average that a fill leaves. It is stale once the position is flat. -/
def averageAfter (avg : ℚ) (net qty priceTicks : ℤ) : ℚ :=
  if Adds net qty then weightedAverage avg net qty priceTicks
  else if Flips net qty then priceTicks
  else avg

variable {net qty more priceTicks : ℤ} {avg q : ℚ}

theorem adds_iff (hqty : qty ≠ 0) :
    Adds net qty ↔ (0 ≤ net ∧ 0 < qty) ∨ (net ≤ 0 ∧ qty < 0) := by
  constructor
  · exact adds_cases hqty
  · intro h
    by_contra hadds
    have hcases := not_adds_cases hqty hadds
    omega

theorem flips_iff :
    Flips net qty ↔ net + qty ≠ 0 ∧ ¬ (0 < net ∧ 0 < net + qty) ∧ ¬ (net < 0 ∧ net + qty < 0) := by
  rw [Flips, and_congr_right_iff]
  intro hne
  rcases lt_or_gt_of_ne hne with hlt | hgt
  · rw [Int.sign_eq_neg_one_of_neg hlt, Ne, eq_comm, Int.sign_eq_neg_one_iff_neg]
    omega
  · rw [Int.sign_eq_one_of_pos hgt, Ne, eq_comm, Int.sign_eq_one_iff_pos]
    omega

theorem closes_of_adds (h : Adds net qty) : closes net qty = 0 := if_pos h

theorem closes_of_not_adds (h : ¬ Adds net qty) : closes net qty = closedQty net qty := if_neg h

theorem averageAfter_of_adds (h : Adds net qty) :
    averageAfter avg net qty priceTicks = weightedAverage avg net qty priceTicks :=
  if_pos h

theorem averageAfter_of_flips (h : ¬ Adds net qty) (hflips : Flips net qty) :
    averageAfter avg net qty priceTicks = priceTicks := by
  rw [averageAfter, if_neg h, if_pos hflips]

theorem averageAfter_of_reduces (h : ¬ Adds net qty) (hflips : ¬ Flips net qty) :
    averageAfter avg net qty priceTicks = avg := by
  rw [averageAfter, if_neg h, if_neg hflips]

/-- The weighted average is the only value that keeps what the position has cost. -/
theorem weightedAverage_eq (hqty : qty ≠ 0) (h : Adds net qty)
    (hq : (net + qty) * q = net * avg + qty * priceTicks) :
    weightedAverage avg net qty priceTicks = q := by
  have hsum : (net + qty : ℚ) ≠ 0 := by exact_mod_cast h.add_ne_zero hqty
  apply mul_left_cancel₀ hsum
  rw [weightedAverage_mul _ _ hqty h, hq]

theorem SameWay.adds (h : SameWay qty more) (hadds : Adds net qty) :
    Adds (net + qty) more ∧ Adds net (qty + more) := by
  have hway := h
  rw [SameWay] at hway
  rw [adds_iff (by omega)] at hadds
  rw [adds_iff (by omega), adds_iff (by omega)]
  omega

theorem SameWay.not_adds (h : SameWay qty more) (hadds : ¬ Adds net qty) :
    ¬ Adds net (qty + more) := by
  have hway := h
  rw [SameWay] at hway
  rw [adds_iff (by omega)] at hadds ⊢
  omega

theorem SameWay.adds_of_closed (h : SameWay qty more) (hclosed : net + qty = 0 ∨ Flips net qty) :
    Adds (net + qty) more ∧ Flips net (qty + more) := by
  have hway := h
  rw [SameWay] at hway
  rw [adds_iff (by omega)]
  rw [flips_iff] at hclosed ⊢
  omega

theorem SameWay.reduces (h : SameWay qty more) (hadds : ¬ Adds net qty) (hne : net + qty ≠ 0)
    (hflips : ¬ Flips net qty) :
    ¬ Adds (net + qty) more ∧ (Flips (net + qty) more ↔ Flips net (qty + more)) := by
  have hway := h
  rw [SameWay] at hway
  rw [adds_iff (by omega)] at hadds
  rw [adds_iff (by omega)]
  rw [flips_iff] at hflips
  rw [flips_iff, flips_iff]
  omega

/-- The average after both parts is the one after the whole. -/
theorem averageAfter_split (h : SameWay qty more) :
    averageAfter (averageAfter avg net qty priceTicks) (net + qty) more priceTicks =
      averageAfter avg net (qty + more) priceTicks := by
  have hqty : qty ≠ 0 := by
    rw [SameWay] at h
    omega
  have hmore : more ≠ 0 := by
    rw [SameWay] at h
    omega
  have hboth : qty + more ≠ 0 := by
    rw [SameWay] at h
    omega
  by_cases hadds : Adds net qty
  · obtain ⟨hrest, hwhole⟩ := h.adds hadds
    rw [averageAfter_of_adds hadds, averageAfter_of_adds hrest, averageAfter_of_adds hwhole]
    apply weightedAverage_eq hmore hrest
    have hcost := weightedAverage_mul avg priceTicks hqty hadds
    have hall := weightedAverage_mul avg priceTicks hboth hwhole
    push_cast at hall ⊢
    linarith
  · have hwhole := h.not_adds hadds
    by_cases hclosed : net + qty = 0 ∨ Flips net qty
    · obtain ⟨hrest, hflips⟩ := h.adds_of_closed hclosed
      rw [averageAfter_of_adds hrest, averageAfter_of_flips hwhole hflips]
      apply weightedAverage_eq hmore hrest
      rcases hclosed with hflat | hpart
      · -- the stale average has no weight
        rw [hflat]
        push_cast
        ring
      · rw [averageAfter_of_flips hadds hpart]
        ring
    · rw [not_or] at hclosed
      obtain ⟨hrest, hflips⟩ := h.reduces hadds hclosed.1 hclosed.2
      rw [averageAfter_of_reduces hadds hclosed.2]
      simp only [averageAfter, if_neg hrest, if_neg hwhole, hflips]

/-- What both parts close is what the whole closes. -/
theorem closes_split (net : ℤ) (h : SameWay qty more) :
    closes net qty + closes (net + qty) more = closes net (qty + more) := by
  by_cases hadds : Adds net qty
  · obtain ⟨hrest, hwhole⟩ := h.adds hadds
    rw [closes_of_adds hadds, closes_of_adds hrest, closes_of_adds hwhole, add_zero]
  · have hwhole := h.not_adds hadds
    have hway := h
    rw [SameWay] at hway
    have hqtyCases := closedQty_cases (by omega) hadds
    have hwholeCases := closedQty_cases (by omega) hwhole
    rw [closes_of_not_adds hadds, closes_of_not_adds hwhole]
    by_cases hclosed : net + qty = 0 ∨ Flips net qty
    · obtain ⟨hrest, hflips⟩ := h.adds_of_closed hclosed
      rw [closes_of_adds hrest]
      rw [flips_iff] at hqtyCases hwholeCases hclosed hflips
      omega
    · rw [not_or] at hclosed
      obtain ⟨hrest, hflips⟩ := h.reduces hadds hclosed.1 hclosed.2
      have hrestCases := closedQty_cases (by omega) hrest
      rw [closes_of_not_adds hrest]
      rw [hflips, flips_iff] at hrestCases
      rw [flips_iff] at hqtyCases hwholeCases hclosed
      omega

theorem closes_eq_zero_or_averageAfter_eq (avg : ℚ) (net priceTicks : ℤ) (h : SameWay qty more) :
    closes (net + qty) more = 0 ∨ averageAfter avg net qty priceTicks = avg := by
  by_cases hadds : Adds net qty
  · exact Or.inl (closes_of_adds (h.adds hadds).1)
  · by_cases hclosed : net + qty = 0 ∨ Flips net qty
    · exact Or.inl (closes_of_adds (h.adds_of_closed hclosed).1)
    · rw [not_or] at hclosed
      exact Or.inr (averageAfter_of_reduces hadds hclosed.2)

theorem signedQty_add (side : Side) {quantity more : UInt32}
    (hfits : quantity.toNat + more.toNat < 2 ^ 32) :
    signedQty side (quantity + more) = signedQty side quantity + signedQty side more := by
  have hsum : (quantity + more).toNat = quantity.toNat + more.toNat := by
    rw [UInt32.toNat_add, Nat.mod_eq_of_lt hfits]
  cases side with
  | buy =>
    simp only [signedQty]
    omega
  | sell =>
    simp only [signedQty]
    omega

theorem sameWay_signedQty (side : Side) {quantity more : UInt32} (hquantity : quantity ≠ 0)
    (hmore : more ≠ 0) : SameWay (signedQty side quantity) (signedQty side more) := by
  have hpos := toNat_pos_of_ne_zero hquantity
  have hmorePos := toNat_pos_of_ne_zero hmore
  rw [SameWay]
  cases side with
  | buy =>
    simp only [signedQty]
    omega
  | sell =>
    simp only [signedQty]
    omega

namespace PositionTracker

variable {p : PositionTracker} {side : Side} {quantity more : UInt32} {priceTicks : ℤ}

theorem onFill_eq (p : PositionTracker) (side : Side) {quantity : UInt32} (hquantity : quantity ≠ 0)
    (priceTicks : ℤ) :
    p.onFill side quantity priceTicks =
      ⟨p.netPosition + signedQty side quantity,
        p.realizedPnlTicks + closes p.netPosition (signedQty side quantity) *
          (priceTicks - truncate p.avgEntryPriceTicks), priceTicks,
        averageAfter p.avgEntryPriceTicks p.netPosition (signedQty side quantity) priceTicks⟩ := by
  let f : AccountFill := ⟨side, quantity, priceTicks, hquantity⟩
  by_cases hadds : Adds p.netPosition (signedQty side quantity)
  · rw [closes_of_adds hadds, averageAfter_of_adds hadds, zero_mul, add_zero]
    exact apply_of_adds (f := f) hadds
  · rw [closes_of_not_adds hadds, averageAfter, if_neg hadds]
    exact apply_of_not_adds (f := f) hadds

theorem apply_eq (p : PositionTracker) (f : AccountFill) :
    p.apply f = ⟨p.netPosition + f.signedQty,
      p.realizedPnlTicks + closes p.netPosition f.signedQty *
        (f.priceTicks - truncate p.avgEntryPriceTicks), f.priceTicks,
      averageAfter p.avgEntryPriceTicks p.netPosition f.signedQty f.priceTicks⟩ :=
  onFill_eq p f.side f.quantity_ne_zero f.priceTicks

/-- From any account, flat with a stale average or not. -/
theorem onFill_onFill (p : PositionTracker) (side : Side) (priceTicks : ℤ)
    (hquantity : quantity ≠ 0) (hmore : more ≠ 0)
    (hfits : quantity.toNat + more.toNat < 2 ^ 32) :
    (p.onFill side quantity priceTicks).onFill side more priceTicks =
      p.onFill side (quantity + more) priceTicks := by
  have hpos := toNat_pos_of_ne_zero hquantity
  have hboth : quantity + more ≠ 0 := by
    intro h
    have hzero := congrArg UInt32.toNat h
    rw [UInt32.toNat_add, Nat.mod_eq_of_lt hfits, UInt32.toNat_zero] at hzero
    omega
  have hway := sameWay_signedQty side hquantity hmore
  have hrealized := closes_split p.netPosition hway
  rw [onFill_eq _ side hmore, onFill_eq _ side hquantity, onFill_eq _ side hboth,
    signedQty_add side hfits, averageAfter_split hway, ← hrealized, add_mul, add_assoc, add_assoc]
  rcases closes_eq_zero_or_averageAfter_eq p.avgEntryPriceTicks p.netPosition priceTicks hway with
    hzero | havg
  · rw [hzero, zero_mul, zero_mul]
  · rw [havg]

/-- After any fills a trade in two parts leaves the same account as the whole trade, with the same
average even where it is stale, and so with the same open P&L. -/
theorem onFill_split (fills : List AccountFill) (side : Side) (priceTicks : ℤ)
    (quantity more : UInt32) (hquantity : quantity ≠ 0) (hmore : more ≠ 0)
    (hfits : quantity.toNat + more.toNat < 2 ^ 32) :
    let whole := (run fills).onFill side (quantity + more) priceTicks
    let parts := ((run fills).onFill side quantity priceTicks).onFill side more priceTicks
    parts = whole ∧ parts.unrealizedPnlTicks = whole.unrealizedPnlTicks := by
  have hsame := onFill_onFill (run fills) side priceTicks hquantity hmore hfits
  exact ⟨hsame, congrArg unrealizedPnlTicks hsame⟩

/-- Long of three, five are sold: at once, or three to be flat and then two to be short. -/
theorem onFill_split_flips :
    let p := (run [⟨.buy, 3, 100, by decide⟩])
    (p.onFill .sell 3 104).onFill .sell 2 104 = p.onFill .sell (3 + 2) 104 :=
  (onFill_split [⟨.buy, 3, 100, by decide⟩] .sell 104 3 2 (by decide) (by decide)
    (by decide)).1

end PositionTracker
end Velo.Risk
