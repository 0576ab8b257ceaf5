import Velo.Risk.NormCdf
import Velo.Risk.PricingBatch

/-! A call against the put of the same parameters, and the bounds of the Greeks. -/
namespace Velo.Risk
open Elementary

section Params

variable {F : Type*} [Field F] [Elementary F]

namespace OptionParams

def call (p : OptionParams F) : OptionParams F := { p with isCall := true }

def put (p : OptionParams F) : OptionParams F := { p with isCall := false }

def d1 (p : OptionParams F) : F :=
  (ln (p.spot / p.strike) + (p.rate + 0.5 * p.vol * p.vol) * p.timeToExpiry) /
    (p.vol * sqrt p.timeToExpiry)

def d2 (p : OptionParams F) : F := p.d1 - p.vol * sqrt p.timeToExpiry

def discount (p : OptionParams F) : F := exp (-p.rate * p.timeToExpiry)

end OptionParams

variable [LinearOrder F]

/-- The market data that the pricer is for. -/
structure OptionParams.Positive (p : OptionParams F) : Prop where
  spot : 0 < p.spot
  strike : 0 < p.strike
  vol : 0 < p.vol
  timeToExpiry : 0 < p.timeToExpiry

/-- The parity of the price, and what it says of the Greeks. -/
structure PutCallParity (p : OptionParams F) : Prop where
  price : (priceScalar p.call).price - (priceScalar p.put).price =
    p.spot - p.strike * p.discount
  delta : (priceScalar p.call).delta - (priceScalar p.put).delta = 1
  gamma : (priceScalar p.call).gamma = (priceScalar p.put).gamma
  vega : (priceScalar p.call).vega = (priceScalar p.put).vega
  theta : (priceScalar p.call).theta - (priceScalar p.put).theta =
    -p.rate * p.strike * p.discount
  rho : (priceScalar p.call).rho - (priceScalar p.put).rho =
    p.strike * p.timeToExpiry * p.discount

/-- How far the price is from parity. -/
def parityGap (p : OptionParams F) : F :=
  (priceScalar p.call).price - (priceScalar p.put).price - (p.spot - p.strike * p.discount)

theorem priceScalar_call (p : OptionParams F) :
    priceScalar p.call =
      { price := p.spot * normCdf p.d1 - p.strike * p.discount * normCdf p.d2
        delta := normCdf p.d1
        gamma := normPdf p.d1 / (p.spot * (p.vol * sqrt p.timeToExpiry))
        vega := p.spot * normPdf p.d1 * sqrt p.timeToExpiry
        theta := -(p.spot * normPdf p.d1 * p.vol) / (2.0 * sqrt p.timeToExpiry) -
          p.rate * p.strike * p.discount * normCdf p.d2
        rho := p.strike * p.timeToExpiry * p.discount * normCdf p.d2 } := by
  simp only [priceScalar, OptionParams.call, if_true, one_mul]
  rfl

theorem priceScalar_put (p : OptionParams F) :
    priceScalar p.put =
      { price := -(p.spot * normCdf (-p.d1) - p.strike * p.discount * normCdf (-p.d2))
        delta := -normCdf (-p.d1)
        gamma := normPdf p.d1 / (p.spot * (p.vol * sqrt p.timeToExpiry))
        vega := p.spot * normPdf p.d1 * sqrt p.timeToExpiry
        theta := -(p.spot * normPdf p.d1 * p.vol) / (2.0 * sqrt p.timeToExpiry) -
          -p.rate * p.strike * p.discount * normCdf (-p.d2)
        rho := -p.strike * p.timeToExpiry * p.discount * normCdf (-p.d2) } := by
  simp only [priceScalar, OptionParams.put, Bool.false_eq_true, if_false, neg_one_mul]
  rfl

/-- Only the sums of the CDF at opposite arguments keep the price from parity. -/
theorem parityGap_eq (p : OptionParams F) :
    parityGap p = p.spot * (normCdf p.d1 + normCdf (-p.d1) - 1) -
      p.strike * p.discount * (normCdf p.d2 + normCdf (-p.d2) - 1) := by
  simp only [parityGap, priceScalar_call, priceScalar_put]
  ring

end Params

variable {F : Type*} [Field F] [LinearOrder F] [IsStrictOrderedRing F] [Elementary F]

theorem putCallParity_of_ne_zero (p : OptionParams F) (hd1 : p.d1 ≠ 0) (hd2 : p.d2 ≠ 0) :
    PutCallParity p := by
  have hgap : parityGap p = 0 := by
    rw [parityGap_eq, normCdf_neg hd1, normCdf_neg hd2]
    ring
  refine ⟨sub_eq_zero.mp hgap, ?_, ?_, ?_, ?_, ?_⟩ <;> rw [priceScalar_call, priceScalar_put]
  · rw [normCdf_neg hd1]
    ring
  · dsimp only
    rw [sub_sub_sub_cancel_left, normCdf_neg hd2]
    ring
  · dsimp only
    rw [normCdf_neg hd2]
    ring

theorem abs_parityGap_le (hexp : exp (0 : F) = 1) (p : OptionParams F) (hspot : 0 < p.spot)
    (hstrike : 0 < p.strike) :
    |parityGap p| ≤ 3e-7 * (p.spot + p.strike * |p.discount|) := by
  have hd1 := abs_normCdf_add_neg hexp p.d1
  have hd2 := abs_normCdf_add_neg hexp p.d2
  have hweight : |p.strike * p.discount| = p.strike * |p.discount| := by
    rw [abs_mul, abs_of_pos hstrike]
  have hnonneg : 0 ≤ p.spot + p.strike * |p.discount| := by positivity
  rw [parityGap_eq]
  calc
    _ ≤ |p.spot * (normCdf p.d1 + normCdf (-p.d1) - 1)| +
        |p.strike * p.discount * (normCdf p.d2 + normCdf (-p.d2) - 1)| := abs_sub _ _
    _ ≤ p.spot * 1.1e-9 + p.strike * |p.discount| * 1.1e-9 := by
      rw [abs_mul, abs_mul, abs_of_pos hspot, hweight]
      exact add_le_add (mul_le_mul_of_nonneg_left hd1 hspot.le)
        (mul_le_mul_of_nonneg_left hd2 (by positivity))
    _ = 1.1e-9 * (p.spot + p.strike * |p.discount|) := by ring
    _ ≤ 3e-7 * (p.spot + p.strike * |p.discount|) :=
      mul_le_mul_of_nonneg_right (by norm_num) hnonneg

/-- Put-call parity, exactly but where an argument of the CDF is zero: there the price is as near
to it as the digits of the constants. -/
theorem put_call_parity (hexp : exp (0 : F) = 1) (p : OptionParams F) (hp : p.Positive) :
    (p.d1 ≠ 0 → p.d2 ≠ 0 → PutCallParity p) ∧
      |parityGap p| ≤ 3e-7 * (p.spot + p.strike * |p.discount|) :=
  ⟨putCallParity_of_ne_zero p, abs_parityGap_le hexp p hp.spot hp.strike⟩

theorem put_call_parity_real :
    let p : OptionParams ℝ := ⟨100, 95, 0.03, 0.25, 0.5, true⟩
    |parityGap p| ≤ 3e-7 * (p.spot + p.strike * |p.discount|) :=
  (put_call_parity Real.exp_zero ⟨100, 95, 0.03, 0.25, 0.5, true⟩
    ⟨by norm_num, by norm_num, by norm_num, by norm_num⟩).2

/-- An exponential that is one at zero and nothing else that an exponential is. -/
@[reducible] def signedExp : Elementary ℚ := ⟨fun y => if y = 0 then 1 else -1, fun _ => 0, id⟩

/-- A negative discount factor makes the bound nothing, and the gap is not. -/
theorem not_parity_of_negative_discount :
    letI := signedExp
    exp (0 : ℚ) = 1 ∧ ¬ ∀ p : OptionParams ℚ, p.Positive → p.d1 = 0 ∨ p.d2 = 0 →
      |parityGap p| ≤ 3e-7 * (p.spot + p.strike * p.discount) := by
  refine ⟨rfl, fun h => ?_⟩
  have hgap := h ⟨1, 1, -1 / 2, 1, 1, true⟩
    ⟨by norm_num, by norm_num, by norm_num, by norm_num⟩ (Or.inl (by decide +kernel))
  revert hgap
  decide +kernel

/-- The Greeks that have a sign have it, and the delta is a probability. -/
theorem greek_bounds (hexp : ExpBelowOne F) (hsqrt : ∀ y : F, 0 < y → 0 < sqrt y) :
    (∀ x : F, 0 < normCdf x ∧ normCdf x < 1 ∧ (0 ≤ x → 1 / 2 ≤ normCdf x) ∧
      (x < 0 → normCdf x ≤ 1 / 2)) ∧
    ∀ p : OptionParams F, p.Positive →
      (0 ≤ (priceScalar p.call).delta ∧ (priceScalar p.call).delta ≤ 1) ∧
      (-1 ≤ (priceScalar p.put).delta ∧ (priceScalar p.put).delta ≤ 0) ∧
      (0 ≤ (priceScalar p.call).gamma ∧ 0 ≤ (priceScalar p.put).gamma) ∧
      0 ≤ (priceScalar p.call).vega ∧ 0 ≤ (priceScalar p.put).vega := by
  refine ⟨normCdf_mem hexp, fun p hp => ?_⟩
  have hcall := normCdf_mem hexp p.d1
  have hput := normCdf_mem hexp (-p.d1)
  have hpdf := normPdf_pos hexp p.d1
  have hsqrtT := hsqrt p.timeToExpiry hp.timeToExpiry
  have hgamma : 0 ≤ normPdf p.d1 / (p.spot * (p.vol * sqrt p.timeToExpiry)) :=
    div_nonneg hpdf.le (mul_pos hp.spot (mul_pos hp.vol hsqrtT)).le
  have hvega : 0 ≤ p.spot * normPdf p.d1 * sqrt p.timeToExpiry :=
    (mul_pos (mul_pos hp.spot hpdf) hsqrtT).le
  rw [priceScalar_call, priceScalar_put]
  exact ⟨⟨hcall.1.le, hcall.2.1.le⟩, ⟨neg_le_neg hput.2.1.le, neg_nonpos.mpr hput.1.le⟩,
    ⟨hgamma, hgamma⟩, hvega, hvega⟩

theorem greek_bounds_real :
    let p : OptionParams ℝ := ⟨100, 95, 0.03, 0.25, 0.5, true⟩
    0 ≤ (priceScalar p.call).delta ∧ (priceScalar p.call).delta ≤ 1 :=
  ((greek_bounds (fun y hy => ⟨Real.exp_pos y, Real.exp_le_one_iff.mpr hy⟩)
    (fun _ hy => Real.sqrt_pos.mpr hy)).2 ⟨100, 95, 0.03, 0.25, 0.5, true⟩
    ⟨by norm_num, by norm_num, by norm_num, by norm_num⟩).1

end Velo.Risk
