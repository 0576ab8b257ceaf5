import Velo.Risk.Pricing

/-! The polynomial CDF of the pricer: its reflection, and its bounds. -/
namespace Velo.Risk
open Elementary

section Tail

variable {F : Type*} [Field F]

/-- The polynomial of `norm_cdf`. -/
def cdfPoly (t : F) : F :=
  t * (0.319381530 + t * (-0.356563782 + t * (1.781477937 +
    t * (-1.821255978 + t * 1.330274429))))

variable [LinearOrder F] [Elementary F]

/-- What the CDF leaves to one, on the right of zero. -/
def cdfTail (x : F) : F := normPdf |x| * cdfPoly (1 / (1 + 0.2316419 * |x|))

theorem normCdf_eq (x : F) :
    normCdf x = 0.5 + (if x < 0 then -1 else 1) * (1 - cdfTail x - 0.5) := rfl

theorem cdfTail_neg (x : F) : cdfTail (-x) = cdfTail x := by
  rw [cdfTail, cdfTail, abs_neg]

end Tail

variable {F : Type*} [Field F] [LinearOrder F] [IsStrictOrderedRing F] {t x : F}

section Polynomial

theorem cdfPoly_high (t : F) : 1.158 < 1.781477937 + t * (-1.821255978 + t * 1.330274429) := by
  nlinarith [sq_nonneg (t - 0.6845)]

theorem cdfPoly_pos (ht : 0 < t) : 0 < cdfPoly t := by
  have hhigh := cdfPoly_high t
  have hlow : 0 < 0.319381530 + t * (-0.356563782 + t * 1.158) := by
    nlinarith [sq_nonneg (t - 0.154)]
  have hmore : t * t * 1.158 ≤ t * t * (1.781477937 + t * (-1.821255978 + t * 1.330274429)) :=
    mul_le_mul_of_nonneg_left hhigh.le (mul_self_nonneg t)
  apply mul_pos ht
  linarith

theorem cdfPoly_one : cdfPoly (1 : F) = 1.253314136 := by
  norm_num [cdfPoly]

theorem cdfPoly_le_one (ht : 0 ≤ t) (hle : t ≤ 1) : cdfPoly t ≤ cdfPoly 1 := by
  have hquotient : cdfPoly 1 - cdfPoly t = (1 - t) * (1.253314136 + t * 0.933932606 +
      t ^ 2 * (1.290496388 - t * 0.490981549) + t ^ 4 * 1.330274429) := by
    rw [cdfPoly, cdfPoly]
    ring
  have hcubic : 0 ≤ 1.290496388 - t * 0.490981549 := by linarith
  have hnonneg : 0 ≤ cdfPoly 1 - cdfPoly t := by
    rw [hquotient]
    apply mul_nonneg (sub_nonneg.mpr hle)
    positivity
  linarith

end Polynomial

theorem tailArg_mem (x : F) :
    0 < 1 / (1 + 0.2316419 * |x|) ∧ 1 / (1 + 0.2316419 * |x|) ≤ 1 := by
  have hle : 1 ≤ 1 + 0.2316419 * |x| := le_add_of_nonneg_right (by positivity)
  exact ⟨by positivity, (div_le_one (by positivity)).mpr hle⟩

variable [Elementary F]

theorem normCdf_of_nonneg (hx : 0 ≤ x) : normCdf x = 1 - cdfTail x := by
  rw [normCdf_eq, if_neg hx.not_gt]
  ring

theorem normCdf_of_neg (hx : x < 0) : normCdf x = cdfTail x := by
  rw [normCdf_eq, if_pos hx]
  ring

/-- The CDF is reflected exactly, but not at zero. -/
theorem normCdf_neg (hx : x ≠ 0) : normCdf (-x) = 1 - normCdf x := by
  rcases lt_or_gt_of_ne hx with hneg | hpos
  · rw [normCdf_of_neg hneg, normCdf_of_nonneg (neg_nonneg.mpr hneg.le), cdfTail_neg]
  · rw [normCdf_of_nonneg hpos.le, normCdf_of_neg (neg_neg_of_pos hpos), cdfTail_neg,
      sub_sub_cancel]

/-- At zero the tail is a half but for the digits of the constants. -/
theorem cdfTail_zero (hexp : exp (0 : F) = 1) :
    cdfTail (0 : F) = 1.253314136 / 2.5066282746310002 := by
  rw [cdfTail, normPdf, abs_zero, mul_zero, hexp, mul_zero, add_zero, div_one, cdfPoly_one,
    sqrt2Pi, one_div_mul_eq_div]

theorem abs_normCdf_zero (hexp : exp (0 : F) = 1) :
    |normCdf (0 : F) + normCdf (-0 : F) - 1| ≤ 1.1e-9 := by
  rw [neg_zero, normCdf_of_nonneg le_rfl, cdfTail_zero hexp, abs_le]
  constructor
  · norm_num
  · norm_num

theorem abs_normCdf_add_neg (hexp : exp (0 : F) = 1) (x : F) :
    |normCdf x + normCdf (-x) - 1| ≤ 1.1e-9 := by
  by_cases hx : x = 0
  · rw [hx]
    exact abs_normCdf_zero hexp
  · rw [normCdf_neg hx, add_sub_cancel, sub_self, abs_zero]
    norm_num

/-- All that the bounds need of the exponential. -/
def ExpBelowOne (F : Type*) [Field F] [LinearOrder F] [Elementary F] : Prop :=
  ∀ y : F, y ≤ 0 → 0 < exp y ∧ exp y ≤ 1

theorem normPdf_pos (hexp : ExpBelowOne F) (x : F) : 0 < normPdf x := by
  have hx : -0.5 * x * x ≤ 0 := by nlinarith [mul_self_nonneg x]
  rw [normPdf, sqrt2Pi]
  exact div_pos (hexp _ hx).1 (by norm_num)

theorem normPdf_le (hexp : ExpBelowOne F) (x : F) : normPdf x ≤ 1 / sqrt2Pi := by
  have hx : -0.5 * x * x ≤ 0 := by nlinarith [mul_self_nonneg x]
  rw [normPdf, sqrt2Pi]
  exact div_le_div_of_nonneg_right (hexp _ hx).2 (by norm_num)

theorem cdfTail_pos (hexp : ExpBelowOne F) (x : F) : 0 < cdfTail x :=
  mul_pos (normPdf_pos hexp _) (cdfPoly_pos (tailArg_mem x).1)

theorem cdfTail_le (hexp : ExpBelowOne F) (x : F) : cdfTail x ≤ 1 / 2 := by
  obtain ⟨hpos, hle⟩ := tailArg_mem x
  calc
    cdfTail x ≤ 1 / sqrt2Pi * cdfPoly 1 :=
      mul_le_mul (normPdf_le hexp _) (cdfPoly_le_one hpos.le hle) (cdfPoly_pos hpos).le
        (by rw [sqrt2Pi]; norm_num)
    _ ≤ 1 / 2 := by
      rw [cdfPoly_one, sqrt2Pi]
      norm_num

theorem normCdf_mem (hexp : ExpBelowOne F) (x : F) :
    0 < normCdf x ∧ normCdf x < 1 ∧ (0 ≤ x → 1 / 2 ≤ normCdf x) ∧ (x < 0 → normCdf x ≤ 1 / 2) := by
  have hpos := cdfTail_pos hexp x
  have hle := cdfTail_le hexp x
  rcases lt_or_ge x 0 with hx | hx
  · rw [normCdf_of_neg hx]
    refine ⟨hpos, by linarith, fun h => absurd h hx.not_ge, fun _ => hle⟩
  · rw [normCdf_of_nonneg hx]
    refine ⟨by linarith, by linarith, fun _ => by linarith, fun h => absurd h hx.not_gt⟩

end Velo.Risk
