import Velo.Risk.Greeks

/-! The delta rises with the spot and falls with the strike, by the polynomial as by the CDF that it
stands for. -/
namespace Velo.Risk
open Elementary

section Polynomial

variable {F : Type*} [Field F] [LinearOrder F] [IsStrictOrderedRing F] {s t : F}

/-- A difference of values, over the distance: a form in the sum and the distance. -/
theorem cdfPoly_sub (s t : F) : cdfPoly t - cdfPoly s =
    (t - s) * ((0.319381530 - 0.356563782 * (s + t) + (s + t) ^ 2 * (1.33610845275 -
        0.910627989 * (s + t) + 0.4157107590625 * (s + t) ^ 2)) +
      (t - s) ^ 2 / 4 * (1.781477937 - 3.642511956 * (s + t) + 3.3256860725 * (s + t) ^ 2) +
      1.330274429 * ((t - s) ^ 2 / 4) ^ 2) := by
  rw [cdfPoly, cdfPoly]
  ring

theorem cdfPoly_strictMono : StrictMono (cdfPoly : F → F) := by
  intro s t hst
  have hquartic : 0.8374 ≤ 1.33610845275 - 0.910627989 * (s + t) +
      0.4157107590625 * (s + t) ^ 2 := by
    nlinarith [sq_nonneg (s + t - 1.0953)]
  have hlow : 0 < 0.319381530 - 0.356563782 * (s + t) + (s + t) ^ 2 * 0.8374 := by
    nlinarith [sq_nonneg (s + t - 0.213)]
  have hmiddle : 0 ≤ 1.781477937 - 3.642511956 * (s + t) + 3.3256860725 * (s + t) ^ 2 := by
    nlinarith [sq_nonneg (s + t - 0.5476)]
  have hmore := mul_le_mul_of_nonneg_left hquartic (sq_nonneg (s + t))
  have hfirst := hlow.trans_le (add_le_add_right hmore _)
  have hdistance : 0 ≤ (t - s) ^ 2 / 4 := by positivity
  rw [← sub_pos, cdfPoly_sub]
  apply mul_pos (sub_pos.mpr hst)
  positivity

end Polynomial

variable {F : Type*} [Field F] [LinearOrder F] [Elementary F] {x y : F}

/-- `aggregate_delta` in exact arithmetic: the deltas of the legs at a spot, times their
quantities. -/
def bookDelta (legs : List (OptionParams F × ℤ)) (spot : F) : F :=
  (legs.map fun leg => (priceScalar { leg.1 with spot := spot }).delta * (leg.2 : F)).sum

theorem delta_eq (p : OptionParams F) :
    (priceScalar p).delta = if p.isCall then normCdf p.d1 else -normCdf (-p.d1) := by
  cases hkind : p.isCall with
  | false =>
    simp only [priceScalar, hkind, Bool.false_eq_true, if_false, neg_one_mul]
    rfl
  | true =>
    simp only [priceScalar, hkind, if_true, one_mul]
    rfl

/-- What the delta needs of the elementary functions. -/
structure Rising (F : Type*) [Field F] [LinearOrder F] [Elementary F] : Prop where
  exp_below_one : ExpBelowOne F
  exp_strictMono : StrictMono (exp : F → F)
  ln_lt : ∀ x y : F, 0 < x → x < y → ln x < ln y
  sqrt_pos : ∀ y : F, 0 < y → 0 < sqrt y

theorem rising_real : Rising ℝ where
  exp_below_one := fun y hy => ⟨Real.exp_pos y, Real.exp_le_one_iff.mpr hy⟩
  exp_strictMono := Real.exp_strictMono
  ln_lt := fun _ _ hx hxy => Real.log_lt_log hx hxy
  sqrt_pos := fun _ hy => Real.sqrt_pos.mpr hy

variable [IsStrictOrderedRing F]

theorem normPdf_lt (h : Rising F) (hx : 0 ≤ x) (hxy : x < y) :
    normPdf y < normPdf x := by
  have hsquare : x * x < y * y := mul_self_lt_mul_self hx hxy
  rw [normPdf, normPdf, sqrt2Pi]
  refine div_lt_div_of_pos_right (h.exp_strictMono ?_) (by norm_num)
  linarith

theorem cdfTail_lt (h : Rising F) (hx : 0 ≤ x) (hxy : x < y) : cdfTail y < cdfTail x := by
  have hy := hx.trans hxy.le
  have harg : 1 / (1 + 0.2316419 * |y|) < 1 / (1 + 0.2316419 * |x|) := by
    rw [abs_of_nonneg hx, abs_of_nonneg hy]
    apply one_div_lt_one_div_of_lt
    · positivity
    · linarith
  have hpdf : normPdf |y| < normPdf |x| := by
    rw [abs_of_nonneg hx, abs_of_nonneg hy]
    exact normPdf_lt h hx hxy
  exact mul_lt_mul'' hpdf (cdfPoly_strictMono harg) (normPdf_pos h.exp_below_one _).le
    (cdfPoly_pos (tailArg_mem y).1).le

theorem normCdf_strictMono (h : Rising F) : StrictMono (normCdf : F → F) := by
  intro x y hxy
  rcases lt_or_ge y 0 with hy | hy
  · rw [normCdf_of_neg (hxy.trans hy), normCdf_of_neg hy, ← cdfTail_neg x, ← cdfTail_neg y]
    exact cdfTail_lt h (neg_nonneg.mpr hy.le) (neg_lt_neg hxy)
  rcases lt_or_ge x 0 with hx | hx
  · have hzero := cdfTail_lt h le_rfl (neg_pos.mpr hx)
    have hhalf := cdfTail_le h.exp_below_one (0 : F)
    have hright := (normCdf_mem h.exp_below_one y).2.2.1 hy
    rw [normCdf_of_neg hx, ← cdfTail_neg x]
    exact (hzero.trans_le hhalf).trans_le hright
  · rw [normCdf_of_nonneg hx, normCdf_of_nonneg hy]
    exact sub_lt_sub_left (cdfTail_lt h hx hxy) 1

theorem delta_lt (h : Rising F) {p q : OptionParams F} (hkind : p.isCall = q.isCall)
    (hd1 : p.d1 < q.d1) : (priceScalar p).delta < (priceScalar q).delta := by
  have hcdf := normCdf_strictMono h
  rw [delta_eq, delta_eq, hkind]
  split
  · exact hcdf hd1
  · exact neg_lt_neg (hcdf (neg_lt_neg hd1))

theorem d1_lt (h : Rising F) {p : OptionParams F} (hp : p.Positive) {spot strike : F}
    (hratio : 0 < spot / strike) (hlt : spot / strike < p.spot / p.strike) :
    { p with spot := spot, strike := strike }.d1 < p.d1 := by
  have hden := mul_pos hp.vol (h.sqrt_pos _ hp.timeToExpiry)
  have hnum := h.ln_lt _ _ hratio hlt
  exact div_lt_div_of_pos_right (add_lt_add_left hnum _) hden

theorem delta_lt_of_spot (h : Rising F) {p : OptionParams F} (hp : p.Positive) (hx : 0 < x)
    (hxy : x < y) :
    (priceScalar { p with spot := x }).delta < (priceScalar { p with spot := y }).delta := by
  have hy : { p with spot := y }.Positive := ⟨hx.trans hxy, hp.strike, hp.vol, hp.timeToExpiry⟩
  exact delta_lt h rfl (d1_lt h hy (div_pos hx hp.strike)
    (div_lt_div_of_pos_right hxy hp.strike))

theorem delta_lt_of_strike (h : Rising F) {p : OptionParams F} (hp : p.Positive) (hx : 0 < x)
    (hxy : x < y) :
    (priceScalar { p with strike := y }).delta < (priceScalar { p with strike := x }).delta := by
  have hpx : { p with strike := x }.Positive := ⟨hp.spot, hx, hp.vol, hp.timeToExpiry⟩
  exact delta_lt h rfl (d1_lt h hpx (div_pos hp.spot (hx.trans hxy))
    (div_lt_div_of_pos_left hp.spot hx hxy))

/-- The delta of a call and of a put, as the pricer computes it, rises strictly with the spot and
falls strictly with the strike; so the delta of a long book rises. -/
theorem delta_monotone (h : Rising F) :
    (∀ p : OptionParams F, p.Positive → ∀ x y, 0 < x → x < y →
      (priceScalar { p with spot := x }).delta < (priceScalar { p with spot := y }).delta ∧
        (priceScalar { p with strike := y }).delta <
          (priceScalar { p with strike := x }).delta) ∧
    ∀ legs : List (OptionParams F × ℤ), legs ≠ [] →
      (∀ leg ∈ legs, leg.1.Positive ∧ 0 < leg.2) → ∀ x y, 0 < x → x < y →
        bookDelta legs x < bookDelta legs y := by
  refine ⟨fun p hp x y hx hxy => ⟨delta_lt_of_spot h hp hx hxy,
    delta_lt_of_strike h hp hx hxy⟩, ?_⟩
  intro legs hne hlegs x y hx hxy
  have hleg : ∀ leg ∈ legs, (priceScalar { leg.1 with spot := x }).delta * (leg.2 : F) <
      (priceScalar { leg.1 with spot := y }).delta * (leg.2 : F) := by
    intro leg hmem
    obtain ⟨hp, hquantity⟩ := hlegs leg hmem
    exact mul_lt_mul_of_pos_right (delta_lt_of_spot h hp hx hxy)
      (Int.cast_pos.mpr hquantity)
  obtain ⟨leg, hmem⟩ := List.exists_mem_of_ne_nil legs hne
  exact List.sum_lt_sum _ _ (fun leg hl => (hleg leg hl).le) ⟨leg, hmem, hleg leg hmem⟩

theorem bookDelta_strictMonoOn_real {legs : List (OptionParams ℝ × ℤ)} (hne : legs ≠ [])
    (h : ∀ leg ∈ legs, leg.1.Positive ∧ 0 < leg.2) : StrictMonoOn (bookDelta legs) (Set.Ioi 0) :=
  fun x hx y _ hxy => (delta_monotone rising_real).2 legs hne h x y hx hxy

end Velo.Risk
