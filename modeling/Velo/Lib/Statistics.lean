import Mathlib.Algebra.Order.BigOperators.Group.List
import Mathlib.Algebra.Order.Field.Basic
import Mathlib.Tactic.Ring

/-! Mean, variance and covariance of finite series. -/
namespace Velo.Statistics

variable {K : Type*} [Field K]

def mean (xs : List K) : K := xs.sum / xs.length

def pvariance (xs : List K) : K := mean (xs.map fun x => (x - mean xs) ^ 2)

def covariance (xs ys : List K) : K :=
  mean (List.zipWith (fun x y => (x - mean xs) * (y - mean ys)) xs ys)

variable {xs ys : List K}

theorem sum_zipWith_add (h : xs.length = ys.length) :
    (List.zipWith (· + ·) xs ys).sum = xs.sum + ys.sum := by
  induction xs generalizing ys with
  | nil =>
    cases ys with
    | nil => simp
    | cons y ys => cases h
  | cons x xs ih =>
    cases ys with
    | nil => cases h
    | cons y ys =>
      simp only [List.zipWith_cons_cons, List.sum_cons, ih (Nat.succ.inj h)]
      ring

theorem mean_zipWith_add (h : xs.length = ys.length) :
    mean (List.zipWith (· + ·) xs ys) = mean xs + mean ys := by
  rw [mean, mean, mean, sum_zipWith_add h, List.length_zipWith, ← h, min_self, add_div]

/-- The squares of the sums of two series of deviations. -/
theorem sum_sq_zipWith_add (h : xs.length = ys.length) (a b : K) :
    ((List.zipWith (· + ·) xs ys).map fun z => (z - (a + b)) ^ 2).sum =
      (xs.map fun x => (x - a) ^ 2).sum +
        2 * (List.zipWith (fun x y => (x - a) * (y - b)) xs ys).sum +
        (ys.map fun y => (y - b) ^ 2).sum := by
  induction xs generalizing ys with
  | nil =>
    cases ys with
    | nil => simp
    | cons y ys => cases h
  | cons x xs ih =>
    cases ys with
    | nil => cases h
    | cons y ys =>
      simp only [List.zipWith_cons_cons, List.map_cons, List.sum_cons, ih (Nat.succ.inj h)]
      ring

theorem pvariance_zipWith_add (h : xs.length = ys.length) :
    pvariance (List.zipWith (· + ·) xs ys) =
      pvariance xs + 2 * covariance xs ys + pvariance ys := by
  simp only [pvariance, covariance]
  rw [mean_zipWith_add h]
  generalize mean xs = a
  generalize mean ys = b
  simp only [mean, List.length_map, List.length_zipWith, ← h, min_self]
  rw [sum_sq_zipWith_add h a b, add_div, add_div, mul_div_assoc]

theorem mean_of_forall_eq [CharZero K] {c : K} (hne : xs ≠ []) (h : ∀ x ∈ xs, x = c) :
    mean xs = c := by
  have hlen : (xs.length : K) ≠ 0 := Nat.cast_ne_zero.mpr (List.length_pos_iff.mpr hne).ne'
  rw [mean, List.sum_eq_card_nsmul xs c h, nsmul_eq_mul, mul_div_cancel_left₀ c hlen]

section Order

variable [LinearOrder K] [IsStrictOrderedRing K]

theorem mean_nonneg (h : ∀ x ∈ xs, 0 ≤ x) : 0 ≤ mean xs :=
  div_nonneg (List.sum_nonneg h) (Nat.cast_nonneg _)

theorem pvariance_nonneg (xs : List K) : 0 ≤ pvariance xs := by
  refine mean_nonneg ?_
  intro y hy
  obtain ⟨x, -, rfl⟩ := List.mem_map.mp hy
  exact sq_nonneg _

/-- Only a constant series does not vary. -/
theorem pvariance_eq_zero_iff : pvariance xs = 0 ↔ ∀ x ∈ xs, x = mean xs := by
  have hsquares : ∀ y ∈ xs.map fun x => (x - mean xs) ^ 2, 0 ≤ y := by
    intro y hy
    obtain ⟨x, -, rfl⟩ := List.mem_map.mp hy
    exact sq_nonneg _
  constructor
  · intro hzero x hx
    have hlen : (xs.length : K) ≠ 0 := Nat.cast_ne_zero.mpr (List.length_pos_of_mem hx).ne'
    rw [pvariance, mean, List.length_map, div_eq_zero_iff, or_iff_left hlen] at hzero
    have hx0 := List.all_zero_of_le_zero_le_of_sum_eq_zero hsquares hzero
      (List.mem_map_of_mem hx)
    exact sub_eq_zero.mp (pow_eq_zero_iff two_ne_zero |>.mp hx0)
  · intro hall
    rw [pvariance, mean, div_eq_zero_iff]
    refine Or.inl (List.sum_eq_zero ?_)
    intro y hy
    obtain ⟨x, hx, rfl⟩ := List.mem_map.mp hy
    rw [← hall x hx, sub_self, zero_pow two_ne_zero]

theorem pvariance_eq_zero_iff_of_mem {c : K} (hc : c ∈ xs) :
    pvariance xs = 0 ↔ ∀ x ∈ xs, x = c := by
  rw [pvariance_eq_zero_iff]
  constructor
  · intro h x hx
    rw [h x hx, ← h c hc]
  · intro h x hx
    rw [mean_of_forall_eq (List.ne_nil_of_mem hc) h, h x hx]

end Order

theorem covariance_eq_zero (h : ∀ x ∈ xs, x = mean xs) : covariance xs ys = 0 := by
  rw [covariance, mean, div_eq_zero_iff]
  refine Or.inl (List.sum_eq_zero ?_)
  intro z hz
  obtain ⟨i, hi, rfl⟩ := List.mem_iff_getElem.mp hz
  rw [List.length_zipWith] at hi
  rw [List.getElem_zipWith, h _ (List.getElem_mem (by omega)), sub_self, zero_mul]

end Velo.Statistics
