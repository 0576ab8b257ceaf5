import Mathlib

/-! Integers near an element of an ordered field. -/
namespace Velo

variable {F : Type*} [Field F] [LinearOrder F] {x y : F} {n m : ℤ}

/-- The nearest integer, and the even one of two that are as near. -/
@[mk_iff] inductive NearestEven (x : F) (n : ℤ) : Prop
  | nearer (h : |x - n| < 1 / 2)
  | tie (h : |x - n| = 1 / 2) (heven : Even n)

theorem NearestEven.le (h : NearestEven x n) : |x - n| ≤ 1 / 2 := by
  rcases h with h | ⟨h, -⟩
  · exact h.le
  · exact h.le

theorem NearestEven.unique [IsStrictOrderedRing F] (hn : NearestEven x n)
    (hm : NearestEven x m) : n = m := by
  have hdist : |(n : F) - m| ≤ |x - n| + |x - m| := by
    have htri := abs_sub_le (n : F) x m
    rwa [abs_sub_comm (n : F) x] at htri
  by_contra hne
  have hone : (1 : F) ≤ |(n : F) - m| := by
    have hint : 1 ≤ |n - m| := Int.one_le_abs (sub_ne_zero.mpr hne)
    exact_mod_cast hint
  have hx := hn.le
  have hy := hm.le
  rcases hn with hn | ⟨-, hn⟩
  · linarith
  · rcases hm with hm | ⟨-, hm⟩
    · linarith
    · -- two neighbouring integers are not both even
      have htwo : |(n : F) - m| ≤ 1 := by linarith
      have hint : |n - m| ≤ 1 := by exact_mod_cast htwo
      obtain ⟨k, hk⟩ := hn
      obtain ⟨l, hl⟩ := hm
      rw [abs_le] at hint
      omega

theorem NearestEven.mono [IsStrictOrderedRing F] (hn : NearestEven x n) (hm : NearestEven y m)
    (hxy : x ≤ y) : n ≤ m := by
  by_contra hlt
  have hx := (abs_le.mp hn.le).1
  have hy := (abs_le.mp hm.le).2
  have hone : ((m + 1 : ℤ) : F) ≤ n := Int.cast_le.mpr (by omega)
  rw [Int.cast_add, Int.cast_one] at hone
  -- only a tie between two neighbours leaves room for both
  have heq : x = y := by linarith
  exact hlt (hn.unique (heq ▸ hm)).le

/-- Near an integer only the distance counts, and the parity of the integer in a tie. -/
theorem nearestEven_sub : NearestEven ((n : F) - y) n ↔ |y| < 1 / 2 ∨ |y| = 1 / 2 ∧ Even n := by
  have hy : |(n : F) - y - n| = |y| := by
    rw [sub_sub_cancel_left, abs_neg]
  rw [nearestEven_iff, hy]

/-- The nearest integer, from the quotient and the remainder of a division. -/
theorem nearestEven_add_div [IsStrictOrderedRing F] {below rest : ℤ} {den : ℕ} (hrest : 0 ≤ rest)
    (hlt : rest < den) :
    NearestEven (below + rest / den : F) (if 2 * rest < den then below
      else if den < 2 * rest then below + 1
      else if below % 2 = 0 then below
      else below + 1) := by
  have hden : (0 : F) < den := by
    exact_mod_cast hrest.trans_lt hlt
  have hbelow : |(below + rest / den : F) - below| = rest / den := by
    rw [add_sub_cancel_left, abs_of_nonneg (div_nonneg (Int.cast_nonneg hrest) hden.le)]
  have habove : |(below + rest / den : F) - (below + 1 : ℤ)| = 1 - rest / den := by
    have hle : (rest / den : F) ≤ 1 := by
      rw [div_le_one hden]
      exact_mod_cast hlt.le
    rw [Int.cast_add, Int.cast_one, add_sub_add_left_eq_sub, abs_sub_comm,
      abs_of_nonneg (sub_nonneg.mpr hle)]
  by_cases hlow : 2 * rest < den
  · rw [if_pos hlow, nearestEven_iff, hbelow, div_lt_div_iff₀ hden two_pos]
    left
    exact_mod_cast (by omega : rest * 2 < 1 * den)
  rw [if_neg hlow]
  by_cases hhigh : den < 2 * rest
  · rw [if_pos hhigh, nearestEven_iff, habove, sub_lt_comm, sub_half, div_lt_div_iff₀ two_pos hden]
    left
    exact_mod_cast (by omega : 1 * (den : ℤ) < rest * 2)
  rw [if_neg hhigh]
  have htie : (rest / den : F) = 1 / 2 := by
    rw [div_eq_div_iff hden.ne' two_ne_zero]
    exact_mod_cast (by omega : rest * 2 = 1 * den)
  by_cases heven : below % 2 = 0
  · rw [if_pos heven]
    exact .tie (hbelow.trans htie) (Int.even_iff.mpr heven)
  · rw [if_neg heven]
    refine .tie ?_ (Int.even_add_one.mpr (mt Int.even_iff.mp heven))
    rw [habove, htie, sub_half]

end Velo
