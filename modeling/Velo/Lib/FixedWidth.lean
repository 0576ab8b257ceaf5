import Mathlib.Order.Defs.LinearOrder

/-! Machine integers: the linear order of the signed ones, and zero among the unsigned ones. -/
namespace Velo

instance linearOrderInt64 : LinearOrder Int64 where
  le_refl _ := Int64.le_refl _
  le_trans _ _ _ := Int64.le_trans
  le_antisymm _ _ := Int64.le_antisymm
  le_total := Int64.le_total
  lt_iff_le_not_ge _ _ := Std.LawfulOrderLT.lt_iff _ _
  min := min
  max := max
  min_def _ _ := rfl
  max_def _ _ := rfl
  toDecidableLE := inferInstance
  toDecidableEq := inferInstance
  toDecidableLT := inferInstance

theorem toInt_neg_of_ne {p : Int64} (h : p ≠ Int64.minValue) : (-p).toInt = -p.toInt := by
  have hne : p.toInt ≠ Int64.minValue.toInt := fun he => h (Int64.toInt_inj.mp he)
  have hle := p.le_toInt
  have hlt := p.toInt_lt
  have hmin : Int64.minValue.toInt = -2 ^ 63 := rfl
  rw [Int64.toInt_neg, Int.bmod_eq_of_le] <;> omega

theorem neg_lt_neg_iff_of_ne {p q : Int64} (hp : p ≠ Int64.minValue) (hq : q ≠ Int64.minValue) :
    -p < -q ↔ q < p := by
  rw [Int64.lt_iff_toInt_lt, Int64.lt_iff_toInt_lt, toInt_neg_of_ne hp, toInt_neg_of_ne hq]
  omega

theorem neg_le_neg_iff_of_ne {p q : Int64} (hp : p ≠ Int64.minValue) (hq : q ≠ Int64.minValue) :
    -p ≤ -q ↔ q ≤ p := by
  rw [Int64.le_iff_toInt_le, Int64.le_iff_toInt_le, toInt_neg_of_ne hp, toInt_neg_of_ne hq]
  omega

theorem toNat_pos_of_ne_zero {n : UInt32} (h : n ≠ 0) : 0 < n.toNat := by
  refine Nat.pos_of_ne_zero fun hz => h ?_
  exact UInt32.toNat_inj.mp hz

theorem eq_zero_of_not_pos {n : UInt32} (h : ¬ 0 < n) : n = 0 := by
  rw [UInt32.lt_iff_toNat_lt, UInt32.toNat_zero, Nat.not_lt, Nat.le_zero] at h
  exact UInt32.toNat_inj.mp h

end Velo
