import Mathlib

/-! Sums of a function of the integers: the potential of a falling function lies below each of its
tangents. -/
namespace Velo

variable {G : Type*} [AddCommGroup G] {f : ℤ → G} {a b : ℤ}

/-- The sum of `f` from zero up to an integer. -/
def potential (f : ℤ → G) : ℤ → G
  | .ofNat n => ∑ k ∈ Finset.range n, f k
  | .negSucc n => -∑ k ∈ Finset.range (n + 1), f (-(k + 1 : ℤ))

theorem potential_succ (f : ℤ → G) (a : ℤ) : potential f (a + 1) = potential f a + f a := by
  match a with
  | .ofNat n => exact Finset.sum_range_succ _ n
  | .negSucc 0 => simp [potential]
  | .negSucc (n + 1) =>
    have hsucc : Int.negSucc (n + 1) + 1 = Int.negSucc n := by omega
    have hlast : Int.negSucc (n + 1) = -((n + 1 : ℕ) + 1 : ℤ) := by omega
    rw [hsucc, potential, potential, Finset.sum_range_succ (fun k : ℕ => f (-(k + 1 : ℤ))) (n + 1),
      hlast]
    abel

variable [PartialOrder G] [IsOrderedAddMonoid G]

/-- To the right the steps are below the first, to the left above it. -/
theorem potential_sub_le (hf : Antitone f) (a b : ℤ) :
    potential f b - potential f a ≤ (b - a) • f a := by
  rcases le_total a b with hab | hba
  · induction b, hab using Int.leInduction with
    | base => simp
    | succ b hab ih =>
      rw [potential_succ, add_sub_right_comm, add_sub_right_comm, add_smul, one_smul]
      exact add_le_add ih (hf hab)
  · induction b, hba using Int.leInductionDown with
    | base => simp
    | pred b hba ih =>
      have hstep := potential_succ f (b - 1)
      have hlower : f a ≤ f (b - 1) := hf (by omega)
      rw [sub_add_cancel] at hstep
      rw [eq_sub_of_add_eq hstep.symm, sub_right_comm, sub_right_comm b, sub_smul, one_smul]
      exact sub_le_sub ih hlower

end Velo
