import Mathlib
import Velo.Lib.FixedWidth

/-! Arithmetic on signed integers of 64 bits, with what an overflow does left to the build. -/
namespace Velo.Overflow

/-- What 64 bits with a sign hold. -/
def Fits (n : ℤ) : Prop := -2 ^ 63 ≤ n ∧ n < 2 ^ 63

instance (n : ℤ) : Decidable (Fits n) := inferInstanceAs (Decidable (_ ∧ _))

/-- With overflow checks, the program stops. -/
def debug (n : ℤ) : Option Int64 := if Fits n then some (Int64.ofInt n) else none

/-- Without them, the low 64 bits are kept. -/
def release (n : ℤ) : Id Int64 := pure (Int64.ofInt n)

inductive Build
  | debug
  | release
  deriving DecidableEq

/-- What a build makes of the exact result of an operation, where stopping is an outcome in both. -/
def Build.toInt64 : Build → ℤ → Option Int64
  | .debug => Overflow.debug
  | .release => some ∘ Int64.ofInt

/-- The same for an unsigned integer. -/
def Build.toUInt64 : Build → ℕ → Option UInt64
  | .debug, n => if n < 2 ^ 64 then some (.ofNat n) else none
  | .release, n => some (.ofNat n)

/-- What fits is kept. -/
def Keeps {m : Type → Type} [Monad m] (build : ℤ → m Int64) : Prop :=
  ∀ n, Fits n → build n = pure (Int64.ofInt n)

section
variable {m : Type → Type} (build : ℤ → m Int64)

def add (x y : Int64) : m Int64 := build (x.toInt + y.toInt)

def sub (x y : Int64) : m Int64 := build (x.toInt - y.toInt)

def mul (x y : Int64) : m Int64 := build (x.toInt * y.toInt)

def neg (x : Int64) : m Int64 := build (-x.toInt)

def abs (x : Int64) : m Int64 := build |x.toInt|

end

def signum (x : Int64) : Int64 := if 0 < x then 1 else if x < 0 then -1 else 0

def unsignedAbs (x : Int64) : UInt64 := .ofNat x.toInt.natAbs

/-- The cast of an unsigned integer of 32 bits. -/
def widen (n : UInt32) : Int64 := .ofInt n.toNat

variable {α : Type} {n : ℤ} {x y : Int64}

theorem fits_of_abs_lt (h : |n| < 2 ^ 63) : Fits n := by
  rw [abs_lt] at h
  constructor <;> omega

theorem fits_abs (h : |n| < 2 ^ 63) : Fits |n| := by
  rw [← abs_abs] at h
  exact fits_of_abs_lt h

theorem toInt_ofInt (h : Fits n) : (Int64.ofInt n).toInt = n := Int64.toInt_ofInt_of_le h.1 h.2

theorem keeps_debug : Keeps debug := fun _ h => if_pos h

theorem keeps_release : Keeps release := fun _ _ => rfl

theorem Build.keeps (build : Build) : Keeps build.toInt64 := by
  cases build
  · exact keeps_debug
  · exact fun _ _ => rfl

theorem Build.eq_ofInt {build : Build} (h : build.toInt64 n = some x) : x = Int64.ofInt n := by
  cases build
  · rw [toInt64, Overflow.debug, Option.ite_none_right_eq_some] at h
    exact (Option.some.inj h.2).symm
  · exact (Option.some.inj h).symm

theorem Build.toUInt64_cases (build : Build) (n : ℕ) :
    build.toUInt64 n = some (.ofNat n) ∨ build = .debug ∧ 2 ^ 64 ≤ n ∧ build.toUInt64 n = none := by
  cases build with
  | debug =>
    by_cases hlt : n < 2 ^ 64
    · exact Or.inl (if_pos hlt)
    · exact Or.inr ⟨rfl, not_lt.mp hlt, if_neg hlt⟩
  | release => exact Or.inl rfl

theorem Keeps.bind {m : Type → Type} [Monad m] [LawfulMonad m] {build : ℤ → m Int64}
    (hb : Keeps build) (h : Fits n) (k : Int64 → m α) : (build n >>= k) = k (Int64.ofInt n) := by
  rw [hb n h, pure_bind]

theorem debug_bind_of_not (h : ¬ Fits n) (k : Int64 → Option α) : (debug n >>= k) = none := by
  rw [debug, if_neg h]
  rfl

theorem toInt_signum (x : Int64) : (signum x).toInt = x.toInt.sign := by
  have hpos : 0 < x ↔ 0 < x.toInt := Int64.lt_iff_toInt_lt
  have hneg : x < 0 ↔ x.toInt < 0 := Int64.lt_iff_toInt_lt
  rw [signum]
  split
  · rename_i h
    rw [Int.sign_eq_one_of_pos (hpos.mp h)]
    rfl
  · rename_i hle
    split
    · rename_i h
      rw [Int.sign_eq_neg_one_of_neg (hneg.mp h)]
      rfl
    · rename_i hge
      have hzero : x.toInt = 0 := by
        rw [hpos] at hle
        rw [hneg] at hge
        omega
      rw [hzero]
      rfl

theorem signum_eq_iff : signum x = signum y ↔ x.toInt.sign = y.toInt.sign := by
  rw [← Int64.toInt_inj, toInt_signum, toInt_signum]

theorem eq_zero_iff : x = 0 ↔ x.toInt = 0 := Int64.toInt_inj.symm

theorem toInt_min (x y : Int64) : (min x y).toInt = min x.toInt y.toInt := by
  rcases le_total x y with h | h
  · rw [min_eq_left h, min_eq_left (Int64.le_iff_toInt_le.mp h)]
  · rw [min_eq_right h, min_eq_right (Int64.le_iff_toInt_le.mp h)]

theorem toInt_widen (n : UInt32) : (widen n).toInt = n.toNat := by
  have hlt := n.toNat_lt
  refine toInt_ofInt ⟨?_, ?_⟩ <;> omega

end Velo.Overflow
