import Mathlib

/-! Numbers of 64 bits with a point: what they stand for, and whole numbers and quotients of these
as such numbers. -/
namespace Velo.Binary64
open Float.Model

/-- What a finite number stands for. -/
def value (x : Float.Model) : Option ℚ :=
  match x.unpack with
  | .finite sign mantissa exponent _ => some ((sign.apply mantissa : ℤ) * 2 ^ exponent)
  | .zero _ => some 0
  | .infinity _ | .notANumber => none

/-- The nearest number to an integer, unless that is too large for any. -/
def ofInt (n : ℤ) : Option Float.Model :=
  let x := Float.Model.ofInt n
  if x.isFinite then some x else none

/-- Not by zero. -/
def div (x y : Float.Model) : Option Float.Model := if y == .ofInt 0 then none else some (x / y)

/-- A natural number, before any rounding. -/
def exactly (n : ℕ) : UnpackedFloat :=
  if h : n = 0 then .zero .positive else .finite .positive n 0 (Nat.pos_of_ne_zero h)

/-- The quotient of two natural numbers, rounded only once. -/
def quotient (m n : ℕ) : Float.Model :=
  .pack (UnpackedFloat.div Format.binary64 (exactly m) (exactly n))

example : value (quotient 3 4) = some (3 / 4) := by decide +kernel

end Velo.Binary64
