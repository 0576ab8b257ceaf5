import Mathlib.Data.List.Basic

/-! Calls that return a result, return an error or do not return at all. -/
namespace Velo

/-- What a call comes to. -/
inductive Outcome (ε α : Type)
  | ok (a : α)
  | err (e : ε)
  | panic
  deriving DecidableEq, Repr

namespace Outcome

variable {ε α β : Type} {x : Outcome ε α} {f : α → Outcome ε β} {b : β} {e : ε}

def bind : Outcome ε α → (α → Outcome ε β) → Outcome ε β
  | ok a, f => f a
  | err e, _ => err e
  | panic, _ => panic

instance : Monad (Outcome ε) where
  pure := ok
  bind := bind

/-- The errors of a fallible step, all of one kind. -/
def orErr (e : ε) : Option α → Outcome ε α
  | some a => ok a
  | none => err e

/-- A step that returns or panics. -/
def orPanic : Option α → Outcome ε α
  | some a => ok a
  | none => panic

def ofExcept : Except ε α → Outcome ε α
  | .ok a => ok a
  | .error e => err e

def isOk : Outcome ε α → Bool
  | ok _ => true
  | _ => false

theorem exists_of_isOk {x : Outcome ε α} (h : x.isOk = true) : ∃ a, x = ok a := by
  cases x with
  | ok a => exact ⟨a, rfl⟩
  | err e => simp [isOk] at h
  | panic => simp [isOk] at h

@[simp] theorem pure_eq (a : α) : (pure a : Outcome ε α) = ok a := rfl

@[simp] theorem ok_bind (a : α) (f : α → Outcome ε β) : (ok a >>= f) = f a := rfl

@[simp] theorem err_bind (e : ε) (f : α → Outcome ε β) : (err e >>= f) = err e := rfl

@[simp] theorem panic_bind (f : α → Outcome ε β) : (panic >>= f) = panic := rfl

theorem bind_eq_ok : x >>= f = ok b ↔ ∃ a, x = ok a ∧ f a = ok b := by
  cases x <;> simp

theorem bind_eq_panic : x >>= f = panic ↔ x = panic ∨ ∃ a, x = ok a ∧ f a = panic := by
  cases x <;> simp

theorem bind_eq_err : x >>= f = err e ↔ x = err e ∨ ∃ a, x = ok a ∧ f a = err e := by
  cases x <;> simp

theorem orErr_eq_ok {o : Option α} {a : α} : orErr e o = ok a ↔ o = some a := by
  cases o <;> simp [orErr]

theorem orErr_ne_panic {o : Option α} : orErr e o ≠ panic := by
  cases o <;> simp [orErr]

theorem ofExcept_eq_ok {r : Except ε α} {a : α} : ofExcept r = ok a ↔ r = .ok a := by
  cases r <;> simp [ofExcept]

theorem ofExcept_ne_panic {r : Except ε α} : ofExcept r ≠ panic := by
  cases r <;> simp [ofExcept]

end Outcome

end Velo
