import Mathlib.Data.Nat.Notation
import Mathlib.Data.List.Basic

/-! Fixed-size fields read off the front of a byte buffer. -/
namespace Velo

/-- A read moves the front of the buffer; past its end there is nothing to read. -/
abbrev Reader := StateT (List UInt8) Option

namespace Reader

variable {α β : Type} {r : Reader α} {f : α → Reader β} {n k : ℕ} {l m : List UInt8}

/-- A read that needs `n` bytes, takes exactly these and looks at no others. -/
structure Takes (r : Reader α) (n : ℕ) : Prop where
  short : ∀ l : List UInt8, l.length < n → r l = none
  exact : ∀ l : List UInt8, n ≤ l.length → ∃ a, ∀ m, r (l ++ m) = some (a, l.drop n ++ m)

theorem Takes.pure (a : α) : Takes (Pure.pure a : Reader α) 0 where
  short := by simp
  exact := fun l _ => ⟨a, fun m => rfl⟩

theorem Takes.bind (hr : Takes r n) (hf : ∀ a, Takes (f a) k) : Takes (r >>= f) (n + k) where
  short := by
    intro l hl
    by_cases hn : l.length < n
    · simp [Bind.bind, StateT.bind, hr.short l hn]
    · obtain ⟨a, ha⟩ := hr.exact l (Nat.le_of_not_lt hn)
      have ha := ha []
      have hshort : (l.drop n).length < k := by
        rw [List.length_drop]
        omega
      simp only [List.append_nil] at ha
      simp [Bind.bind, StateT.bind, ha, (hf a).short _ hshort]
  exact := by
    intro l hl
    obtain ⟨a, ha⟩ := hr.exact l (by omega)
    have hlong : k ≤ (l.drop n).length := by
      rw [List.length_drop]
      omega
    obtain ⟨b, hb⟩ := (hf a).exact (l.drop n) hlong
    refine ⟨b, fun m => ?_⟩
    rw [← List.drop_drop, ← hb m]
    simp [Bind.bind, StateT.bind, ha m]

theorem Takes.map (hr : Takes r n) (g : α → β) : Takes (g <$> r) n := by
  have hbind := hr.bind (f := fun a => Pure.pure (g a)) fun a => Takes.pure (g a)
  have heq : g <$> r = r >>= fun a => Pure.pure (g a) := rfl
  rwa [heq]

theorem bind_apply {a : α} (h : r l = some (a, m)) : (r >>= f) l = f a m := by
  simp [Bind.bind, StateT.bind, h]

theorem map_apply {a : α} (h : r l = some (a, m)) (g : α → β) :
    (g <$> r) l = some (g a, m) := by
  simp [Functor.map, StateT.map, h]

end Reader

open Reader

def getU8 : Reader UInt8
  | [] => none
  | b :: bs => some (b, bs)

def getBytes : ℕ → Reader (List UInt8)
  | 0 => pure []
  | n + 1 => do
    let b ← getU8
    let bs ← getBytes n
    return b :: bs

theorem getU8_cons (b : UInt8) (l : List UInt8) : getU8 (b :: l) = some (b, l) := rfl

theorem getU8_takes : Takes getU8 1 where
  short := by
    intro l hl
    cases l with
    | nil => rfl
    | cons b bs => simp at hl
  exact := by
    intro l hl
    cases l with
    | nil => simp at hl
    | cons b bs => exact ⟨b, fun m => rfl⟩

theorem getBytes_takes (n : ℕ) : Takes (getBytes n) n := by
  induction n with
  | zero => exact Takes.pure []
  | succ n ih =>
    have hstep := getU8_takes.bind fun b => ih.map (b :: ·)
    rw [Nat.add_comm 1 n] at hstep
    exact hstep

theorem getBytes_append (l m : List UInt8) : getBytes l.length (l ++ m) = some (l, m) := by
  induction l with
  | nil => rfl
  | cons b l ih =>
    have hstep := bind_apply (f := fun bs => Pure.pure (b :: bs)) ih
    exact hstep

end Velo
