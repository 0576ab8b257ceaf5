import Mathlib.Data.Nat.Notation
import Mathlib.Logic.Relation

/-! Loops as iterated steps. A step answers `none` where the loop is left, by its test or by a
`break`; the fuel only bounds the recursion, and a variant below it shows that the loop ends. -/
namespace Velo.Iteration

variable {σ τ : Type*} {step : σ → Option σ} {s t u : σ} {n : ℕ}

/-- Repeats `step` until it declines, at most `n` times. -/
def iterate (step : σ → Option σ) : ℕ → σ → σ
  | 0, s => s
  | n + 1, s =>
    match step s with
    | none => s
    | some t => iterate step n t

/-- Finitely many iterations lead from one state to another. -/
def Reaches (step : σ → Option σ) : σ → σ → Prop :=
  Relation.ReflTransGen fun s t => step s = some t

theorem Reaches.refl : Reaches step s s := Relation.ReflTransGen.refl

theorem Reaches.single (h : step s = some t) : Reaches step s t := Relation.ReflTransGen.single h

theorem Reaches.trans (h : Reaches step s t) (h' : Reaches step t u) : Reaches step s u :=
  Relation.ReflTransGen.trans h h'

theorem iterate_none (h : step s = none) : iterate step n s = s := by
  cases n <;> simp [iterate, h]

theorem iterate_some (h : step s = some t) : iterate step (n + 1) s = iterate step n t := by
  simp [iterate, h]

theorem iterate_reaches (step : σ → Option σ) (n : ℕ) (s : σ) :
    Reaches step s (iterate step n s) := by
  induction n generalizing s with
  | zero => exact .refl
  | succ n ih =>
    cases h : step s with
    | none => rw [iterate_none h]; exact .refl
    | some t => rw [iterate_some h]; exact (Reaches.single h).trans (ih t)

theorem Reaches.invariant {P : σ → Prop} (hP : ∀ s t, P s → step s = some t → P t)
    (h : Reaches step s t) (hs : P s) : P t := by
  induction h with
  | refl => exact hs
  | tail _ ht ih => exact hP _ _ ih ht

theorem iterate_invariant {P : σ → Prop} (hP : ∀ s t, P s → step s = some t → P t)
    (hs : P s) : P (iterate step n s) :=
  (iterate_reaches step n s).invariant hP hs

theorem iterate_exit (μ : σ → ℕ) (hμ : ∀ s t, step s = some t → μ t < μ s) (hn : μ s ≤ n) :
    step (iterate step n s) = none := by
  induction n generalizing s with
  | zero =>
    cases h : step s with
    | none => rw [iterate_none h, h]
    | some t => have := hμ s t h; omega
  | succ n ih =>
    cases h : step s with
    | none => rw [iterate_none h, h]
    | some t =>
      have := hμ s t h
      rw [iterate_some h]
      exact ih (by omega)

/-- Iterations are deterministic, so every way into an exit ends in the same state. -/
theorem Reaches.exit_unique (h : Reaches step s t) (ht : step t = none)
    (h' : Reaches step s u) (hu : step u = none) : t = u := by
  induction h using Relation.ReflTransGen.head_induction_on with
  | refl =>
    cases Relation.ReflTransGen.cases_head h' with
    | inl he => exact he
    | inr he => obtain ⟨v, hv, _⟩ := he; simp [ht] at hv
  | head hv _ ih =>
    apply ih
    cases Relation.ReflTransGen.cases_head h' with
    | inl he => subst he; simp [hu] at hv
    | inr he =>
      obtain ⟨w, hw, hwu⟩ := he
      rw [hv] at hw
      cases hw
      exact hwu

theorem iterate_eq (μ : σ → ℕ) (hμ : ∀ s t, step s = some t → μ t < μ s) (hn : μ s ≤ n)
    (h : Reaches step s t) (ht : step t = none) : iterate step n s = t :=
  (iterate_reaches step n s).exit_unique (iterate_exit μ hμ hn) h ht

theorem Reaches.simulation {step' : τ → Option τ} {R : σ → τ → Prop}
    (hR : ∀ s s' a, R s a → step s = some s' → ∃ a', Reaches step' a a' ∧ R s' a')
    {a : τ} (h : Reaches step s t) (hs : R s a) : ∃ a', Reaches step' a a' ∧ R t a' := by
  induction h with
  | refl => exact ⟨a, .refl, hs⟩
  | tail _ ht ih =>
    obtain ⟨b, hab, hb⟩ := ih
    obtain ⟨c, hbc, hc⟩ := hR _ _ b hb ht
    exact ⟨c, hab.trans hbc, hc⟩

/-- Loops whose steps go hand in hand. -/
theorem iterate_related {step' : τ → Option τ} {R : σ → τ → Prop}
    (hR : ∀ s a, R s a → Option.Rel R (step s) (step' a)) {a : τ} (hs : R s a) (n : ℕ) :
    R (iterate step n s) (iterate step' n a) := by
  induction n generalizing s a with
  | zero => exact hs
  | succ n ih =>
    have hstep := hR s a hs
    cases hs' : step s with
    | none =>
      rw [hs'] at hstep
      cases ha : step' a with
      | none => rwa [iterate_none hs', iterate_none ha]
      | some b =>
        rw [ha] at hstep
        cases hstep
    | some t =>
      rw [hs'] at hstep
      cases ha : step' a with
      | none =>
        rw [ha] at hstep
        cases hstep
      | some b =>
        rw [ha] at hstep
        cases hstep with
        | some htb =>
          rw [iterate_some hs', iterate_some ha]
          exact ih htb

end Velo.Iteration
