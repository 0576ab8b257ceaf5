import Mathlib.Data.Nat.Notation
import Mathlib.Data.List.Basic

/-! Machines that take events one at a time. An event that cannot happen has no step; the steps of
a run log one after the other. -/
namespace Velo.Machine

variable {σ τ α γ β δ κ : Type*} {step : σ → α → Option (List β × σ)} {s t u : σ} {a : α}
  {as as' : List α} {l l' : List β}

def run (step : σ → α → Option (List β × σ)) : σ → List α → Option (List β × σ)
  | s, [] => some ([], s)
  | s, a :: as =>
    match step s a with
    | none => none
    | some (l, t) => (run step t as).map fun r => (l ++ r.1, r.2)

/-- The events can happen one after the other, and each step is as `Q` says. -/
def Along (step : σ → α → Option (List β × σ)) (Q : σ → α → List β → Prop) : σ → List α → Prop
  | _, [] => True
  | s, a :: as =>
    match step s a with
    | none => False
    | some (l, t) => Q s a l ∧ Along step Q t as

instance Along.decide (Q : σ → α → List β → Prop) [∀ s a l, Decidable (Q s a l)] (s : σ)
    (as : List α) : Decidable (Along step Q s as) :=
  match as with
  | [] => .isTrue trivial
  | a :: as =>
    match h : step s a with
    | none => .isFalse (by simp [Along, h])
    | some (l, t) =>
      have := Along.decide Q t as
      decidable_of_iff (Q s a l ∧ Along step Q t as) (by simp [Along, h])

theorem run_nil : run step s [] = some (l, t) ↔ l = [] ∧ t = s := by
  simp [run, eq_comm]

theorem run_cons : run step s (a :: as) = some (l, u) ↔
    ∃ l₁ t l₂, step s a = some (l₁, t) ∧ run step t as = some (l₂, u) ∧ l = l₁ ++ l₂ := by
  simp only [run]
  cases hs : step s a with
  | none => simp
  | some r =>
    obtain ⟨l₁, t⟩ := r
    simp only [Option.map_eq_some_iff, Prod.exists, Option.some.injEq, Prod.mk.injEq]
    constructor
    · rintro ⟨l₂, v, hr, rfl, rfl⟩
      exact ⟨l₁, t, l₂, ⟨rfl, rfl⟩, hr, rfl⟩
    · rintro ⟨_, _, l₂, ⟨rfl, rfl⟩, hr, rfl⟩
      exact ⟨l₂, u, hr, rfl, rfl⟩

theorem run_append : run step s (as ++ as') = some (l, u) ↔
    ∃ l₁ t l₂, run step s as = some (l₁, t) ∧ run step t as' = some (l₂, u) ∧ l = l₁ ++ l₂ := by
  induction as generalizing s l with
  | nil =>
    simp only [List.nil_append, run_nil]
    constructor
    · intro h
      exact ⟨[], s, l, ⟨rfl, rfl⟩, h, rfl⟩
    · rintro ⟨_, _, l₂, ⟨rfl, rfl⟩, h, rfl⟩
      exact h
  | cons a as ih =>
    simp only [List.cons_append, run_cons, ih]
    constructor
    · rintro ⟨l₁, t, _, hs, ⟨l₂, v, l₃, has, has', rfl⟩, rfl⟩
      exact ⟨l₁ ++ l₂, v, l₃, ⟨l₁, t, l₂, hs, has, rfl⟩, has', (List.append_assoc _ _ _).symm⟩
    · rintro ⟨_, v, l₃, ⟨l₁, t, l₂, hs, has, rfl⟩, has', rfl⟩
      exact ⟨l₁, t, l₂ ++ l₃, hs, ⟨l₂, v, l₃, has, has', rfl⟩, List.append_assoc _ _ _⟩

theorem run_singleton : run step s [a] = step s a := by
  simp only [run]
  cases step s a <;> simp

theorem run_history {P : List β → σ → Prop}
    (hP : ∀ l s a l' t, P l s → step s a = some (l', t) → P (l ++ l') t)
    (h : run step s as = some (l, t)) (l₀ : List β) (hs : P l₀ s) : P (l₀ ++ l) t := by
  induction as generalizing s l₀ l with
  | nil =>
    obtain ⟨rfl, rfl⟩ := run_nil.mp h
    rwa [List.append_nil]
  | cons a as ih =>
    obtain ⟨l₁, v, l₂, hv, hr, rfl⟩ := run_cons.mp h
    rw [← List.append_assoc]
    exact ih hr _ (hP _ _ _ _ _ hs hv)

theorem run_invariant {P : σ → Prop} (hP : ∀ s a l t, P s → step s a = some (l, t) → P t)
    (h : run step s as = some (l, t)) (hs : P s) : P t :=
  run_history (P := fun _ => P) (fun _ s a l t => hP s a l t) h [] hs

/-- Along a run whose steps meet a condition, the condition may be used to preserve the invariant
and to show what a step does. -/
theorem Along.of_invariant {C Q : σ → α → List β → Prop} {P : σ → Prop}
    (hP : ∀ s a l t, P s → C s a l → step s a = some (l, t) → P t ∧ Q s a l)
    (h : Along step C s as) (hs : P s) : Along step Q s as := by
  induction as generalizing s with
  | nil => trivial
  | cons a as ih =>
    simp only [Along] at h ⊢
    cases hst : step s a with
    | none => simp [hst] at h
    | some r =>
      obtain ⟨l, t⟩ := r
      simp only [hst] at h ⊢
      obtain ⟨ht, hq⟩ := hP s a l t hs h.1 hst
      exact ⟨hq, ih h.2 ht⟩

theorem Along.run_invariant {C : σ → α → List β → Prop} {P : σ → Prop}
    (hP : ∀ s a l t, P s → C s a l → step s a = some (l, t) → P t)
    (h : Along step C s as) (hr : run step s as = some (l, t)) (hs : P s) : P t := by
  induction as generalizing s l with
  | nil =>
    obtain ⟨-, rfl⟩ := run_nil.mp hr
    exact hs
  | cons a as ih =>
    obtain ⟨l₁, v, l₂, hv, hr, -⟩ := run_cons.mp hr
    simp only [Along, hv] at h
    exact ih h.2 hr (hP _ _ _ _ hs h.1 hv)

theorem Along.run_history {C : σ → α → List β → Prop} {P : List β → σ → Prop}
    (hP : ∀ l s a l' t, P l s → C s a l' → step s a = some (l', t) → P (l ++ l') t)
    (h : Along step C s as) (hr : run step s as = some (l, t)) (l₀ : List β) (hs : P l₀ s) :
    P (l₀ ++ l) t := by
  induction as generalizing s l l₀ with
  | nil =>
    obtain ⟨rfl, rfl⟩ := run_nil.mp hr
    rwa [List.append_nil]
  | cons a as ih =>
    obtain ⟨l₁, v, l₂, hv, hrest, rfl⟩ := run_cons.mp hr
    simp only [Along, hv] at h
    rw [← List.append_assoc]
    exact ih h.2 hrest _ (hP _ _ _ _ _ hs h.1 hv)

theorem Along.exists_run {Q : σ → α → List β → Prop} (h : Along step Q s as) :
    ∃ l t, run step s as = some (l, t) := by
  induction as generalizing s with
  | nil => exact ⟨[], s, rfl⟩
  | cons a as ih =>
    simp only [Along] at h
    cases hst : step s a with
    | none => simp [hst] at h
    | some r =>
      simp only [hst] at h
      obtain ⟨l, t, hr⟩ := ih h.2
      exact ⟨r.1 ++ l, t, run_cons.mpr ⟨r.1, r.2, l, hst, hr, rfl⟩⟩

theorem Along.of_append {Q : σ → α → List β → Prop} (h : Along step Q s (as ++ as'))
    (hr : run step s as = some (l, t)) : Along step Q s as ∧ Along step Q t as' := by
  induction as generalizing s l with
  | nil =>
    obtain ⟨-, rfl⟩ := run_nil.mp hr
    exact ⟨trivial, h⟩
  | cons a as ih =>
    obtain ⟨l₁, v, l₂, hv, hrest, -⟩ := run_cons.mp hr
    simp only [List.cons_append, Along, hv] at h ⊢
    obtain ⟨has, has'⟩ := ih h.2 hrest
    exact ⟨⟨h.1, has⟩, has'⟩

/-- Where each step logs only good entries exactly under a condition, so does each run. -/
theorem forall_log_iff {C : σ → α → List β → Prop} {P : σ → Prop} {good : β → Prop}
    (hP : ∀ s a l t, P s → step s a = some (l, t) → P t ∧ ((∀ b ∈ l, good b) ↔ C s a l))
    (h : run step s as = some (l, t)) (hs : P s) : (∀ b ∈ l, good b) ↔ Along step C s as := by
  induction as generalizing s l with
  | nil =>
    obtain ⟨rfl, -⟩ := run_nil.mp h
    simp [Along]
  | cons a as ih =>
    obtain ⟨l₁, v, l₂, hv, hr, rfl⟩ := run_cons.mp h
    obtain ⟨hPv, hgood⟩ := hP _ _ _ _ hs hv
    simp only [Along, hv]
    rw [List.forall_mem_append, hgood, ih hr hPv]

/-- Each step of the one machine is a run of the other, and their logs look the same. -/
theorem run_simulation {step' : τ → γ → Option (List δ × τ)} {R : σ → τ → Prop} {f : β → κ}
    {g : δ → κ} (hR : ∀ s a l t x, R s x → step s a = some (l, t) →
      ∃ cs m y, run step' x cs = some (m, y) ∧ m.map g = l.map f ∧ R t y)
    (h : run step s as = some (l, t)) {x : τ} (hs : R s x) :
    ∃ cs m y, run step' x cs = some (m, y) ∧ m.map g = l.map f ∧ R t y := by
  induction as generalizing s l x with
  | nil =>
    obtain ⟨rfl, rfl⟩ := run_nil.mp h
    exact ⟨[], [], x, rfl, rfl, hs⟩
  | cons a as ih =>
    obtain ⟨l₁, v, l₂, hv, hr, rfl⟩ := run_cons.mp h
    obtain ⟨cs₁, m₁, y, hy, hm₁, hvy⟩ := hR _ _ _ _ _ hs hv
    obtain ⟨cs₂, m₂, z, hz, hm₂, htz⟩ := ih hr hvy
    refine ⟨cs₁ ++ cs₂, m₁ ++ m₂, z, run_append.mpr ⟨m₁, y, m₂, hy, hz, rfl⟩, ?_, htz⟩
    rw [List.map_append, List.map_append, hm₁, hm₂]

end Velo.Machine
