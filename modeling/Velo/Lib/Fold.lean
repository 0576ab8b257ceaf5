import Mathlib
import Velo.Lib.Machine

/-! Machines that accept every event: their state is folded over the events. -/
namespace Velo.Fold

variable {σ α β : Type*} {f : σ → α → σ} {C D : σ → α → Prop} {s : σ} {as : List α}

/-- Each event finds a state that it meets as `C` says. -/
def Throughout (f : σ → α → σ) (C : σ → α → Prop) : σ → List α → Prop
  | _, [] => True
  | s, a :: as => C s a ∧ Throughout f C (f s a) as

instance Throughout.decide (f : σ → α → σ) (C : σ → α → Prop) [∀ s a, Decidable (C s a)] (s : σ)
    (as : List α) : Decidable (Throughout f C s as) :=
  match as with
  | [] => .isTrue trivial
  | a :: as =>
    have := Throughout.decide f C (f s a) as
    inferInstanceAs (Decidable (C s a ∧ Throughout f C (f s a) as))

/-- What each event finds, in order. -/
def along (f : σ → α → σ) (g : σ → α → β) : σ → List α → List β
  | _, [] => []
  | s, a :: as => g s a :: along f g (f s a) as

theorem Throughout.congr {P : σ → Prop} (hP : ∀ s a, P s → C s a → P (f s a))
    (hC : ∀ s a, P s → (C s a ↔ D s a)) (hs : P s) :
    Throughout f C s as ↔ Throughout f D s as := by
  induction as generalizing s with
  | nil => exact Iff.rfl
  | cons a as ih =>
    constructor
    · rintro ⟨hc, hrest⟩
      exact ⟨(hC s a hs).mp hc, (ih (hP s a hs hc)).mp hrest⟩
    · rintro ⟨hd, hrest⟩
      have hc := (hC s a hs).mpr hd
      exact ⟨hc, (ih (hP s a hs hc)).mpr hrest⟩

theorem Throughout.mono (hCD : ∀ s a, C s a → D s a) (h : Throughout f C s as) :
    Throughout f D s as := by
  induction as generalizing s with
  | nil => trivial
  | cons a as ih => exact ⟨hCD s a h.1, ih h.2⟩

/-- A machine beside which an observer is folded over the same events: where what a step logs is
good exactly if the event meets the observer as `C` says, so it is for each run. -/
theorem forall_log_iff {ρ : Type*} {step : ρ → α → Option (List β × ρ)} {R : σ → ρ → Prop}
    {good : β → Prop} (hR : ∀ s x a l y, R s x → step x a = some (l, y) →
      R (f s a) y ∧ ((∀ b ∈ l, good b) ↔ C s a))
    {x y : ρ} {l : List β} (h : Machine.run step x as = some (l, y)) (hs : R s x) :
    (∀ b ∈ l, good b) ↔ Throughout f C s as := by
  induction as generalizing s x l with
  | nil =>
    obtain ⟨rfl, -⟩ := Machine.run_nil.mp h
    simp [Throughout]
  | cons a as ih =>
    obtain ⟨l₁, z, l₂, hz, hrest, rfl⟩ := Machine.run_cons.mp h
    obtain ⟨hnext, hgood⟩ := hR _ _ _ _ _ hs hz
    rw [List.forall_mem_append, hgood, ih hrest hnext, Throughout]

/-- How many events find a state that they meet as `C` says. -/
def countAlong (f : σ → α → σ) (C : σ → α → Prop) [∀ s a, Decidable (C s a)] (s : σ)
    (as : List α) : ℕ :=
  (along f (fun s a => if C s a then 1 else 0) s as).sum

theorem along_map (f : σ → α → σ) (g : α → β) (s : σ) (as : List α) :
    along f (fun _ a => g a) s as = as.map g := by
  induction as generalizing s with
  | nil => rfl
  | cons a as ih => rw [along, ih, List.map_cons]

theorem sum_along_add [AddCommMonoid β] (f : σ → α → σ) (g h : σ → α → β) (s : σ) (as : List α) :
    (along f (fun s a => g s a + h s a) s as).sum =
      (along f g s as).sum + (along f h s as).sum := by
  induction as generalizing s with
  | nil => simp [along]
  | cons a as ih =>
    rw [along, along, along, List.sum_cons, List.sum_cons, List.sum_cons, ih]
    exact add_add_add_comm _ _ _ _

section count

variable [∀ s a, Decidable (C s a)]

theorem countAlong_cons (s : σ) (a : α) (as : List α) :
    countAlong f C s (a :: as) = (if C s a then 1 else 0) + countAlong f C (f s a) as := by
  rw [countAlong, along, List.sum_cons, countAlong]

end count

theorem sum_along [AddMonoid β] {μ : σ → β} {g : σ → α → β}
    (hstep : ∀ s a, μ (f s a) = μ s + g s a) (s : σ) (as : List α) :
    μ (as.foldl f s) = μ s + (along f g s as).sum := by
  induction as generalizing s with
  | nil => simp [along]
  | cons a as ih => rw [List.foldl_cons, ih, hstep, along, List.sum_cons, add_assoc]

/-- Nothing is added up over any first part of the events exactly if no event adds anything. -/
theorem sums_eq_zero_iff [AddMonoid β] {g : σ → α → β} :
    (∀ bs, bs <+: as → (along f g s bs).sum = 0) ↔ Throughout f (fun s a => g s a = 0) s as := by
  induction as generalizing s with
  | nil =>
    simp only [List.prefix_nil, Throughout, iff_true]
    rintro bs rfl
    rfl
  | cons a as ih =>
    constructor
    · intro hall
      have hfirst : g s a = 0 := by
        have hone := hall [a] ⟨as, rfl⟩
        rwa [along, along, List.sum_singleton] at hone
      refine ⟨hfirst, ih.mp fun bs hbs => ?_⟩
      have hmore := hall (a :: bs) (List.cons_prefix_cons.mpr ⟨rfl, hbs⟩)
      rwa [along, List.sum_cons, hfirst, zero_add] at hmore
    · rintro ⟨hfirst, hrest⟩ bs hbs
      cases bs with
      | nil => rfl
      | cons b bs =>
        obtain ⟨rfl, hparts⟩ := List.cons_prefix_cons.mp hbs
        rw [along, List.sum_cons, hfirst, zero_add]
        exact ih.mpr hrest bs hparts

end Velo.Fold
