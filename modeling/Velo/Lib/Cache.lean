import Velo.Lib.Fold

/-! A cache that is filled on the first request for a key. What is kept here is whose request it
was, which decides what every later one reads. -/
namespace Velo.Cache
open Fold

variable {R K : Type*} [DecidableEq K] {key : R → K} {s : K → Option R} {r : R} {k : K}
  {rs : List R}

/-- A request fills its key, if nobody has. -/
def fill (key : R → K) (s : K → Option R) (r : R) : K → Option R :=
  Function.update s (key r) (some ((s (key r)).getD r))

theorem fill_key (s : K → Option R) (r : R) : fill key s r (key r) = some ((s (key r)).getD r) :=
  Function.update_self _ _ _

theorem fill_of_ne (hk : k ≠ key r) : fill key s r k = s k := Function.update_of_ne hk _ _

/-- Nobody is ever replaced. -/
theorem fill_of_some {r' : R} (h : s k = some r') : fill key s r k = some r' := by
  by_cases hk : k = key r
  · rw [hk, fill_key, ← hk, h]
    rfl
  · rw [fill_of_ne hk, h]

theorem foldl_fill_of_some {r' : R} (h : s k = some r') : rs.foldl (fill key) s k = some r' := by
  induction rs generalizing s with
  | nil => exact h
  | cons r rs ih => exact ih (fill_of_some h)

theorem foldl_fill_eq (h : Throughout (fill key) (fun s r => fill key s r (key r) = some r) s rs)
    (hr : r ∈ rs) : rs.foldl (fill key) s (key r) = some r := by
  induction rs generalizing s with
  | nil => exact absurd hr List.not_mem_nil
  | cons r' rs ih =>
    obtain ⟨hfirst, hrest⟩ := h
    rw [List.foldl_cons]
    rcases List.mem_cons.mp hr with rfl | hr
    · exact foldl_fill_of_some hfirst
    · exact ih hrest hr

/-- Where the keys tell the requests apart, also from those before, each reads its own. -/
theorem throughout_fill (hkey : Set.InjOn key {r | r ∈ rs})
    (hs : ∀ r ∈ rs, ∀ r', s (key r) = some r' → r' = r) :
    Throughout (fill key) (fun s r => fill key s r (key r) = some r) s rs := by
  induction rs generalizing s with
  | nil => trivial
  | cons r rs ih =>
    have hfirst : fill key s r (key r) = some r := by
      rw [fill_key]
      cases hold : s (key r) with
      | none => rfl
      | some r' => exact congrArg some (hs r List.mem_cons_self r' hold)
    refine ⟨hfirst, ih (hkey.mono fun _ => List.mem_cons_of_mem r) ?_⟩
    intro r₁ hr₁ r' hr'
    have hmem := List.mem_cons_of_mem r hr₁
    by_cases hk : key r₁ = key r
    · rw [hk, hfirst, Option.some.injEq] at hr'
      rw [← hr']
      exact (hkey hmem List.mem_cons_self hk).symm
    · rw [fill_of_ne hk] at hr'
      exact hs r₁ hmem r' hr'

theorem throughout_fill_iff :
    Throughout (fill key) (fun s r => fill key s r (key r) = some r) (fun _ => none) rs ↔
      Set.InjOn key {r | r ∈ rs} := by
  constructor
  · intro h r hr r' hr' hk
    have hown := foldl_fill_eq h hr
    rw [hk, foldl_fill_eq h hr', Option.some.injEq] at hown
    exact hown.symm
  · intro hkey
    exact throughout_fill hkey fun _ _ _ h => absurd h nofun

end Velo.Cache
