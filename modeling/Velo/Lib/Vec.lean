import Mathlib

/-! Vectors of fixed length, written in place: `none` where an index is out of range. -/
namespace Velo.Vec

variable {α β : Type*} {xs ys : List α} {i k n : ℕ} {a : α}

/-- `xs[i] = a`. -/
def set? (xs : List α) (i : ℕ) (a : α) : Option (List α) :=
  if i < xs.length then some (xs.set i a) else none

/-- `xs[i..i + k]`, as an array. -/
def slice? (xs : List α) (i k : ℕ) : Option (Fin k → α) :=
  if h : i + k ≤ xs.length then some fun j => xs[i + j] else none

/-- `xs[i..i + k].copy_from_slice`. -/
def copy? (xs : List α) (i : ℕ) (a : Fin k → α) : Option (List α) :=
  if i + k ≤ xs.length then some (xs.take i ++ List.ofFn a ++ xs.drop (i + k)) else none

theorem set?_map {ys : List β} (f : β → α) (h : i < ys.length) (b : β) :
    set? (ys.map f) i (f b) = some ((ys.set i b).map f) := by
  rw [set?, List.length_map, if_pos h, List.map_set]

theorem slice?_map {ys : List β} (f : β → α) (h : i + k ≤ ys.length) :
    slice? (ys.map f) i k = some fun j : Fin k => f ys[i + j] := by
  simp only [slice?, List.length_map, dif_pos h, List.getElem_map]

theorem copy?_map {ys : List β} (f : β → α) (h : i + k ≤ ys.length) (b : Fin k → β) :
    copy? (ys.map f) i (fun j => f (b j)) =
      some ((ys.take i ++ List.ofFn b ++ ys.drop (i + k)).map f) := by
  rw [copy?, List.length_map, if_pos h, List.map_append, List.map_append, List.map_take,
    List.map_drop, List.map_ofFn]
  rfl

theorem getElem?_copy {b : Fin k → α} {j : ℕ} (h : i + k ≤ xs.length) :
    (xs.take i ++ List.ofFn b ++ xs.drop (i + k))[j]? =
      if hj : i ≤ j ∧ j < i + k then some (b ⟨j - i, by omega⟩) else xs[j]? := by
  have htake : (xs.take i).length = i := List.length_take_of_le (by omega)
  have hfront : (xs.take i ++ List.ofFn b).length = i + k := by
    rw [List.length_append, htake, List.length_ofFn]
  by_cases hhigh : i + k ≤ j
  · rw [List.getElem?_append_right (by omega), hfront, List.getElem?_drop, dif_neg (by omega),
      Nat.add_sub_cancel' hhigh]
  rw [List.getElem?_append_left (by omega)]
  by_cases hlow : j < i
  · rw [List.getElem?_append_left (by omega), List.getElem?_take_of_lt hlow, dif_neg (by omega)]
  · rw [List.getElem?_append_right (by omega), htake, List.getElem?_ofFn, dif_pos (by omega),
      dif_pos (by omega)]

theorem length_copy {b : Fin k → α} (h : i + k ≤ xs.length) :
    (xs.take i ++ List.ofFn b ++ xs.drop (i + k)).length = xs.length := by
  simp
  omega

theorem foldlM_invariant {σ : Type*} (step : σ → α → Option σ) (as : List α) (I : ℕ → σ → Prop)
    {s : σ} (hs : I 0 s)
    (hstep : ∀ k (hk : k < as.length) s, I k s → ∃ t, step s as[k] = some t ∧ I (k + 1) t) :
    ∃ t, as.foldlM step s = some t ∧ I as.length t := by
  induction as generalizing s I with
  | nil => exact ⟨s, rfl, hs⟩
  | cons a as ih =>
    obtain ⟨t, ht, hI⟩ := hstep 0 (Nat.zero_lt_succ _) s hs
    obtain ⟨u, hu, hend⟩ := ih (fun k => I (k + 1)) hI
      (fun k hk s hI => hstep (k + 1) (Nat.succ_lt_succ hk) s hI)
    refine ⟨u, ?_, hend⟩
    rw [List.getElem_cons_zero] at ht
    rw [List.foldlM_cons, ht]
    exact hu

theorem mapM_range_eq {f : ℕ → Option α} (h : ∀ j (hj : j < xs.length), f j = some xs[j]) :
    (List.range xs.length).mapM f = some xs := by
  induction xs using List.reverseRecOn with
  | nil => rfl
  | append_singleton xs x ih =>
    have hfront : (List.range xs.length).mapM f = some xs := by
      refine ih fun j hj => ?_
      rw [h j (by rw [List.length_append]; omega), List.getElem_append_left hj]
    have hlast : f xs.length = some x := by
      rw [h xs.length (by simp), List.getElem_concat_length rfl]
    rw [List.length_append, List.length_singleton, List.range_succ, List.mapM_append, hfront,
      List.mapM_cons, hlast]
    rfl

end Velo.Vec
