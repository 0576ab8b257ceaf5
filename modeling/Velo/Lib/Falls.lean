import Mathlib

/-! How deep a sequence falls below what was before, in one pass. -/
namespace Velo.Falls

variable {α : Type*} [AddCommGroup α] {l : List α} {v d : α}

/-- The change from each element to itself and to every later one. -/
def changes (l : List α) : Set α :=
  {d | ∃ (i j : ℕ) (x y : α), i ≤ j ∧ l[i]? = some x ∧ l[j]? = some y ∧ d = y - x}

/-- The changes of a longer sequence are those of the shorter one, and those to its last element. -/
theorem changes_concat (l : List α) (v : α) :
    changes (l ++ [v]) = changes l ∪ (fun x => v - x) '' {x | x ∈ l ++ [v]} := by
  ext d
  constructor
  · rintro ⟨i, j, x, y, hij, hx, hy, rfl⟩
    by_cases hj : j < l.length
    · rw [List.getElem?_append_left (by omega)] at hx
      rw [List.getElem?_append_left hj] at hy
      exact Or.inl ⟨i, j, x, y, hij, hx, hy, rfl⟩
    · have hlast : j = l.length := by
        have hlt := (List.getElem?_eq_some_iff.mp hy).1
        rw [List.length_append, List.length_singleton] at hlt
        omega
      rw [hlast, List.getElem?_concat_length, Option.some.injEq] at hy
      exact Or.inr ⟨x, List.mem_of_getElem? hx, congrArg (· - x) hy⟩
  · rintro (⟨i, j, x, y, hij, hx, hy, rfl⟩ | ⟨x, hx, rfl⟩)
    · have hj := (List.getElem?_eq_some_iff.mp hy).1
      refine ⟨i, j, x, y, hij, ?_, ?_, rfl⟩
      · rwa [List.getElem?_append_left (by omega)]
      · rwa [List.getElem?_append_left hj]
    · obtain ⟨i, hi⟩ := List.getElem?_of_mem hx
      have hlt := (List.getElem?_eq_some_iff.mp hi).1
      rw [List.length_append, List.length_singleton] at hlt
      exact ⟨i, l.length, x, v, by omega, hi, List.getElem?_concat_length, rfl⟩

variable [LinearOrder α]

/-- The highest element so far, and the deepest fall below one. -/
def step (s : α × α) (v : α) : α × α :=
  let peak := max s.1 v
  (peak, min s.2 (v - peak))

variable [IsOrderedAddMonoid α]

/-- The pass knows the highest element and the least change. -/
theorem foldl_step (first : α) (rest : List α) :
    IsGreatest {x | x ∈ first :: rest} (rest.foldl step (first, 0)).1 ∧
      IsLeast (changes (first :: rest)) (rest.foldl step (first, 0)).2 := by
  induction rest using List.reverseRecOn with
  | nil =>
    have hchanges : changes [first] = {0} := by
      rw [← List.nil_append [first], changes_concat]
      simp [changes]
    rw [hchanges]
    constructor
    · simp [IsGreatest, upperBounds]
    · exact isLeast_singleton
  | append_singleton rest v ih =>
    obtain ⟨hpeak, hfall⟩ := ih
    rw [List.foldl_append, ← List.cons_append, changes_concat]
    have hmembers : {x | x ∈ first :: rest ++ [v]} = insert v {x | x ∈ first :: rest} := by
      ext x
      simp [or_comm, or_left_comm]
    have hpeak' : IsGreatest {x | x ∈ first :: rest ++ [v]}
        (max (rest.foldl step (first, 0)).1 v) := by
      rw [hmembers, max_comm]
      exact hpeak.insert v
    have hanti : Antitone fun x => v - x := fun x y h => sub_le_sub_left h v
    exact ⟨hpeak', hfall.union (hanti.map_isGreatest hpeak')⟩

/-- The least change is no rise, and it is none exactly if the sequence never falls. -/
theorem nonpos_of_isLeast (hl : l ≠ []) (hd : IsLeast (changes l) d) :
    d ≤ 0 ∧ (d = 0 ↔ l.Pairwise (· ≤ ·)) := by
  have hnonpos : d ≤ 0 := by
    obtain ⟨x, hx⟩ := List.exists_mem_of_ne_nil l hl
    obtain ⟨i, hi⟩ := List.getElem?_of_mem hx
    exact hd.2 ⟨i, i, x, x, le_rfl, hi, hi, (sub_self x).symm⟩
  refine ⟨hnonpos, ?_, ?_⟩
  · rintro rfl
    rw [List.pairwise_iff_getElem]
    intro i j hi hj hij
    rw [← sub_nonneg]
    exact hd.2 ⟨i, j, l[i], l[j], hij.le, List.getElem?_eq_getElem hi,
      List.getElem?_eq_getElem hj, rfl⟩
  · intro hrises
    obtain ⟨i, j, x, y, hij, hx, hy, rfl⟩ := hd.1
    refine le_antisymm hnonpos (sub_nonneg.mpr ?_)
    rw [List.getElem?_eq_some_iff] at hx hy
    obtain ⟨hi, rfl⟩ := hx
    obtain ⟨hj, rfl⟩ := hy
    rcases hij.eq_or_lt with rfl | hlt
    · exact le_rfl
    · exact List.pairwise_iff_getElem.mp hrises i j hi hj hlt

end Velo.Falls
