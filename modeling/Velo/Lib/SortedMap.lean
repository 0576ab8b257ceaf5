import Mathlib.Order.RelClasses
import Mathlib.Data.List.Nodup

/-! Ordered maps: association lists kept strictly sorted by a comparator, so that the first entry
is the one with the least key. Every operation is described by what a lookup sees afterwards. -/
namespace Velo

/-- A finite map whose entries stand in the order of `lt`, each key once. -/
@[ext] structure SortedMap {κ : Type*} (lt : κ → κ → Prop) (ν : Type*) where
  entries : List (κ × ν)
  sorted : (entries.map Prod.fst).Pairwise lt

namespace SortedMap

variable {κ ν : Type*} {lt : κ → κ → Prop}

/-- The map without entries. -/
def empty : SortedMap lt ν := ⟨[], List.Pairwise.nil⟩

/-- The entry with the least key. -/
def begin? (m : SortedMap lt ν) : Option (κ × ν) := m.entries.head?

section Operations

variable [DecidableEq κ]

def get? (m : SortedMap lt ν) (k : κ) : Option ν :=
  (m.entries.find? fun e => e.1 = k).map Prod.snd

def erase (m : SortedMap lt ν) (k : κ) : SortedMap lt ν where
  entries := m.entries.filter fun e => e.1 ≠ k
  sorted := m.sorted.sublist (List.filter_sublist.map _)

def update (m : SortedMap lt ν) (k : κ) (f : ν → ν) : SortedMap lt ν where
  entries := m.entries.map fun e => if e.1 = k then (e.1, f e.2) else e
  sorted := by
    have hk : (Prod.fst ∘ fun e : κ × ν => if e.1 = k then (e.1, f e.2) else e) = Prod.fst := by
      funext e
      by_cases he : e.1 = k <;> simp [he]
    rw [List.map_map, hk]
    exact m.sorted

variable [DecidableRel lt]

/-- Puts a new key in its place and leaves the value of a present one alone. -/
def emplaceEntries (lt : κ → κ → Prop) [DecidableRel lt] (k : κ) (v : ν) :
    List (κ × ν) → List (κ × ν)
  | [] => [(k, v)]
  | e :: es =>
    if e.1 = k then e :: es
    else if lt k e.1 then (k, v) :: e :: es
    else e :: emplaceEntries lt k v es

theorem key_of_mem_emplaceEntries {k : κ} {v : ν} {e : κ × ν} {es : List (κ × ν)}
    (h : e ∈ emplaceEntries lt k v es) : e.1 = k ∨ e ∈ es := by
  induction es with
  | nil => simp_all [emplaceEntries]
  | cons d es ih =>
    simp only [emplaceEntries] at h
    split at h
    · exact Or.inr h
    · split at h <;> simp only [List.mem_cons] at h ⊢
      · rcases h with rfl | h
        · exact Or.inl rfl
        · exact Or.inr h
      · rcases h with rfl | h
        · exact Or.inr (Or.inl rfl)
        · exact (ih h).imp_right Or.inr

theorem sorted_emplaceEntries [IsStrictTotalOrder κ lt] (k : κ) (v : ν) {es : List (κ × ν)}
    (hs : (es.map Prod.fst).Pairwise lt) :
    ((emplaceEntries lt k v es).map Prod.fst).Pairwise lt := by
  induction es with
  | nil => simp [emplaceEntries]
  | cons e es ih =>
    have he := List.pairwise_cons.mp hs
    simp only [emplaceEntries]
    split
    · exact hs
    · rename_i hne
      split
      · rename_i hlt
        refine List.pairwise_cons.mpr ⟨?_, hs⟩
        intro a ha
        rcases List.mem_cons.mp ha with rfl | ha
        · exact hlt
        · exact IsTrans.trans _ _ _ hlt (he.1 a ha)
      · rename_i hge
        refine List.pairwise_cons.mpr ⟨?_, ih he.2⟩
        intro a ha
        obtain ⟨d, hd, rfl⟩ := List.mem_map.mp ha
        rcases key_of_mem_emplaceEntries hd with hk | hd
        · rw [hk]
          rcases trichotomous_of lt e.1 k with h | h | h
          · exact h
          · exact absurd h hne
          · exact absurd h hge
        · exact he.1 _ (List.mem_map_of_mem hd)

def tryEmplace [IsStrictTotalOrder κ lt] (m : SortedMap lt ν) (k : κ) (v : ν) :
    SortedMap lt ν where
  entries := emplaceEntries lt k v m.entries
  sorted := sorted_emplaceEntries k v m.sorted

end Operations

section Lookups

variable [DecidableEq κ] {m m' : SortedMap lt ν} {k l : κ} {v w : ν}

@[simp] theorem get?_empty : (empty : SortedMap lt ν).get? k = none := rfl

theorem get?_update (f : ν → ν) :
    (m.update k f).get? l = if l = k then (m.get? l).map f else m.get? l := by
  have hf : (fun e : κ × ν => decide (e.1 = l)) ∘ (fun e => if e.1 = k then (e.1, f e.2) else e)
      = fun e => decide (e.1 = l) := by
    funext e
    by_cases he : e.1 = k <;> simp [he]
  simp only [get?, update, List.find?_map, hf]
  cases he : m.entries.find? (fun e => decide (e.1 = l)) with
  | none => simp
  | some e =>
    have hl : e.1 = l := by simpa using List.find?_some he
    by_cases hk : l = k <;> simp [hl, hk]

variable [IsStrictTotalOrder κ lt]

omit [DecidableEq κ] in
theorem keys_nodup (m : SortedMap lt ν) : (m.entries.map Prod.fst).Nodup := by
  refine List.nodup_iff_pairwise_ne.mpr (m.sorted.imp fun {a b} h => ?_)
  rintro rfl
  exact irrefl a h

omit [DecidableEq κ] in
theorem entries_ext {es es' : List (κ × ν)} (h : (es.map Prod.fst).Pairwise lt)
    (h' : (es'.map Prod.fst).Pairwise lt) (hmem : ∀ e, e ∈ es ↔ e ∈ es') : es = es' := by
  rw [List.pairwise_map] at h h'
  have hnodup : ∀ {fs : List (κ × ν)}, fs.Pairwise (fun a b => lt a.1 b.1) → fs.Nodup := by
    intro fs hfs
    refine List.nodup_iff_pairwise_ne.mpr (hfs.imp fun {a b} hab => ?_)
    rintro rfl
    exact irrefl a.1 hab
  refine ((List.perm_ext_iff_of_nodup (hnodup h) (hnodup h')).mpr hmem).eq_of_pairwise ?_ h h'
  intro a b _ _ hab hba
  exact absurd hba (asymm hab)

theorem mem_entries_iff : (k, v) ∈ m.entries ↔ m.get? k = some v := by
  have hn := List.nodup_iff_pairwise_ne.mp m.keys_nodup
  unfold get?
  generalize m.entries = es at hn ⊢
  induction es with
  | nil => simp
  | cons e es ih =>
    obtain ⟨he, hes⟩ := List.pairwise_cons.mp hn
    by_cases hk : e.1 = k
    · have hnot : (k, v) ∉ es := fun h => he k (List.mem_map_of_mem (f := Prod.fst) h) hk
      obtain ⟨a, b⟩ := e
      simp_all [eq_comm]
    · have hne : (k, v) ≠ e := fun h => hk (by simp [← h])
      simp [hk, hne, ih hes]

theorem get?_erase : (m.erase k).get? l = if l = k then none else m.get? l := by
  ext v
  rw [← mem_entries_iff]
  split
  · simp_all [erase]
  · rw [← mem_entries_iff]
    simp_all [erase]

theorem get?_tryEmplace [DecidableRel lt] :
    (m.tryEmplace k v).get? l = if l = k then some ((m.get? k).getD v) else m.get? l := by
  have hs := m.sorted
  simp only [get?, tryEmplace]
  generalize m.entries = es at hs
  induction es with
  | nil => by_cases h : l = k <;> simp [emplaceEntries, h, eq_comm]
  | cons e es ih =>
    obtain ⟨he, hes⟩ := List.pairwise_cons.mp hs
    specialize ih hes
    simp only [emplaceEntries]
    split
    · rename_i hk
      by_cases h : l = k <;> simp [hk, h]
    · rename_i hk
      split
      · rename_i hlt
        have hnone : es.find? (fun e => decide (e.1 = k)) = none := by
          refine List.find?_eq_none.mpr fun d hd => ?_
          have hed := he d.1 (List.mem_map_of_mem (f := Prod.fst) hd)
          simp only [decide_eq_true_eq]
          rintro rfl
          exact asymm hlt hed
        by_cases h : l = k
        · simp [h, hk, hnone]
        · simp [h, Ne.symm h]
      · by_cases h : l = k
        · simpa [h, hk] using ih
        · by_cases hl : e.1 = l
          · simp [hl, h]
          · simpa [h, hl] using ih

theorem begin?_eq_none : m.begin? = none ↔ ∀ k, m.get? k = none := by
  constructor
  · intro h k
    simp [get?, List.head?_eq_none_iff.mp h]
  · intro h
    refine List.head?_eq_none_iff.mpr (List.eq_nil_iff_forall_not_mem.mpr ?_)
    rintro ⟨k, v⟩ hm
    have hk := h k
    simp [mem_entries_iff.mp hm] at hk

/-- The first entry has the least key of all. -/
theorem begin?_eq_some : m.begin? = some (k, v) ↔
    m.get? k = some v ∧ ∀ l w, m.get? l = some w → l = k ∨ lt k l := by
  constructor
  · intro h
    obtain ⟨es, hes⟩ := List.head?_eq_some_iff.mp h
    refine ⟨mem_entries_iff.mp (by simp [hes]), fun l w hw => ?_⟩
    have hs := m.sorted
    have hm := mem_entries_iff.mpr hw
    rw [hes] at hs hm
    rcases List.mem_cons.mp hm with hm | hm
    · exact Or.inl (congrArg Prod.fst hm)
    · exact Or.inr ((List.pairwise_cons.mp hs).1 l (List.mem_map_of_mem (f := Prod.fst) hm))
  · rintro ⟨hk, hmin⟩
    cases hb : m.begin? with
    | none => simp [begin?_eq_none.mp hb k] at hk
    | some e =>
      obtain ⟨es, hes⟩ := List.head?_eq_some_iff.mp hb
      have hs := m.sorted
      have hm := mem_entries_iff.mpr hk
      rw [hes] at hs hm
      rcases List.mem_cons.mp hm with rfl | hm
      · rfl
      · have hlt := (List.pairwise_cons.mp hs).1 k (List.mem_map_of_mem (f := Prod.fst) hm)
        rcases hmin e.1 e.2 (mem_entries_iff.mp (by simp [hes])) with he | he
        · exact absurd hlt (by rw [he]; exact irrefl k)
        · exact (asymm hlt he).elim

end Lookups

section Image

variable {κ' ν' : Type*} {lt' : κ' → κ' → Prop} {g : κ → κ'} {f : ν → ν'} {m : SortedMap lt ν}
  {m' : SortedMap lt' ν'} {k : κ} {v : ν}

/-- The second map is the first one, its keys and values renamed. -/
def Image (g : κ → κ') (f : ν → ν') (m : SortedMap lt ν) (m' : SortedMap lt' ν') : Prop :=
  m'.entries = m.entries.map (Prod.map g f)

theorem Image.begin? (h : Image g f m m') : m'.begin? = m.begin?.map (Prod.map g f) := by
  rw [SortedMap.begin?, h, List.head?_map]
  rfl

variable [DecidableEq κ] [DecidableEq κ'] (hg : Function.Injective g)
include hg

theorem Image.get? (h : Image g f m m') : m'.get? (g k) = (m.get? k).map f := by
  have hk : (fun e : κ' × ν' => decide (e.1 = g k)) ∘ Prod.map g f = fun e => decide (e.1 = k) := by
    funext e
    simp [hg.eq_iff]
  rw [SortedMap.get?, SortedMap.get?, h, List.find?_map, hk, Option.map_map, Option.map_map]
  rfl

theorem Image.erase (h : Image g f m m') : Image g f (m.erase k) (m'.erase (g k)) := by
  have hk : (fun e : κ' × ν' => decide (e.1 ≠ g k)) ∘ Prod.map g f = fun e => decide (e.1 ≠ k) := by
    funext e
    simp [hg.eq_iff]
  change m'.entries.filter (fun e => e.1 ≠ g k) =
    (m.entries.filter fun e => e.1 ≠ k).map (Prod.map g f)
  rw [h, List.filter_map, hk]

theorem Image.update {u : ν → ν} {u' : ν' → ν'} (h : Image g f m m')
    (hu : ∀ v, u' (f v) = f (u v)) : Image g f (m.update k u) (m'.update (g k) u') := by
  change m'.entries.map (fun e => if e.1 = g k then (e.1, u' e.2) else e) =
    (m.entries.map fun e => if e.1 = k then (e.1, u e.2) else e).map (Prod.map g f)
  rw [h, List.map_map, List.map_map]
  refine List.map_congr_left fun e _ => ?_
  by_cases hk : e.1 = k <;> simp [hg.eq_iff, hk, hu]

/-- A new key needs its place kept. -/
theorem Image.tryEmplace [IsStrictTotalOrder κ lt] [IsStrictTotalOrder κ' lt'] [DecidableRel lt]
    [DecidableRel lt'] (h : Image g f m m') (hlt : ∀ e ∈ m.entries, lt' (g k) (g e.1) ↔ lt k e.1) :
    Image g f (m.tryEmplace k v) (m'.tryEmplace (g k) (f v)) := by
  change emplaceEntries lt' (g k) (f v) m'.entries =
    (emplaceEntries lt k v m.entries).map (Prod.map g f)
  rw [h]
  generalize m.entries = es at hlt ⊢
  induction es with
  | nil => rfl
  | cons e es ih =>
    have ih := ih fun d hd => hlt d (List.mem_cons_of_mem e hd)
    have he := hlt e List.mem_cons_self
    simp only [List.map_cons, emplaceEntries, Prod.map_fst, hg.eq_iff, he]
    split
    · rfl
    · split
      · rfl
      · rw [ih]
        rfl

end Image
end SortedMap
end Velo
