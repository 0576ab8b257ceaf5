import Mathlib.Data.List.Basic
import Velo.Lib.Iteration

/-! Incremental framing. Items are cut off the front of a buffer that grows at its back; wherever
the chunks of a stream are cut, what comes out is the parse of the whole stream. -/
namespace Velo
open Iteration

/-- What a buffer starts with: too little to tell, something malformed, or an item. -/
inductive Next (β α : Type*)
  | more
  | reject
  | item (a : α) (rest : List β)

/-- How items are recognised. A decision, once taken, does not depend on what arrives later. -/
structure Framing (β α : Type*) where
  next : List β → Next β α
  next_nil : next [] = .more
  item_append : ∀ l a r m, next l = .item a r → next (l ++ m) = .item a (r ++ m)
  reject_append : ∀ l m, next l = .reject → next (l ++ m) = .reject
  item_shorter : ∀ l a r, next l = .item a r → r.length < l.length

/-- A receiver: the items so far and the bytes kept, if it still listens. -/
structure Intake (β α : Type*) where
  items : List α
  pending : Option (List β)

namespace Framing

variable {β α : Type*} (F : Framing β α) {x y z : Intake β α} {l m r : List β} {a : α}

/-- The whole stream at once: its items, and what is left, or `none` after something malformed. -/
def parse (l : List β) : List α × Option (List β) :=
  match _h : F.next l with
  | .more => ([], some l)
  | .reject => ([], none)
  | .item a r => (a :: (parse r).1, (parse r).2)
termination_by l.length
decreasing_by all_goals exact F.item_shorter l a r _h

def append (x : Intake β α) (m : List β) : Intake β α :=
  { x with pending := x.pending.map (· ++ m) }

/-- One round of the receiver's loop. -/
def drainStep (x : Intake β α) : Option (Intake β α) :=
  match x.pending with
  | none => none
  | some l =>
    match F.next l with
    | .more => none
    | .reject => some { x with pending := none }
    | .item a r => some ⟨x.items ++ [a], some r⟩

/-- Bounds the rounds of the loop. -/
def size (x : Intake β α) : ℕ := x.pending.elim 0 (·.length + 1)

def drain (x : Intake β α) : Intake β α := iterate F.drainStep (size x) x

/-- A chunk arrives. -/
def feed (x : Intake β α) (m : List β) : Intake β α := F.drain (append x m)

theorem parse_more (h : F.next l = .more) : F.parse l = ([], some l) := by
  rw [parse]
  split <;> simp_all

theorem parse_reject (h : F.next l = .reject) : F.parse l = ([], none) := by
  rw [parse]
  split <;> simp_all

theorem parse_item (h : F.next l = .item a r) :
    F.parse l = (a :: (F.parse r).1, (F.parse r).2) := by
  rw [parse]
  split <;> simp_all

theorem drainStep_cases (h : F.drainStep x = some y) :
    (∃ l, x.pending = some l ∧ F.next l = .reject ∧ y = { x with pending := none }) ∨
      ∃ l a r, x.pending = some l ∧ F.next l = .item a r ∧ y = ⟨x.items ++ [a], some r⟩ := by
  unfold drainStep at h
  split at h
  · cases h
  · rename_i l hl
    split at h
    · cases h
    · rename_i hn
      cases h
      exact Or.inl ⟨l, hl, hn, rfl⟩
    · rename_i a r hn
      cases h
      exact Or.inr ⟨l, a, r, hl, hn, rfl⟩

theorem drainStep_size (x y : Intake β α) (h : F.drainStep x = some y) : size y < size x := by
  rcases F.drainStep_cases h with ⟨l, hl, -, rfl⟩ | ⟨l, a, r, hl, hn, rfl⟩
  · simp [size, hl]
  · have := F.item_shorter l a r hn
    simp only [size, hl, Option.elim_some]
    omega

theorem drain_exit (x : Intake β α) : F.drainStep (F.drain x) = none :=
  iterate_exit size F.drainStep_size (Nat.le_refl _)

theorem drain_eq (h : Reaches F.drainStep x y) (hy : F.drainStep y = none) : F.drain x = y :=
  iterate_eq size F.drainStep_size (Nat.le_refl _) h hy

/-- Bytes that arrive later change no round already taken. -/
theorem drainStep_append (h : F.drainStep x = some y) (m : List β) :
    F.drainStep (append x m) = some (append y m) := by
  rcases F.drainStep_cases h with ⟨l, hl, hn, rfl⟩ | ⟨l, a, r, hl, hn, rfl⟩
  · simp [drainStep, append, hl, F.reject_append l m hn]
  · simp [drainStep, append, hl, F.item_append l a r m hn]

theorem reaches_append (h : Reaches F.drainStep x y) (m : List β) :
    Reaches F.drainStep (append x m) (append y m) := by
  induction h with
  | refl => exact .refl
  | tail _ hy ih => exact ih.trans (.single (F.drainStep_append hy m))

theorem append_append (x : Intake β α) (l m : List β) :
    append (append x l) m = append x (l ++ m) := by
  obtain ⟨items, _ | p⟩ := x <;> simp [append]

theorem feed_feed (x : Intake β α) (l m : List β) : F.feed (F.feed x l) m = F.feed x (l ++ m) := by
  have hl : Reaches F.drainStep (append x l) (F.feed x l) := iterate_reaches _ _ _
  have hm : Reaches F.drainStep (append (F.feed x l) m) (F.feed (F.feed x l) m) :=
    iterate_reaches _ _ _
  have hboth := F.reaches_append hl m
  rw [append_append] at hboth
  exact (F.drain_eq (hboth.trans hm) (F.drain_exit _)).symm

theorem drain_parse (items : List α) (l : List β) :
    F.drain ⟨items, some l⟩ = ⟨items ++ (F.parse l).1, (F.parse l).2⟩ := by
  induction h : l.length using Nat.strongRecOn generalizing items l with
  | _ n ih =>
    cases hn : F.next l with
    | more =>
      rw [F.parse_more hn, List.append_nil]
      exact F.drain_eq .refl (by simp [drainStep, hn])
    | reject =>
      rw [F.parse_reject hn, List.append_nil]
      exact F.drain_eq (.single (by simp [drainStep, hn])) (by simp [drainStep])
    | item a r =>
      have hr := ih r.length (h ▸ F.item_shorter l a r hn) (items ++ [a]) r rfl
      have hstep : F.drainStep ⟨items, some l⟩ = some ⟨items ++ [a], some r⟩ := by
        simp [drainStep, hn]
      rw [F.parse_item hn, List.append_cons]
      refine F.drain_eq ((Reaches.single hstep).trans ?_) ?_
      · rw [← hr]
        exact iterate_reaches _ _ _
      · rw [← hr]
        exact F.drain_exit _

/-- However a stream is cut, the receiver ends with the parse of the whole. -/
theorem feed_chunks (chunks : List (List β)) :
    chunks.foldl F.feed ⟨[], some []⟩ =
      ⟨(F.parse chunks.flatten).1, (F.parse chunks.flatten).2⟩ := by
  have hall : ∀ x, F.drainStep x = none → chunks.foldl F.feed x = F.feed x chunks.flatten := by
    induction chunks with
    | nil =>
      intro x hx
      have hsame : append x [] = x := by
        obtain ⟨items, _ | p⟩ := x <;> simp [append]
      rw [List.foldl_nil, List.flatten_nil, feed, hsame]
      exact (F.drain_eq .refl hx).symm
    | cons m chunks ih =>
      intro x _
      have hrest := ih (F.feed x m) (F.drain_exit _)
      rw [List.foldl_cons, hrest, feed_feed, List.flatten_cons]
  rw [hall _ (by simp [drainStep, F.next_nil])]
  exact F.drain_parse [] _

/-- What is kept is too little for another decision. -/
theorem parse_residual (h : (F.parse l).2 = some r) : F.next r = .more := by
  have hexit := F.drain_exit ⟨[], some l⟩
  rw [drain_parse, h] at hexit
  simp only [drainStep] at hexit
  split at hexit
  · assumption
  · cases hexit
  · cases hexit

theorem parse_mono (l m : List β) : (F.parse l).1 <+: (F.parse (l ++ m)).1 := by
  induction h : l.length using Nat.strongRecOn generalizing l with
  | _ n ih =>
    cases hnext : F.next l with
    | more =>
      rw [F.parse_more hnext]
      exact List.nil_prefix
    | reject =>
      rw [F.parse_reject hnext]
      exact List.nil_prefix
    | item a r =>
      rw [F.parse_item hnext, F.parse_item (F.item_append l a r m hnext)]
      have hshort := F.item_shorter l a r hnext
      exact (List.prefix_cons_inj a).mpr (ih r.length (by omega) r rfl)

end Framing
end Velo
