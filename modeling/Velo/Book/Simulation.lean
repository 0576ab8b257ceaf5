import Velo.Book.OrderBook
import Velo.Book.Reference

/-! The containers of the book hold exactly the orders of one acceptance list, and the nested
matching loops take the trades that the plain book takes from that list. -/
namespace Velo
open Iteration Reference

variable {s : Side} {p key : Int64} {id : UInt64} {n : UInt32} {o : Order}
  {L L' L₀ : List Order} {index : Finmap fun _ : UInt64 => Int64 × Side}

def Order.toResting (o : Order) : Resting UInt64 Int64 :=
  ⟨o.id, o.side, o.priceTicks, o.quantity.toNat⟩

def Order.toIncoming (o : Order) : Incoming UInt64 Int64 :=
  ⟨o.id, o.side, o.type, o.priceTicks, o.quantity.toNat⟩

def Fill.toTrade (f : Fill) : Trade UInt64 Int64 :=
  ⟨f.restingOrderId, f.incomingOrderId, f.restingSide, f.priceTicks, f.quantity.toNat⟩

/-- The part of an order that matching never changes. -/
def Order.emptied (o : Order) : Order := { o with quantity := 0 }

/-- An order after a trade of `n`. -/
def Order.minus (o : Order) (n : UInt32) : Order := { o with quantity := o.quantity - n }

@[simp] theorem Order.minus_id : (o.minus n).id = o.id := rfl

@[simp] theorem Order.minus_side : (o.minus n).side = o.side := rfl

@[simp] theorem Order.minus_type : (o.minus n).type = o.type := rfl

@[simp] theorem Order.minus_priceTicks : (o.minus n).priceTicks = o.priceTicks := rfl

@[simp] theorem Order.minus_quantity : (o.minus n).quantity = o.quantity - n := rfl

@[simp] theorem Order.emptied_minus : (o.minus n).emptied = o.emptied := rfl

theorem fields_of_emptied {a b : Order} (h : a.emptied = b.emptied) :
    a.id = b.id ∧ a.side = b.side ∧ a.type = b.type ∧ a.priceTicks = b.priceTicks ∧
      a.timestamp = b.timestamp := by
  simp only [Order.emptied, Order.mk.injEq] at h
  exact ⟨h.1, h.2.1, h.2.2.1, h.2.2.2.1, h.2.2.2.2.2⟩

section Acceptance

/-- The orders of an acceptance list that belong to one price level. -/
def atLevel (L : List Order) (s : Side) (p : Int64) : List Order :=
  L.filter fun o => o.side = s ∧ o.priceTicks = p

/-- A level is stored when it has orders. -/
def levelOf (p : Int64) : List Order → Option PriceLevel
  | [] => none
  | o :: os => some ⟨p, o :: os⟩

/-- `deduct` on orders with their machine quantities. -/
def reduce (id : UInt64) (n : UInt32) (L : List Order) : List Order :=
  L.filterMap fun o =>
    if o.id = id then
      if o.quantity - n = 0 then none else some (o.minus n)
    else some o

@[simp] theorem mem_atLevel : o ∈ atLevel L s p ↔ o ∈ L ∧ o.side = s ∧ o.priceTicks = p := by
  simp [atLevel]

theorem levelOf_of_ne_nil {os : List Order} (h : os ≠ []) : levelOf p os = some ⟨p, os⟩ := by
  cases os with
  | nil => exact absurd rfl h
  | cons o os => rfl

theorem levelOf_eq_some {os : List Order} {level : PriceLevel} :
    levelOf p os = some level ↔ os ≠ [] ∧ level = ⟨p, os⟩ := by
  cases os <;> simp [levelOf, eq_comm]

theorem levelOf_eq_none {os : List Order} : levelOf p os = none ↔ os = [] := by
  cases os <;> simp [levelOf]

theorem mem_reduce : o ∈ reduce id n L ↔ (o ∈ L ∧ o.id ≠ id) ∨
    ∃ o' ∈ L, o'.id = id ∧ o'.quantity - n ≠ 0 ∧ o = o'.minus n := by
  simp only [reduce, List.mem_filterMap]
  constructor
  · rintro ⟨a, ha, h⟩
    split at h
    · rename_i hid
      split at h
      · cases h
      · rename_i hq
        cases h
        exact Or.inr ⟨a, ha, hid, hq, rfl⟩
    · rename_i hid
      cases h
      exact Or.inl ⟨ha, hid⟩
  · rintro (⟨ho, hid⟩ | ⟨a, ha, hid, hq, rfl⟩)
    · exact ⟨o, ho, by simp [hid]⟩
    · exact ⟨a, ha, by simp [hid, hq]⟩

theorem fresh_of_not_mem (h : id ∉ L.map Order.id) : ∀ o ∈ L, o.id ≠ id := by
  rintro o ho rfl
  exact h (List.mem_map_of_mem ho)

theorem reduce_of_fresh (h : ∀ o ∈ L, o.id ≠ id) : reduce id n L = L := by
  induction L with
  | nil => rfl
  | cons o L ih =>
    have ho := h o List.mem_cons_self
    have ih := ih fun x hx => h x (List.mem_cons_of_mem _ hx)
    simp only [reduce] at ih
    simp [reduce, ho, ih]

theorem filter_reduce {P : Order → Bool} (hP : ∀ o : Order, P o = P o.emptied) :
    (reduce id n L).filter P = reduce id n (L.filter P) := by
  induction L with
  | nil => rfl
  | cons o L ih =>
    have hm : P (o.minus n) = P o := by rw [hP, hP o, Order.emptied_minus]
    simp only [reduce] at ih ⊢
    by_cases hid : o.id = id <;> by_cases hz : o.quantity - n = 0 <;> by_cases ho : P o <;>
      simp [hid, hz, ho, hm, ih]

theorem atLevel_reduce : atLevel (reduce id n L) s p = reduce id n (atLevel L s p) :=
  filter_reduce fun _ => rfl

theorem emptied_reduce_sublist : ((reduce id n L).map Order.emptied).Sublist
    (L.map Order.emptied) := by
  induction L with
  | nil => exact List.Sublist.refl _
  | cons o L ih =>
    simp only [reduce] at ih ⊢
    by_cases hid : o.id = id
    · by_cases hz : o.quantity - n = 0
      · simpa [hid, hz] using ih.cons _
      · simpa [hid, hz] using ih
    · simpa [hid] using ih

theorem toResting_reduce (h : ∀ o ∈ L, o.id = id → n ≤ o.quantity) :
    (reduce id n L).map Order.toResting = deduct id n.toNat (L.map Order.toResting) := by
  induction L with
  | nil => rfl
  | cons o L ih =>
    have ih := ih fun x hx => h x (List.mem_cons_of_mem _ hx)
    simp only [reduce, deduct] at ih
    by_cases hid : o.id = id
    · have hle := h o List.mem_cons_self hid
      have hsub := UInt32.toNat_sub_of_le _ _ hle
      have hz : o.quantity - n = 0 ↔ o.quantity.toNat ≤ n.toNat := by
        rw [← UInt32.toNat_inj, hsub, UInt32.toNat_zero]
        omega
      by_cases hq : o.quantity.toNat ≤ n.toNat
      · simp [reduce, deduct, hid, hz.mpr hq, hq, Order.toResting, ih]
      · simp [reduce, deduct, hid, hz.not.mpr hq, hq, Order.toResting, ih, hsub]
    · simp [reduce, deduct, hid, Order.toResting, ih]

end Acceptance

/-- The index and the orders it is about. -/
structure Tracks (index : Finmap fun _ : UInt64 => Int64 × Side) (L : List Order) : Prop where
  index : ∀ id p s, index.lookup id = some (p, s) ↔
    ∃ o ∈ L, o.id = id ∧ o.priceTicks = p ∧ o.side = s
  nodup : (L.map Order.id).Nodup
  live : ∀ o ∈ L, o.type = .limit ∧ 0 < o.quantity

theorem ids_of_emptied (h : (L'.map Order.emptied).Sublist (L.map Order.emptied)) :
    (L'.map Order.id).Sublist (L.map Order.id) := by
  have := h.map Order.id
  rwa [List.map_map, List.map_map] at this

theorem Tracks.eq_of_id (h : Tracks index L) {a b : Order} (ha : a ∈ L) (hb : b ∈ L)
    (hab : a.id = b.id) : a = b :=
  List.inj_on_of_nodup_map h.nodup ha hb hab

theorem Tracks.mem_iff (h : Tracks index L) : id ∈ index ↔ id ∈ L.map Order.id := by
  rw [← Finmap.lookup_isSome, Option.isSome_iff_exists, List.mem_map]
  constructor
  · rintro ⟨⟨p, s⟩, he⟩
    obtain ⟨o, ho, hid, -⟩ := (h.index id p s).mp he
    exact ⟨o, ho, hid⟩
  · rintro ⟨o, ho, hid⟩
    exact ⟨_, (h.index id _ _).mpr ⟨o, ho, hid, rfl, rfl⟩⟩

/-- Trading against a stored order keeps the index in step, with its entry gone at zero. -/
theorem Tracks.reduce (h : Tracks index L) (ho : o ∈ L) :
    Tracks (if o.quantity - n = 0 then index.erase o.id else index) (reduce o.id n L) where
  nodup := h.nodup.sublist (ids_of_emptied emptied_reduce_sublist)
  live := by
    intro a ha
    rcases mem_reduce.mp ha with ⟨ha, -⟩ | ⟨b, hb, -, hq, rfl⟩
    · exact h.live a ha
    · exact ⟨(h.live b hb).1, UInt32.lt_iff_toNat_lt.mpr (toNat_pos_of_ne_zero hq)⟩
  index := by
    intro id p s
    by_cases hid : id = o.id
    · subst hid
      have hone : ∀ a ∈ L, a.id = o.id → a = o := fun a ha => h.eq_of_id ha ho
      by_cases hz : o.quantity - n = 0
      · simp only [hz, if_true, Finmap.lookup_erase, reduceCtorEq, false_iff, not_exists, not_and]
        intro a ha hid
        rcases mem_reduce.mp ha with ⟨-, hne⟩ | ⟨b, hb, hbid, hq, -⟩
        · exact absurd hid hne
        · exact absurd (hone b hb hbid ▸ hz) hq
      · rw [if_neg hz, h.index]
        constructor
        · rintro ⟨a, ha, hid, rfl, rfl⟩
          cases hone a ha hid
          exact ⟨_, mem_reduce.mpr (Or.inr ⟨o, ho, rfl, hz, rfl⟩), rfl, rfl, rfl⟩
        · rintro ⟨a, ha, hid, hp, hs⟩
          rcases mem_reduce.mp ha with ⟨-, hne⟩ | ⟨b, hb, hbid, -, rfl⟩
          · exact absurd hid hne
          · exact ⟨b, hb, hbid, hp, hs⟩
    · have hl : Finmap.lookup id (if o.quantity - n = 0 then index.erase o.id else index) =
          index.lookup id := by
        split
        · exact Finmap.lookup_erase_ne hid
        · rfl
      rw [hl, h.index]
      constructor
      · rintro ⟨a, ha, rfl, hps⟩
        exact ⟨a, mem_reduce.mpr (Or.inl ⟨ha, hid⟩), rfl, hps⟩
      · rintro ⟨a, ha, rfl, hps⟩
        rcases mem_reduce.mp ha with ⟨ha, -⟩ | ⟨b, -, hbid, -, rfl⟩
        · exact ⟨a, ha, rfl, hps⟩
        · exact absurd hbid hid

end Velo
