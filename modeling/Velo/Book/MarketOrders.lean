import Velo.Book.Remainder
import Velo.Book.Traceless

/-! An order takes from the book unit by unit, so that a market order does what its parts do. -/
namespace Velo.Reference
open Iteration

variable {ι π : Type*}

/-- One unit after the other: the order that it is traded with, and the price. -/
def units (ts : List (Trade ι π)) : List (ι × Side × π) :=
  ts.flatMap fun t => List.replicate t.quantity (t.restingId, t.restingSide, t.price)

variable {book : List (Resting ι π)} {o a b w : Incoming ι π} {r : Resting ι π} {id : ι} {k m n : ℕ}
  {st st' : State ι π} {taken : List (ι × Side × π)} {ts : List (Trade ι π)}

theorem units_concat (ts : List (Trade ι π)) (t : Trade ι π) : units (ts ++ [t]) =
    units ts ++ List.replicate t.quantity (t.restingId, t.restingSide, t.price) := by
  rw [units, List.flatMap_append, List.flatMap_singleton, ← units]

variable [DecidableEq ι]

theorem deduct_add (id : ι) (m n : ℕ) (book : List (Resting ι π)) :
    deduct id (m + n) book = deduct id n (deduct id m book) := by
  rw [deduct, deduct, deduct, List.filterMap_filterMap]
  refine List.filterMap_congr fun r _ => ?_
  by_cases hid : r.id = id
  · rw [if_pos hid, if_pos hid]
    by_cases hm : r.quantity ≤ m
    · rw [if_pos hm, if_pos (by omega), Option.bind_none]
    · rw [if_neg hm, Option.bind_some, if_pos hid]
      by_cases hn : r.quantity ≤ m + n
      · rw [if_pos hn, if_pos]
        change r.quantity - m ≤ n
        omega
      · rw [if_neg hn, if_neg, Nat.sub_sub]
        change ¬ r.quantity - m ≤ n
        omega
  · rw [if_neg hid, if_neg hid, Option.bind_some, if_neg hid]

theorem deduct_eq_map (hnd : (book.map Resting.id).Nodup) (hr : r ∈ book) (hk : k < r.quantity) :
    deduct r.id k book =
      book.map fun x => if x.id = r.id then { x with quantity := x.quantity - k } else x := by
  rw [deduct, ← List.filterMap_eq_map]
  refine List.filterMap_congr fun x hx => ?_
  by_cases hid : x.id = r.id
  · have hxr : x = r := List.inj_on_of_nodup_map hnd hx hr hid
    rw [if_pos hid, if_neg (by rw [hxr]; omega)]
    simp only [Function.comp, if_pos hid]
  · rw [if_neg hid]
    simp only [Function.comp, if_neg hid]

theorem count_units [DecidableEq π] (id : ι) (s : Side) (p : π) (ts : List (Trade ι π)) :
    (units ts).count (id, s, p) =
      ((ts.filter fun t => t.restingId = id ∧ t.restingSide = s ∧ t.price = p).map
        Trade.quantity).sum := by
  induction ts with
  | nil => rfl
  | cons t ts ih =>
    rw [units, List.flatMap_cons, List.count_append, ← units, ih, List.count_replicate]
    by_cases ht : t.restingId = id ∧ t.restingSide = s ∧ t.price = p
    · rw [List.filter_cons_of_pos (by simpa using ht), List.map_cons, List.sum_cons, if_pos]
      simpa [and_assoc] using ht
    · rw [List.filter_cons_of_neg (by simpa using ht), if_neg, zero_add]
      simpa [and_assoc] using ht

variable [LinearOrder π]

/-- A unit of the order is traded, if there is something to trade it with. -/
def takeOne (o : Incoming ι π) (s : List (Resting ι π) × List (ι × Side × π)) :
    List (Resting ι π) × List (ι × Side × π) :=
  match pick o s.1 with
  | none => s
  | some r => (deduct r.id 1 s.1, s.2 ++ [(r.id, r.side, r.price)])

omit [DecidableEq ι] in
theorem pick_map {f : Resting ι π → Resting ι π} (hside : ∀ x, (f x).side = x.side)
    (hprice : ∀ x, (f x).price = x.price) (o : Incoming ι π) (book : List (Resting ι π)) :
    pick o (book.map f) = (pick o book).map f := by
  have hcandidates : candidates o (book.map f) = (candidates o book).map f := by
    rw [candidates, List.filter_map]
    simp only [Function.comp_def, hside, hprice]
    rfl
  have hprices : (candidates o (book.map f)).map Resting.price =
      (candidates o book).map Resting.price := by
    rw [hcandidates, List.map_map]
    exact List.map_congr_left fun x _ => hprice x
  rw [pick, hprices, hcandidates, pick]
  cases bestPrice o.side.opposite ((candidates o book).map Resting.price) with
  | none => rfl
  | some p =>
    rw [Option.bind_some, Option.bind_some, List.find?_map]
    simp only [Function.comp_def, hprice]

theorem pick_deduct (hnd : (book.map Resting.id).Nodup) (hpick : pick o book = some r)
    (hk : k < r.quantity) :
    pick o (deduct r.id k book) = some { r with quantity := r.quantity - k } := by
  rw [deduct_eq_map hnd (mem_of_pick hpick).1 hk, pick_map, hpick, Option.map_some, if_pos rfl]
  · intro x
    split <;> rfl
  · intro x
    split <;> rfl

theorem takeOne_of_pick (hpick : pick o book = some r) :
    takeOne o (book, taken) = (deduct r.id 1 book, taken ++ [(r.id, r.side, r.price)]) := by
  rw [takeOne, hpick]

theorem takeOne_of_none (hpick : pick o book = none) :
    takeOne o (book, taken) = (book, taken) := by
  rw [takeOne, hpick]

theorem iterate_takeOne (taken : List (ι × Side × π)) (hnd : (book.map Resting.id).Nodup)
    (hpick : pick o book = some r) (hpos : 1 ≤ k) (hk : k ≤ r.quantity) :
    (takeOne o)^[k] (book, taken) =
      (deduct r.id k book, taken ++ List.replicate k (r.id, r.side, r.price)) := by
  induction k, hpos using Nat.le_induction with
  | base => exact takeOne_of_pick hpick
  | succ k _ ih =>
    rw [Function.iterate_succ_apply', ih (by omega),
      takeOne_of_pick (pick_deduct hnd hpick (by omega)), deduct_add, List.replicate_succ',
      List.append_assoc]

/-- What an order has done so far is what its units have. -/
structure Taken (o : Incoming ι π) (book : List (Resting ι π)) (st : State ι π) : Prop where
  nodup : (st.book.map Resting.id).Nodup
  live : ∀ r ∈ st.book, 0 < r.quantity
  incoming : ∃ q ≤ o.quantity, st.incoming = { o with quantity := q }
  units : (takeOne o)^[o.quantity - st.incoming.quantity] (book, []) = (st.book, units st.trades)

theorem Taken.step (h : Taken o book st) (hst : tradeStep st = some st') : Taken o book st' := by
  obtain ⟨hnd, hlive, ⟨q, hle, hincoming⟩, htaken⟩ := h
  obtain ⟨hpos, r, hpick, rfl⟩ := tradeStep_cases hst
  rw [hincoming] at hpos hpick htaken ⊢
  have hpick : pick o st.book = some r := hpick
  have hr := hlive r (mem_of_pick hpick).1
  simp only at hpos htaken ⊢
  generalize hn : min q r.quantity = n
  have hunits := iterate_takeOne (k := n) (Reference.units st.trades) hnd hpick (by omega)
    (by omega)
  refine ⟨hnd.sublist (ids_deduct_sublist _ _ _), ?_, ⟨q - n, by omega, rfl⟩, ?_⟩
  · intro x hx
    obtain ⟨y, hy, hx⟩ := List.mem_filterMap.mp hx
    split at hx
    · split at hx
      · cases hx
      · cases hx
        change 0 < y.quantity - n
        omega
    · cases hx
      exact hlive x hy
  · have hsum : o.quantity - (q - n) = n + (o.quantity - q) := by omega
    change (takeOne o)^[o.quantity - (q - n)] (book, []) = _
    rw [hsum, Function.iterate_add_apply, htaken, hunits, units_concat]

theorem matchAll_taken (o : Incoming ι π) (hnd : (book.map Resting.id).Nodup)
    (hlive : ∀ r ∈ book, 0 < r.quantity) : Taken o book (matchAll o book) := by
  refine iterate_invariant (P := Taken o book) (fun _ _ h hst => h.step hst) ?_
  refine ⟨hnd, hlive, ⟨o.quantity, le_rfl, rfl⟩, ?_⟩
  rw [Nat.sub_self]
  rfl

/-- An order leaves the book that its units leave. -/
theorem matchAll_units (o : Incoming ι π) (hnd : (book.map Resting.id).Nodup)
    (hlive : ∀ r ∈ book, 0 < r.quantity) :
    (takeOne o)^[o.quantity] (book, []) =
      ((matchAll o book).book, units (matchAll o book).trades) := by
  obtain ⟨-, -, ⟨q, hle, hincoming⟩, htaken⟩ := matchAll_taken o hnd hlive
  have hexit := tradeStep_eq_none.mp (matchAll_exit o book)
  rw [hincoming] at htaken hexit
  rcases hexit with hq | hnone
  · change q = 0 at hq
    rw [hq] at htaken
    exact htaken
  · -- the units that are left find nothing
    have hsum : o.quantity = q + (o.quantity - q) := by omega
    have hpick : pick o (matchAll o book).book = none := pick_eq_none.mpr hnone
    rw [hsum, Function.iterate_add_apply, htaken]
    exact Function.iterate_fixed (takeOne_of_none hpick) q

theorem iterate_takeOne_append (n : ℕ) (book : List (Resting ι π)) (taken : List (ι × Side × π)) :
    (takeOne o)^[n] (book, taken) =
      (((takeOne o)^[n] (book, [])).1, taken ++ ((takeOne o)^[n] (book, [])).2) := by
  induction n generalizing book taken with
  | zero => rw [Function.iterate_zero, id, id, List.append_nil]
  | succ n ih =>
    rw [Function.iterate_succ_apply, Function.iterate_succ_apply]
    cases hpick : pick o book with
    | none => rw [takeOne_of_none hpick, takeOne_of_none hpick, ih]
    | some r =>
      rw [takeOne_of_pick hpick, takeOne_of_pick hpick, ih, ih _ ([] ++ _), List.nil_append,
        List.append_assoc]

/-- To a market order only its side matters. -/
theorem takeOne_market (ha : a.type = .market) (hb : b.type = .market) (hside : a.side = b.side) :
    takeOne a = takeOne b := by
  have hcandidates : ∀ book : List (Resting ι π), candidates a book = candidates b book := by
    intro book
    refine List.filter_congr fun r _ => ?_
    simp only [Incoming.Crosses, ha, hb, true_or, hside]
  funext s
  rw [takeOne, takeOne, pick, pick, hcandidates, hside]

/-- A market order against one for a part of the quantity and one for the rest. -/
theorem matchAll_split (hw : w.type = .market) (ha : a.type = .market) (hb : b.type = .market)
    (haside : a.side = w.side) (hbside : b.side = w.side)
    (hq : w.quantity = a.quantity + b.quantity) (hnd : (book.map Resting.id).Nodup)
    (hlive : ∀ r ∈ book, 0 < r.quantity) :
    (matchAll b (matchAll a book).book).book = (matchAll w book).book ∧
      units (matchAll a book).trades ++ units (matchAll b (matchAll a book).book).trades =
        units (matchAll w book).trades := by
  have hfirst := matchAll_taken a hnd hlive
  have hwhole := matchAll_units w hnd hlive
  have hpart := matchAll_units a hnd hlive
  have hrest := matchAll_units b hfirst.nodup hfirst.live
  rw [takeOne_market ha hw haside] at hpart
  rw [takeOne_market hb hw hbside] at hrest
  rw [hq, add_comm, Function.iterate_add_apply, hpart, iterate_takeOne_append, hrest,
    Prod.mk.injEq] at hwhole
  exact hwhole

end Velo.Reference

namespace Velo
open Reference

/-- The quantity of the fills with one resting order at one price. -/
def filledAt (id : UInt64) (s : Side) (p : Int64) (fs : List Fill) : ℕ :=
  ((fs.filter fun f => f.restingOrderId = id ∧ f.restingSide = s ∧ f.priceTicks = p).map
    fun f => f.quantity.toNat).sum

variable {b b' : OrderBook} {L M M' : List Order} {o : Order} {s : Side}

theorem filledAt_eq (id : UInt64) (s : Side) (p : Int64) (fs : List Fill) :
    filledAt id s p fs = (units (fs.map Fill.toTrade)).count (id, s, p) := by
  rw [count_units, List.filter_map, List.map_map]
  rfl

theorem Represents.levels_eq (h : Represents b L) (h' : Represents b' L) (s : Side) :
    b.levels s = b'.levels s := by
  have hentries : (b.levels s).entries = (b'.levels s).entries := by
    refine SortedMap.entries_ext (b.levels s).sorted (b'.levels s).sorted fun e => ?_
    rw [h.mem_levels, h'.mem_levels]
  exact SortedMap.ext hentries

theorem Represents.eq_of_clock (h : Represents b L) (h' : Represents b' L) :
    b = { b' with nextTimestamp := b.nextTimestamp } := by
  have hbids : b.bids = b'.bids := h.levels_eq h' .buy
  have hasks : b.asks = b'.asks := h.levels_eq h' .sell
  have hindex := h.tracks.lookup_congr h'.tracks rfl
  rw [← hbids, ← hasks, ← hindex]

/-- What is left of the same orders is the same, if the plain book says so. -/
theorem Shrinks.eq_of_toResting {s s' : Side} (h : Shrinks s L M) (h' : Shrinks s' L M')
    (hnd : (L.map Order.id).Nodup) (hM : M.map Order.toResting = M'.map Order.toResting) :
    M = M' := by
  have hlength : M.length = M'.length := by
    simpa using congrArg List.length hM
  refine List.ext_getElem hlength fun i hi hi' => ?_
  have hresting : M[i].toResting = M'[i].toResting := by
    have hget := congrArg (fun l => l[i]?) hM
    simpa [hi, hi'] using hget
  obtain ⟨a, ha, hea⟩ := exists_of_emptied h.emptied (List.getElem_mem hi)
  obtain ⟨a', ha', hea'⟩ := exists_of_emptied h'.emptied (List.getElem_mem hi')
  have hid : a.id = a'.id := by
    rw [(fields_of_emptied hea).1, (fields_of_emptied hea').1]
    exact congrArg Resting.id hresting
  have hsame := List.inj_on_of_nodup_map hnd ha ha' hid
  have hquantity : M[i].quantity = M'[i].quantity :=
    UInt32.toNat_inj.mp (congrArg Resting.quantity hresting)
  rw [hsame, hea'] at hea
  obtain ⟨hid, hside, htype, hprice, htimestamp⟩ := fields_of_emptied hea
  rw [Order.mk.injEq]
  exact ⟨hid.symm, hside.symm, htype.symm, hprice.symm, hquantity, htimestamp.symm⟩

/-- A market order only takes from the other side. -/
theorem Represents.submit_market (h : Represents b L) (htype : o.type = .market)
    (hid : ¬ b.Rests o.id) :
    ∃ M, Represents (b.submit o).2 M ∧ Shrinks o.side.opposite L M ∧
      (b.submit o).1.map Fill.toTrade = (matchAll o.toIncoming (L.map Order.toResting)).trades ∧
      M.map Order.toResting = (matchAll o.toIncoming (L.map Order.toResting)).book := by
  obtain ⟨M, hM, hsubmit, hev⟩ := h.submit o
  rw [h.rests_iff] at hid
  have hfresh : o.toIncoming.id ∉ (L.map Order.toResting).map Resting.id := by
    rw [map_id_toResting]
    exact fun hmem => hid (h.contains_iff.mpr hmem)
  have hmarket : ¬ o.toIncoming.type = .limit := by
    change ¬ o.type = .limit
    rw [htype]
    exact nofun
  rw [submit_of_fresh hfresh, if_neg fun hrest => hmarket hrest.2, List.append_nil,
    Prod.mk.injEq] at hsubmit
  rw [if_neg hid] at hev
  obtain ⟨N, hshrinks, hN | ⟨r, hr, hN⟩⟩ := hev
  · exact ⟨M, hM, hN ▸ hshrinks, hsubmit.1.symm, hsubmit.2.symm⟩
  · -- nothing of a market order rests
    have hlimit := (hM.tracks.live r (hN ▸ List.mem_append_right _ List.mem_cons_self)).1
    rw [(fields_of_emptied hr).2.2.1] at hlimit
    rw [htype] at hlimit
    cases hlimit

/-- In any book a market order and two for its parts leave the same orders in the same levels and
the same index, and fill every order for the same quantity at each price. -/
theorem market_order_split (before : List Request) (side : Side) (i i₁ i₂ : UInt64)
    (p p₁ p₂ : Int64) (q₁ q₂ : UInt32) (t t₁ t₂ : UInt64) (hq : q₁.toNat + q₂.toNat < 2 ^ 32)
    (hi : ¬ (OrderBook.empty.run before).2.Rests i)
    (hi₁ : ¬ (OrderBook.empty.run before).2.Rests i₁)
    (hi₂ : ¬ (OrderBook.empty.run before).2.Rests i₂) :
    let b := (OrderBook.empty.run before).2
    let whole := b.submit ⟨i, side, .market, p, q₁ + q₂, t⟩
    let first := b.submit ⟨i₁, side, .market, p₁, q₁, t₁⟩
    let second := first.2.submit ⟨i₂, side, .market, p₂, q₂, t₂⟩
    second.2 = { whole.2 with nextTimestamp := second.2.nextTimestamp } ∧
      ∀ id s price, filledAt id s price (first.1 ++ second.1) = filledAt id s price whole.1 := by
  intro b whole first second
  obtain ⟨L, hL, -⟩ := represents_empty.run before
  obtain ⟨W, hW, hLW, hwTrades, hwBook⟩ :=
    hL.submit_market (o := ⟨i, side, .market, p, q₁ + q₂, t⟩) rfl hi
  obtain ⟨A, hA, hLA, haTrades, haBook⟩ :=
    hL.submit_market (o := ⟨i₁, side, .market, p₁, q₁, t₁⟩) rfl hi₁
  have hrests : ¬ first.2.Rests i₂ := by
    rw [hA.rests_iff, hA.contains_iff]
    intro hmem
    apply hi₂
    rw [hL.rests_iff, hL.contains_iff]
    exact hLA.id_subset hmem
  obtain ⟨B, hB, hAB, hbTrades, hbBook⟩ :=
    hA.submit_market (o := ⟨i₂, side, .market, p₂, q₂, t₂⟩) rfl hrests
  have hsum : (q₁ + q₂).toNat = q₁.toNat + q₂.toNat := by
    rw [UInt32.toNat_add, Nat.mod_eq_of_lt hq]
  obtain ⟨hbook, hunits⟩ := matchAll_split
    (w := (⟨i, side, .market, p, q₁ + q₂, t⟩ : Order).toIncoming)
    (a := (⟨i₁, side, .market, p₁, q₁, t₁⟩ : Order).toIncoming)
    (b := (⟨i₂, side, .market, p₂, q₂, t₂⟩ : Order).toIncoming)
    rfl rfl rfl rfl rfl hsum hL.ids_nodup hL.all_live
  rw [← haBook] at hbook hunits
  constructor
  · have hsame : B = W := by
      refine (hLA.trans hAB).eq_of_toResting hLW hL.tracks.nodup ?_
      rw [hbBook, hbook, hwBook]
    exact hB.eq_of_clock (hsame ▸ hW)
  · intro id s price
    rw [filledAt_eq, filledAt_eq, List.map_append, units, List.flatMap_append, ← units, ← units,
      haTrades, hbTrades, hwTrades, ← hunits]

/-- The cut falls into the second of two orders at one price. -/
theorem market_order_split_in_an_order :
    let before : List Request := [.submit ⟨1, .sell, .limit, 100, 5, 0⟩,
      .submit ⟨2, .sell, .limit, 100, 5, 0⟩, .submit ⟨3, .sell, .limit, 101, 5, 0⟩]
    let b := (OrderBook.empty.run before).2
    let whole := b.submit ⟨4, .buy, .market, 0, 7 + 6, 0⟩
    let first := b.submit ⟨5, .buy, .market, 0, 7, 0⟩
    let second := first.2.submit ⟨6, .buy, .market, 0, 6, 0⟩
    second.2 = { whole.2 with nextTimestamp := second.2.nextTimestamp } :=
  (market_order_split [.submit ⟨1, .sell, .limit, 100, 5, 0⟩,
    .submit ⟨2, .sell, .limit, 100, 5, 0⟩, .submit ⟨3, .sell, .limit, 101, 5, 0⟩] .buy 4 5 6 0 0 0
    7 6 0 0 0 (by decide) (by decide +kernel) (by decide +kernel) (by decide +kernel)).1

end Velo
