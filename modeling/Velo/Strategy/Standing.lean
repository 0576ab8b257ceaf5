import Velo.Book.OneSided
import Velo.Book.Relabel
import Velo.Strategy.Repricing

/-! The quoter alone, without words and without a book: which of its two quotes stand at a price,
and what the next price makes them trade. -/
namespace Velo.Strategy
open Reference

/-- The quotes last made, at `price` and numbered from `2 * round - 1`: those still standing. -/
structure Standing where
  price : Option ℤ
  round : ℤ
  bid : Bool
  ask : Bool
  deriving DecidableEq

namespace Standing

def start : Standing := ⟨none, 0, false, false⟩

/-- A price two offsets away trades with the quote that it has passed, and the new quote on the
other side is used up by that. -/
def requote (q : Standing) (offset size priceTicks : ℤ) : List (Trade ℤ ℤ) × Standing :=
  match q.price with
  | none => ([], ⟨some priceTicks, 1, true, true⟩)
  | some p =>
    if priceTicks = p then ([], q)
    else if q.ask ∧ 2 * offset ≤ priceTicks - p then
      ([⟨2 * q.round, 2 * q.round + 1, .sell, p + offset, size.toNat⟩],
        ⟨some priceTicks, q.round + 1, false, true⟩)
    else if q.bid ∧ 2 * offset ≤ p - priceTicks then
      ([⟨2 * q.round - 1, 2 * q.round + 2, .buy, p - offset, size.toNat⟩],
        ⟨some priceTicks, q.round + 1, true, false⟩)
    else ([], ⟨some priceTicks, q.round + 1, true, true⟩)

/-- What stands, as orders. -/
def orders (q : Standing) (offset size : ℤ) : List (Resting ℤ ℤ) :=
  match q.price with
  | none => []
  | some p =>
    (if q.bid then [⟨2 * q.round - 1, .buy, p - offset, size.toNat⟩] else []) ++
      if q.ask then [⟨2 * q.round, .sell, p + offset, size.toNat⟩] else []

/-- The trades along some prices, and what stands after them. -/
def tape (q : Standing) (offset size : ℤ) : List ℤ → List (Trade ℤ ℤ) × Standing
  | [] => ([], q)
  | p :: prices =>
    ((q.requote offset size p).1 ++ ((q.requote offset size p).2.tape offset size prices).1,
      ((q.requote offset size p).2.tape offset size prices).2)

end Standing

/-- What an action asks of the book, in the strategy's own numbers. -/
def StrategyAction.toCall : StrategyAction → Call ℤ ℤ
  | .order action => .submit ⟨action.orderId, action.side, action.orderType, action.priceTicks,
      action.quantity.toNat⟩
  | .cancel action => .cancel action.orderId

/-- The quoter has heard of the prices alone. -/
structure Standing.Follows (q : Standing) (quoter : FixedOffsetQuoter) : Prop where
  start : q.price = none → q = .start
  nextId : quoter.nextId = 2 * q.round + 1
  restingBuy : quoter.restingBuy = q.price.map fun p => (2 * q.round - 1, p - quoter.offset)
  restingSell : quoter.restingSell = q.price.map fun p => (2 * q.round, p + quoter.offset)

namespace Standing

variable {q : Standing} {quoter : FixedOffsetQuoter} {offset size priceTicks : ℤ}

theorem follows_start (offset size : ℤ) : start.Follows (.init offset size) :=
  ⟨fun _ => rfl, rfl, rfl, rfl⟩

theorem requote_of_ne (offset size : ℤ) {p : ℤ} (hp : q.price = some p) (hne : priceTicks ≠ p) :
    (q.requote offset size priceTicks).2.price = some priceTicks ∧
      (q.requote offset size priceTicks).2.round = q.round + 1 := by
  rw [Standing.requote, hp]
  dsimp only
  rw [if_neg hne]
  split
  · exact ⟨rfl, rfl⟩
  · split <;> exact ⟨rfl, rfl⟩

theorem requote_of_eq (hp : q.price = some priceTicks) :
    q.requote offset size priceTicks = ([], q) := by
  rw [Standing.requote, hp]
  exact if_pos rfl

theorem requote_of_none (hp : q.price = none) :
    q.requote offset size priceTicks = ([], ⟨some priceTicks, 1, true, true⟩) := by
  rw [Standing.requote, hp]

theorem onPrice_params (quoter : FixedOffsetQuoter) (priceTicks : ℤ) :
    (quoter.onPrice priceTicks).2.offset = quoter.offset ∧
      (quoter.onPrice priceTicks).2.size = quoter.size :=
  quoter.hear_params (.price priceTicks)

theorem Follows.requote (h : q.Follows quoter) (size priceTicks : ℤ) :
    (q.requote quoter.offset size priceTicks).2.Follows (quoter.onPrice priceTicks).2 := by
  obtain ⟨hstart, hnext, hbuy, hsell⟩ := h
  cases hp : q.price with
  | none =>
    rw [hp, Option.map_none] at hbuy hsell
    rw [hstart hp] at hnext
    rw [requote_of_none hp]
    constructor <;>
      simp [FixedOffsetQuoter.onPrice, FixedOffsetQuoter.quoteSide, FixedOffsetQuoter.resting,
        Standing.start, hbuy, hsell, hnext]
  | some p =>
    rw [hp, Option.map_some] at hbuy hsell
    by_cases hne : priceTicks = p
    · subst hne
      rw [requote_of_eq hp]
      constructor <;>
        simp [FixedOffsetQuoter.onPrice, FixedOffsetQuoter.quoteSide, FixedOffsetQuoter.resting,
          hbuy, hsell, hnext, hp]
    · obtain ⟨hprice, hround⟩ := requote_of_ne quoter.offset size hp hne
      have hbid : p - quoter.offset ≠ priceTicks - quoter.offset := by omega
      have hask : p + quoter.offset ≠ priceTicks + quoter.offset := by omega
      constructor
      · rw [hprice]
        intro hnone
        cases hnone
      · rw [hround]
        simp [FixedOffsetQuoter.onPrice, FixedOffsetQuoter.quoteSide, FixedOffsetQuoter.resting,
          hbuy, hsell, hnext, hbid, hask]
        omega
      · rw [hprice, hround, (onPrice_params quoter priceTicks).1,
          (FixedOffsetQuoter.resting_of_ne hbuy hsell hne).1, hnext, Option.map_some]
        congr 2
        omega
      · rw [hprice, hround, (onPrice_params quoter priceTicks).1,
          (FixedOffsetQuoter.resting_of_ne hbuy hsell hne).2, hnext, Option.map_some]
        congr 2
        omega

/-- The first quotes meet an empty book. -/
theorem run_first {p offset : ℤ} {n : ℕ} (hoffset : 1 ≤ offset) (hn : 0 < n) :
    Reference.run [] [.submit (⟨1, .buy, .limit, p - offset, n⟩ : Incoming ℤ ℤ),
        .submit ⟨2, .sell, .limit, p + offset, n⟩] =
      ([.trades [], .trades []],
        [⟨1, .buy, p - offset, n⟩, ⟨2, .sell, p + offset, n⟩]) := by
  have hbuy : submit [] (⟨1, .buy, .limit, p - offset, n⟩ : Incoming ℤ ℤ) =
      ([], [⟨1, .buy, p - offset, n⟩]) :=
    submit_of_no_candidates (by simp) rfl hn rfl
  have hsell : submit [⟨1, .buy, p - offset, n⟩]
      (⟨2, .sell, .limit, p + offset, n⟩ : Incoming ℤ ℤ) =
        ([], [⟨1, .buy, p - offset, n⟩, ⟨2, .sell, p + offset, n⟩]) := by
    have hclear : ¬ p + offset ≤ p - offset := by omega
    refine submit_of_no_candidates (by simp) rfl hn ?_
    simp [candidates, Incoming.Crosses, hclear]
  simp only [Reference.run, Reference.apply, hbuy, hsell]

/-- The quotes of a round at `p`, and those of the next one at another price. -/
def change (round p priceTicks : ℤ) {offset size : ℤ} (hoffset : 1 ≤ offset) (hsize : 1 ≤ size) :
    Requote ℤ ℤ where
  bidId := 2 * round - 1
  askId := 2 * round
  newBidId := 2 * round + 1
  newAskId := 2 * round + 2
  bid := p - offset
  ask := p + offset
  newBid := priceTicks - offset
  newAsk := priceTicks + offset
  quantity := size.toNat
  quantity_pos := by omega
  ids := by simp; omega
  spread := by omega

/-- A round on the plain book, and the next. -/
theorem run_change {p : ℤ} (hp : q.price = some p) (hne : priceTicks ≠ p) (hoffset : 1 ≤ offset)
    (hsize : 1 ≤ size) :
    let r := Reference.run (q.orders offset size)
      (change q.round p priceTicks hoffset hsize).calls
    r.1.flatMap Answer.tradeList = (q.requote offset size priceTicks).1 ∧
      r.2 = (q.requote offset size priceTicks).2.orders offset size := by
  have hbidId : 2 * q.round + 2 - 1 = 2 * q.round + 1 := by omega
  have haskId : 2 * (q.round + 1) = 2 * q.round + 2 := by omega
  have hbook : q.orders offset size =
      (change q.round p priceTicks hoffset hsize).old q.bid q.ask := by
    rw [orders, hp]
    rfl
  rw [hbook, Standing.requote, hp]
  dsimp only
  rw [if_neg hne]
  by_cases hup : q.ask ∧ 2 * offset ≤ priceTicks - p
  · rw [if_pos hup, hup.1]
    obtain ⟨htrades, hleft⟩ := Requote.run_up_old
      (q := change q.round p priceTicks hoffset hsize) q.bid
        (by simp only [change]; omega) fun _ => by simp only [change]; omega
    rw [htrades, hleft]
    simp [orders, haskId, change, Requote.askOrder, Incoming.toResting]
  · rw [if_neg hup]
    by_cases hdown : q.bid ∧ 2 * offset ≤ p - priceTicks
    · rw [if_pos hdown, hdown.1]
      obtain ⟨htrades, hleft⟩ := Requote.run_down_old
        (q := change q.round p priceTicks hoffset hsize) q.ask
          (by simp only [change]; omega) fun _ => by simp only [change]; omega
      rw [htrades, hleft]
      simp [orders, haskId, hbidId, change, Requote.bidOrder, Incoming.toResting]
    · rw [if_neg hdown]
      have hbidClear : q.ask → (change q.round p priceTicks hoffset hsize).newBid <
          (change q.round p priceTicks hoffset hsize).ask := by
        intro hask
        have hlt := not_le.mp fun hle => hup ⟨hask, hle⟩
        simp only [change]
        omega
      have haskClear : q.bid → (change q.round p priceTicks hoffset hsize).bid <
          (change q.round p priceTicks hoffset hsize).newAsk := by
        intro hbid
        have hlt := not_le.mp fun hle => hdown ⟨hbid, hle⟩
        simp only [change]
        omega
      obtain ⟨htrades, hleft⟩ := Requote.run_clear_old hbidClear haskClear
      rw [htrades, hleft]
      simp [orders, haskId, hbidId, change, Requote.bidOrder, Requote.askOrder, Incoming.toResting]

/-- A price, as the plain book sees what the quoter sends at it. -/
theorem Follows.run_onPrice (h : q.Follows quoter) (hoffset : 1 ≤ quoter.offset)
    (hsize : 1 ≤ quoter.size) (priceTicks : ℤ) :
    let r := Reference.run (q.orders quoter.offset quoter.size)
      ((quoter.onPrice priceTicks).1.map StrategyAction.toCall)
    let next := q.requote quoter.offset quoter.size priceTicks
    r.1.flatMap Answer.tradeList = next.1 ∧ r.2 = next.2.orders quoter.offset quoter.size := by
  obtain ⟨hstart, hnext, hbuy, hsell⟩ := h
  cases hp : q.price with
  | none =>
    rw [hp, Option.map_none] at hbuy hsell
    rw [hstart hp] at hnext
    have hactions : (quoter.onPrice priceTicks).1 =
        [.order ⟨1, .buy, .limit, priceTicks - quoter.offset, quoter.size⟩,
          .order ⟨2, .sell, .limit, priceTicks + quoter.offset, quoter.size⟩] := by
      simp [FixedOffsetQuoter.onPrice, FixedOffsetQuoter.quoteSide, FixedOffsetQuoter.resting,
        Standing.start, hbuy, hsell, hnext]
    have hrun := run_first (p := priceTicks) (n := quoter.size.toNat) hoffset (by omega)
    rw [requote_of_none hp, hactions]
    simp only [List.map_cons, List.map_nil, StrategyAction.toCall, orders, hp, hrun]
    simp [Answer.tradeList]
  | some p =>
    rw [hp, Option.map_some] at hbuy hsell
    by_cases hne : priceTicks = p
    · subst hne
      rw [requote_of_eq hp, FixedOffsetQuoter.onPrice_of_eq hbuy hsell]
      exact ⟨rfl, rfl⟩
    · have hcalls : (quoter.onPrice priceTicks).1.map StrategyAction.toCall =
          (change q.round p priceTicks hoffset hsize).calls := by
        have hnextAsk : 2 * q.round + 1 + 1 = 2 * q.round + 2 := by omega
        rw [FixedOffsetQuoter.onPrice_of_ne hbuy hsell hne, hnext, hnextAsk]
        rfl
      rw [hcalls]
      exact run_change hp hne hoffset hsize

end Standing

/-- The actions along some prices, and the quoter after them, where it hears of nothing else. -/
def FixedOffsetQuoter.along (quoter : FixedOffsetQuoter) :
    List ℤ → List StrategyAction × FixedOffsetQuoter
  | [] => ([], quoter)
  | p :: prices =>
    ((quoter.onPrice p).1 ++ ((quoter.onPrice p).2.along prices).1,
      ((quoter.onPrice p).2.along prices).2)

namespace Standing

variable {q : Standing} {quoter : FixedOffsetQuoter} {offset size : ℤ}

theorem along_snoc (quoter : FixedOffsetQuoter) (prices : List ℤ) (p : ℤ) :
    quoter.along (prices ++ [p]) =
      ((quoter.along prices).1 ++ ((quoter.along prices).2.onPrice p).1,
        ((quoter.along prices).2.onPrice p).2) := by
  induction prices generalizing quoter with
  | nil => simp [FixedOffsetQuoter.along]
  | cons p' prices ih =>
    rw [List.cons_append, FixedOffsetQuoter.along, ih, FixedOffsetQuoter.along, List.append_assoc]

/-- The trades along some prices, as the plain book makes them. -/
theorem Follows.run_along (h : q.Follows quoter) (hoffset : 1 ≤ quoter.offset)
    (hsize : 1 ≤ quoter.size) (prices : List ℤ) :
    let r := Reference.run (q.orders quoter.offset quoter.size)
      ((quoter.along prices).1.map StrategyAction.toCall)
    let ended := q.tape quoter.offset quoter.size prices
    r.1.flatMap Answer.tradeList = ended.1 ∧ r.2 = ended.2.orders quoter.offset quoter.size ∧
      ended.2.Follows (quoter.along prices).2 := by
  induction prices generalizing q quoter with
  | nil => exact ⟨rfl, rfl, h⟩
  | cons p prices ih =>
    obtain ⟨htrades, hleft⟩ := h.run_onPrice hoffset hsize p
    obtain ⟨hoffset', hsize'⟩ := onPrice_params quoter p
    have hnext := h.requote quoter.size p
    have hrest := ih hnext (hoffset'.symm ▸ hoffset) (hsize'.symm ▸ hsize)
    rw [hoffset', hsize'] at hrest
    simp only [FixedOffsetQuoter.along, tape, List.map_append, Reference.run_append,
      List.flatMap_append, htrades, hleft]
    exact ⟨congrArg _ hrest.1, hrest.2⟩

theorem requote_round (hround : q.price = none → q = .start) (offset size p : ℤ) :
    q.round ≤ (q.requote offset size p).2.round ∧
      ((q.requote offset size p).2.price = none → (q.requote offset size p).2 = .start) ∧
      ∀ t ∈ (q.requote offset size p).1,
        t.restingId + 1 < 2 * (q.requote offset size p).2.round := by
  cases hp : q.price with
  | none =>
    rw [requote_of_none hp, hround hp]
    simp [Standing.start]
  | some p' =>
    by_cases hne : p = p'
    · subst hne
      rw [requote_of_eq hp]
      exact ⟨le_refl _, hround, by simp⟩
    · obtain ⟨hprice, hnext⟩ := requote_of_ne offset size hp hne
      rw [hnext, hprice]
      refine ⟨by omega, by simp, ?_⟩
      rw [Standing.requote, hp]
      dsimp only
      rw [if_neg hne]
      split
      · simp
        omega
      · split <;> simp

/-- What has been traded was quoted in an earlier round. -/
theorem tape_round (hround : q.price = none → q = .start) (offset size : ℤ) (prices : List ℤ) :
    q.round ≤ (q.tape offset size prices).2.round ∧
      ∀ t ∈ (q.tape offset size prices).1,
        t.restingId + 1 < 2 * (q.tape offset size prices).2.round := by
  induction prices generalizing q with
  | nil => exact ⟨le_refl _, by simp [tape]⟩
  | cons p prices ih =>
    obtain ⟨hle, hnone, hids⟩ := requote_round hround offset size p
    obtain ⟨hle', hids'⟩ := ih hnone
    simp only [tape, List.mem_append]
    refine ⟨hle.trans hle', ?_⟩
    rintro t (ht | ht)
    · have hlt := hids t ht
      omega
    · exact hids' t ht

end Standing
end Velo.Strategy
