import Velo.Book.Requote
import Velo.Server.Acknowledgement
import Velo.Strategy.Resting

/-! The quoter alone in a book: what its own new quotes do to its old ones. -/
namespace Velo

/-- The numbers in a trade, as the quoter has them. -/
def Reference.Trade.toInts (t : Reference.Trade UInt64 Int64) : Reference.Trade ℤ ℤ :=
  ⟨t.restingId.toNat, t.incomingId.toNat, t.restingSide, t.price.toInt, t.quantity⟩

def Reference.Resting.toInts (r : Reference.Resting UInt64 Int64) : Reference.Resting ℤ ℤ :=
  ⟨r.id.toNat, r.side, r.price.toInt, r.quantity⟩

theorem map_toTrade_fills (replies : List Reply) :
    (replies.flatMap Reply.fillList).map Fill.toTrade =
      (replies.map Reply.toAnswer).flatMap Reference.Answer.tradeList := by
  induction replies with
  | nil => rfl
  | cons reply replies ih =>
    rw [List.flatMap_cons, List.map_append, ih, List.map_cons, List.flatMap_cons]
    cases reply with
    | fills fs => rfl
    | cancelled ok => rfl

namespace Strategy
open Reference

/-- What the quoter reacts to. -/
inductive QuoterEvent
  | price (priceTicks : ℤ)
  | fill (event : FillEvent)

namespace FixedOffsetQuoter

def hear (q : FixedOffsetQuoter) : QuoterEvent → FixedOffsetQuoter
  | .price priceTicks => (q.onPrice priceTicks).2
  | .fill event => q.onFill event

/-- A quoter after anything that it may have heard. -/
def after (offset size : ℤ) (events : List QuoterEvent) : FixedOffsetQuoter :=
  events.foldl hear (init offset size)

/-- The messages of a list of actions, executed on the book one after the other. -/
def execute (b : OrderBook) (actions : List StrategyAction) : List Reply × OrderBook :=
  b.run ((sendAll actions).1.filterMap ClientMsg.toRequest)

/-- The quoter has quoted both sides of a price, and its quotes are all that the book holds. -/
structure QuotesAlone (q : FixedOffsetQuoter) (b : OrderBook) (priceTicks bidId askId : ℤ) :
    Prop where
  restingBuy : q.restingBuy = some (bidId, priceTicks - q.offset)
  restingSell : q.restingSell = some (askId, priceTicks + q.offset)
  book : b.resting.map (fun o => o.toResting.toInts) =
    [⟨bidId, .buy, priceTicks - q.offset, q.size.toNat⟩,
      ⟨askId, .sell, priceTicks + q.offset, q.size.toNat⟩]

variable {q : FixedOffsetQuoter} {offset size p p' bidId askId : ℤ} {events : List QuoterEvent}

theorem Distinct.hear (h : q.Distinct) (e : QuoterEvent) : (q.hear e).Distinct := by
  cases e with
  | price priceTicks =>
    obtain ⟨orders, cancels, -, hrequotes⟩ := q.requotes_onPrice priceTicks
    exact h.requotes hrequotes
  | fill event => exact h.onFill event

theorem quoteSide_params (q : FixedOffsetQuoter) (side : Side) (targetPrice : ℤ) :
    (q.quoteSide side targetPrice).2.2.offset = q.offset ∧
      (q.quoteSide side targetPrice).2.2.size = q.size := by
  rw [quoteSide]
  dsimp only
  split
  · exact ⟨rfl, rfl⟩
  · cases side <;> exact ⟨rfl, rfl⟩

theorem hear_params (q : FixedOffsetQuoter) (e : QuoterEvent) :
    (q.hear e).offset = q.offset ∧ (q.hear e).size = q.size := by
  cases e with
  | price priceTicks =>
    have hbuy := q.quoteSide_params .buy (priceTicks - q.offset)
    have hsell := (q.quoteSide .buy (priceTicks - q.offset)).2.2.quoteSide_params .sell
      (priceTicks + q.offset)
    exact ⟨hsell.1.trans hbuy.1, hsell.2.trans hbuy.2⟩
  | fill event =>
    simp only [hear, onFill]
    split
    · exact ⟨rfl, rfl⟩
    · split <;> exact ⟨rfl, rfl⟩

theorem after_spec (offset size : ℤ) (events : List QuoterEvent) :
    (after offset size events).Distinct ∧ (after offset size events).offset = offset ∧
      (after offset size events).size = size := by
  rw [after]
  generalize hq : init offset size = q
  have hstart : q.Distinct ∧ q.offset = offset ∧ q.size = size := by
    rw [← hq]
    exact ⟨distinct_init offset size, rfl, rfl⟩
  clear hq
  induction events generalizing q with
  | nil => exact hstart
  | cons e events ih =>
    obtain ⟨hdistinct, hoffset, hsize⟩ := hstart
    obtain ⟨hoffset', hsize'⟩ := q.hear_params e
    exact ih _ ⟨hdistinct.hear e, hoffset'.trans hoffset, hsize'.trans hsize⟩

theorem onPrice_of_ne (hbuy : q.restingBuy = some (bidId, p - q.offset))
    (hsell : q.restingSell = some (askId, p + q.offset)) (hp : p' ≠ p) :
    (q.onPrice p').1 =
      [.order ⟨q.nextId, .buy, .limit, p' - q.offset, q.size⟩,
        .order ⟨q.nextId + 1, .sell, .limit, p' + q.offset, q.size⟩, .cancel ⟨bidId⟩,
        .cancel ⟨askId⟩] := by
  have hbid : p - q.offset ≠ p' - q.offset := by omega
  have hask : p + q.offset ≠ p' + q.offset := by omega
  simp [onPrice, quoteSide, resting, hbuy, hsell, hbid, hask]

theorem onPrice_of_eq (hbuy : q.restingBuy = some (bidId, p - q.offset))
    (hsell : q.restingSell = some (askId, p + q.offset)) : (q.onPrice p).1 = [] := by
  simp [onPrice, quoteSide, resting, hbuy, hsell]

/-- The messages of a repricing. -/
theorem sendAll_requote {bid ask : OrderRequest} {oldBid oldAsk : CancelRequest}
    (hsent : (sendAll [.order bid, .order ask, .cancel oldBid, .cancel oldAsk]).2) :
    ∃ (m m' : ClientOrderMsg) (c c' : CancelMsg),
      (sendAll [.order bid, .order ask, .cancel oldBid, .cancel oldAsk]).1 =
        [.newOrder m, .newOrder m', .cancel c, .cancel c'] ∧ bid.SentAs m ∧ ask.SentAs m' ∧
      (c.clientOrderId.toNat : ℤ) = oldBid.orderId ∧
        (c'.clientOrderId.toNat : ℤ) = oldAsk.orderId := by
  obtain ⟨sent, -, hmsgs, hall⟩ :=
    sendAll_spec [.order bid, .order ask, .cancel oldBid, .cancel oldAsk]
  rw [hall hsent] at hmsgs
  generalize (sendAll [.order bid, .order ask, .cancel oldBid, .cancel oldAsk]).1 = msgs at hmsgs
  cases hmsgs with
  | cons hbid hmsgs =>
    cases hmsgs with
    | cons hask hmsgs =>
      cases hmsgs with
      | cons hold hmsgs =>
        cases hmsgs with
        | cons hold' hmsgs =>
          cases hmsgs
          obtain ⟨m, rfl, hm⟩ := request?_order hbid
          obtain ⟨m', rfl, hm'⟩ := request?_order hask
          obtain ⟨c, rfl, hc⟩ := request?_cancel hold
          obtain ⟨c', rfl, hc'⟩ := request?_cancel hold'
          exact ⟨m, m', c, c', rfl, hm, hm', hc, hc'⟩

theorem toIncoming_of_sentAs {id price size : ℤ} {side : Side} {m : ClientOrderMsg}
    (h : OrderRequest.SentAs ⟨id, side, .limit, price, size⟩ m) :
    m.toOrder.toIncoming = ⟨m.clientOrderId, side, .limit, m.priceTicks, size.toNat⟩ := by
  have hquantity : m.toOrder.quantity.toNat = size.toNat := by
    have hsize := h.quantity
    change m.quantity.toNat = size.toNat
    simp only at hsize
    omega
  rw [Order.toIncoming, h.side, h.type, hquantity]
  rfl

/-- The repricing as the plain book sees it. -/
theorem QuotesAlone.requote {b : OrderBook} {L : List Order} (hL : Represents b L)
    (hq : q.Distinct) (hoffset : 1 ≤ q.offset) (hsize : 1 ≤ q.size)
    (h : q.QuotesAlone b p bidId askId) (hp : p' ≠ p) (hsent : (sendAll (q.onPrice p').1).2) :
    ∃ c : Requote UInt64 Int64, (L.map Order.toResting).Perm [c.oldBid, c.oldAsk] ∧
      ((sendAll (q.onPrice p').1).1.filterMap ClientMsg.toRequest).map Request.toCall = c.calls ∧
      (c.bidId.toNat : ℤ) = bidId ∧ (c.askId.toNat : ℤ) = askId ∧
      (c.newBidId.toNat : ℤ) = q.nextId ∧ (c.newAskId.toNat : ℤ) = q.nextId + 1 ∧
      c.bid.toInt = p - q.offset ∧ c.ask.toInt = p + q.offset ∧
      c.newBid.toInt = p' - q.offset ∧ c.newAsk.toInt = p' + q.offset ∧
      c.quantity = q.size.toNat := by
  obtain ⟨hbuy, hsell, hbook⟩ := h
  rw [onPrice_of_ne hbuy hsell hp] at hsent ⊢
  obtain ⟨m, m', k, k', hmsgs, hm, hm', hk, hk'⟩ := sendAll_requote hsent
  simp only [List.map_eq_cons_iff, List.map_eq_nil_iff] at hbook
  obtain ⟨bid, _, hresting, hbid, ask, _, rfl, hask, rfl⟩ := hbook
  simp only [Resting.toInts, Order.toResting, Resting.mk.injEq] at hbid hask
  obtain ⟨hbidId, hbidSide, hbidPrice, hbidSize⟩ := hbid
  obtain ⟨haskId, haskSide, haskPrice, haskSize⟩ := hask
  have hlt := hq.issued bidId (tracks_iff.mpr ⟨.buy, _, hbuy⟩)
  have hlt' := hq.issued askId (tracks_iff.mpr ⟨.sell, _, hsell⟩)
  have hne : bidId ≠ askId := by
    rintro rfl
    have hside := hq.side_eq .buy .sell _ _ _ hbuy hsell
    cases hside
  have hid := hm.id
  have hid' := hm'.id
  have hprice := hm.price rfl
  have hprice' := hm'.price rfl
  simp only at hid hid' hprice hprice' hk hk'
  have hids : [bid.id, ask.id, m.clientOrderId, m'.clientOrderId].Nodup := by
    simp only [List.nodup_cons, List.mem_cons, List.not_mem_nil, or_false, not_or,
      not_false_eq_true, List.nodup_nil, and_true, ← UInt64.toNat_inj]
    omega
  have hspread : m.priceTicks < m'.priceTicks := by
    rw [Int64.lt_iff_toInt_lt]
    omega
  have hcancel : k.clientOrderId = bid.id := UInt64.toNat_inj.mp (by omega)
  have hcancel' : k'.clientOrderId = ask.id := UInt64.toNat_inj.mp (by omega)
  refine ⟨⟨bid.id, ask.id, m.clientOrderId, m'.clientOrderId, bid.priceTicks, ask.priceTicks,
    m.priceTicks, m'.priceTicks, q.size.toNat, by omega, hids, hspread⟩, ?_, ?_, hbidId, haskId,
    hid, hid', hbidPrice, haskPrice, hprice, hprice', rfl⟩
  · refine (hL.resting_perm.symm.map _).trans ?_
    rw [hresting]
    simp only [List.map_cons, List.map_nil, Order.toResting, hbidSide, haskSide, hbidSize, haskSize]
    exact List.Perm.refl _
  · rw [hmsgs]
    simp only [List.filterMap_cons, ClientMsg.toRequest, List.filterMap_nil, List.map_cons,
      Request.toCall, List.map_nil, toIncoming_of_sentAs hm, toIncoming_of_sentAs hm', hcancel,
      hcancel']
    rfl

theorem resting_of_ne (hbuy : q.restingBuy = some (bidId, p - q.offset))
    (hsell : q.restingSell = some (askId, p + q.offset)) (hp : p' ≠ p) :
    (q.onPrice p').2.restingBuy = some (q.nextId, p' - q.offset) ∧
      (q.onPrice p').2.restingSell = some (q.nextId + 1, p' + q.offset) := by
  have hbid : p - q.offset ≠ p' - q.offset := by omega
  have hask : p + q.offset ≠ p' + q.offset := by omega
  simp [onPrice, quoteSide, resting, hbuy, hsell, hbid, hask]

/-- What is traded is what the plain book trades, and what rests is what rests there. -/
theorem execute_spec {b : OrderBook} {L : List Order} (hL : Represents b L)
    (actions : List StrategyAction) {answers : List (Answer UInt64 Int64)}
    {book : List (Resting UInt64 Int64)}
    (hrun : Reference.run (L.map Order.toResting)
      (((sendAll actions).1.filterMap ClientMsg.toRequest).map Request.toCall) =
        (answers, book)) :
    ((execute b actions).1.flatMap Reply.fillList).map (fun f => f.toTrade.toInts) =
        (answers.flatMap Answer.tradeList).map Trade.toInts ∧
      ∀ o ∈ (execute b actions).2.resting, o.id ∈ book.map Resting.id := by
  obtain ⟨L', hL', hrun'⟩ := hL.run ((sendAll actions).1.filterMap ClientMsg.toRequest)
  rw [hrun, Prod.mk.injEq] at hrun'
  obtain ⟨hanswers, hbook⟩ := hrun'
  constructor
  · rw [hanswers, ← map_toTrade_fills, List.map_map]
    rfl
  · intro o ho
    rw [hbook, map_id_toResting]
    exact List.mem_map_of_mem (hL'.resting_perm.mem_iff.mp ho)

/-- The trades of a repricing and the orders that it leaves. -/
theorem QuotesAlone.execute_onPrice {b : OrderBook} {L : List Order} (hL : Represents b L)
    (hq : q.Distinct) (hoffset : 1 ≤ q.offset) (hsize : 1 ≤ q.size)
    (h : q.QuotesAlone b p bidId askId) (hp : p' ≠ p) (hsent : (sendAll (q.onPrice p').1).2) :
    ((execute b (q.onPrice p').1).1.flatMap Reply.fillList).map (fun f => f.toTrade.toInts) =
        (if 2 * q.offset ≤ p' - p then
          [⟨askId, q.nextId, .sell, p + q.offset, q.size.toNat⟩]
        else if 2 * q.offset ≤ p - p' then
          [⟨bidId, q.nextId + 1, .buy, p - q.offset, q.size.toNat⟩]
        else []) ∧
      ∀ o ∈ (execute b (q.onPrice p').1).2.resting,
        (o.id.toNat : ℤ) ≠ bidId ∧ (o.id.toNat : ℤ) ≠ askId := by
  obtain ⟨c, hperm, hcalls, hbidId, haskId, hnewBidId, hnewAskId, hbid, hask, hnewBid, hnewAsk,
    hquantity⟩ := h.requote hL hq hoffset hsize hp hsent
  have hleft : ∀ id ∈ [c.newBidId, c.newAskId],
      (id.toNat : ℤ) ≠ bidId ∧ (id.toNat : ℤ) ≠ askId := by
    obtain ⟨-, hbidBid, hbidAsk, haskBid, haskAsk, -⟩ := c.ids_ne
    rw [← hbidId, ← haskId]
    simp only [ne_eq, Nat.cast_inj, UInt64.toNat_inj, List.forall_mem_cons, List.not_mem_nil,
      false_implies, implies_true, and_true]
    exact ⟨⟨hbidBid.symm, haskBid.symm⟩, hbidAsk.symm, haskAsk.symm⟩
  by_cases hup : 2 * q.offset ≤ p' - p
  · have hcross : c.ask ≤ c.newBid := by
      rw [Int64.le_iff_toInt_le]
      omega
    have hclear : c.bid < c.newAsk := by
      rw [Int64.lt_iff_toInt_lt]
      omega
    obtain ⟨htrades, hresting⟩ := execute_spec hL _ (hcalls ▸ c.run_up hperm hcross hclear)
    rw [if_pos hup, htrades]
    refine ⟨?_, fun o ho => hleft _ ?_⟩
    · simp [Answer.tradeList, Trade.toInts, haskId, hnewBidId, hask, hquantity]
    · exact List.mem_cons_of_mem _ (hresting o ho)
  · rw [if_neg hup]
    by_cases hdown : 2 * q.offset ≤ p - p'
    · have hcross : c.newAsk ≤ c.bid := by
        rw [Int64.le_iff_toInt_le]
        omega
      have hclear : c.newBid < c.ask := by
        rw [Int64.lt_iff_toInt_lt]
        omega
      obtain ⟨htrades, hresting⟩ := execute_spec hL _ (hcalls ▸ c.run_down hperm hcross hclear)
      rw [if_pos hdown, htrades]
      refine ⟨?_, fun o ho => hleft _ ?_⟩
      · simp [Answer.tradeList, Trade.toInts, hbidId, hnewAskId, hbid, hquantity]
      · have hid := List.mem_singleton.mp (hresting o ho)
        rw [hid]
        exact List.mem_cons_self
    · have hbidClear : c.newBid < c.ask := by
        rw [Int64.lt_iff_toInt_lt]
        omega
      have haskClear : c.bid < c.newAsk := by
        rw [Int64.lt_iff_toInt_lt]
        omega
      obtain ⟨htrades, hresting⟩ :=
        execute_spec hL _ (hcalls ▸ c.run_clear hperm hbidClear haskClear)
      rw [if_neg hdown, htrades]
      exact ⟨rfl, fun o ho => hleft _ (hresting o ho)⟩

/-- Repricing crosses in both directions: the quotes at the new price take one of the old ones, and
all of it, if the price has moved by two offsets, and nothing otherwise; of the old quotes none is
left. -/
theorem repricing_crosses (hoffset : 1 ≤ offset) (hsize : 1 ≤ size) (events : List QuoterEvent)
    (before : List Request)
    (hquotes : (after offset size events).QuotesAlone (OrderBook.empty.run before).2 p bidId askId)
    (hsent : (sendAll ((after offset size events).onPrice p').1).2) :
    let q := after offset size events
    let r := execute (OrderBook.empty.run before).2 (q.onPrice p').1
    (r.1.flatMap Reply.fillList).map (fun f => f.toTrade.toInts) =
        (if 2 * offset ≤ p' - p then [⟨askId, q.nextId, .sell, p + offset, size.toNat⟩]
        else if 2 * offset ≤ p - p' then [⟨bidId, q.nextId + 1, .buy, p - offset, size.toNat⟩]
        else []) ∧
      (p' ≠ p →
        (q.onPrice p').2.restingBuy = some (q.nextId, p' - offset) ∧
        (q.onPrice p').2.restingSell = some (q.nextId + 1, p' + offset) ∧
        ∀ o ∈ r.2.resting, (o.id.toNat : ℤ) ≠ bidId ∧ (o.id.toNat : ℤ) ≠ askId) := by
  intro q r
  obtain ⟨hdistinct, hqoffset, hqsize⟩ := after_spec offset size events
  obtain ⟨L, hL, -⟩ := represents_empty.run before
  by_cases hp : p' = p
  · subst hp
    have hnone : (q.onPrice p').1 = [] := onPrice_of_eq hquotes.restingBuy hquotes.restingSell
    have hr : r = ([], (OrderBook.empty.run before).2) := by
      simp only [r, hnone]
      rfl
    refine ⟨?_, fun hne => absurd rfl hne⟩
    rw [hr, if_neg (by omega), if_neg (by omega)]
    rfl
  · rw [← hqoffset] at hoffset
    rw [← hqsize] at hsize
    have hcrosses := hquotes.execute_onPrice hL hdistinct hoffset hsize hp hsent
    have hnew := resting_of_ne hquotes.restingBuy hquotes.restingSell hp
    rw [hqoffset, hqsize] at hcrosses
    rw [hqoffset] at hnew
    exact ⟨hcrosses.1, fun _ => ⟨hnew.1, hnew.2, hcrosses.2⟩⟩

/-- The price rises by two offsets. -/
theorem repricing_crosses_up :
    ((execute (OrderBook.empty.run [.submit ⟨1, .buy, .limit, 99, 10, 0⟩,
        .submit ⟨2, .sell, .limit, 101, 10, 0⟩]).2
      ((after 1 10 [.price 100]).onPrice 102).1).1.flatMap Reply.fillList).map
        (fun f => f.toTrade.toInts) = [⟨2, 3, .sell, 101, 10⟩] :=
  (@repricing_crosses 1 10 100 102 1 2 (by decide) (by decide) [.price 100]
    [.submit ⟨1, .buy, .limit, 99, 10, 0⟩, .submit ⟨2, .sell, .limit, 101, 10, 0⟩]
    ⟨rfl, rfl, by decide +kernel⟩ (by decide +kernel)).1

end FixedOffsetQuoter
end Strategy
end Velo
