import Velo.Book.Execution
import Velo.Book.Traceless

/-! Requests that make no trade and are not for the same place of a queue: which of them comes first
is never seen. -/
namespace Velo

variable {s : Side} {o o' r : Order} {t : UInt64} {queue : List Order} {q q' : Queues}
  {id : UInt64}

theorem Order.untimed_untimed (o : Order) : o.untimed.untimed = o.untimed := rfl

section Pass

/-- A pass reads no timestamps. -/
theorem sweep_untimed (s : Side) (o : Order) (t : UInt64) (queue : List Order) :
    sweep s o t (queue.map Order.untimed) =
      ⟨(sweep s o t queue).fills, (sweep s o t queue).incoming,
        (sweep s o t queue).queue.map Order.untimed⟩ := by
  induction queue generalizing o t with
  | nil => rfl
  | cons r queue ih =>
    rw [List.map_cons, sweep, sweep]
    have hn : traded o r.untimed = traded o r := rfl
    by_cases hgo : 0 < o.quantity ∧ (o.type = .market ∨ limitReaches s o.priceTicks r.priceTicks)
    · have hgo' : 0 < o.quantity ∧
          (o.type = .market ∨ limitReaches s o.priceTicks r.untimed.priceTicks) := hgo
      rw [if_pos hgo, if_pos hgo', hn]
      by_cases hdone : r.quantity - traded o r = 0
      · have hdone' : r.untimed.quantity - traded o r = 0 := hdone
        rw [if_pos hdone, if_pos hdone', ih]
        rfl
      · have hdone' : ¬ r.untimed.quantity - traded o r = 0 := hdone
        rw [if_neg hdone, if_neg hdone']
        rfl
    · have hgo' : ¬ (0 < o.quantity ∧
          (o.type = .market ∨ limitReaches s o.priceTicks r.untimed.priceTicks)) := hgo
      rw [if_neg hgo, if_neg hgo']
      rfl

theorem enqueue_untimed (s : Side) (o : Order) (queue : List Order) :
    (enqueue s o queue).map Order.untimed = enqueue s o.untimed (queue.map Order.untimed) := by
  induction queue with
  | nil => rfl
  | cons r queue ih =>
    rw [List.map_cons, enqueue, enqueue]
    by_cases hbetter : Better s o.priceTicks r.priceTicks
    · have hbetter' : Better s o.untimed.priceTicks r.untimed.priceTicks := hbetter
      rw [if_pos hbetter, if_pos hbetter']
      rfl
    · have hbetter' : ¬ Better s o.untimed.priceTicks r.untimed.priceTicks := hbetter
      rw [if_neg hbetter, if_neg hbetter', List.map_cons, ih]

theorem without_untimed (id : UInt64) (queue : List Order) :
    (without id queue).map Order.untimed = without id (queue.map Order.untimed) := by
  rw [without, without, List.filter_map]
  rfl

theorem sweep_of_no_fills (h : (sweep s o t queue).fills = []) :
    sweep s o t queue = ⟨[], o, queue⟩ := by
  cases queue with
  | nil => rfl
  | cons r queue =>
    rw [sweep] at h ⊢
    split at h
    · dsimp only at h
      split at h <;> simp at h
    · rename_i hstop
      rw [if_neg hstop]

/-- Orders at different prices find their places whichever comes first. -/
theorem enqueue_comm (hne : o.priceTicks ≠ o'.priceTicks) (queue : List Order) :
    enqueue s o (enqueue s o' queue) = enqueue s o' (enqueue s o queue) := by
  induction queue with
  | nil =>
    rcases trichotomous_of (Better s) o.priceTicks o'.priceTicks with h | h | h
    · simp [enqueue, h, asymm h]
    · exact absurd h hne
    · simp [enqueue, h, asymm h]
  | cons r queue ih =>
    by_cases ho : Better s o.priceTicks r.priceTicks <;>
      by_cases ho' : Better s o'.priceTicks r.priceTicks
    · rcases trichotomous_of (Better s) o.priceTicks o'.priceTicks with h | h | h
      · simp [enqueue, ho, ho', h, asymm h]
      · exact absurd h hne
      · simp [enqueue, ho, ho', h, asymm h]
    · have h : ¬ Better s o'.priceTicks o.priceTicks := fun h => ho' (trans_of (Better s) h ho)
      simp [enqueue, ho, ho', h]
    · have h : ¬ Better s o.priceTicks o'.priceTicks := fun h => ho (trans_of (Better s) h ho')
      simp [enqueue, ho, ho', h]
    · simp [enqueue, ho, ho', ih]

/-- Where an order goes does not depend on another one, as long as the queue is in order. -/
theorem without_enqueue (hid : o.id ≠ id)
    (hsorted : queue.Pairwise fun x y => ¬ Better s y.priceTicks x.priceTicks) :
    without id (enqueue s o queue) = enqueue s o (without id queue) := by
  induction queue with
  | nil => simp [enqueue, without, hid]
  | cons r queue ih =>
    obtain ⟨hr, hsorted⟩ := List.pairwise_cons.mp hsorted
    by_cases hbetter : Better s o.priceTicks r.priceTicks
    · have hall : ∀ x ∈ without id (r :: queue), Better s o.priceTicks x.priceTicks := by
        intro x hx
        rcases List.mem_cons.mp (mem_without.mp hx).1 with rfl | hx
        · exact hbetter
        · rcases trichotomous_of (Better s) r.priceTicks x.priceTicks with h | h | h
          · exact trans_of (Better s) hbetter h
          · exact h ▸ hbetter
          · exact absurd h (hr x hx)
      rw [enqueue, if_pos hbetter, enqueue_of_better hall]
      exact List.filter_cons_of_pos (decide_eq_true hid)
    · rw [enqueue, if_neg hbetter]
      by_cases hrid : r.id = id
      · have hskip : ∀ l, without id (r :: l) = without id l := fun l =>
          List.filter_cons_of_neg (by simp [hrid])
        rw [hskip, hskip, ih hsorted]
      · have hkeep : ∀ l, without id (r :: l) = r :: without id l := fun l =>
          List.filter_cons_of_pos (decide_eq_true hrid)
        rw [hkeep, hkeep, ih hsorted, enqueue, if_neg hbetter]

end Pass

namespace Queues

/-- The queues but for the times at which the orders came in. -/
def untimed (q : Queues) : Queues :=
  { q with bids := q.bids.map Order.untimed, asks := q.asks.map Order.untimed }

@[simp] theorem side_untimed (q : Queues) (s : Side) :
    q.untimed.side s = (q.side s).map Order.untimed := by
  cases s <;> rfl

@[simp] theorem clock_untimed (q : Queues) : q.untimed.clock = q.clock := rfl

@[simp] theorem ids_untimed (q : Queues) : q.untimed.ids = q.ids := by
  simp only [ids, untimed, ← List.map_append, List.map_map]
  rfl

theorem ext_side (h : ∀ s, q.side s = q'.side s) (hclock : q.clock = q'.clock) : q = q' := by
  have hbids := h .buy
  have hasks := h .sell
  cases q
  cases q'
  simp_all [side]

theorem mem_ids : id ∈ q.ids ↔ ∃ s, ∃ o ∈ q.side s, o.id = id := by
  simp only [ids, List.mem_map, List.mem_append]
  constructor
  · rintro ⟨o, ho | ho, rfl⟩
    · exact ⟨.buy, o, ho, rfl⟩
    · exact ⟨.sell, o, ho, rfl⟩
  · rintro ⟨_ | _, o, ho, rfl⟩
    · exact ⟨o, Or.inl ho, rfl⟩
    · exact ⟨o, Or.inr ho, rfl⟩

theorem submit_eq (hid : o.id ∉ q.ids) :
    let swept := sweep o.side.opposite { o with timestamp := q.clock } (q.clock + 1)
      (q.side o.side.opposite)
    (q.submit o).1 = swept.fills ∧ (q.submit o).2.side o.side.opposite = swept.queue ∧
      (q.submit o).2.side o.side =
        (if 0 < swept.incoming.quantity ∧ o.type = .limit then
          enqueue o.side swept.incoming (q.side o.side) else q.side o.side) ∧
      (q.submit o).2.clock = q.clock + 1 + UInt64.ofNat swept.fills.length := by
  intro swept
  rw [submit, if_neg hid]
  dsimp only
  split
  · cases hs : o.side <;> simp [hs, side, setSide, Side.opposite, swept]
  · cases hs : o.side <;> simp [hs, side, setSide, Side.opposite, swept]

theorem submit_untimed (q : Queues) (o : Order) : (q.untimed.submit o).1 = (q.submit o).1 ∧
    (q.untimed.submit o).2.untimed = (q.submit o).2.untimed := by
  by_cases hid : o.id ∈ q.ids
  · have hid' : o.id ∈ q.untimed.ids := by rwa [ids_untimed]
    rw [submit, submit, if_pos hid, if_pos hid']
    exact ⟨rfl, ext_side (fun s => by simp [Function.comp_def, Order.untimed_untimed]) rfl⟩
  · have hid' : o.id ∉ q.untimed.ids := by rwa [ids_untimed]
    obtain ⟨hfills, hopposite, hown, hclock⟩ := submit_eq hid
    obtain ⟨hfills', hopposite', hown', hclock'⟩ := submit_eq hid'
    rw [side_untimed, clock_untimed, sweep_untimed] at hfills' hopposite' hown' hclock'
    refine ⟨hfills'.trans hfills.symm, ext_side (fun s => ?_) (hclock'.trans hclock.symm)⟩
    rw [side_untimed, side_untimed]
    rcases Side.eq_or_eq_opposite o.side s with rfl | rfl
    · rw [hown', hown]
      dsimp only
      split
      · rw [enqueue_untimed, enqueue_untimed, side_untimed, List.map_map]
        rfl
      · rw [side_untimed, List.map_map]
        rfl
    · rw [hopposite', hopposite, List.map_map]
      rfl

theorem cancel_untimed (q : Queues) (id : UInt64) : (q.untimed.cancel id).1 = (q.cancel id).1 ∧
    (q.untimed.cancel id).2.untimed = (q.cancel id).2.untimed := by
  refine ⟨by rw [cancel, cancel, ids_untimed], ext_side (fun s => ?_) rfl⟩
  cases s <;> simp [cancel, untimed, side, ← without_untimed, Function.comp_def,
    Order.untimed_untimed]

theorem apply_alike (h : q.untimed = q'.untimed) (r : Request) :
    (q.apply r).1 = (q'.apply r).1 ∧ (q.apply r).2.untimed = (q'.apply r).2.untimed := by
  cases r with
  | submit o =>
    obtain ⟨hfills, hafter⟩ := q.submit_untimed o
    obtain ⟨hfills', hafter'⟩ := q'.submit_untimed o
    rw [h] at hfills hafter
    exact ⟨congrArg Reply.fills (hfills.symm.trans hfills'), hafter.symm.trans hafter'⟩
  | cancel id =>
    obtain ⟨hfound, hafter⟩ := q.cancel_untimed id
    obtain ⟨hfound', hafter'⟩ := q'.cancel_untimed id
    rw [h] at hfound hafter
    exact ⟨congrArg Reply.cancelled (hfound.symm.trans hfound'), hafter.symm.trans hafter'⟩

theorem run_alike (h : q.untimed = q'.untimed) (rs : List Request) :
    (q.run rs).1 = (q'.run rs).1 ∧ (q.run rs).2.untimed = (q'.run rs).2.untimed := by
  induction rs generalizing q q' with
  | nil => exact ⟨rfl, h⟩
  | cons r rs ih =>
    obtain ⟨hreply, hafter⟩ := apply_alike h r
    obtain ⟨hreplies, hend⟩ := ih hafter
    exact ⟨by rw [run, run, hreply, hreplies], hend⟩

/-- A request that makes no trade. -/
def Quiet (q : Queues) (r : Request) : Prop := (q.apply r).1.fillList = []

/-- What a request without a trade does to one side. -/
def settle (q : Queues) (s : Side) : Request → List Order → List Order
  | .submit o, queue =>
    if o.id ∉ q.ids ∧ 0 < o.quantity ∧ o.type = .limit ∧ o.side = s then enqueue s o.untimed queue
    else queue
  | .cancel id, queue => without id queue

/-- The clock's step for it. -/
def tick (q : Queues) : Request → UInt64
  | .submit o => if o.id ∈ q.ids then 0 else 1
  | .cancel _ => 0

theorem Quiet.side {r : Request} (h : q.Quiet r) (s : Side) :
    (q.apply r).2.untimed.side s = q.settle s r (q.untimed.side s) ∧
      (q.apply r).2.clock = q.clock + q.tick r := by
  cases r with
  | submit o =>
    by_cases hid : o.id ∈ q.ids
    · have hsame : (q.apply (.submit o)).2 = q := by simp [apply, submit, hid]
      rw [hsame]
      simp [settle, tick, hid]
    · obtain ⟨hfills, hopposite, hown, hclock⟩ := submit_eq hid
      have hstop := sweep_of_no_fills (hfills.symm.trans h)
      simp only [hstop] at hopposite hown hclock
      have htick : q.tick (.submit o) = 1 := if_neg hid
      refine ⟨?_, hclock.trans (by simp [htick])⟩
      rw [side_untimed, side_untimed]
      rcases Side.eq_or_eq_opposite o.side s with rfl | rfl
      · refine (congrArg (List.map Order.untimed) hown).trans ?_
        by_cases hrests : 0 < o.quantity ∧ o.type = .limit
        · rw [if_pos hrests, enqueue_untimed]
          simp only [settle]
          rw [if_pos ⟨hid, hrests.1, hrests.2, trivial⟩]
          rfl
        · rw [if_neg hrests]
          simp only [settle]
          rw [if_neg fun hx => hrests ⟨hx.2.1, hx.2.2.1⟩]
      · refine (congrArg (List.map Order.untimed) hopposite).trans ?_
        simp only [settle]
        rw [if_neg fun hx => Side.opposite_ne _ hx.2.2.2.symm]
  | cancel id =>
    refine ⟨?_, by simp [apply, cancel, tick]⟩
    cases s <;> simp [apply, cancel, untimed, Queues.side, settle, without_untimed]

theorem mem_settle {r : Request} (hid : id ≠ r.id) :
    (∃ o ∈ q.settle s r queue, o.id = id) ↔ ∃ o ∈ queue, o.id = id := by
  cases r with
  | submit o =>
    rw [settle]
    split
    · simp only [mem_enqueue]
      constructor
      · rintro ⟨x, rfl | hx, rfl⟩
        · exact absurd rfl hid
        · exact ⟨x, hx, rfl⟩
      · rintro ⟨x, hx, rfl⟩
        exact ⟨x, Or.inr hx, rfl⟩
    · rfl
  | cancel id' =>
    simp only [settle, mem_without]
    constructor
    · rintro ⟨x, ⟨hx, -⟩, rfl⟩
      exact ⟨x, hx, rfl⟩
    · rintro ⟨x, hx, rfl⟩
      exact ⟨x, ⟨hx, hid⟩, rfl⟩

theorem Quiet.mem_ids {r : Request} (h : q.Quiet r) (hid : id ≠ r.id) :
    id ∈ (q.apply r).2.ids ↔ id ∈ q.ids := by
  rw [← ids_untimed, ← ids_untimed q, Queues.mem_ids, Queues.mem_ids]
  refine exists_congr fun s => ?_
  rw [(h.side s).1]
  exact mem_settle hid

theorem Quiet.reply {r : Request} (h : q.Quiet r) : (q.apply r).1 =
    match r with
    | .submit _ => .fills []
    | .cancel id => .cancelled (id ∈ q.ids) := by
  cases r with
  | submit o => exact congrArg Reply.fills h
  | cancel id => rfl

end Queues

/-- The place in the queues that a request would fill. -/
def Request.place : Request → Option (Side × Int64)
  | .submit o => if o.type = .limit then some (o.side, o.priceTicks) else none
  | .cancel _ => none

/-- Requests about different orders, not both for one place. -/
def Request.Apart (r r' : Request) : Prop := r.id ≠ r'.id ∧ (r.place = none ∨ r.place ≠ r'.place)

instance (r r' : Request) : Decidable (r.Apart r') := inferInstanceAs (Decidable (_ ∧ _))

theorem Request.Apart.symm {r r' : Request} (h : r.Apart r') : r'.Apart r := by
  refine ⟨h.1.symm, ?_⟩
  rcases h.2 with hnone | hne
  · by_cases hnone' : r'.place = none
    · exact Or.inl hnone'
    · exact Or.inr fun he => hnone' (he.trans hnone)
  · exact Or.inr hne.symm

namespace Queues

theorem settle_comm_cancel {r : Request} (hid : r.id ≠ id)
    (hsorted : queue.Pairwise fun x y => ¬ Better s y.priceTicks x.priceTicks) :
    q.settle s r (without id queue) = without id (q.settle s r queue) := by
  cases r with
  | submit o =>
    simp only [settle]
    split
    · exact (without_enqueue (o := o.untimed) hid hsorted).symm
    · rfl
  | cancel id' => exact List.filter_comm _ _ _

/-- On each side the two come to the same. -/
theorem settle_comm {r r' : Request} (h : r.Apart r')
    (hsorted : queue.Pairwise fun x y => ¬ Better s y.priceTicks x.priceTicks) :
    q.settle s r (q.settle s r' queue) = q.settle s r' (q.settle s r queue) := by
  cases r' with
  | cancel id => exact settle_comm_cancel h.1 hsorted
  | submit o' =>
    cases r with
    | cancel id => exact (settle_comm_cancel h.1.symm hsorted).symm
    | submit o =>
      simp only [settle]
      by_cases ho : o.id ∉ q.ids ∧ 0 < o.quantity ∧ o.type = .limit ∧ o.side = s
      · by_cases ho' : o'.id ∉ q.ids ∧ 0 < o'.quantity ∧ o'.type = .limit ∧ o'.side = s
        · have hprice : o.untimed.priceTicks ≠ o'.untimed.priceTicks := by
            intro he
            have hplace : some (o.side, o.priceTicks) = some (o'.side, o'.priceTicks) := by
              rw [ho.2.2.2, ho'.2.2.2, show o.priceTicks = o'.priceTicks from he]
            have hapart := h.2
            simp only [Request.place, if_pos ho.2.2.1, if_pos ho'.2.2.1] at hapart
            exact hapart.elim (by simp) (absurd hplace)
          simp only [if_pos ho, if_pos ho']
          exact enqueue_comm hprice queue
        · simp only [if_neg ho']
      · simp only [if_neg ho]

theorem Quiet.settle_after {r r' : Request} (h : q.Quiet r) (hid : r'.id ≠ r.id) (s : Side)
    (queue : List Order) : (q.apply r).2.settle s r' queue = q.settle s r' queue ∧
      (q.apply r).2.tick r' = q.tick r' := by
  cases r' with
  | submit o' =>
    have hids : o'.id ∈ (q.apply r).2.ids ↔ o'.id ∈ q.ids := h.mem_ids hid
    simp only [settle, tick, hids, and_self]
  | cancel id => exact ⟨rfl, rfl⟩

theorem Quiet.reply_after {r r' : Request} (h : q.Quiet r) (hid : r'.id ≠ r.id)
    (hfirst : q.Quiet r') (hsecond : (q.apply r).2.Quiet r') :
    ((q.apply r).2.apply r').1 = (q.apply r').1 := by
  rw [hsecond.reply, hfirst.reply]
  cases r' with
  | submit o' => rfl
  | cancel id =>
    have hids : id ∈ (q.apply r).2.ids ↔ id ∈ q.ids := h.mem_ids hid
    simp only [hids]

/-- Two such requests leave the same queues in either order. -/
theorem Quiet.commute {r r' : Request} (hapart : r.Apart r')
    (hsorted : ∀ s, (q.side s).Pairwise fun x y => ¬ Better s y.priceTicks x.priceTicks)
    (h : q.Quiet r) (h' : q.Quiet r') (hsecond : (q.apply r).2.Quiet r')
    (hsecond' : (q.apply r').2.Quiet r) :
    ((q.apply r).2.apply r').2.untimed = ((q.apply r').2.apply r).2.untimed := by
  refine ext_side (fun s => ?_) ?_
  · have hsorted' : (q.untimed.side s).Pairwise fun x y =>
        ¬ Better s y.priceTicks x.priceTicks := by
      rw [side_untimed]
      exact List.pairwise_map.mpr (hsorted s)
    rw [(hsecond.side s).1, (hsecond'.side s).1, (h.side s).1, (h'.side s).1,
      (h.settle_after hapart.1.symm s _).1, (h'.settle_after hapart.1 s _).1,
      settle_comm hapart hsorted']
  · rw [clock_untimed, clock_untimed, (hsecond.side .buy).2, (hsecond'.side .buy).2,
      (h.side .buy).2, (h'.side .buy).2, (h.settle_after hapart.1.symm .buy []).2,
      (h'.settle_after hapart.1 .buy []).2]
    exact add_right_comm _ _ _

end Queues

variable {b b' : OrderBook} {L L' : List Order}

theorem OrderBook.replies_alike (h : Represents b L) (h' : Represents b' L')
    (halike : b.queues.untimed = b'.queues.untimed) (rs : List Request) :
    (b.run rs).1 = (b'.run rs).1 ∧ (b.run rs).2.queues.untimed = (b'.run rs).2.queues.untimed := by
  have hrun := Queues.run_alike halike rs
  rwa [h.run_queues, h'.run_queues] at hrun

/-- Two requests about different orders and not for one place, which make no trade in either order:
the replies to them, all later replies and the book that is left are the same in both orders, but
for the timestamps of the two orders. -/
theorem quiet_requests_commute (before : List Request) {r r' : Request} (hapart : r.Apart r')
    (hquiet : let b := (OrderBook.empty.run before).2
      ∀ a ∈ (b.run [r, r']).1 ++ (b.run [r', r]).1, a.fillList = [])
    (after : List Request) :
    let b := (OrderBook.empty.run before).2
    (∃ a a' as, (b.run (r :: r' :: after)).1 = a :: a' :: as ∧
      (b.run (r' :: r :: after)).1 = a' :: a :: as) ∧
    (b.run (r :: r' :: after)).2.queues.untimed = (b.run (r' :: r :: after)).2.queues.untimed := by
  intro b
  obtain ⟨L, hL, -⟩ := represents_empty.run before
  obtain ⟨L₁, hL₁, -⟩ := hL.apply r
  obtain ⟨L₂, hL₂, -⟩ := hL₁.apply r'
  obtain ⟨M₁, hM₁, -⟩ := hL.apply r'
  obtain ⟨M₂, hM₂, -⟩ := hM₁.apply r
  have hsorted : ∀ s, (b.queues.side s).Pairwise fun x y =>
      ¬ Better s y.priceTicks x.priceTicks := by
    intro s
    rw [OrderBook.side_queues]
    exact hL.queue_prices s
  simp only [OrderBook.run, List.cons_append, List.nil_append, List.forall_mem_cons] at hquiet
  obtain ⟨h, hsecond, h', hsecond', -⟩ := hquiet
  have hr := hL.apply_queues r
  have hr' := hL.apply_queues r'
  have hrr' := hL₁.apply_queues r'
  have hr'r := hM₁.apply_queues r
  have hq : b.queues.Quiet r := by rwa [Queues.Quiet, hr]
  have hq' : b.queues.Quiet r' := by rwa [Queues.Quiet, hr']
  have hqsecond : (b.queues.apply r).2.Quiet r' := by rwa [Queues.Quiet, hr, hrr']
  have hqsecond' : (b.queues.apply r').2.Quiet r := by rwa [Queues.Quiet, hr', hr'r]
  have hsame := hq.commute hapart hsorted hq' hqsecond hqsecond'
  have hreply' := hq.reply_after hapart.1.symm hq' hqsecond
  have hreply := hq'.reply_after hapart.1 hq hqsecond'
  rw [hr, hrr', hr', hr'r] at hsame
  rw [hr, hrr', hr'] at hreply'
  rw [hr', hr'r, hr] at hreply
  obtain ⟨hlater, hend⟩ := OrderBook.replies_alike hL₂ hM₂ hsame after
  refine ⟨⟨_, _, _, rfl, ?_⟩, hend⟩
  rw [OrderBook.run, OrderBook.run, hreply, ← hreply', hlater]

/-- A bid and an offer that do not meet: the offer is hit later, at the same time in both orders. -/
example :
    let b := (OrderBook.empty.run [.submit ⟨1, .sell, .limit, 105, 5, 0⟩]).2
    let bid : Request := .submit ⟨2, .buy, .limit, 100, 3, 0⟩
    let offer : Request := .submit ⟨3, .sell, .limit, 104, 4, 0⟩
    let hit : Request := .submit ⟨4, .buy, .limit, 104, 1, 0⟩
    (b.run [bid, offer, hit]).2.queues.untimed = (b.run [offer, bid, hit]).2.queues.untimed := by
  decide +kernel

end Velo
