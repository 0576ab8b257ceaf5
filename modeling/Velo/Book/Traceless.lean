import Velo.Book.Bystander
import Velo.Book.Conservation

/-! An order that is cancelled before it trades leaves nothing but the timestamps it took. -/
namespace Velo
open Reference

def Order.untimed (o : Order) : Order := { o with timestamp := 0 }

def Fill.untimed (f : Fill) : Fill := { f with timestamp := 0 }

/-- An answer of the plain book as a reply, its timestamps zero. -/
def Reference.Answer.toReply : Answer UInt64 Int64 → Reply
  | .trades ts => .fills (ts.map fun t =>
      ⟨t.restingId, t.incomingId, t.restingSide, t.price, .ofNat t.quantity, 0⟩)
  | .cancelled ok => .cancelled ok

def PriceLevel.untimed (l : PriceLevel) : PriceLevel := { l with orders := l.orders.map .untimed }

def Reply.untimed : Reply → Reply
  | .fills fs => .fills (fs.map Fill.untimed)
  | .cancelled ok => .cancelled ok

/-- The id that a request names. -/
def Request.id : Request → UInt64
  | .submit o => o.id
  | .cancel id => id

/-- The same levels in the same order, and the same index. -/
structure OrderBook.SameUntimed (b b' : OrderBook) : Prop where
  levels : ∀ s, ((b.levels s).entries.map fun e => (e.1, e.2.untimed)) =
    (b'.levels s).entries.map fun e => (e.1, e.2.untimed)
  orderIndex : b.orderIndex = b'.orderIndex

/-- After `before` the limit order `x` is submitted, no order of its id resting, and no fill comes
of it; during `during` nothing names its id and no fill is with it. -/
structure PassesBy (x : Order) (before during : List Request) : Prop where
  type : x.type = .limit
  quantity : 0 < x.quantity
  fresh : ¬ (OrderBook.empty.run before).2.Rests x.id
  quiet : ((OrderBook.empty.run before).2.submit x).1 = []
  unnamed : ∀ r ∈ during, r.id ≠ x.id
  untraded : ∀ reply ∈ (((OrderBook.empty.run before).2.submit x).2.run during).1,
    ∀ f ∈ reply.fillList, f.restingOrderId ≠ x.id

variable {b b' : OrderBook} {L L' : List Order} {x : Order} {before during : List Request}

theorem Represents.untimed_eq (h : Represents b L) : L.map Order.untimed =
    (L.map Order.toResting).map fun r => ⟨r.id, r.side, .limit, r.price, .ofNat r.quantity, 0⟩ := by
  rw [List.map_map]
  refine List.map_congr_left fun o ho => ?_
  simp only [Order.untimed, Order.toResting, Function.comp, UInt32.ofNat_toNat,
    (h.tracks.live o ho).1]

theorem Represents.untimed_levels (h : Represents b L) (s : Side) (e : Int64 × PriceLevel) :
    e ∈ ((b.levels s).entries.map fun e => (e.1, e.2.untimed)) ↔
      atLevel (L.map Order.untimed) s e.1 ≠ [] ∧
        e.2 = ⟨e.1, atLevel (L.map Order.untimed) s e.1⟩ := by
  have hlevel : ∀ p, atLevel (L.map Order.untimed) s p = (atLevel L s p).map Order.untimed := by
    intro p
    rw [atLevel, List.filter_map]
    rfl
  obtain ⟨p, level⟩ := e
  simp only [hlevel, List.mem_map, Prod.mk.injEq, Prod.exists, Ne, List.map_eq_nil_iff]
  constructor
  · rintro ⟨q, l, hl, rfl, rfl⟩
    obtain ⟨hne, rfl⟩ := h.mem_levels.mp hl
    exact ⟨hne, rfl⟩
  · rintro ⟨hne, rfl⟩
    exact ⟨p, _, h.mem_levels.mpr ⟨hne, rfl⟩, rfl, rfl⟩

theorem Tracks.lookup_congr {index index' : Finmap fun _ : UInt64 => Int64 × Side}
    (h : Tracks index L) (h' : Tracks index' L')
    (hL : L.map Order.untimed = L'.map Order.untimed) : index = index' := by
  have hmem : ∀ (M : List Order) id p s, (∃ o ∈ M, o.id = id ∧ o.priceTicks = p ∧ o.side = s) ↔
      ∃ o ∈ M.map Order.untimed, o.id = id ∧ o.priceTicks = p ∧ o.side = s := by
    intro M id p s
    constructor
    · rintro ⟨o, ho, hps⟩
      exact ⟨_, List.mem_map_of_mem ho, hps⟩
    · rintro ⟨_, hmem, hps⟩
      obtain ⟨o, ho, rfl⟩ := List.mem_map.mp hmem
      exact ⟨o, ho, hps⟩
  refine Finmap.ext_lookup fun id => Option.ext fun ⟨p, s⟩ => ?_
  rw [h.index, h'.index, hmem, hmem L', hL]

theorem Represents.sameUntimed (h : Represents b L) (h' : Represents b' L')
    (hL : L.map Order.toResting = L'.map Order.toResting) : b.SameUntimed b' := by
  have hU : L.map Order.untimed = L'.map Order.untimed := by
    rw [h.untimed_eq, h'.untimed_eq, hL]
  refine ⟨fun s => ?_, h.tracks.lookup_congr h'.tracks hU⟩
  have hsorted : ∀ b : OrderBook, ((((b.levels s).entries.map fun e => (e.1, e.2.untimed)).map
      Prod.fst).Pairwise (Better s)) := by
    intro b
    rw [List.map_map]
    exact (b.levels s).sorted
  refine SortedMap.entries_ext (hsorted b) (hsorted b') fun e => ?_
  rw [h.untimed_levels, h'.untimed_levels, hU]

theorem Reply.untimed_eq (r : Reply) : r.untimed = r.toAnswer.toReply := by
  cases r with
  | fills fs =>
    simp only [Reply.untimed, Reply.toAnswer, Answer.toReply, List.map_map]
    congr 1
    refine List.map_congr_left fun f _ => ?_
    simp only [Fill.untimed, Fill.toTrade, Function.comp, UInt32.ofNat_toNat]
  | cancelled ok => rfl

theorem map_untimed_eq (rs : List Reply) :
    rs.map Reply.untimed = (rs.map Reply.toAnswer).map Answer.toReply := by
  rw [List.map_map]
  exact List.map_congr_left fun r _ => r.untimed_eq

/-- The two runs on the plain book. -/
theorem PassesBy.plain (h : PassesBy x before during) (after : List Request) :
    let book := (Reference.run [] (before.map Request.toCall)).2
    Reference.run book
        ((.submit x :: (during ++ .cancel x.id :: after) : List Request).map Request.toCall) =
      (.trades [] :: ((Reference.run book (during.map Request.toCall)).1 ++ .cancelled true ::
          (Reference.run (Reference.run book (during.map Request.toCall)).2
            (after.map Request.toCall)).1),
        (Reference.run (Reference.run book (during.map Request.toCall)).2
          (after.map Request.toCall)).2) := by
  obtain ⟨L, hL, hrun⟩ := represents_empty.run before
  obtain ⟨L', hL', hsubmit, -⟩ := hL.submit x
  obtain ⟨_, -, hduring⟩ := hL'.run during
  have hbook : (Reference.run [] (before.map Request.toCall)).2 = L.map Order.toResting :=
    congrArg Prod.snd hrun
  have hfresh : x.id ∉ (L.map Order.toResting).map Resting.id := by
    rw [map_id_toResting, ← hL.contains_iff, ← hL.rests_iff]
    exact h.fresh
  rw [h.quiet] at hsubmit
  intro book
  simp only [book, hbook, List.map_cons, List.map_append]
  refine run_cancelled (o := x.toIncoming) hfresh h.type (UInt32.lt_iff_toNat_lt.mp h.quantity)
    (congrArg Prod.fst hsubmit) ?_ ?_ _
  · intro c hc
    obtain ⟨r, hr, rfl⟩ := List.mem_map.mp hc
    have hne := h.unnamed r hr
    cases r with
    | submit o => exact hne
    | cancel id => exact hne
  · rw [hsubmit, hduring]
    intro a ha t ht
    obtain ⟨reply, hreply, rfl⟩ := List.mem_map.mp ha
    have hne := h.untraded reply hreply
    cases reply with
    | fills fs =>
      obtain ⟨f, hf, rfl⟩ := List.mem_map.mp ht
      exact hne f hf
    | cancelled ok => cases ht

/-- Any run in which a limit order is submitted, passes by and is cancelled answers the other calls
as the run without the two calls does, and ends in the same book, but for timestamps. -/
theorem cancelled_leaves_no_trace {x : Order} {before during : List Request}
    (h : PassesBy x before during) (after : List Request) :
    let all := OrderBook.empty.run (before ++ .submit x :: (during ++ .cancel x.id :: after))
    let others := OrderBook.empty.run (before ++ (during ++ after))
    (∃ rs₁ rs₂ rs₃, rs₁.length = before.length ∧ rs₂.length = during.length ∧
      all.1.map Reply.untimed = rs₁ ++ .fills [] :: (rs₂ ++ .cancelled true :: rs₃) ∧
      others.1.map Reply.untimed = rs₁ ++ (rs₂ ++ rs₃)) ∧ all.2.SameUntimed others.2 := by
  intro all others
  obtain ⟨L, hL, hrun⟩ := represents_empty.run
    (before ++ .submit x :: (during ++ .cancel x.id :: after))
  obtain ⟨L', hL', hrun'⟩ := represents_empty.run (before ++ (during ++ after))
  have hlen := run_length [] (before.map Request.toCall)
  rw [List.map_append, Reference.run_append, List.map_nil, h.plain after, Prod.mk.injEq] at hrun
  rw [List.map_append, Reference.run_append, List.map_append, Reference.run_append, List.map_nil,
    Prod.mk.injEq] at hrun'
  generalize Reference.run [] (before.map Request.toCall) = plain₁ at hrun hrun' hlen
  have hlen' := run_length plain₁.2 (during.map Request.toCall)
  generalize Reference.run plain₁.2 (during.map Request.toCall) = plain₂ at hrun hrun' hlen'
  generalize Reference.run plain₂.2 (after.map Request.toCall) = plain₃ at hrun hrun'
  refine ⟨⟨plain₁.1.map Answer.toReply, plain₂.1.map Answer.toReply, plain₃.1.map Answer.toReply,
    by simpa using hlen, by simpa using hlen', ?_, ?_⟩,
    hL.sameUntimed hL' (hrun.2.symm.trans hrun'.2)⟩
  · rw [map_untimed_eq, ← hrun.1]
    simp only [List.map_append, List.map_cons]
    rfl
  · rw [map_untimed_eq, ← hrun'.1]
    simp only [List.map_append]

/-- The cancelled order stands between two others of its level, one of which trades meanwhile. -/
theorem cancelled_leaves_no_trace_in_a_level :
    let rs₁ : List Request := [.submit ⟨1, .sell, .limit, 101, 5, 0⟩,
      .submit ⟨2, .buy, .limit, 100, 5, 0⟩]
    let rs₂ : List Request := [.submit ⟨4, .buy, .limit, 100, 1, 0⟩,
      .submit ⟨5, .sell, .market, 0, 3, 0⟩]
    let rs₃ : List Request := [.submit ⟨6, .sell, .limit, 100, 9, 0⟩]
    (OrderBook.empty.run (rs₁ ++ .submit ⟨3, .buy, .limit, 100, 7, 0⟩ ::
        (rs₂ ++ .cancel 3 :: rs₃))).2.SameUntimed
      (OrderBook.empty.run (rs₁ ++ (rs₂ ++ rs₃))).2 := by
  intro rs₁ rs₂ rs₃
  refine (cancelled_leaves_no_trace (x := ⟨3, .buy, .limit, 100, 7, 0⟩) ⟨?_, ?_, ?_, ?_, ?_, ?_⟩
    rs₃).2
  all_goals decide +kernel

end Velo
