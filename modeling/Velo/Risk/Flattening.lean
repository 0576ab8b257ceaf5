import Velo.Lib.Machine
import Velo.Risk.Engine

/-! The risk engine and the server's ordered stream. The engine decides on each fill it reads,
while fills and its own orders are still under way. -/
namespace Velo.Risk
open Machine

/-- A message on its way to the engine; `own` marks the fills of the engine's own orders. -/
structure Report where
  msg : Incoming
  own : Bool
  deriving DecidableEq

/-- One partial execution of a flatten order. -/
structure Part where
  restingOrderId : UInt64
  priceTicks : Int64
  quantity : UInt32
  timestamp : UInt64

/-- `orders` are the flatten orders sent and not yet executed, and `stream` what the server has
written and the engine has not read, each oldest first. -/
structure System where
  engine : RiskEngine
  orders : List OrderMsg
  stream : List Report

/-- What the rest of the system does: an aggressor trades with others, the server executes the
engine's oldest order in full, and the engine reads a message. -/
inductive SystemEvent
  | aggress (fills : List FillEvent)
  | execute (parts : List Part)
  | read

/-- A message read, the position before and after it, and the order sent in response. -/
structure Reading where
  report : Report
  before : ℤ
  after : ℤ
  sent : Option OrderMsg

def quantities (parts : List Part) : ℕ := (parts.map fun p => p.quantity.toNat).sum

/-- The fill of a part; the order is the incoming one. -/
def partFill (o : OrderMsg) (p : Part) : FillEvent :=
  ⟨p.restingOrderId, o.clientOrderId, o.side.opposite, p.priceTicks, p.quantity, p.timestamp⟩

namespace System

def start (limits : RiskLimits) : System := ⟨.start limits, [], []⟩

def step (s : System) : SystemEvent → Option (List Reading × System)
  | .aggress fills =>
    some ([], { s with stream := s.stream ++ fills.map fun f => ⟨.fill f, false⟩ })
  | .execute parts =>
    match s.orders with
    | [] => none
    | o :: orders =>
      if (∀ p ∈ parts, p.quantity ≠ 0) ∧ quantities parts = o.quantity.toNat then
        some ([], { s with
          orders := orders
          stream := s.stream ++ ⟨.ack ⟨o.clientOrderId, MsgType.newOrder.tag, 0⟩, false⟩ ::
            parts.map fun p => ⟨.fill (partFill o p), true⟩ })
      else none
  | .read =>
    match s.stream with
    | [] => none
    | report :: stream =>
      let (sent, engine) := s.engine.read report.msg
      some ([⟨report, s.engine.position.netPosition, engine.position.netPosition, sent⟩],
        ⟨engine, s.orders ++ sent.toList, stream⟩)

end System

/-- The quantity of its own orders that a message reports filled. -/
def Report.ownQuantity : Report → ℕ
  | ⟨.fill f, true⟩ => f.quantity.toNat
  | _ => 0

/-- The quantity of flatten orders that the engine has not seen filled yet. -/
def unreported (orders : List OrderMsg) (stream : List Report) : ℕ :=
  (orders.map fun o => o.quantity.toNat).sum + (stream.map Report.ownQuantity).sum

/-- No flatten order is sent while an earlier one still has quantity unreported. -/
def SingleFlatten (s : System) (_ : SystemEvent) (log : List Reading) : Prop :=
  ∀ r ∈ log, r.sent.isSome → unreported s.orders s.stream.tail = 0

/-- Towards zero, and not past it. -/
def Closes (before after : ℤ) : Prop :=
  (0 ≤ after ∧ after ≤ before) ∨ (before ≤ after ∧ after ≤ 0)

/-- The engine's own fills do not take the position through zero. -/
def NotThroughZero (_ : System) (_ : SystemEvent) (log : List Reading) : Prop :=
  ∀ r ∈ log, r.report.own → Closes r.before r.after

/-- A fill that is read while `outstanding` is unreported completes the flatten order or leaves
the position within the limit; a fill of somebody else leaves at least the outstanding quantity on
the side it was on. -/
def InOrder (limits : RiskLimits) (outstanding : ℕ) (own : Bool) (before after : ℤ) : Prop :=
  (outstanding = 0 ∨ |after| ≤ limits.maxAbsPosition) ∧
    (own = false → (0 < before ∧ outstanding ≤ after) ∨ (before < 0 ∧ outstanding ≤ -after))

/-- No fill comes between a flatten order and its completion that the engine would answer with
another one, or that takes away the position the order is to close. -/
def Orderly (s : System) (e : SystemEvent) (_ : List Reading) : Prop :=
  match e, s.stream with
  | .read, ⟨.fill f, own⟩ :: stream =>
    0 < unreported s.orders s.stream →
      InOrder s.engine.limits (unreported s.orders stream) own s.engine.position.netPosition
        (s.engine.position.netPosition + f.signedQuantity)
  | _, _ => True

instance (before after : ℤ) : Decidable (Closes before after) :=
  inferInstanceAs (Decidable (_ ∨ _))

instance (limits : RiskLimits) (outstanding : ℕ) (own : Bool) (before after : ℤ) :
    Decidable (InOrder limits outstanding own before after) := inferInstanceAs (Decidable (_ ∧ _))

instance (s : System) (e : SystemEvent) (log : List Reading) : Decidable (SingleFlatten s e log) :=
  inferInstanceAs (Decidable (∀ r ∈ log, _))

instance (s : System) (e : SystemEvent) (log : List Reading) :
    Decidable (NotThroughZero s e log) := inferInstanceAs (Decidable (∀ r ∈ log, _))

instance (s : System) (e : SystemEvent) (log : List Reading) : Decidable (Orderly s e log) :=
  match s, e with
  | ⟨engine, orders, ⟨.fill f, own⟩ :: stream⟩, .read =>
    inferInstanceAs (Decidable (0 < unreported orders (⟨.fill f, own⟩ :: stream) →
      InOrder engine.limits (unreported orders stream) own engine.position.netPosition
        (engine.position.netPosition + f.signedQuantity)))
  | ⟨_, _, ⟨.ack _, _⟩ :: _⟩, .read | ⟨_, _, []⟩, .read => .isTrue trivial
  | _, .aggress _ | _, .execute _ => .isTrue trivial

/-- The position that an order of this side closes. -/
def exposure (side : Side) (net : ℤ) : ℤ :=
  match side with
  | .sell => net
  | .buy => -net

/-- All that is unreported closes one position, and no more than there is of it. -/
structure Closing (side : Side) (s : System) : Prop where
  orders : ∀ o ∈ s.orders, o.quantity ≠ 0 → o.side = side
  own : ∀ f, ⟨.fill f, true⟩ ∈ s.stream → f.incomingSide = side ∧ f.quantity ≠ 0
  covered : (unreported s.orders s.stream : ℤ) ≤ exposure side s.engine.position.netPosition

variable {s t : System} {e : SystemEvent} {log : List Reading} {engine : RiskEngine}
  {orders : List OrderMsg} {stream : List Report} {side : Side} {f : FillEvent} {net : ℤ}

/-- All that an event can do. -/
theorem System.step_cases (h : s.step e = some (log, t)) :
    (∃ fills, e = .aggress fills ∧ log = [] ∧
        t = { s with stream := s.stream ++ fills.map fun f => ⟨.fill f, false⟩ }) ∨
      (∃ parts o orders, e = .execute parts ∧ s.orders = o :: orders ∧
        (∀ p ∈ parts, p.quantity ≠ 0) ∧ quantities parts = o.quantity.toNat ∧ log = [] ∧
        t = { s with
          orders := orders
          stream := s.stream ++ ⟨.ack ⟨o.clientOrderId, MsgType.newOrder.tag, 0⟩, false⟩ ::
            parts.map fun p => ⟨.fill (partFill o p), true⟩ }) ∨
      ∃ report stream, e = .read ∧ s.stream = report :: stream ∧
        log = [⟨report, s.engine.position.netPosition,
          (s.engine.read report.msg).2.position.netPosition, (s.engine.read report.msg).1⟩] ∧
        t = ⟨(s.engine.read report.msg).2, s.orders ++ (s.engine.read report.msg).1.toList,
          stream⟩ := by
  cases e with
  | aggress fills =>
    simp only [step, Option.some.injEq, Prod.mk.injEq] at h
    exact Or.inl ⟨fills, rfl, h.1.symm, h.2.symm⟩
  | execute parts =>
    cases ho : s.orders with
    | nil => simp [step, ho] at h
    | cons o orders =>
      simp only [step, ho] at h
      split at h
      · rename_i hparts
        simp only [Option.some.injEq, Prod.mk.injEq] at h
        exact Or.inr (Or.inl ⟨parts, o, orders, rfl, rfl, hparts.1, hparts.2, h.1.symm,
          h.2.symm⟩)
      · cases h
  | read =>
    cases hs : s.stream with
    | nil => simp [step, hs] at h
    | cons report stream =>
      simp only [step, hs, Option.some.injEq, Prod.mk.injEq] at h
      exact Or.inr (Or.inr ⟨report, stream, rfl, rfl, h.1.symm, h.2.symm⟩)

theorem unreported_send (orders : List OrderMsg) (o : OrderMsg) (stream : List Report) :
    unreported (orders ++ [o]) stream = unreported orders stream + o.quantity.toNat := by
  simp only [unreported, List.map_append, List.map_singleton, List.sum_append,
    List.sum_singleton]
  omega

theorem unreported_cons (orders : List OrderMsg) (r : Report) (stream : List Report) :
    unreported orders (r :: stream) = r.ownQuantity + unreported orders stream := by
  simp only [unreported, List.map_cons, List.sum_cons]
  omega

theorem order_quantity_le {o : OrderMsg} (ho : o ∈ orders) (stream : List Report) :
    o.quantity.toNat ≤ unreported orders stream := by
  have hle : o.quantity.toNat ≤ (orders.map fun o => o.quantity.toNat).sum :=
    List.single_le_sum (fun _ _ => Nat.zero_le _) _ (List.mem_map_of_mem ho)
  simp only [unreported]
  omega

theorem fill_quantity_le (hf : ⟨.fill f, true⟩ ∈ stream) (orders : List OrderMsg) :
    f.quantity.toNat ≤ unreported orders stream := by
  have hle : f.quantity.toNat ≤ (stream.map Report.ownQuantity).sum :=
    List.single_le_sum (fun _ _ => Nat.zero_le _) _ (List.mem_map_of_mem hf)
  simp only [unreported]
  omega

theorem part_quantity_le {parts : List Part} {p : Part} (hp : p ∈ parts) :
    p.quantity.toNat ≤ quantities parts :=
  List.single_le_sum (fun _ _ => Nat.zero_le _) _ (List.mem_map_of_mem hp)

theorem unreported_foreign (orders : List OrderMsg) (stream : List Report)
    (fills : List FillEvent) :
    unreported orders (stream ++ fills.map fun f => ⟨.fill f, false⟩) =
      unreported orders stream := by
  have hnone : ((fills.map fun f => (⟨.fill f, false⟩ : Report)).map
      Report.ownQuantity).sum = 0 := by
    induction fills with
    | nil => rfl
    | cons f fills ih => simpa [Report.ownQuantity] using ih
  simp only [unreported, List.map_append, List.sum_append, hnone]
  omega

theorem unreported_execute (o : OrderMsg) (orders : List OrderMsg) (stream : List Report)
    {parts : List Part} (h : quantities parts = o.quantity.toNat) (a : AckMsg) :
    unreported orders (stream ++ ⟨.ack a, false⟩ ::
        parts.map fun p => ⟨.fill (partFill o p), true⟩) =
      unreported (o :: orders) stream := by
  have hparts : ((parts.map fun p => (⟨.fill (partFill o p), true⟩ : Report)).map
      Report.ownQuantity).sum = quantities parts := by
    rw [List.map_map]
    rfl
  simp only [unreported, List.map_append, List.map_cons, List.sum_append, List.sum_cons, hparts, h,
    Report.ownQuantity]
  omega

theorem exposure_fill (h : f.incomingSide = side) (net : ℤ) :
    exposure side (net + f.signedQuantity) = exposure side net - f.quantity.toNat := by
  subst h
  unfold FillEvent.signedQuantity exposure signedQty
  cases f.incomingSide <;> simp only <;> omega

theorem exposure_nonneg_of_le {n : ℕ} (h : (n : ℤ) ≤ exposure side net) :
    0 ≤ exposure side net := by
  omega

/-- With nothing unreported, any side will do that the position is on. -/
theorem closing_of_settled (hzero : unreported orders stream = 0)
    (hown : ∀ f, ⟨.fill f, true⟩ ∈ stream → f.quantity ≠ 0)
    (hside : 0 ≤ exposure side engine.position.netPosition) :
    Closing side ⟨engine, orders, stream⟩ where
  orders := by
    intro o ho hq
    have hle : o.quantity.toNat ≤ unreported orders stream := order_quantity_le ho stream
    have hpos := toNat_pos_of_ne_zero hq
    omega
  own := by
    intro f hf
    have hle : f.quantity.toNat ≤ unreported orders stream := fill_quantity_le hf orders
    have hpos := toNat_pos_of_ne_zero (hown f hf)
    omega
  covered := by
    rw [hzero]
    exact hside

theorem exists_exposure_nonneg (net : ℤ) : ∃ side, 0 ≤ exposure side net := by
  rcases Int.le_total 0 net with h | h
  · exact ⟨.sell, h⟩
  · exact ⟨.buy, by simp only [exposure]; omega⟩

/-- Sending in answer to a fill, where nothing is unreported, keeps the orders closing. -/
theorem Closing.send (h : Closing side ⟨(s.engine.read (.fill f)).2, orders, stream⟩)
    (hzero : (s.engine.read (.fill f)).1.isSome → unreported orders stream = 0) :
    ∃ side, Closing side ⟨(s.engine.read (.fill f)).2,
      orders ++ (s.engine.read (.fill f)).1.toList, stream⟩ := by
  cases hsent : (s.engine.read (.fill f)).1 with
  | none => exact ⟨side, by simpa using h⟩
  | some o =>
    have hzero := hzero (hsent ▸ rfl)
    have hle : (o.quantity.toNat : ℤ) ≤
        exposure o.side (s.engine.read (.fill f)).2.position.netPosition := by
      rw [RiskEngine.netPosition_read]
      rcases RiskEngine.read_eq_some hsent with ⟨hside, hle⟩ | ⟨hside, hle⟩
      · rw [hside]
        exact hle
      · rw [hside]
        exact hle
    have hsettled : Closing o.side ⟨(s.engine.read (.fill f)).2, orders, stream⟩ :=
      closing_of_settled hzero (fun g hg => (h.own g hg).2) (exposure_nonneg_of_le hle)
    refine ⟨o.side, ?_, hsettled.own, ?_⟩
    · intro o' ho' hq
      rcases List.mem_append.mp ho' with ho' | ho'
      · exact hsettled.orders o' ho' hq
      · rw [Option.toList_some, List.mem_singleton] at ho'
        rw [ho']
    · simp only [Option.toList_some]
      rw [unreported_send, hzero, Nat.zero_add]
      exact hle

theorem Closing.aggress (h : Closing side s) (fills : List FillEvent) :
    Closing side { s with stream := s.stream ++ fills.map fun f => ⟨.fill f, false⟩ } where
  orders := h.orders
  own := by
    intro f hf
    rcases List.mem_append.mp hf with hf | hf
    · exact h.own f hf
    · simp at hf
  covered := by
    simp only [unreported_foreign]
    exact h.covered

theorem Closing.execute {o : OrderMsg} {parts : List Part} (h : Closing side s)
    (ho : s.orders = o :: orders) (hparts : ∀ p ∈ parts, p.quantity ≠ 0)
    (hsum : quantities parts = o.quantity.toNat) (a : AckMsg) :
    Closing side { s with
      orders := orders
      stream := s.stream ++ ⟨.ack a, false⟩ ::
        parts.map fun p => ⟨.fill (partFill o p), true⟩ } where
  orders := by
    intro o' ho' hq
    exact h.orders o' (ho ▸ List.mem_cons_of_mem o ho') hq
  own := by
    intro f hf
    rcases List.mem_append.mp hf with hf | hf
    · exact h.own f hf
    · simp only [List.mem_cons, Report.mk.injEq, reduceCtorEq, false_and, List.mem_map,
        Incoming.fill.injEq, and_true, false_or] at hf
      obtain ⟨p, hp, rfl⟩ := hf
      -- A part of positive quantity: the order it is part of is not empty.
      have hq : o.quantity ≠ 0 := by
        intro hzero
        have hle := part_quantity_le hp
        have hpos := toNat_pos_of_ne_zero (hparts p hp)
        rw [hsum, hzero, UInt32.toNat_zero] at hle
        omega
      refine ⟨?_, hparts p hp⟩
      rw [FillEvent.incomingSide, partFill, Side.opposite_opposite]
      exact h.orders o (ho ▸ List.mem_cons_self) hq
  covered := by
    simp only [unreported_execute o orders s.stream hsum a, ← ho]
    exact h.covered

/-- A fill of the engine's own order: it closes, and a next order is sent only after the last part
of this one. -/
theorem Closing.read_own (h : Closing side s) (hs : s.stream = ⟨.fill f, true⟩ :: stream)
    (hc : unreported s.orders stream = 0 ∨
      |s.engine.position.netPosition + f.signedQuantity| ≤ s.engine.limits.maxAbsPosition) :
    Closes s.engine.position.netPosition (s.engine.position.netPosition + f.signedQuantity) ∧
      ((s.engine.read (.fill f)).1.isSome → unreported s.orders stream = 0) ∧
      Closing side ⟨(s.engine.read (.fill f)).2, s.orders, stream⟩ := by
  obtain ⟨hside, -⟩ := h.own f (hs ▸ List.mem_cons_self)
  have hexp := exposure_fill hside s.engine.position.netPosition
  have hcov := h.covered
  rw [hs, unreported_cons] at hcov
  simp only [Report.ownQuantity] at hcov
  push_cast at hcov
  refine ⟨?_, ?_, h.orders, ?_, ?_⟩
  · cases side with
    | sell =>
      left
      simp only [exposure] at hexp hcov
      omega
    | buy =>
      right
      simp only [exposure] at hexp hcov
      omega
  · intro hsent
    refine hc.resolve_right fun hle => ?_
    rw [RiskEngine.read_eq_none.mpr hle] at hsent
    cases hsent
  · intro g hg
    exact h.own g (hs ▸ List.mem_cons_of_mem _ hg)
  · simp only [RiskEngine.netPosition_read, hexp]
    omega

/-- A fill of somebody else. -/
theorem Closing.read_foreign (h : Closing side s) (hs : s.stream = ⟨.fill f, false⟩ :: stream)
    (hc : Orderly s .read []) :
    ((s.engine.read (.fill f)).1.isSome → unreported s.orders stream = 0) ∧
      ∃ side, Closing side ⟨(s.engine.read (.fill f)).2, s.orders, stream⟩ := by
  have hsame : unreported s.orders s.stream = unreported s.orders stream := by
    rw [hs, unreported_cons]
    exact Nat.zero_add _
  have hown : ∀ g, ⟨.fill g, true⟩ ∈ stream → g.incomingSide = side ∧ g.quantity ≠ 0 := by
    intro g hg
    exact h.own g (hs ▸ List.mem_cons_of_mem _ hg)
  by_cases hzero : unreported s.orders stream = 0
  · refine ⟨fun _ => hzero, ?_⟩
    obtain ⟨side', hside'⟩ := exists_exposure_nonneg
      (s.engine.read (.fill f)).2.position.netPosition
    exact ⟨side', closing_of_settled hzero (fun g hg => (hown g hg).2) hside'⟩
  · simp only [Orderly, hs] at hc
    rw [← hs, hsame] at hc
    obtain ⟨hlimit, hstay⟩ := hc (Nat.pos_of_ne_zero hzero)
    have hle := hlimit.resolve_left hzero
    have hcov := h.covered
    rw [hsame] at hcov
    have hpos : 0 < unreported s.orders stream := Nat.pos_of_ne_zero hzero
    refine ⟨?_, side, h.orders, hown, ?_⟩
    · intro hsent
      rw [RiskEngine.read_eq_none.mpr hle] at hsent
      cases hsent
    · simp only [RiskEngine.netPosition_read]
      cases side with
      | sell =>
        simp only [exposure] at hcov ⊢
        have := hstay rfl
        omega
      | buy =>
        simp only [exposure] at hcov ⊢
        have := hstay rfl
        omega

/-- One event of an orderly run: nothing is sent too early, nothing goes through zero, and what is
under way stays closing. -/
theorem Closing.step (h : Closing side s) (hc : Orderly s e log)
    (hst : s.step e = some (log, t)) :
    (SingleFlatten s e log ∧ NotThroughZero s e log) ∧ ∃ side, Closing side t := by
  rcases System.step_cases hst with ⟨fills, -, rfl, rfl⟩ |
    ⟨parts, o, orders, -, ho, hparts, hsum, rfl, rfl⟩ | ⟨report, stream, rfl, hs, rfl, rfl⟩
  · exact ⟨⟨by simp [SingleFlatten], by simp [NotThroughZero]⟩, side, h.aggress fills⟩
  · exact ⟨⟨by simp [SingleFlatten], by simp [NotThroughZero]⟩, side, h.execute ho hparts hsum _⟩
  simp only [SingleFlatten, NotThroughZero, hs, List.mem_singleton, forall_eq, List.tail_cons]
  obtain ⟨msg, own⟩ := report
  cases msg with
  | ack a =>
    have hack : Closing side ⟨s.engine, s.orders, stream⟩ := by
      refine ⟨h.orders, fun f hf => h.own f (hs ▸ List.mem_cons_of_mem _ hf), ?_⟩
      have hnone : Report.ownQuantity ⟨.ack a, own⟩ = 0 := rfl
      have hcov := h.covered
      rw [hs, unreported_cons, hnone, Nat.zero_add] at hcov
      exact hcov
    simp only [RiskEngine.read, Option.isSome_none, Bool.false_eq_true, false_implies,
      Option.toList_none, List.append_nil, true_and]
    refine ⟨fun _ => ?_, side, hack⟩
    rcases Int.le_total 0 s.engine.position.netPosition with hpos | hneg
    · exact Or.inl ⟨hpos, Int.le_refl _⟩
    · exact Or.inr ⟨Int.le_refl _, hneg⟩
  | fill f =>
    rw [RiskEngine.netPosition_read]
    cases own with
    | false =>
      obtain ⟨hsingle, side', hread⟩ := h.read_foreign hs hc
      exact ⟨⟨hsingle, by simp⟩, hread.send hsingle⟩
    | true =>
      simp only [Orderly, hs] at hc
      rw [← hs] at hc
      have hpos : 0 < unreported s.orders s.stream := by
        have hin : ⟨.fill f, true⟩ ∈ s.stream := hs ▸ List.mem_cons_self
        have hle := fill_quantity_le hin s.orders
        have hq := toNat_pos_of_ne_zero (h.own f hin).2
        omega
      obtain ⟨hcloses, hsingle, hread⟩ := h.read_own hs (hc hpos).1
      exact ⟨⟨hsingle, fun _ => hcloses⟩, hread.send hsingle⟩

/-- An aggressor's order in two parts: the second is answered with a flatten order as well, while
the first one is still under way, and the two together turn the position round. -/
theorem flattens_twice_and_through_zero :
    let es : List SystemEvent := [.aggress [⟨1, 2, .sell, 100, 50, 1⟩, ⟨3, 2, .sell, 100, 50, 2⟩],
      .read, .read, .execute [⟨4, 100, 50, 5⟩], .execute [⟨4, 100, 100, 7⟩],
      .read, .read, .read, .read]
    Along System.step (fun _ _ _ => True) (.start ⟨20⟩) es ∧
      ¬ Along System.step SingleFlatten (.start ⟨20⟩) es ∧
      ¬ Along System.step NotThroughZero (.start ⟨20⟩) es := by
  decide

/-- In every orderly run, for every limit and however fills are cut and delayed, a flatten order
is only sent when none is outstanding, and the engine's own fills never take the position through
zero. -/
theorem flattens_once_of_orderly (limits : RiskLimits) (es : List SystemEvent)
    (h : Along System.step Orderly (.start limits) es) :
    Along System.step (fun s e log => SingleFlatten s e log ∧ NotThroughZero s e log)
      (.start limits) es := by
  refine Along.of_invariant (P := fun s => ∃ side, Closing side s) ?_ h ⟨.sell, ?_⟩
  · rintro s e log t ⟨side, hside⟩ hc hst
    obtain ⟨hq, ht⟩ := hside.step hc hst
    exact ⟨ht, hq⟩
  · exact closing_of_settled rfl (by simp) (Int.le_refl _)

theorem flattens_once_of_orderly_partial_fills :
    Along System.step (fun s e log => SingleFlatten s e log ∧ NotThroughZero s e log)
      (.start ⟨20⟩) [.aggress [⟨1, 2, .sell, 100, 50, 1⟩], .read,
        .execute [⟨4, 100, 30, 5⟩, ⟨5, 99, 20, 6⟩], .aggress [⟨6, 7, .buy, 100, 10, 8⟩],
        .read, .read, .read, .read] :=
  flattens_once_of_orderly _ _ (by decide)

end Velo.Risk
