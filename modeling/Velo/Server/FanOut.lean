import Velo.Server.Acknowledgement

/-! Who receives a fill, and how often. -/
namespace Velo
open Machine

namespace OrderBookServer

variable {s : OrderBookServer} {fd fd' : Fd} {fill : Fill}

/-- The descriptors the copies of a fill are written to. -/
def recipients (s : OrderBookServer) (fd : Fd) (fill : Fill) : List Fd :=
  let alreadySentTo := fd :: s.otherOwner fd fill
  alreadySentTo ++ (s.connections.filter fun c =>
    c.subscribedToFills ∧ c.fd ∉ alreadySentTo).map Connection.fd

theorem fillSends_eq (s : OrderBookServer) (fd : Fd) (fill : Fill) :
    s.fillSends fd fill = (s.recipients fd fill).map (sendFill · fill) := by
  simp only [fillSends, recipients, broadcastFillToSubscribers, List.map_append, List.map_map]
  rfl

theorem mem_otherOwner : fd' ∈ s.otherOwner fd fill ↔
    s.orderOwnerFd.lookup fill.restingOrderId = some fd' ∧ fd' ≠ fd := by
  unfold otherOwner
  split
  · rename_i hnone
    simp [hnone]
  · rename_i owner hsome
    rw [hsome, Option.some.injEq]
    split
    · rename_i he
      simp only [List.not_mem_nil, false_iff, not_and, not_not]
      rintro rfl
      exact he
    · rename_i he
      rw [List.mem_singleton]
      constructor
      · rintro rfl
        exact ⟨rfl, he⟩
      · rintro ⟨rfl, -⟩
        rfl

theorem nodup_otherOwner : (s.otherOwner fd fill).Nodup := by
  unfold otherOwner
  split
  · exact List.nodup_nil
  · split <;> simp

/-- The submitter, the recorded owner and the subscribers: a role more does not add a copy. -/
theorem mem_recipients : fd' ∈ s.recipients fd fill ↔
    fd' = fd ∨ s.orderOwnerFd.lookup fill.restingOrderId = some fd' ∨
      ∃ c ∈ s.connections, c.fd = fd' ∧ c.subscribedToFills := by
  simp only [recipients, List.mem_append, List.mem_cons, mem_otherOwner, List.mem_map,
    List.mem_filter, decide_eq_true_eq, not_or]
  constructor
  · rintro ((rfl | ⟨ho, -⟩) | ⟨c, ⟨hc, hsub, -⟩, rfl⟩)
    · exact Or.inl rfl
    · exact Or.inr (Or.inl ho)
    · exact Or.inr (Or.inr ⟨c, hc, rfl, hsub⟩)
  · intro h
    by_cases hfd : fd' = fd
    · exact Or.inl (Or.inl hfd)
    · by_cases ho : s.orderOwnerFd.lookup fill.restingOrderId = some fd'
      · exact Or.inl (Or.inr ⟨ho, hfd⟩)
      · rcases h with h | h | ⟨c, hc, rfl, hsub⟩
        · exact absurd h hfd
        · exact absurd h ho
        · exact Or.inr ⟨c, ⟨hc, hsub, hfd, fun h => ho h.1⟩, rfl⟩

theorem nodup_recipients (h : (s.connections.map Connection.fd).Nodup) :
    (s.recipients fd fill).Nodup := by
  refine List.nodup_append.mpr ⟨?_, h.sublist (List.filter_sublist.map _), ?_⟩
  · refine List.nodup_cons.mpr ⟨?_, nodup_otherOwner⟩
    intro hmem
    exact (mem_otherOwner.mp hmem).2 rfl
  · rintro a ha b hb rfl
    obtain ⟨c, hc, rfl⟩ := List.mem_map.mp hb
    have hfresh := of_decide_eq_true (List.mem_filter.mp hc).2
    exact hfresh.2 ha

end OrderBookServer

namespace Session

variable {s : Session} {fd fd' : Fd} {k k' : ConnId} {fill : Fill}

theorem received_cons (j : ConnId) (msg : ServerMsg) (ds : List (ConnId × ServerMsg)) :
    received k ((j, msg) :: ds) = if j = k then msg :: received k ds else received k ds := by
  by_cases hj : j = k <;> simp [received, hj]

theorem received_deliver_sendFill (fds : List Fd) (fill : Fill) :
    received k (s.deliver (fds.map (sendFill · fill))) =
      (fds.filter fun fd => s.holder fd = some k).map fun _ => .fill fill.toWire := by
  induction fds with
  | nil => rfl
  | cons fd fds ih =>
    rw [List.map_cons]
    cases hk : s.holder fd with
    | none => simpa [deliver, received, sendFill, hk] using ih
    | some j =>
      have hcons : s.deliver (sendFill fd fill :: fds.map (sendFill · fill)) =
          (j, .fill fill.toWire) :: s.deliver (fds.map (sendFill · fill)) := deliver_cons hk _ _
      rw [hcons, received_cons, ih]
      by_cases hj : j = k <;> simp [hk, hj]

/-- A connection gets one copy of a fill if it submitted the incoming order, is recorded as the
owner of the resting one or has subscribed, and none otherwise. -/
theorem Sound.received_fill (h : s.Sound) (hk : s.holder fd' = some k) (fd : Fd) (fill : Fill) :
    received k (s.deliver (s.server.fillSends fd fill)) =
      if fd' = fd ∨ s.server.orderOwnerFd.lookup fill.restingOrderId = some fd' ∨ s.subscribed k
      then [.fill fill.toWire] else [] := by
  have hfds : ((s.server.recipients fd fill).filter fun x => s.holder x = some k) =
      (s.server.recipients fd fill).filter (· = fd') := by
    refine List.filter_congr fun x _ => decide_eq_decide.mpr ?_
    constructor
    · intro hx
      exact h.holder_inj hx hk
    · rintro rfl
      exact hk
  have hsub : (∃ c ∈ s.server.connections, c.fd = fd' ∧ c.subscribedToFills) ↔ s.subscribed k := by
    constructor
    · rintro ⟨c, hc, rfl, hc'⟩
      exact h.flag c hc k hk ▸ hc'
    · intro hk'
      obtain ⟨c, hc, rfl⟩ := List.mem_map.mp ((h.held fd').mpr ⟨k, hk⟩)
      exact ⟨c, hc, rfl, (h.flag c hc k hk).trans hk'⟩
  have hmem : fd' ∈ s.server.recipients fd fill ↔ fd' = fd ∨
      s.server.orderOwnerFd.lookup fill.restingOrderId = some fd' ∨ s.subscribed k := by
    rw [← hsub]
    exact OrderBookServer.mem_recipients
  have hnodup : (s.server.recipients fd fill).Nodup :=
    OrderBookServer.nodup_recipients h.fds_nodup
  rw [OrderBookServer.fillSends_eq, received_deliver_sendFill, hfds, List.filter_eq]
  by_cases hin : fd' ∈ s.server.recipients fd fill
  · rw [List.count_eq_one_of_mem hnodup hin, if_pos (hmem.mp hin)]
    rfl
  · rw [List.count_eq_zero.mpr hin, if_neg (fun hrole => hin (hmem.mpr hrole))]
    rfl

theorem received_closed (h : ∀ fd, s.holder fd ≠ some k) (sends : List Send) :
    received k (s.deliver sends) = [] := by
  induction sends with
  | nil => rfl
  | cons w sends ih =>
    cases hw : s.holder w.fd with
    | none => simpa [deliver, received, hw] using ih
    | some j =>
      have hj : j ≠ k := by
        rintro rfl
        exact h _ hw
      have hcons : s.deliver (w :: sends) = (j, w.msg) :: s.deliver sends := deliver_cons hw _ _
      rw [hcons, received_cons, if_neg hj, ih]

theorem deliver_append (sends sends' : List Send) :
    s.deliver (sends ++ sends') = s.deliver sends ++ s.deliver sends' :=
  List.filterMap_append

theorem received_deliver_flatMap (g : Fill → List Send) (fills : List Fill) :
    received k (s.deliver (fills.flatMap g)) =
      fills.flatMap fun f => received k (s.deliver (g f)) := by
  induction fills with
  | nil => rfl
  | cons f fills ih =>
    rw [List.flatMap_cons, List.flatMap_cons, deliver_append, received_append, ih]

/-- Every recorded owner is closed, or is held by the connection that put the order to rest. -/
def OwnersCurrent (s : Session) : Prop :=
  ∀ id ∈ s.server.orderOwnerFd.keys, ∀ fd ∈ s.server.orderOwnerFd.lookup id,
    s.holder fd = none ∨ s.holder fd = s.owner id

-- Through the keys: over all ids of the type it would be decided one by one.
instance : DecidablePred OwnersCurrent := fun s =>
  have (id : UInt64) : Decidable (∀ fd ∈ s.server.orderOwnerFd.lookup id,
      s.holder fd = none ∨ s.holder fd = s.owner id) := inferInstance
  Finset.decidableDforallFinset

theorem mem_keys_of_lookup {id : UInt64} (h : s.server.orderOwnerFd.lookup id = some fd) :
    id ∈ s.server.orderOwnerFd.keys :=
  Finmap.mem_keys.mpr (Finmap.lookup_isSome.mp (h ▸ rfl))

theorem ownersCurrent_iff : s.OwnersCurrent ↔ ∀ id fd,
    s.server.orderOwnerFd.lookup id = some fd → s.holder fd = none ∨ s.holder fd = s.owner id := by
  constructor
  · intro h id fd hlookup
    exact h id (mem_keys_of_lookup hlookup) fd hlookup
  · intro h id _ fd hlookup
    exact h id fd hlookup

/-- An open connection is recorded for the orders it put to rest, and for no others. -/
theorem Sound.lookup_iff_owner (h : s.Sound) (hcur : s.OwnersCurrent) (hk : s.holder fd = some k)
    {id : UInt64} (hid : s.server.book.Rests id) :
    s.server.orderOwnerFd.lookup id = some fd ↔ s.owner id = some k := by
  constructor
  · intro hlookup
    rcases ownersCurrent_iff.mp hcur id fd hlookup with hnone | hown
    · simp [hk] at hnone
    · rw [← hown, hk]
  · intro hown
    obtain ⟨fd₀, hlookup⟩ := Option.isSome_iff_exists.mp
      (Finmap.lookup_isSome.mpr ((h.owned id).mpr hid))
    obtain ⟨j, hj, hd⟩ := h.owner id fd₀ hlookup
    rw [hown] at hj
    cases hj
    rw [h.descriptor fd k hk] at hd
    rw [hlookup, hd]

theorem flatMap_copies {P : Fill → Prop} [DecidablePred P] (fills : List Fill) :
    (fills.flatMap fun f => if P f then [ServerMsg.fill f.toWire] else []) =
      (fills.filter fun f => P f).map fun f => .fill f.toWire := by
  induction fills with
  | nil => rfl
  | cons f fills ih =>
    rw [List.flatMap_cons, ih]
    by_cases hf : P f <;> simp [hf]

end Session

/-- From any reachable state whose recorded owners are current, an accepted order and its fills
come out once for each connection: the submitter gets the acknowledgement and every fill, another
one those it owns the resting order of, or all of them if it is subscribed, and nobody anything
else. -/
theorem fan_out_exactly_once (es : List Event) {log : List Dispatch} {s : Session}
    (h : run Session.step .start es = some (log, s)) (hcur : s.OwnersCurrent) {fd : Fd}
    {k : ConnId} (hk : s.holder fd = some k) (msg : ClientOrderMsg)
    (hid : ¬ s.server.book.Rests msg.clientOrderId) :
    let fills := (s.server.book.submit msg.toOrder).1
    let out := s.deliver (s.server.dispatch fd (.newOrder msg)).1
    received k out = .ack ⟨msg.clientOrderId, MsgType.newOrder.tag, 0⟩ ::
        fills.map (fun f => .fill f.toWire) ∧
      (∀ fd' k', s.holder fd' = some k' → k' ≠ k → received k' out =
        (fills.filter fun f => s.owner f.restingOrderId = some k' ∨ s.subscribed k').map
          fun f => .fill f.toWire) ∧
      ∀ k', (∀ fd', s.holder fd' ≠ some k') → received k' out = [] := by
  intro fills out
  have hs := Session.Sound.start.run h
  obtain ⟨L, hL⟩ := hs.book
  have hfills := (hL.submit_fills (o := msg.toOrder) hid).2
  have hout : out = (k, .ack ⟨msg.clientOrderId, MsgType.newOrder.tag, 0⟩) ::
      s.deliver (fills.flatMap (s.server.fillSends fd)) := by
    have hsends := (dispatchNewOrder_accepted hL fd hid).1
    have hcons := s.deliver_cons hk (.ack ⟨msg.clientOrderId, MsgType.newOrder.tag, 0⟩)
      (fills.flatMap (s.server.fillSends fd))
    exact (congrArg s.deliver hsends).trans hcons
  refine ⟨?_, ?_, fun k' hk' => Session.received_closed hk' _⟩
  · have hall : ∀ f ∈ fills, received k (s.deliver (s.server.fillSends fd f)) =
        [.fill f.toWire] := by
      intro f _
      rw [hs.received_fill hk, if_pos (Or.inl rfl)]
    rw [hout, Session.received_cons, if_pos rfl, Session.received_deliver_flatMap,
      List.flatMap_congr hall, ← List.map_eq_flatMap]
  · intro fd' k' hk' hne
    have hfd : fd' ≠ fd := by
      rintro rfl
      rw [hk] at hk'
      exact hne (Option.some.inj hk').symm
    have hall : ∀ f ∈ fills, received k' (s.deliver (s.server.fillSends fd f)) =
        if s.owner f.restingOrderId = some k' ∨ s.subscribed k' then [.fill f.toWire] else [] := by
      intro f hf
      have hown := hs.lookup_iff_owner hcur hk' (hfills f hf).2
      rw [hs.received_fill hk']
      simp only [hfd, false_or, hown]
    rw [hout, Session.received_cons, if_neg (Ne.symm hne), Session.received_deliver_flatMap,
      List.flatMap_congr hall, Session.flatMap_copies]

/-- An owner who subscribed gets one copy of the fill of its order, from a submitter who owns the
other one. -/
theorem fan_out_exactly_once_of_overlapping_roles :
    let s := (((((Session.start.connect 5).connect 6).dispatch 5 0 .subscribeFills).dispatch 5 0
      (.newOrder ⟨1, 1, 0, 100, 10⟩)).dispatch 6 1 (.newOrder ⟨2, 1, 0, 100, 5⟩))
    received 0 (s.deliver (s.server.dispatch 6 (.newOrder ⟨3, 0, 0, 100, 12⟩)).1) =
      [.fill ⟨1, 3, 1, 100, 10, 3⟩, .fill ⟨2, 3, 1, 100, 2, 4⟩] := by
  intro s
  have hrun : run Session.step .start [.connect 5, .connect 6, .message 5 .subscribeFills,
      .message 5 (.newOrder ⟨1, 1, 0, 100, 10⟩), .message 6 (.newOrder ⟨2, 1, 0, 100, 5⟩)] =
      some (_, s) := rfl
  have hcur : s.OwnersCurrent := by decide
  have hk : s.holder 6 = some 1 := rfl
  have hout := (fan_out_exactly_once _ hrun hcur hk ⟨3, 0, 0, 100, 12⟩ (by decide)).2.1 5 0 rfl
    (by decide)
  rw [hout]
  decide

end Velo
