import Velo.Server.FanOut

/-! Fills and strangers. The owner map remembers descriptors, and the operating system gives out a
descriptor again; while it does so only for those the map has forgotten, fills stay with the
connections that took part in them and with the subscribers. -/
namespace Velo
open Machine

/-- The fills among the messages delivered. -/
def Dispatch.fills (d : Dispatch) : List (ConnId × FillWireMsg) :=
  d.delivered.filterMap fun p =>
    match p.2 with
    | .fill f => some (p.1, f)
    | .ack _ => none

namespace Session

/-- The connection still holds the descriptor it was given. -/
def IsOpen (s : Session) (k : ConnId) : Prop := (s.descriptors[k]?).bind s.holder = some k

instance (s : Session) : DecidablePred s.IsOpen := fun k =>
  inferInstanceAs (Decidable ((s.descriptors[k]?).bind s.holder = some k))

/-- A fill reaches the sender of the incoming order, the connection that put the resting order to
rest if that is still open, and subscribers. -/
def Confined (s : Session) (_ : Event) (log : List Dispatch) : Prop :=
  ∀ d ∈ log, ∀ p ∈ d.fills, p.1 = d.sender ∨
    (s.owner p.2.restingOrderId = some p.1 ∧ s.IsOpen p.1) ∨ s.subscribed p.1

instance (s : Session) (e : Event) (log : List Dispatch) : Decidable (s.Confined e log) :=
  inferInstanceAs (Decidable (∀ d ∈ log, ∀ p ∈ d.fills, p.1 = d.sender ∨
    (s.owner p.2.restingOrderId = some p.1 ∧ s.IsOpen p.1) ∨ s.subscribed p.1))

/-- The descriptor is in no entry of the owner map. -/
def Unrecorded (s : Session) (fd : Fd) : Prop :=
  ∀ id ∈ s.server.orderOwnerFd.keys, s.server.orderOwnerFd.lookup id ≠ some fd

instance (s : Session) : DecidablePred s.Unrecorded := fun _ => Finset.decidableDforallFinset

/-- No new connection gets a descriptor that the owner map still has. -/
def Careful (s : Session) (e : Event) (_ : List Dispatch) : Prop :=
  match e with
  | .connect fd => s.Unrecorded fd
  | _ => True

instance (s : Session) (e : Event) (log : List Dispatch) : Decidable (s.Careful e log) :=
  match e with
  | .connect fd => inferInstanceAs (Decidable (s.Unrecorded fd))
  | .disconnect _ | .message _ _ => .isTrue trivial

variable {s t : Session} {fd : Fd} {k : ConnId} {e : Event} {l : List Dispatch}

theorem Unrecorded.lookup_ne (h : s.Unrecorded fd) (id : UInt64) :
    s.server.orderOwnerFd.lookup id ≠ some fd := by
  intro hlookup
  exact h id (mem_keys_of_lookup hlookup) hlookup

theorem OwnersCurrent.start : OwnersCurrent .start := by
  rw [ownersCurrent_iff]
  intro id fd hlookup
  simp [Session.start, OrderBookServer.start] at hlookup

theorem OwnersCurrent.dispatch (h : s.OwnersCurrent) (hs : s.Sound) (hk : s.holder fd = some k)
    (msg : ClientMsg) : (s.dispatch fd k msg).OwnersCurrent := by
  rw [ownersCurrent_iff] at h ⊢
  intro id fd' hfd'
  rcases hs.entry_dispatch fd k msg hfd' with ⟨rfl, hown⟩ | ⟨hlookup, hown⟩
  · rw [hown]
    exact Or.inr hk
  · rw [hown]
    exact h id fd' hlookup

/-- Along careful steps the recorded owners stay current. -/
theorem OwnersCurrent.step (h : s.OwnersCurrent) (hs : s.Sound) (hc : s.Careful e l)
    (hst : s.step e = some (l, t)) : t.OwnersCurrent := by
  rcases step_cases hst with ⟨fd, rfl, -, -, rfl⟩ | ⟨fd, k, rfl, -, -, rfl⟩ |
    ⟨fd, k, msg, rfl, hk, -, rfl⟩
  · rw [ownersCurrent_iff] at h ⊢
    intro id fd' hlookup
    have hne : fd' ≠ fd := by
      rintro rfl
      exact Unrecorded.lookup_ne hc id hlookup
    simp only [Session.connect, Function.update_of_ne hne]
    exact h id fd' hlookup
  · rw [ownersCurrent_iff] at h ⊢
    intro id fd' hlookup
    by_cases he : fd' = fd
    · simp [Session.disconnect, he]
    · simp only [Session.disconnect, Function.update_of_ne he]
      exact h id fd' hlookup
  · exact h.dispatch hs hk msg

theorem mem_received {m : ServerMsg} {ds : List (ConnId × ServerMsg)} :
    m ∈ received k ds ↔ (k, m) ∈ ds := by
  simp [received]

theorem Sound.isOpen (h : s.Sound) (hk : s.holder fd = some k) : s.IsOpen k := by
  simp [IsOpen, h.descriptor fd k hk, hk]

/-- While the recorded owners are current, what one message delivers is confined. -/
theorem Sound.confined (h : s.Sound) (hcur : s.OwnersCurrent) (hst : s.step e = some (l, t)) :
    s.Confined e l := by
  rcases step_cases hst with ⟨fd, -, -, rfl, -⟩ | ⟨fd, k, -, -, rfl, -⟩ |
    ⟨fd, k, msg, -, hk, rfl, -⟩
  · simp [Confined]
  · simp [Confined]
  obtain ⟨L, hL⟩ := h.book
  intro d hd p hp
  cases List.mem_singleton.mp hd
  obtain ⟨k', f⟩ := p
  have hmem : (k', .fill f) ∈ s.deliver (s.server.dispatch fd msg).1 := by
    obtain ⟨⟨j, m⟩, hm, he⟩ := List.mem_filterMap.mp hp
    cases m with
    | ack a => cases he
    | fill g =>
      cases he
      exact hm
  cases msg with
  | newOrder msg =>
    by_cases hid : s.server.book.Rests msg.clientOrderId
    · rw [OrderBookServer.dispatch, dispatchNewOrder_rejected hL fd hid] at hmem
      rw [sendAck, deliver_cons hk] at hmem
      simp [deliver] at hmem
    · have hsends := (dispatchNewOrder_accepted hL fd hid).1
      rw [OrderBookServer.dispatch, hsends, sendAck, deliver_cons hk] at hmem
      simp only [List.mem_cons, Prod.mk.injEq, reduceCtorEq, and_false, false_or] at hmem
      rw [← mem_received, received_deliver_flatMap] at hmem
      obtain ⟨g, hg, hmem⟩ := List.mem_flatMap.mp hmem
      have hrests := ((hL.submit_fills (o := msg.toOrder) hid).2 g hg).2
      by_cases hopen : ∃ fd', s.holder fd' = some k'
      · obtain ⟨fd', hk'⟩ := hopen
        rw [h.received_fill hk'] at hmem
        split at hmem
        · rename_i hrole
          cases List.mem_singleton.mp hmem
          rcases hrole with rfl | hown | hsub
          · rw [hk] at hk'
            exact Or.inl (Option.some.inj hk').symm
          · exact Or.inr (Or.inl ⟨(h.lookup_iff_owner hcur hk' hrests).mp hown, h.isOpen hk'⟩)
          · exact Or.inr (Or.inr hsub)
        · cases hmem
      · rw [received_closed (not_exists.mp hopen)] at hmem
        cases hmem
  | cancel msg =>
    rw [OrderBookServer.dispatch, (dispatchCancel_eq hL fd msg).1, sendAck,
      deliver_cons hk] at hmem
    simp [deliver] at hmem
  | subscribeFills => cases hmem

end Session

/-- A client rests a sell and leaves; the next one is given its descriptor, and gets the fill of
a trade between strangers. -/
theorem fills_leak_to_reused_descriptor :
    let es : List Event := [.connect 5, .message 5 (.newOrder ⟨1, 1, 0, 100, 10⟩), .disconnect 5,
      .connect 5, .connect 6, .message 6 (.newOrder ⟨2, 0, 0, 100, 10⟩)]
    Along Session.step (fun _ _ _ => True) .start es ∧
      ¬ Along Session.step Session.Confined .start es := by
  decide

/-- Along every run in which no connection is given a descriptor that the owner map still has, a
fill goes to the two connections that took part in it, as far as they are open, to the subscribers
and to nobody else. -/
theorem fills_confined_of_careful (es : List Event)
    (h : Along Session.step Session.Careful .start es) :
    Along Session.step Session.Confined .start es := by
  refine Along.of_invariant (P := fun s : Session => s.Sound ∧ s.OwnersCurrent) ?_ h
    ⟨Session.Sound.start, Session.OwnersCurrent.start⟩
  rintro s e l t ⟨hs, hcur⟩ hc hst
  exact ⟨⟨hs.step hst, hcur.step hs hc hst⟩, hs.confined hcur hst⟩

theorem fills_confined_of_careful_after_a_disconnect :
    Along Session.step Session.Confined .start [.connect 5,
      .message 5 (.newOrder ⟨1, 1, 0, 100, 10⟩), .disconnect 5, .connect 6,
      .message 6 (.newOrder ⟨2, 0, 0, 100, 10⟩)] :=
  fills_confined_of_careful _ (by decide)

end Velo
