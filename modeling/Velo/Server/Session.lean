import Velo.Lib.Machine
import Velo.Server.Routing

/-! The server and its clients. A descriptor number is given out again once it is closed, so a
connection is known here by how many were accepted before it. -/
namespace Velo
open Machine

abbrev ConnId := ℕ

inductive Event
  | connect (fd : Fd)
  | disconnect (fd : Fd)
  | message (fd : Fd) (msg : ClientMsg)

/-- A dispatched message: whose it was, and what was delivered to whom. -/
structure Dispatch where
  sender : ConnId
  msg : ClientMsg
  delivered : List (ConnId × ServerMsg)
  deriving DecidableEq

/-- What one connection gets of what is delivered. -/
def received (k : ConnId) (ds : List (ConnId × ServerMsg)) : List ServerMsg :=
  (ds.filter fun d => d.1 = k).map Prod.snd

/-- `descriptors` are those of all connections ever accepted, in that order, and `holder` is the
operating system's table of the open ones; `owner` and `subscribed` say which connection last put
an order with an id to rest and which have sent `SubscribeFills`. -/
structure Session where
  server : OrderBookServer
  descriptors : List Fd
  holder : Fd → Option ConnId
  owner : UInt64 → Option ConnId
  subscribed : ConnId → Bool

namespace Session

def start : Session := ⟨.start, [], fun _ => none, fun _ => none, fun _ => false⟩

def connect (s : Session) (fd : Fd) : Session :=
  { s with
    server := s.server.acceptConnection fd
    descriptors := s.descriptors ++ [fd]
    holder := Function.update s.holder fd (some s.descriptors.length) }

def disconnect (s : Session) (fd : Fd) : Session :=
  { s with
    server := s.server.removeConnection fd
    holder := Function.update s.holder fd none }

/-- A write to a closed descriptor reaches nobody, any other the connection that now holds it. -/
def deliver (s : Session) (sends : List Send) : List (ConnId × ServerMsg) :=
  sends.filterMap fun w => (s.holder w.fd).map fun k => (k, w.msg)

/-- The owners after a message of connection `k`, with the book it leaves. -/
def ownerAfter (s : Session) (k : ConnId) (book : OrderBook) :
    ClientMsg → UInt64 → Option ConnId
  | .newOrder msg =>
    if ¬ s.server.book.Rests msg.clientOrderId ∧ book.Rests msg.clientOrderId then
      Function.update s.owner msg.clientOrderId (some k)
    else s.owner
  | _ => s.owner

def subscribedAfter (s : Session) (k : ConnId) : ClientMsg → ConnId → Bool
  | .subscribeFills => Function.update s.subscribed k true
  | _ => s.subscribed

def dispatch (s : Session) (fd : Fd) (k : ConnId) (msg : ClientMsg) : Session :=
  let server := (s.server.dispatch fd msg).2
  { s with
    server := server
    owner := s.ownerAfter k server.book msg
    subscribed := s.subscribedAfter k msg }

/-- Only a closed descriptor is given out, and only an open one is heard from. -/
def step (s : Session) : Event → Option (List Dispatch × Session)
  | .connect fd =>
    match s.holder fd with
    | none => some ([], s.connect fd)
    | some _ => none
  | .disconnect fd =>
    match s.holder fd with
    | none => none
    | some _ => some ([], s.disconnect fd)
  | .message fd msg =>
    match s.holder fd with
    | none => none
    | some k =>
      some ([⟨k, msg, s.deliver (s.server.dispatch fd msg).1⟩], s.dispatch fd k msg)

/-- All that an event can do. -/
theorem step_cases {s t : Session} {e : Event} {l : List Dispatch} (h : s.step e = some (l, t)) :
    (∃ fd, e = .connect fd ∧ s.holder fd = none ∧ l = [] ∧ t = s.connect fd) ∨
      (∃ fd k, e = .disconnect fd ∧ s.holder fd = some k ∧ l = [] ∧ t = s.disconnect fd) ∨
      ∃ fd k msg, e = .message fd msg ∧ s.holder fd = some k ∧
        l = [⟨k, msg, s.deliver (s.server.dispatch fd msg).1⟩] ∧ t = s.dispatch fd k msg := by
  cases e with
  | connect fd =>
    cases hk : s.holder fd with
    | none =>
      simp only [step, hk, Option.some.injEq, Prod.mk.injEq] at h
      exact Or.inl ⟨fd, rfl, hk, h.1.symm, h.2.symm⟩
    | some k => simp [step, hk] at h
  | disconnect fd =>
    cases hk : s.holder fd with
    | none => simp [step, hk] at h
    | some k =>
      simp only [step, hk, Option.some.injEq, Prod.mk.injEq] at h
      exact Or.inr (Or.inl ⟨fd, k, rfl, hk, h.1.symm, h.2.symm⟩)
  | message fd msg =>
    cases hk : s.holder fd with
    | none => simp [step, hk] at h
    | some k =>
      simp only [step, hk, Option.some.injEq, Prod.mk.injEq] at h
      exact Or.inr (Or.inr ⟨fd, k, msg, rfl, hk, h.1.symm, h.2.symm⟩)

/-- The server, the descriptor table and the history agree. -/
structure Sound (s : Session) : Prop where
  book : ∃ L, Represents s.server.book L
  fds_nodup : (s.server.connections.map Connection.fd).Nodup
  held : ∀ fd, fd ∈ s.server.connections.map Connection.fd ↔ ∃ k, s.holder fd = some k
  descriptor : ∀ fd k, s.holder fd = some k → s.descriptors[k]? = some fd
  flag : ∀ c ∈ s.server.connections, ∀ k, s.holder c.fd = some k →
    c.subscribedToFills = s.subscribed k
  unsubscribed : ∀ k, s.descriptors.length ≤ k → s.subscribed k = false
  owned : ∀ id, id ∈ s.server.orderOwnerFd ↔ s.server.book.Rests id
  owner : ∀ id fd, s.server.orderOwnerFd.lookup id = some fd →
    ∃ k, s.owner id = some k ∧ s.descriptors[k]? = some fd

variable {s t : Session} {fd fd' : Fd} {k : ConnId} {id : UInt64} {msg : ClientMsg}

theorem Sound.start : Sound .start where
  book := ⟨[], represents_empty⟩
  fds_nodup := List.nodup_nil
  held := by simp [Session.start, OrderBookServer.start]
  descriptor := by simp [Session.start]
  flag := by simp [Session.start, OrderBookServer.start]
  unsubscribed := fun _ _ => rfl
  owned := by
    intro id
    refine iff_of_false Finmap.notMem_empty fun hid => ?_
    simpa using represents_empty.contains_iff.mp (represents_empty.rests_iff.mp hid)
  owner := by simp [Session.start, OrderBookServer.start]

theorem Sound.holder_inj (h : s.Sound) (hk : s.holder fd = some k) (hk' : s.holder fd' = some k) :
    fd = fd' := by
  have hd := h.descriptor fd k hk
  rw [h.descriptor fd' k hk'] at hd
  exact (Option.some.inj hd).symm

theorem Sound.connect (h : s.Sound) (hfd : s.holder fd = none) : (s.connect fd).Sound where
  book := h.book
  fds_nodup := by
    have hfresh : fd ∉ s.server.connections.map Connection.fd := by
      rw [h.held, hfd]
      simp
    simp only [Session.connect, OrderBookServer.acceptConnection, List.map_append,
      List.map_singleton]
    exact List.nodup_append.mpr ⟨h.fds_nodup, List.nodup_singleton _, by
      rintro a ha c hc rfl
      exact hfresh (List.mem_singleton.mp hc ▸ ha)⟩
  held := by
    intro fd'
    simp only [Session.connect, OrderBookServer.acceptConnection, List.map_append,
      List.map_singleton, List.mem_append, List.mem_singleton, h.held]
    by_cases he : fd' = fd
    · simp [he]
    · simp [he]
  descriptor := by
    intro fd' k hk
    simp only [Session.connect] at hk ⊢
    by_cases he : fd' = fd
    · subst he
      rw [Function.update_self] at hk
      cases hk
      simp
    · rw [Function.update_of_ne he] at hk
      have hd := h.descriptor fd' k hk
      rw [List.getElem?_append_left (List.getElem?_eq_some_iff.mp hd).1, hd]
  flag := by
    intro c hc k hk
    simp only [Session.connect, OrderBookServer.acceptConnection, List.mem_append,
      List.mem_singleton] at hc hk ⊢
    rcases hc with hc | rfl
    · have hne : c.fd ≠ fd := by
        intro he
        have hheld := (h.held c.fd).mp (List.mem_map_of_mem hc)
        rw [he, hfd] at hheld
        simp at hheld
      rw [Function.update_of_ne hne] at hk
      exact h.flag c hc k hk
    · rw [Function.update_self] at hk
      cases hk
      exact (h.unsubscribed _ (Nat.le_refl _)).symm
  unsubscribed := by
    intro k hk
    simp only [Session.connect, List.length_append, List.length_singleton] at hk
    exact h.unsubscribed k (by omega)
  owned := h.owned
  owner := by
    intro id fd' hlookup
    obtain ⟨k, hk, hd⟩ := h.owner id fd' hlookup
    refine ⟨k, hk, ?_⟩
    simp only [Session.connect]
    rw [List.getElem?_append_left (List.getElem?_eq_some_iff.mp hd).1, hd]

theorem Sound.disconnect (h : s.Sound) (fd : Fd) : (s.disconnect fd).Sound where
  book := h.book
  fds_nodup := h.fds_nodup.sublist (List.filter_sublist.map _)
  held := by
    intro fd'
    have hmem : fd' ∈ (s.disconnect fd).server.connections.map Connection.fd ↔
        fd' ∈ s.server.connections.map Connection.fd ∧ fd' ≠ fd := by
      simp only [Session.disconnect, OrderBookServer.removeConnection, List.mem_map,
        List.mem_filter, decide_eq_true_eq]
      constructor
      · rintro ⟨c, ⟨hc, hne⟩, rfl⟩
        exact ⟨⟨c, hc, rfl⟩, hne⟩
      · rintro ⟨⟨c, hc, rfl⟩, hne⟩
        exact ⟨c, ⟨hc, hne⟩, rfl⟩
    rw [hmem, h.held]
    simp only [Session.disconnect]
    by_cases he : fd' = fd
    · simp [he]
    · simp [he]
  descriptor := by
    intro fd' k hk
    simp only [Session.disconnect] at hk ⊢
    by_cases he : fd' = fd
    · rw [he, Function.update_self] at hk
      cases hk
    · rw [Function.update_of_ne he] at hk
      exact h.descriptor fd' k hk
  flag := by
    intro c hc k hk
    simp only [Session.disconnect, OrderBookServer.removeConnection, List.mem_filter,
      decide_eq_true_eq] at hc hk ⊢
    rw [Function.update_of_ne hc.2] at hk
    exact h.flag c hc.1 k hk
  unsubscribed := h.unsubscribed
  owned := h.owned
  owner := h.owner

theorem Sound.dispatch_rejected (h : s.Sound) (fd : Fd) (k : ConnId) {msg : ClientOrderMsg}
    (hid : s.server.book.Rests msg.clientOrderId) : s.dispatch fd k (.newOrder msg) = s := by
  obtain ⟨L, hL⟩ := h.book
  have hserver : (s.server.dispatch fd (.newOrder msg)).2 = s.server := by
    rw [OrderBookServer.dispatch, dispatchNewOrder_rejected hL fd hid]
  simp only [Session.dispatch, hserver, ownerAfter, hid, subscribedAfter]
  rfl

theorem Sound.owner_dispatch (h : s.Sound) (fd : Fd) (k : ConnId) {msg : ClientOrderMsg}
    (hid : ¬ s.server.book.Rests msg.clientOrderId) (id : UInt64) :
    (s.dispatch fd k (.newOrder msg)).owner id =
      if id = msg.clientOrderId ∧ (s.server.book.submit msg.toOrder).2.Rests id then some k
      else s.owner id := by
  obtain ⟨L, hL⟩ := h.book
  obtain ⟨-, hbook, -⟩ := dispatchNewOrder_accepted hL fd hid
  simp only [Session.dispatch, ownerAfter, OrderBookServer.dispatch, hbook, hid,
    not_false_eq_true, true_and]
  by_cases he : id = msg.clientOrderId
  · subst he
    split <;> simp_all
  · split <;> simp [he]

/-- An entry of the owner map is new, and then the sender's, or it was there with the same
owner. -/
theorem Sound.entry_dispatch (h : s.Sound) (fd : Fd) (k : ConnId) (msg : ClientMsg)
    (hfd' : (s.dispatch fd k msg).server.orderOwnerFd.lookup id = some fd') :
    (fd' = fd ∧ (s.dispatch fd k msg).owner id = some k) ∨
      (s.server.orderOwnerFd.lookup id = some fd' ∧
        (s.dispatch fd k msg).owner id = s.owner id) := by
  obtain ⟨L, hL⟩ := h.book
  cases msg with
  | newOrder msg =>
    by_cases hid : s.server.book.Rests msg.clientOrderId
    · rw [h.dispatch_rejected fd k hid] at hfd' ⊢
      exact Or.inr ⟨hfd', rfl⟩
    · have hlookup := lookup_dispatchNewOrder hL fd hid (fun id => (h.owned id).mp) id
      simp only [Session.dispatch, OrderBookServer.dispatch] at hfd'
      rw [hlookup] at hfd'
      rw [h.owner_dispatch fd k hid]
      split at hfd'
      · rename_i hafter
        by_cases he : id = msg.clientOrderId
        · rw [if_pos he] at hfd'
          exact Or.inl ⟨(Option.some.inj hfd').symm, if_pos ⟨he, hafter⟩⟩
        · rw [if_neg he] at hfd'
          exact Or.inr ⟨hfd', if_neg fun hself => he hself.1⟩
      · cases hfd'
  | cancel msg =>
    have hlookup := lookup_dispatchCancel hL fd (fun id => (h.owned id).mp) msg id
    simp only [Session.dispatch, OrderBookServer.dispatch] at hfd'
    rw [hlookup] at hfd'
    split at hfd'
    · cases hfd'
    · exact Or.inr ⟨hfd', rfl⟩
  | subscribeFills => exact Or.inr ⟨hfd', rfl⟩

theorem Sound.owner_after (h : s.Sound) (hk : s.holder fd = some k) (msg : ClientMsg)
    (hfd' : (s.dispatch fd k msg).server.orderOwnerFd.lookup id = some fd') :
    ∃ j, (s.dispatch fd k msg).owner id = some j ∧ s.descriptors[j]? = some fd' := by
  rcases h.entry_dispatch fd k msg hfd' with ⟨rfl, hown⟩ | ⟨hlookup, hown⟩
  · exact ⟨k, hown, h.descriptor fd' k hk⟩
  · rw [hown]
    exact h.owner id fd' hlookup

/-- It is enough to look at the book and the owners where nothing else has changed. -/
theorem Sound.of_sameConnections (h : s.Sound)
    (hconn : t.server.connections = s.server.connections) (hholder : t.holder = s.holder)
    (hdescriptors : t.descriptors = s.descriptors) (hsubscribed : t.subscribed = s.subscribed)
    (hbook : ∃ L, Represents t.server.book L)
    (howned : ∀ id, id ∈ t.server.orderOwnerFd ↔ t.server.book.Rests id)
    (howner : ∀ id fd, t.server.orderOwnerFd.lookup id = some fd →
      ∃ k, t.owner id = some k ∧ t.descriptors[k]? = some fd) : t.Sound where
  book := hbook
  fds_nodup := hconn ▸ h.fds_nodup
  held := by
    rw [hconn, hholder]
    exact h.held
  descriptor := by
    rw [hholder, hdescriptors]
    exact h.descriptor
  flag := by
    rw [hconn, hholder, hsubscribed]
    exact h.flag
  unsubscribed := by
    rw [hdescriptors, hsubscribed]
    exact h.unsubscribed
  owned := howned
  owner := howner

theorem Sound.dispatch_newOrder (h : s.Sound) (hk : s.holder fd = some k) (msg : ClientOrderMsg) :
    (s.dispatch fd k (.newOrder msg)).Sound := by
  by_cases hid : s.server.book.Rests msg.clientOrderId
  · rwa [h.dispatch_rejected fd k hid]
  · obtain ⟨L, hL⟩ := h.book
    obtain ⟨-, hbook, hconn⟩ := dispatchNewOrder_accepted hL fd hid
    have hlookup := lookup_dispatchNewOrder hL fd hid fun id => (h.owned id).mp
    obtain ⟨L', hL', -⟩ := hL.submit msg.toOrder
    refine h.of_sameConnections hconn rfl rfl rfl ⟨L', hbook ▸ hL'⟩ ?_ ?_
    · intro id
      simp only [Session.dispatch, OrderBookServer.dispatch, hbook]
      rw [← Finmap.lookup_isSome, hlookup]
      by_cases hafter : (s.server.book.submit msg.toOrder).2.Rests id
      · rw [if_pos hafter]
        by_cases he : id = msg.clientOrderId
        · simp [he, he ▸ hafter]
        · have hbefore := hL.rests_of_submit hid he hafter
          rw [if_neg he, Finmap.lookup_isSome, h.owned]
          exact iff_of_true hbefore hafter
      · simp [hafter]
    · intro id fd' hfd'
      exact h.owner_after hk _ hfd'

theorem Sound.dispatch_cancel (h : s.Sound) (hk : s.holder fd = some k) (msg : CancelMsg) :
    (s.dispatch fd k (.cancel msg)).Sound := by
  obtain ⟨L, hL⟩ := h.book
  obtain ⟨-, hbook, hconn⟩ := dispatchCancel_eq hL fd msg
  have hlookup := lookup_dispatchCancel hL fd (fun id => (h.owned id).mp) msg
  refine h.of_sameConnections hconn rfl rfl rfl
    ⟨_, hbook ▸ (hL.cancel msg.clientOrderId).1⟩ ?_ ?_
  · intro id
    simp only [Session.dispatch, OrderBookServer.dispatch, hbook]
    rw [← Finmap.lookup_isSome, hlookup, (hL.cancel_rests msg.clientOrderId).2]
    by_cases he : id = msg.clientOrderId
    · simp [he]
    · rw [if_neg he, Finmap.lookup_isSome, h.owned]
      simp [he]
  · intro id fd' hfd'
    exact h.owner_after hk _ hfd'

theorem Sound.dispatch_subscribeFills (h : s.Sound) (hk : s.holder fd = some k) :
    (s.dispatch fd k .subscribeFills).Sound := by
  have hfds : (s.dispatch fd k .subscribeFills).server.connections.map Connection.fd =
      s.server.connections.map Connection.fd :=
    OrderBookServer.fds_updateConnection fun _ => rfl
  constructor
  · exact h.book
  · exact hfds ▸ h.fds_nodup
  · intro fd'
    rw [hfds]
    exact h.held fd'
  · exact h.descriptor
  · intro c hc k' hk'
    obtain ⟨c₀, hc₀, rfl⟩ := List.mem_map.mp hc
    simp only [Session.dispatch, subscribedAfter] at hk' ⊢
    by_cases he : c₀.fd = fd
    · simp only [he, if_true] at hk' ⊢
      cases hk.symm.trans hk'
      exact (Function.update_self k true s.subscribed).symm
    · simp only [he, if_false] at hk' ⊢
      have hne : k' ≠ k := by
        rintro rfl
        exact he (h.holder_inj hk' hk)
      rw [Function.update_of_ne hne]
      exact h.flag c₀ hc₀ k' hk'
  · intro k' hk'
    have hlt : k < s.descriptors.length := (List.getElem?_eq_some_iff.mp (h.descriptor fd k hk)).1
    simp only [Session.dispatch, subscribedAfter] at hk' ⊢
    have hne : k' ≠ k := by
      rintro rfl
      exact absurd hlt (Nat.not_lt.mpr hk')
    rw [Function.update_of_ne hne]
    exact h.unsubscribed k' hk'
  · exact h.owned
  · exact h.owner

theorem Sound.step (h : s.Sound) {e : Event} {l : List Dispatch} (hst : s.step e = some (l, t)) :
    t.Sound := by
  rcases step_cases hst with ⟨fd, rfl, hfd, -, rfl⟩ | ⟨fd, k, rfl, -, -, rfl⟩ |
    ⟨fd, k, msg, rfl, hk, -, rfl⟩
  · exact h.connect hfd
  · exact h.disconnect fd
  · cases msg with
    | newOrder msg => exact h.dispatch_newOrder hk msg
    | cancel msg => exact h.dispatch_cancel hk msg
    | subscribeFills => exact h.dispatch_subscribeFills hk

theorem Sound.run (h : s.Sound) {es : List Event} {log : List Dispatch}
    (hr : Machine.run Session.step s es = some (log, t)) : t.Sound :=
  run_invariant (fun _ _ _ _ hs hst => hs.step hst) hr h

end Session
end Velo
