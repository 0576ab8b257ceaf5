import Velo.Server.Segmentation

/-! The server on byte streams is the server on messages: one call of `handle_readable` is the
events that its messages are, and the disconnect it may end with. -/
namespace Velo
open Iteration Machine OrderBookServer

/-- The server without the bytes it has buffered. -/
def OrderBookServer.unbuffered (s : OrderBookServer) : OrderBookServer :=
  { s with connections := s.connections.map fun c => { c with readBuf := [] } }

variable {s t : OrderBookServer} {fd fd' : Fd} {fill : Fill} {k : ConnId} {r : Recv}
  {f : Connection → Connection}

theorem unbuffered_removeConnection :
    (s.removeConnection fd).unbuffered = s.unbuffered.removeConnection fd := by
  simp only [unbuffered, removeConnection, List.filter_map]
  rfl

theorem unbuffered_acceptConnection :
    (s.acceptConnection fd).unbuffered = s.unbuffered.acceptConnection fd := by
  simp [unbuffered, acceptConnection]

theorem unbuffered_updateConnection
    (hf : ∀ c, { f c with readBuf := [] } = ({ c with readBuf := [] } : Connection)) :
    (s.updateConnection fd f).unbuffered = s.unbuffered := by
  simp only [unbuffered, updateConnection, List.map_map]
  congr 1
  refine List.map_congr_left fun c _ => ?_
  simp only [Function.comp_apply]
  split
  · exact hf c
  · rfl

theorem fillSends_unbuffered : s.unbuffered.fillSends fd fill = s.fillSends fd fill := by
  simp only [fillSends, otherOwner, broadcastFillToSubscribers, unbuffered, List.filter_map,
    List.map_map]
  rfl

theorem settle_unbuffered : s.unbuffered.settle fill = (s.settle fill).unbuffered := by
  by_cases hc : s.book.contains fill.restingOrderId <;> simp [settle, unbuffered, hc]

theorem routeFills_unbuffered (fills : List Fill) : s.unbuffered.routeFills fd fills =
    ((s.routeFills fd fills).1, (s.routeFills fd fills).2.unbuffered) := by
  induction fills generalizing s with
  | nil => rfl
  | cons fill fills ih => simp only [routeFills, settle_unbuffered, ih, fillSends_unbuffered]

/-- Dispatching does not look at the buffers. -/
theorem dispatch_unbuffered (fd : Fd) (msg : ClientMsg) : s.unbuffered.dispatch fd msg =
    ((s.dispatch fd msg).1, (s.dispatch fd msg).2.unbuffered) := by
  cases msg with
  | newOrder msg =>
    have hafterSubmit : s.unbuffered.afterSubmit fd msg.toOrder =
        (s.afterSubmit fd msg.toOrder).unbuffered := rfl
    have hbook : s.unbuffered.book = s.book := rfl
    simp only [dispatch, dispatchNewOrder, hbook, hafterSubmit, routeFills_unbuffered]
    split <;> rfl
  | cancel msg => rfl
  | subscribeFills =>
    simp only [dispatch, unbuffered, updateConnection, List.map_map]
    congr 2
    refine List.map_congr_left fun c _ => ?_
    simp only [Function.comp_apply]
    split <;> rfl

/-- A session at the same point as a server inside `handle_readable`. -/
structure InStep (fd : Fd) (k : ConnId) (s : Session) (st : ReadState) (t : Session) : Prop where
  run : run Session.step s (st.dispatched.map fun d => .message fd d.1) =
    some (st.dispatched.map fun d => ⟨k, d.1, s.deliver d.2⟩, t)
  holder : t.holder = s.holder
  server : st.server.unbuffered =
    if (st.server.connection? fd).isSome then t.server else t.server.removeConnection fd

theorem InStep.step {s t : Session} {st st' : ReadState} (hk : s.holder fd = some k)
    (h : InStep fd k s st t) (hst : readStep fd st = some st') :
    ∃ t', InStep fd k s st' t' := by
  obtain ⟨conn, hconn, ⟨-, rfl⟩ | ⟨msg, n, -, rfl⟩⟩ := readStep_cases hst
  · refine ⟨t, h.run, h.holder, ?_⟩
    have hserver := h.server
    simp only [hconn, Option.isSome_some, if_true] at hserver
    rw [connection?_removeConnection, if_pos rfl, unbuffered_removeConnection, hserver]
    rfl
  · have hserver := h.server
    simp only [hconn, Option.isSome_some, if_true] at hserver
    have htk : t.holder fd = some k := h.holder ▸ hk
    have hdispatch := dispatch_unbuffered (s := st.server) fd msg
    rw [hserver] at hdispatch
    have hdeliver : t.deliver = s.deliver := by
      funext sends
      simp only [Session.deliver, h.holder]
    refine ⟨t.dispatch fd k msg, ?_, h.holder, ?_⟩
    · rw [List.map_append, List.map_append, run_append]
      refine ⟨_, t, _, h.run, ?_, rfl⟩
      rw [List.map_singleton, List.map_singleton, run_singleton]
      simp only [Session.step, htk, hdispatch, hdeliver]
    · have hopen : ((st.server.dispatch fd msg).2.connection? fd).isSome := by
        rw [connection?_dispatch, hconn]
        split <;> rfl
      have hupdate := connection?_rebuffer (st.server.dispatch fd msg).2 fd fd
        (List.drop (1 + n))
      rw [if_pos rfl] at hupdate
      simp only [hupdate, Option.isSome_map, hopen, if_true, Session.dispatch, hdispatch]
      exact unbuffered_updateConnection fun _ => rfl

theorem inStep_readLoop {s : Session} (hs : t.unbuffered = s.server) (hk : s.holder fd = some k)
    (hopen : (t.connection? fd).isSome) : ∃ u, InStep fd k s (t.readLoop fd) u := by
  refine iterate_invariant (P := fun st => ∃ u, InStep fd k s st u) ?_ ?_
  · rintro st st' ⟨u, hu⟩ hst
    exact hu.step hk hst
  · exact ⟨s, rfl, rfl, by rw [if_pos hopen, hs]⟩

/-- A session whose server is this one but for the buffers, with the same connections open. -/
structure Mirrors (s : OrderBookServer) (x : Session) : Prop where
  server : s.unbuffered = x.server
  holder : ∀ fd, (s.connection? fd).isSome ↔ (x.holder fd).isSome

theorem Mirrors.disconnect {x : Session} (h : Mirrors s x) (fd : Fd) :
    Mirrors (s.removeConnection fd) (x.disconnect fd) where
  server := by
    rw [unbuffered_removeConnection, h.server]
    rfl
  holder := by
    intro fd'
    rw [connection?_removeConnection]
    simp only [Session.disconnect]
    by_cases he : fd' = fd
    · simp [he]
    · rw [if_neg he, Function.update_of_ne he]
      exact h.holder fd'

theorem Mirrors.connect {x : Session} (h : Mirrors s x) (hfd : s.connection? fd = none) :
    Mirrors (s.acceptConnection fd) (x.connect fd) where
  server := by
    rw [unbuffered_acceptConnection, h.server]
    rfl
  holder := by
    intro fd'
    rw [connection?_acceptConnection]
    simp only [Session.connect]
    by_cases he : fd' = fd
    · simp [he, hfd]
    · rw [if_neg (Ne.symm he), Option.or_none, Function.update_of_ne he]
      exact h.holder fd'

/-- Reading is a run of messages, with a disconnect at its end if the connection was closed. -/
theorem Mirrors.readLoop {x : Session} (h : Mirrors s x) (hopen : (s.connection? fd).isSome) :
    ∃ es log y, run Session.step x es = some (log, y) ∧
      log.map Dispatch.msg = (s.readLoop fd).dispatched.map Prod.fst ∧
      Mirrors (s.readLoop fd).server y := by
  obtain ⟨k, hk⟩ := Option.isSome_iff_exists.mp ((h.holder fd).mp hopen)
  obtain ⟨u, hu⟩ := inStep_readLoop h.server hk hopen
  have hlog : ((s.readLoop fd).dispatched.map fun d =>
      (⟨k, d.1, x.deliver d.2⟩ : Dispatch)).map Dispatch.msg =
        (s.readLoop fd).dispatched.map Prod.fst := by
    rw [List.map_map]
    rfl
  have huk : u.holder fd = some k := hu.holder ▸ hk
  have hserver := hu.server
  cases hconn : (s.readLoop fd).server.connection? fd with
  | some conn =>
    refine ⟨_, _, u, hu.run, hlog, ?_, ?_⟩
    · simpa [hconn] using hserver
    · intro fd'
      rw [hu.holder, ← h.holder]
      by_cases he : fd' = fd
      · subst he
        simp [hconn, hopen]
      · rw [connection?_readLoop s he]
  | none =>
    have hdisc : run Session.step u [.disconnect fd] = some ([], u.disconnect fd) := by
      simp [run_singleton, Session.step, huk]
    refine ⟨_, _, u.disconnect fd, run_append.mpr ⟨_, u, [], hu.run, hdisc, rfl⟩, ?_, ?_, ?_⟩
    · rw [List.append_nil]
      exact hlog
    · rw [hserver]
      simp only [hconn, Option.isSome_none, Bool.false_eq_true, if_false]
      rfl
    · intro fd'
      simp only [Session.disconnect]
      by_cases he : fd' = fd
      · subst he
        simp [hconn]
      · rw [Function.update_of_ne he, connection?_readLoop s he, hu.holder]
        exact h.holder fd'

theorem Mirrors.updateConnection {x : Session} (h : Mirrors s x)
    (hf : ∀ c, { f c with readBuf := [] } = ({ c with readBuf := [] } : Connection)) :
    Mirrors (s.updateConnection fd f) x where
  server := (unbuffered_updateConnection hf).trans h.server
  holder := by
    intro fd'
    have hfd : ∀ c, (f c).fd = c.fd := by
      intro c
      have hfields := congrArg Connection.fd (hf c)
      exact hfields
    rw [connection?_updateConnection s fd fd' hfd, ← h.holder]
    split <;> simp

/-- One action of the poll loop is a run of events. -/
theorem Mirrors.poll {x : Session} {e : SocketEvent} {log : List (Fd × ClientMsg)}
    (h : Mirrors s x) (hst : s.poll e = some (log, t)) :
    ∃ es log' y, run Session.step x es = some (log', y) ∧
      log'.map Dispatch.msg = log.map Prod.snd ∧ Mirrors t y := by
  cases e with
  | accept fd =>
    cases hconn : s.connection? fd with
    | none =>
      simp only [OrderBookServer.poll, hconn, Option.some.injEq, Prod.mk.injEq] at hst
      obtain ⟨rfl, rfl⟩ := hst
      have hfree : x.holder fd = none := by
        have hclosed := h.holder fd
        rw [hconn] at hclosed
        simpa using hclosed
      exact ⟨[.connect fd], [], x.connect fd, by simp [run_singleton, Session.step, hfree], rfl,
        h.connect hconn⟩
    | some conn => simp [OrderBookServer.poll, hconn] at hst
  | readable fd r =>
    cases hconn : s.connection? fd with
    | none =>
      simp only [OrderBookServer.poll, hconn, Option.some.injEq, Prod.mk.injEq] at hst
      obtain ⟨rfl, rfl⟩ := hst
      exact ⟨[], [], x, rfl, rfl, h⟩
    | some conn =>
      simp only [OrderBookServer.poll, hconn, Option.some.injEq, Prod.mk.injEq] at hst
      obtain ⟨rfl, rfl⟩ := hst
      have hopen : (s.connection? fd).isSome := by rw [hconn]; rfl
      obtain ⟨k, hk⟩ := Option.isSome_iff_exists.mp ((h.holder fd).mp hopen)
      have hclose : ∃ es log' y, run Session.step x es = some (log', y) ∧
          log'.map Dispatch.msg = [] ∧ Mirrors (s.removeConnection fd) y :=
        ⟨[.disconnect fd], [], x.disconnect fd, by simp [run_singleton, Session.step, hk], rfl,
          h.disconnect fd⟩
      rw [List.map_map]
      cases r with
      | failed => exact hclose
      | wouldBlock => exact h.readLoop hopen
      | bytes chunk =>
        cases chunk with
        | nil => exact hclose
        | cons b bs =>
          have hread : Mirrors (s.updateConnection fd fun c =>
              { c with readBuf := c.readBuf ++ b :: bs }) x := h.updateConnection fun _ => rfl
          refine hread.readLoop ?_
          rw [connection?_rebuffer s fd fd (· ++ b :: bs), if_pos rfl, hconn]
          rfl

theorem mirrors_start : Mirrors .start .start := ⟨rfl, fun _ => by
  simp [OrderBookServer.start, connection?, Session.start]⟩

/-- Every run of the server on byte streams is, but for what it has buffered, a run on messages
that dispatches the same ones: what is shown of sessions holds of it. -/
theorem poll_refines_session {es : List SocketEvent} {log : List (Fd × ClientMsg)}
    (h : run OrderBookServer.poll .start es = some (log, t)) :
    ∃ es' log' y, run Session.step .start es' = some (log', y) ∧
      log'.map Dispatch.msg = log.map Prod.snd ∧ t.unbuffered = y.server := by
  obtain ⟨es', log', y, hrun, hlog, hy⟩ := run_simulation (R := Mirrors) (f := Prod.snd)
    (g := Dispatch.msg) (fun s e l t x hx hst => hx.poll hst) h mirrors_start
  exact ⟨es', log', y, hrun, hlog, hy.server⟩

end Velo
