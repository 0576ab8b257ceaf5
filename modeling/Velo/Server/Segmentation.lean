import Velo.Server.Reading

/-! The poll loop over byte streams: where TCP cuts a client's stream makes no difference. -/
namespace Velo
open Machine OrderBookServer

/-- What the poll loop of `run` acts on. -/
inductive SocketEvent
  | accept (fd : Fd)
  | readable (fd : Fd) (r : Recv)

def SocketEvent.fd : SocketEvent → Fd
  | .accept fd => fd
  | .readable fd _ => fd

/-- One action of the poll loop, and the messages it dispatches, with their connection. A
descriptor without a connection is skipped. -/
def OrderBookServer.poll (s : OrderBookServer) :
    SocketEvent → Option (List (Fd × ClientMsg) × OrderBookServer)
  | .accept fd =>
    match s.connection? fd with
    | none => some ([], s.acceptConnection fd)
    | some _ => none
  | .readable fd r =>
    match s.connection? fd with
    | none => some ([], s)
    | some _ =>
      let out := s.handleReadable fd r
      some (out.dispatched.map fun d => (fd, d.1), out.server)

/-- The messages dispatched for one connection. -/
def dispatchedOn (fd : Fd) (log : List (Fd × ClientMsg)) : List ClientMsg :=
  (log.filter fun d => d.1 = fd).map Prod.snd

def Recv.chunk : Recv → List UInt8
  | .bytes chunk => chunk
  | .wouldBlock | .failed => []

/-- Neither the end of the stream nor an error. -/
def Recv.Open (r : Recv) : Prop := r ≠ .failed ∧ r ≠ .bytes []

/-- The event is about another descriptor, or brings bytes of the open stream of this one. -/
def Streams (fd : Fd) : SocketEvent → Prop
  | .accept fd' => fd' ≠ fd
  | .readable fd' r => fd' = fd → r.Open

/-- The chunks in which the bytes of one connection arrive. -/
def chunksOn (fd : Fd) (es : List SocketEvent) : List (List UInt8) :=
  es.filterMap fun
    | .accept _ => none
    | .readable fd' r => if fd' = fd then some r.chunk else none

variable {s t : OrderBookServer} {fd fd' : Fd} {e : SocketEvent} {es : List SocketEvent}
  {log : List (Fd × ClientMsg)} {items : List ClientMsg} {r : Recv}

theorem dispatchedOn_append (log log' : List (Fd × ClientMsg)) :
    dispatchedOn fd (log ++ log') = dispatchedOn fd log ++ dispatchedOn fd log' := by
  simp [dispatchedOn]

theorem dispatchedOn_own (fd : Fd) (ds : List (ClientMsg × List Send)) :
    dispatchedOn fd (ds.map fun d => (fd, d.1)) = ds.map Prod.fst := by
  simp [dispatchedOn, List.filter_map, Function.comp_def]

theorem dispatchedOn_other (hne : fd' ≠ fd) (ds : List (ClientMsg × List Send)) :
    dispatchedOn fd (ds.map fun d => (fd', d.1)) = [] := by
  simp [dispatchedOn, List.filter_map, Function.comp_def, hne]

/-- What connection `fd` is as a receiver between two events. -/
def OrderBookServer.intake (s : OrderBookServer) (fd : Fd) (items : List ClientMsg) :
    Intake UInt8 ClientMsg :=
  ⟨items, (s.connection? fd).map Connection.readBuf⟩

/-- A chunk for a connection is fed to its receiver. -/
theorem intake_own (h : s.poll (.readable fd r) = some (log, t)) (hr : r.Open)
    (hflag : Flagged fd items s) :
    t.intake fd (items ++ dispatchedOn fd log) =
        clientFraming.feed (s.intake fd items) r.chunk ∧
      Flagged fd (items ++ dispatchedOn fd log) t := by
  cases hconn : s.connection? fd with
  | none =>
    simp only [poll, hconn, Option.some.injEq, Prod.mk.injEq] at h
    obtain ⟨rfl, rfl⟩ := h
    have hclosed : s.intake fd items = ⟨items, none⟩ := by simp [OrderBookServer.intake, hconn]
    simp only [dispatchedOn, List.filter_nil, List.map_nil, List.append_nil]
    refine ⟨?_, hflag⟩
    rw [hclosed]
    exact (clientFraming.drain_eq .refl rfl).symm
  | some conn =>
    simp only [poll, hconn, Option.some.injEq, Prod.mk.injEq] at h
    obtain ⟨rfl, rfl⟩ := h
    rw [dispatchedOn_own]
    cases r with
    | failed => exact absurd rfl hr.1
    | wouldBlock =>
      refine ⟨(intake_readLoop s fd items).trans ?_, hflag.readLoop⟩
      simp [Framing.feed, Framing.append, Recv.chunk, ReadState.intake, OrderBookServer.intake,
        Function.comp_def]
    | bytes chunk =>
      cases chunk with
      | nil => exact absurd rfl hr.2
      | cons b bs =>
        have hupdate := connection?_rebuffer s fd fd (· ++ b :: bs)
        rw [if_pos rfl] at hupdate
        refine ⟨(intake_readLoop _ fd items).trans ?_, Flagged.readLoop ?_⟩
        · simp [Framing.feed, Framing.append, Recv.chunk, ReadState.intake,
            OrderBookServer.intake, hupdate, Function.comp_def]
        · intro conn' hconn'
          rw [hupdate, hconn] at hconn'
          cases hconn'
          exact hflag conn hconn

/-- An event about another descriptor. -/
theorem connection?_other (h : s.poll e = some (log, t)) (he : e.fd ≠ fd) :
    dispatchedOn fd log = [] ∧ t.connection? fd = s.connection? fd := by
  cases e with
  | accept fd' =>
    cases hconn : s.connection? fd' with
    | none =>
      simp only [poll, hconn, Option.some.injEq, Prod.mk.injEq] at h
      obtain ⟨rfl, rfl⟩ := h
      have hne : ¬ fd' = fd := he
      refine ⟨rfl, ?_⟩
      rw [connection?_acceptConnection, if_neg hne, Option.or_none]
    | some conn => simp [poll, hconn] at h
  | readable fd' r =>
    have hne : fd' ≠ fd := he
    cases hconn : s.connection? fd' with
    | none =>
      simp only [poll, hconn, Option.some.injEq, Prod.mk.injEq] at h
      obtain ⟨rfl, rfl⟩ := h
      exact ⟨rfl, rfl⟩
    | some conn =>
      simp only [poll, hconn, Option.some.injEq, Prod.mk.injEq] at h
      obtain ⟨rfl, rfl⟩ := h
      refine ⟨dispatchedOn_other hne _, ?_⟩
      have hremove : (s.removeConnection fd').connection? fd = s.connection? fd := by
        rw [connection?_removeConnection, if_neg (hne.symm)]
      cases r with
      | failed => exact hremove
      | wouldBlock => exact connection?_readLoop s (hne.symm)
      | bytes chunk =>
        cases chunk with
        | nil => exact hremove
        | cons b bs =>
          refine (connection?_readLoop _ (hne.symm)).trans ?_
          rw [connection?_rebuffer s fd' fd (· ++ b :: bs), if_neg (hne.symm)]

/-- Over a run the receiver of a connection is fed the chunks of its stream, one after another. -/
theorem intake_run (hes : ∀ e ∈ es, Streams fd e)
    (h : run OrderBookServer.poll s es = some (log, t)) (hflag : Flagged fd items s) :
    t.intake fd (items ++ dispatchedOn fd log) =
        (chunksOn fd es).foldl clientFraming.feed (s.intake fd items) ∧
      Flagged fd (items ++ dispatchedOn fd log) t := by
  induction es generalizing s items log with
  | nil =>
    obtain ⟨rfl, rfl⟩ := run_nil.mp h
    simpa [dispatchedOn, chunksOn] using hflag
  | cons e es ih =>
    obtain ⟨l₁, v, l₂, hv, hrun, rfl⟩ := run_cons.mp h
    have he := hes e List.mem_cons_self
    have hrest := fun e' he' => hes e' (List.mem_cons_of_mem e he')
    -- Either a chunk of this connection, or an event that leaves it alone.
    have hother : e.fd ≠ fd → t.intake fd (items ++ dispatchedOn fd (l₁ ++ l₂)) =
          (chunksOn fd (e :: es)).foldl clientFraming.feed (s.intake fd items) ∧
        Flagged fd (items ++ dispatchedOn fd (l₁ ++ l₂)) t := by
      intro hne
      obtain ⟨hlog, hconn⟩ := connection?_other hv hne
      have hsame : v.intake fd items = s.intake fd items := by
        rw [OrderBookServer.intake, hconn, OrderBookServer.intake]
      have hflag' : Flagged fd items v := by
        intro conn hc
        exact hflag conn (hconn ▸ hc)
      have hskip : chunksOn fd (e :: es) = chunksOn fd es := by
        cases e with
        | accept fd' => rfl
        | readable fd' r => exact List.filterMap_cons_none (if_neg hne)
      rw [dispatchedOn_append, hlog, List.nil_append, hskip, ← hsame]
      exact ih hrest hrun hflag'
    cases e with
    | accept fd' => exact hother he
    | readable fd' r =>
      by_cases hfd : fd' = fd
      · subst hfd
        obtain ⟨hown, hflag'⟩ := intake_own hv (he rfl) hflag
        have hchunks : chunksOn fd' (.readable fd' r :: es) = r.chunk :: chunksOn fd' es := by
          simp [chunksOn]
        rw [dispatchedOn_append, ← List.append_assoc, hchunks, List.foldl_cons, ← hown]
        exact ih hrest hrun hflag'
      · exact hother hfd

/-- However the stream of a connection is cut into chunks, and whatever else the server does in
between: the messages dispatched, the subscription and the close are those of parsing the stream
once, what stays buffered is less than a message, and the loop ends. -/
theorem framing_independent_of_chunks (s : OrderBookServer) (fd : Fd)
    (hfd : s.connection? fd = none) (es : List SocketEvent) (hes : ∀ e ∈ es, Streams fd e)
    {log : List (Fd × ClientMsg)} {t : OrderBookServer}
    (h : run OrderBookServer.poll (s.acceptConnection fd) es = some (log, t)) :
    let parsed := clientFraming.parse (chunksOn fd es).flatten
    dispatchedOn fd log = parsed.1 ∧
      t.connection? fd =
        parsed.2.map (fun buf => ⟨fd, buf, decide (.subscribeFills ∈ parsed.1)⟩) ∧
      (∀ conn, t.connection? fd = some conn → conn.readBuf.length ≤ 37 ∧
        (conn.readBuf = [] ∨ ∃ tag body n, conn.readBuf = tag :: body ∧
          payloadSize tag = some n ∧ conn.readBuf.length < 1 + n)) ∧
      ∀ s' fd', readStep fd' (OrderBookServer.readLoop s' fd') = none := by
  intro parsed
  have hnew : (s.acceptConnection fd).connection? fd = some ⟨fd, [], false⟩ := by
    rw [connection?_acceptConnection, hfd, if_pos rfl]
    rfl
  have hflag : Flagged fd [] (s.acceptConnection fd) := by
    intro conn hconn
    rw [hnew] at hconn
    cases hconn
    rfl
  obtain ⟨hrun, hflagged⟩ := intake_run hes h hflag
  have hstart : (s.acceptConnection fd).intake fd [] = ⟨[], some []⟩ := by
    simp [OrderBookServer.intake, hnew]
  rw [hstart, clientFraming.feed_chunks, List.nil_append] at hrun
  have hitems : dispatchedOn fd log = parsed.1 := congrArg Intake.items hrun
  have hpending : (t.connection? fd).map Connection.readBuf = parsed.2 :=
    congrArg Intake.pending hrun
  refine ⟨hitems, ?_, ?_, readLoop_exit⟩
  · cases hconn : t.connection? fd with
    | none =>
      rw [← hpending, hconn]
      rfl
    | some conn =>
      have hsub := hflagged conn hconn
      rw [List.nil_append, hitems] at hsub
      rw [← hpending, hconn, Option.map_some, Option.map_some, ← hsub, ← fd_of_connection? hconn]
  · intro conn hconn
    rw [hconn, Option.map_some] at hpending
    have hmore : clientNext conn.readBuf = .more := clientFraming.parse_residual hpending.symm
    rcases clientNext_more hmore with hnil | ⟨tag, body, n, hbuf, hn, hlen⟩
    · exact ⟨by simp [hnil], Or.inl hnil⟩
    · have hle := payloadSize_le hn
      rw [hbuf, List.length_cons]
      exact ⟨by omega, Or.inr ⟨tag, body, n, rfl, hn, by omega⟩⟩

/-- A cancel cut in two, and a violation after it. -/
theorem framing_independent_of_chunks_of_a_cut_cancel :
    (clientFraming.parse [3, 2, 0, 0, 0, 0, 0, 0, 0, 7, 9, 3]).1 =
      [.subscribeFills, .cancel ⟨7⟩] := by
  have hes : ∀ e ∈ [SocketEvent.readable 5 (.bytes [3, 2, 0, 0]), .accept 6,
      .readable 5 (.bytes [0, 0, 0, 0, 0, 7, 9, 3])], Streams 5 e := by
    simp [Streams, Recv.Open]
  exact (framing_independent_of_chunks .start 5 rfl _ hes rfl).1.symm

end Velo
