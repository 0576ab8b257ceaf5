import Velo.Lib.Framing
import Velo.Server.Session

/-! The loop of `handle_readable` as a receiver of framed messages, and as a run of the events that
its messages are. -/
namespace Velo
open Iteration Machine Reader

theorem clientMsg?_append {tag : UInt8} {n : ℕ} (hn : payloadSize tag = some n)
    {body : List UInt8} (hlen : n ≤ body.length) (m : List UInt8) :
    clientMsg? tag (body ++ m) = clientMsg? tag body := by
  obtain ⟨type, htype, rfl⟩ := Option.map_eq_some_iff.mp hn
  simp only [clientMsg?, htype]
  cases type with
  | newOrder =>
    obtain ⟨msg, hmsg⟩ := decodeClientOrder_takes.exact body hlen
    have hbody := hmsg []
    simp only [List.append_nil] at hbody
    simp [hmsg m, hbody]
  | cancel =>
    obtain ⟨msg, hmsg⟩ := decodeCancel_takes.exact body hlen
    have hbody := hmsg []
    simp only [List.append_nil] at hbody
    simp [hmsg m, hbody]
  | subscribeFills => rfl
  | fill => rfl
  | ack => rfl

/-- What the bytes of a client begin with. -/
def clientNext : List UInt8 → Next UInt8 ClientMsg
  | [] => .more
  | tag :: body =>
    match payloadSize tag with
    | none => .reject
    | some payload =>
      if body.length < payload then .more
      else
        match clientMsg? tag body with
        | none => .reject
        | some msg => .item msg (body.drop payload)

/-- All that a buffer can begin with. -/
theorem clientNext_cases (l : List UInt8) :
    (clientNext l = .more ∧ (l = [] ∨ ∃ tag body n, l = tag :: body ∧
        payloadSize tag = some n ∧ body.length < n)) ∨
      (∃ tag body, l = tag :: body ∧ payloadSize tag = none ∧ clientNext l = .reject) ∨
      (∃ tag body n, l = tag :: body ∧ payloadSize tag = some n ∧ n ≤ body.length ∧
        clientMsg? tag body = none ∧ clientNext l = .reject) ∨
      ∃ tag body n msg, l = tag :: body ∧ payloadSize tag = some n ∧ n ≤ body.length ∧
        clientMsg? tag body = some msg ∧ clientNext l = .item msg (body.drop n) := by
  cases l with
  | nil => exact Or.inl ⟨rfl, Or.inl rfl⟩
  | cons tag body =>
    cases hn : payloadSize tag with
    | none => exact Or.inr (Or.inl ⟨tag, body, rfl, hn, by simp [clientNext, hn]⟩)
    | some n =>
      by_cases hlen : body.length < n
      · exact Or.inl ⟨by simp [clientNext, hn, hlen], Or.inr ⟨tag, body, n, rfl, hn, hlen⟩⟩
      · have hle := Nat.not_lt.mp hlen
        cases hmsg : clientMsg? tag body with
        | none =>
          exact Or.inr (Or.inr (Or.inl ⟨tag, body, n, rfl, hn, hle, hmsg,
            by simp [clientNext, hn, hlen, hmsg]⟩))
        | some msg =>
          exact Or.inr (Or.inr (Or.inr ⟨tag, body, n, msg, rfl, hn, hle, hmsg,
            by simp [clientNext, hn, hlen, hmsg]⟩))

variable {l : List UInt8} {msg : ClientMsg} {r : List UInt8}

theorem clientNext_more (h : clientNext l = .more) : l = [] ∨ ∃ tag body n, l = tag :: body ∧
    payloadSize tag = some n ∧ body.length < n := by
  rcases clientNext_cases l with ⟨-, hl⟩ | ⟨_, _, -, -, hl⟩ | ⟨_, _, _, -, -, -, -, hl⟩ |
    ⟨_, _, _, _, -, -, -, -, hl⟩
  · exact hl
  · simp [hl] at h
  · simp [hl] at h
  · simp [hl] at h

theorem clientNext_reject (h : clientNext l = .reject) :
    ∃ tag body, l = tag :: body ∧ (payloadSize tag = none ∨
      ∃ n, payloadSize tag = some n ∧ n ≤ body.length ∧ clientMsg? tag body = none) := by
  rcases clientNext_cases l with ⟨hl, -⟩ | ⟨tag, body, hl, hn, -⟩ |
    ⟨tag, body, n, hl, hn, hlen, hmsg, -⟩ | ⟨_, _, _, _, -, -, -, -, hl⟩
  · simp [hl] at h
  · exact ⟨tag, body, hl, Or.inl hn⟩
  · exact ⟨tag, body, hl, Or.inr ⟨n, hn, hlen, hmsg⟩⟩
  · simp [hl] at h

theorem clientNext_item (h : clientNext l = .item msg r) :
    ∃ tag body n, l = tag :: body ∧ payloadSize tag = some n ∧ n ≤ body.length ∧
      clientMsg? tag body = some msg ∧ r = body.drop n := by
  rcases clientNext_cases l with ⟨hl, -⟩ | ⟨_, _, -, -, hl⟩ | ⟨_, _, _, -, -, -, -, hl⟩ |
    ⟨tag, body, n, a, hbuf, hn, hlen, hmsg, hl⟩
  · simp [hl] at h
  · simp [hl] at h
  · simp [hl] at h
  · rw [hl] at h
    cases h
    exact ⟨tag, body, n, hbuf, hn, hlen, hmsg, rfl⟩

/-- A decision on the tag and a complete payload stands whatever follows. -/
def clientFraming : Framing UInt8 ClientMsg where
  next := clientNext
  next_nil := rfl
  item_append := by
    intro l a r m h
    obtain ⟨tag, body, n, rfl, hn, hlen, hmsg, rfl⟩ := clientNext_item h
    have hlong : n ≤ body.length + m.length := by omega
    simp [clientNext, hn, hlong, clientMsg?_append hn hlen, hmsg,
      List.drop_append_of_le_length hlen]
  reject_append := by
    intro l m h
    obtain ⟨tag, body, rfl, hn | ⟨n, hn, hlen, hmsg⟩⟩ := clientNext_reject h
    · simp [clientNext, hn]
    · have hlong : n ≤ body.length + m.length := by omega
      simp [clientNext, hn, hlong, clientMsg?_append hn hlen, hmsg]
  item_shorter := by
    intro l a r h
    obtain ⟨tag, body, n, rfl, -, -, -, rfl⟩ := clientNext_item h
    rw [List.length_drop, List.length_cons]
    omega

namespace OrderBookServer

variable {s : OrderBookServer} {fd fd' : Fd} {f : Connection → Connection} {msg : ClientMsg}
  {conn : Connection}

theorem fd_of_connection? (h : s.connection? fd = some conn) : conn.fd = fd := by
  have hfd := List.find?_some h
  simpa using hfd

theorem connection?_updateConnection (s : OrderBookServer) (fd fd' : Fd)
    (hf : ∀ c, (f c).fd = c.fd) : (s.updateConnection fd f).connection? fd' =
      if fd' = fd then (s.connection? fd').map f else s.connection? fd' := by
  simp only [connection?, updateConnection]
  induction s.connections with
  | nil => simp
  | cons c cs ih =>
    by_cases hc : c.fd = fd'
    · by_cases he : fd' = fd <;> simp [hc, he, hf]
    · have hskip : (if c.fd = fd then f c else c).fd ≠ fd' := by
        split
        · rw [hf]
          exact hc
        · exact hc
      simpa [hskip, hc] using ih

theorem connection?_rebuffer (s : OrderBookServer) (fd fd' : Fd) (g : List UInt8 → List UInt8) :
    (s.updateConnection fd fun c => { c with readBuf := g c.readBuf }).connection? fd' =
      if fd' = fd then (s.connection? fd').map fun c => { c with readBuf := g c.readBuf }
      else s.connection? fd' :=
  connection?_updateConnection s fd fd' fun _ => rfl

theorem connection?_removeConnection (s : OrderBookServer) (fd fd' : Fd) :
    (s.removeConnection fd).connection? fd' =
      if fd' = fd then none else s.connection? fd' := by
  simp only [connection?, removeConnection, List.find?_filter]
  by_cases he : fd' = fd
  · rw [if_pos he, List.find?_eq_none]
    intro c _
    simp [he]
  · rw [if_neg he]
    congr 1
    funext c
    by_cases hc : c.fd = fd' <;> simp [hc, he]

@[simp] theorem connection?_acceptConnection :
    (s.acceptConnection fd).connection? fd' =
      (s.connection? fd').or (if fd = fd' then some ⟨fd, [], false⟩ else none) := by
  simp only [connection?, acceptConnection, List.find?_append, List.find?_singleton,
    decide_eq_true_eq]

theorem connections_dispatch (s : OrderBookServer) (fd : Fd) (msg : ClientMsg) :
    (s.dispatch fd msg).2.connections =
      if msg = .subscribeFills then
        (s.updateConnection fd fun c => { c with subscribedToFills := true }).connections
      else s.connections := by
  cases msg with
  | newOrder msg =>
    simp only [dispatch, dispatchNewOrder, reduceCtorEq, if_false]
    split
    · rfl
    · simp [afterSubmit]
  | cancel msg => rfl
  | subscribeFills => rfl

theorem connection?_dispatch (s : OrderBookServer) (fd : Fd) (msg : ClientMsg) (fd' : Fd) :
    (s.dispatch fd msg).2.connection? fd' =
      if fd' = fd ∧ msg = .subscribeFills then
        (s.connection? fd').map fun c => { c with subscribedToFills := true }
      else s.connection? fd' := by
  have hconn := connections_dispatch s fd msg
  by_cases hmsg : msg = .subscribeFills
  · rw [if_pos hmsg] at hconn
    have hsame : (s.dispatch fd msg).2.connection? fd' =
        (s.updateConnection fd fun c => { c with subscribedToFills := true }).connection? fd' := by
      rw [connection?, hconn, connection?]
    rw [hsame, connection?_updateConnection
      (f := fun c => { c with subscribedToFills := true }) s fd fd' fun _ => rfl]
    simp [hmsg]
  · rw [if_neg hmsg] at hconn
    rw [connection?, hconn, if_neg (fun h => hmsg h.2), connection?]

end OrderBookServer
open OrderBookServer

variable {fd fd' : Fd} {st st' : ReadState} {items : List ClientMsg}

/-- All that one round can do. -/
theorem readStep_cases (h : readStep fd st = some st') :
    ∃ conn, st.server.connection? fd = some conn ∧
      ((clientNext conn.readBuf = .reject ∧
          st' = { st with server := st.server.removeConnection fd }) ∨
        ∃ msg n, clientNext conn.readBuf = .item msg (conn.readBuf.drop (1 + n)) ∧
          st' =
            { server := (st.server.dispatch fd msg).2.updateConnection fd fun c =>
                { c with readBuf := c.readBuf.drop (1 + n) }
              dispatched := st.dispatched ++ [(msg, (st.server.dispatch fd msg).1)] }) := by
  cases hconn : st.server.connection? fd with
  | none => simp [readStep, hconn] at h
  | some conn =>
    refine ⟨conn, rfl, ?_⟩
    rcases clientNext_cases conn.readBuf with ⟨-, hbuf | ⟨tag, body, n, hbuf, hn, hlen⟩⟩ |
      ⟨tag, body, hbuf, hn, hl⟩ | ⟨tag, body, n, hbuf, hn, hlen, hmsg, hl⟩ |
      ⟨tag, body, n, msg, hbuf, hn, hlen, hmsg, hl⟩
    · simp [readStep, hconn, hbuf] at h
    · have hshort : body.length + 1 < 1 + n := by omega
      simp [readStep, hconn, hbuf, hn, hshort] at h
    · simp only [readStep, hconn, hbuf, hn, Option.some.injEq] at h
      exact Or.inl ⟨hl, h.symm⟩
    · have hlong : ¬ body.length + 1 < 1 + n := by omega
      simp only [readStep, hconn, hbuf, hn, List.length_cons, hlong, if_false, hmsg,
        Option.some.injEq] at h
      exact Or.inl ⟨hl, h.symm⟩
    · have hlong : ¬ body.length + 1 < 1 + n := by omega
      simp only [readStep, hconn, hbuf, hn, List.length_cons, hlong, if_false, hmsg,
        Option.some.injEq] at h
      refine Or.inr ⟨msg, n, ?_, h.symm⟩
      rw [hl, hbuf, Nat.add_comm 1 n]
      rfl

theorem readStep_eq_none (h : readStep fd st = none) : st.server.connection? fd = none ∨
    ∃ conn, st.server.connection? fd = some conn ∧ clientNext conn.readBuf = .more := by
  cases hconn : st.server.connection? fd with
  | none => exact Or.inl rfl
  | some conn =>
    refine Or.inr ⟨conn, rfl, ?_⟩
    rcases clientNext_cases conn.readBuf with ⟨hl, -⟩ | ⟨tag, body, hbuf, hn, -⟩ |
      ⟨tag, body, n, hbuf, hn, hlen, hmsg, -⟩ | ⟨tag, body, n, msg, hbuf, hn, hlen, hmsg, -⟩
    · exact hl
    · simp [readStep, hconn, hbuf, hn] at h
    · have hlong : ¬ body.length + 1 < 1 + n := by omega
      simp [readStep, hconn, hbuf, hn, hlong, hmsg] at h
    · have hlong : ¬ body.length + 1 < 1 + n := by omega
      simp [readStep, hconn, hbuf, hn, hlong, hmsg] at h

/-- The server's loop, as the receiver that its connection `fd` is. -/
def ReadState.intake (fd : Fd) (items : List ClientMsg) (st : ReadState) :
    Intake UInt8 ClientMsg :=
  ⟨items ++ st.dispatched.map Prod.fst, (st.server.connection? fd).map Connection.readBuf⟩

theorem drainStep_intake (h : readStep fd st = some st') :
    clientFraming.drainStep (st.intake fd items) = some (st'.intake fd items) := by
  obtain ⟨conn, hconn, ⟨hl, rfl⟩ | ⟨msg, n, hl, rfl⟩⟩ := readStep_cases h
  · simp [Framing.drainStep, ReadState.intake, clientFraming, hconn, hl,
      connection?_removeConnection]
  · have hnext : ((st.server.dispatch fd msg).2.connection? fd).map Connection.readBuf =
        some conn.readBuf := by
      rw [connection?_dispatch, hconn]
      split <;> rfl
    obtain ⟨conn', hconn', hbuf⟩ := Option.map_eq_some_iff.mp hnext
    have hupdate := connection?_rebuffer (st.server.dispatch fd msg).2 fd fd (List.drop (1 + n))
    simp [Framing.drainStep, ReadState.intake, clientFraming, hconn, hl, hupdate, hconn', hbuf]

theorem drainStep_intake_none (h : readStep fd st = none) :
    clientFraming.drainStep (st.intake fd items) = none := by
  rcases readStep_eq_none h with hnone | ⟨conn, hconn, hmore⟩
  · simp [Framing.drainStep, ReadState.intake, hnone]
  · simp [Framing.drainStep, ReadState.intake, clientFraming, hconn, hmore]

theorem readLoop_exit (s : OrderBookServer) (fd : Fd) : readStep fd (s.readLoop fd) = none := by
  refine iterate_exit (fun st => Framing.size (st.intake fd [])) ?_ ?_
  · intro st st' h
    exact clientFraming.drainStep_size _ _ (drainStep_intake h)
  · simp only [Framing.size, ReadState.intake]
    cases s.connection? fd <;> simp

theorem intake_readLoop (s : OrderBookServer) (fd : Fd) (items : List ClientMsg) :
    (s.readLoop fd).intake fd items =
      clientFraming.drain (ReadState.intake fd items ⟨s, []⟩) := by
  have hreach : Reaches (readStep fd) ⟨s, []⟩ (s.readLoop fd) := iterate_reaches _ _ _
  obtain ⟨x, hx, rfl⟩ := hreach.simulation
    (R := fun st x => x = st.intake fd items) (fun st st' x hR hst => by
      subst hR
      exact ⟨_, .single (drainStep_intake hst), rfl⟩) rfl
  exact (clientFraming.drain_eq hx (drainStep_intake_none (readLoop_exit s fd))).symm

/-- The flag of connection `fd` says whether it has subscribed. -/
def Flagged (fd : Fd) (items : List ClientMsg) (s : OrderBookServer) : Prop :=
  ∀ conn, s.connection? fd = some conn →
    conn.subscribedToFills = decide (.subscribeFills ∈ items)

theorem Flagged.step (h : Flagged fd (st.intake fd items).items st.server)
    (hst : readStep fd st = some st') : Flagged fd (st'.intake fd items).items st'.server := by
  obtain ⟨conn, hconn, ⟨-, rfl⟩ | ⟨msg, n, -, rfl⟩⟩ := readStep_cases hst
  · intro conn' hconn'
    rw [connection?_removeConnection, if_pos rfl] at hconn'
    cases hconn'
  · intro conn' hconn'
    have hflag := h conn hconn
    rw [connection?_rebuffer _ fd fd (List.drop (1 + n)), if_pos rfl, connection?_dispatch,
      hconn] at hconn'
    by_cases hmsg : msg = .subscribeFills
    · rw [if_pos ⟨rfl, hmsg⟩] at hconn'
      cases hconn'
      simp [ReadState.intake, hmsg]
    · rw [if_neg (fun hself => hmsg hself.2)] at hconn'
      cases hconn'
      simp only [hflag, ReadState.intake, List.map_append, List.map_singleton, List.mem_append,
        List.mem_singleton, Ne.symm hmsg, or_false]

theorem Flagged.readLoop {s : OrderBookServer} (h : Flagged fd items s) :
    Flagged fd ((s.readLoop fd).intake fd items).items (s.readLoop fd).server := by
  refine iterate_invariant (P := fun st => Flagged fd (st.intake fd items).items st.server)
    (fun _ _ h hst => h.step hst) ?_
  simpa [ReadState.intake] using h

theorem connection?_readLoop (s : OrderBookServer) (hne : fd' ≠ fd) :
    (s.readLoop fd).server.connection? fd' = s.connection? fd' := by
  refine iterate_invariant (P := fun st : ReadState =>
    st.server.connection? fd' = s.connection? fd') ?_ rfl
  intro st st' h hst
  obtain ⟨conn, -, ⟨-, rfl⟩ | ⟨msg, n, -, rfl⟩⟩ := readStep_cases hst
  · rw [connection?_removeConnection, if_neg hne, h]
  · rw [connection?_rebuffer _ fd fd' (List.drop (1 + n)), if_neg hne, connection?_dispatch,
      if_neg (fun hself => hne hself.1), h]

end Velo
