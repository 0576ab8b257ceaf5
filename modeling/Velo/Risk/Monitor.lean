import Velo.Server.MarketData
import Velo.Wire.Agreement

/-! The risk engine at the server: what it has counted, and what has been traded. -/
namespace Velo.Risk
open Machine

/-- The message that the server reads from what is written to it at once. -/
def sent? (buf : List UInt8) : Option ClientMsg :=
  match clientNext buf with
  | .item msg [] => some msg
  | _ => none

/-- `outbox` is sent and not yet executed, and `inbox` written by the server and not yet read. -/
structure Monitor where
  session : Session
  fd : Fd
  conn : ConnId
  engine : RiskEngine
  outbox : List ClientMsg
  inbox : List ServerMsg

/-- The server executes the engine's oldest request, the engine reads its oldest message, or the
other clients do anything. -/
inductive MonitorEvent
  | execute
  | read
  | other (e : Velo.Event)

/-- The descriptor that an event is about. -/
def eventFd : Velo.Event → Fd
  | .connect fd | .disconnect fd | .message fd _ => fd

namespace Monitor

/-- The engine connects to a server that may have been in use, and asks for the fills. -/
def start (s : Session) (fd : Fd) (limits : RiskLimits) : Monitor :=
  ⟨s.connect fd, fd, s.descriptors.length, .start limits,
    (sent? Protocol.encodeSubscribeFills).toList, []⟩

def hear (s : Monitor) (log : List Dispatch) : Monitor :=
  { s with inbox := s.inbox ++ log.flatMap fun d => received s.conn d.delivered }

def step (s : Monitor) : MonitorEvent → Option (List Dispatch × Monitor)
  | .execute =>
    match s.outbox with
    | [] => none
    | msg :: outbox =>
      (s.session.step (.message s.fd msg)).map fun (log, session) =>
        (log, { s with session := session, outbox := outbox }.hear log)
  | .read =>
    match s.inbox with
    | [] => none
    | msg :: inbox =>
      (Protocol.decode ⟨Wire.tag msg, Wire.payload msg⟩).map fun incoming =>
        let (order, engine) := s.engine.read incoming
        ([], { s with
          engine := engine
          outbox := s.outbox ++
            (order.bind fun o => sent? (Protocol.encodeNewOrder o)).toList
          inbox := inbox })
  | .other e =>
    if eventFd e = s.fd then none
    else
      (s.session.step e).map fun (log, session) => (log, { s with session := session }.hear log)

end Monitor

/-- What the server makes of a flatten order. -/
def OrderMsg.toClientMsg (o : OrderMsg) : ClientMsg := (Wire.Message.newOrder o).toClientMsg

theorem sent?_newOrder (o : OrderMsg) :
    sent? (Protocol.encodeNewOrder o) = some o.toClientMsg := by
  have hnext := Wire.clientNext_rustBytes (.newOrder o) []
  rw [List.append_nil] at hnext
  exact congrArg (fun r : Next UInt8 ClientMsg => match r with
    | .item msg [] => some msg
    | _ => none) hnext

/-- What a fill moves the position by. -/
def signedFill (f : FillWireMsg) : ℤ := (Protocol.ofWire f).signedQuantity

namespace Monitor

variable {s t : Monitor} {e : MonitorEvent} {l log : List Dispatch}

/-- All that an event can do. -/
theorem step_cases (h : s.step e = some (l, t)) :
    (∃ msg outbox, e = .execute ∧ s.outbox = msg :: outbox ∧ ∃ session,
        s.session.step (.message s.fd msg) = some (l, session) ∧
          t = { s with session := session, outbox := outbox }.hear l) ∨
      (∃ a inbox, e = .read ∧ s.inbox = .ack a :: inbox ∧ l = [] ∧
        t = { s with inbox := inbox }) ∨
      (∃ f inbox, e = .read ∧ s.inbox = .fill f :: inbox ∧ l = [] ∧
        t = { s with
          engine := (s.engine.read (.fill (Protocol.ofWire f))).2
          outbox := s.outbox ++
            ((s.engine.read (.fill (Protocol.ofWire f))).1.map OrderMsg.toClientMsg).toList
          inbox := inbox }) ∨
      ∃ e' session, e = .other e' ∧ eventFd e' ≠ s.fd ∧ s.session.step e' = some (l, session) ∧
        t = { s with session := session }.hear l := by
  cases e with
  | execute =>
    simp only [step] at h
    split at h
    · cases h
    · rename_i msg outbox houtbox
      obtain ⟨⟨log, session⟩, hst, heq⟩ := Option.map_eq_some_iff.mp h
      cases heq
      exact Or.inl ⟨msg, outbox, rfl, houtbox, session, hst, rfl⟩
  | read =>
    simp only [step] at h
    split at h
    · cases h
    · rename_i msg inbox hinbox
      rw [Wire.decode_payload, Option.map_some, Option.some.injEq, Prod.mk.injEq] at h
      obtain ⟨rfl, rfl⟩ := h
      cases msg with
      | ack a =>
        refine Or.inr (Or.inl ⟨a, inbox, rfl, hinbox, rfl, ?_⟩)
        simp [Wire.rustEvent, RiskEngine.read]
      | fill f =>
        refine Or.inr (Or.inr (Or.inl ⟨f, inbox, rfl, hinbox, rfl, ?_⟩))
        simp only [Wire.rustEvent, Option.map_eq_bind, Function.comp_def, sent?_newOrder]
  | other e' =>
    simp only [step] at h
    split at h
    · cases h
    · rename_i hfd
      obtain ⟨⟨log, session⟩, hst, heq⟩ := Option.map_eq_some_iff.mp h
      cases heq
      exact Or.inr (Or.inr (Or.inr ⟨e', session, rfl, hfd, hst, rfl⟩))

/-- The engine is not subscribed yet, and is told nothing. -/
structure Waits (t : Monitor) : Prop where
  outbox : t.outbox = [.subscribeFills]
  inbox : t.inbox = []
  unrecorded : t.session.Unrecorded t.fd
  subscribed : t.session.subscribed t.conn = false

/-- What the engine has counted and what it has yet to count are the fills since its
subscription. -/
structure Counts (b : OrderBook) (log : List Dispatch) (t : Monitor) : Prop where
  sound : t.session.Sound
  connected : t.session.holder t.fd = some t.conn
  book : t.session.server.book = (b.run (requests log)).2
  counted : ∃ early late, log = early ++ late ∧ (∀ d ∈ early, d.sender ≠ t.conn) ∧
    ((late = [] ∧ t.Waits) ∨ (t.session.subscribed t.conn ∧
      ∃ d later, late = d :: later ∧ d.sender = t.conn ∧ d.msg = .subscribeFills)) ∧
    t.engine.position.netPosition + ((fillMsgs t.inbox).map signedFill).sum =
      (((b.run (requests early)).2.fillsOf (requests late)).map signedFill).sum

variable {b : OrderBook} {session : Session}

theorem Counts.start {s₀ : Session} (h : s₀.Sound) {fd : Fd} (hfd : s₀.holder fd = none)
    (hfresh : s₀.Unrecorded fd) (limits : RiskLimits) :
    Counts s₀.server.book [] (.start s₀ fd limits) where
  sound := h.connect hfd
  connected := by simp [Monitor.start, Session.connect]
  book := rfl
  counted := ⟨[], [], rfl, by simp, Or.inl ⟨rfl, rfl, rfl, hfresh, h.unsubscribed _ (le_refl _)⟩,
    rfl⟩

/-- While it waits, the others leave the engine alone. -/
theorem Waits.other (h : s.Waits) (hs : s.session.Sound)
    (hconn : s.session.holder s.fd = some s.conn) {e' : Velo.Event} (hne : eventFd e' ≠ s.fd)
    (hst : s.session.step e' = some (l, session)) :
    Waits ({ s with session := session }.hear l) ∧ ∀ d ∈ l, d.sender ≠ s.conn := by
  obtain ⟨houtbox, hinbox, hfresh, hsub⟩ := h
  rcases Session.step_cases hst with ⟨fd, rfl, -, rfl, rfl⟩ | ⟨fd, k, rfl, -, rfl, rfl⟩ |
    ⟨fd, k, msg, rfl, hk, rfl, rfl⟩
  · exact ⟨⟨houtbox, by simp [hear, hinbox], hfresh, hsub⟩, by simp⟩
  · exact ⟨⟨houtbox, by simp [hear, hinbox], hfresh, hsub⟩, by simp⟩
  · have hkne : k ≠ s.conn := by
      rintro rfl
      exact hne (hs.holder_inj hk hconn)
    have hnone := hs.received_stranger hk hconn (Ne.symm hne) hfresh hsub msg
    refine ⟨⟨houtbox, by simp [hear, hinbox, hnone],
      hs.unrecorded_dispatch hfresh (Ne.symm hne) msg, ?_⟩, ?_⟩
    · simp only [hear, Session.dispatch]
      cases msg with
      | subscribeFills =>
        rw [Session.subscribedAfter, Function.update_of_ne hkne.symm]
        exact hsub
      | newOrder m => exact hsub
      | cancel m => exact hsub
    · intro d hd
      cases List.mem_singleton.mp hd
      exact hkne

theorem Counts.told (h : Counts b log s) (hsub : s.session.subscribed s.conn) {e' : Velo.Event}
    (hst : s.session.step e' = some (l, session)) {early late : List Dispatch}
    (hlog : log = early ++ late)
    (hsum : s.engine.position.netPosition + ((fillMsgs s.inbox).map signedFill).sum =
      (((b.run (requests early)).2.fillsOf (requests late)).map signedFill).sum) :
    s.engine.position.netPosition + ((fillMsgs (s.inbox ++ l.flatMap fun d =>
        received s.conn d.delivered)).map signedFill).sum =
      (((b.run (requests early)).2.fillsOf (requests (late ++ l))).map signedFill).sum := by
  have htold := (h.sound.told_step hst h.connected hsub).1
  have hbook := h.book
  rw [hlog, requests_append, OrderBook.run_append] at hbook
  rw [fillMsgs_append, requests_append, OrderBook.fillsOf_append, htold, ← hbook,
    List.map_append, List.sum_append, List.map_append, List.sum_append, ← add_assoc, hsum]

/-- An event of the server, however the engine has a part in it. -/
theorem Counts.server (h : Counts b log s) {e' : Velo.Event}
    (hst : s.session.step e' = some (l, session))
    (he : eventFd e' ≠ s.fd ∨ ∃ msg, e' = .message s.fd msg) {outbox : List ClientMsg}
    (hphase : ∀ early late, log = early ++ late → (∀ d ∈ early, d.sender ≠ s.conn) →
      late = [] → s.Waits → s.engine.position.netPosition + ((fillMsgs s.inbox).map
          signedFill).sum = (((b.run (requests early)).2.fillsOf []).map signedFill).sum →
      ∃ early late, log ++ l = early ++ late ∧ (∀ d ∈ early, d.sender ≠ s.conn) ∧
        ((late = [] ∧ Waits ({ s with session := session, outbox := outbox }.hear l)) ∨
          (session.subscribed s.conn ∧
            ∃ d later, late = d :: later ∧ d.sender = s.conn ∧ d.msg = .subscribeFills)) ∧
        s.engine.position.netPosition + ((fillMsgs (s.inbox ++ l.flatMap fun d =>
            received s.conn d.delivered)).map signedFill).sum =
          (((b.run (requests early)).2.fillsOf (requests late)).map signedFill).sum) :
    Counts b (log ++ l) ({ s with session := session, outbox := outbox }.hear l) := by
  obtain ⟨early, late, hlog, hearly, hwhen, hsum⟩ := h.counted
  have hopen : e' ≠ .disconnect s.fd := by
    rintro rfl
    exact he.elim (fun hne => hne rfl) (by simp)
  refine ⟨h.sound.step hst, Session.holder_of_step h.connected hopen hst, ?_, ?_⟩
  · rw [requests_append, OrderBook.run_append, ← h.book]
    exact h.sound.book_step hst
  · rcases hwhen with ⟨rfl, hwaits⟩ | ⟨hsub, d, later, rfl, hd⟩
    · exact hphase early [] hlog hearly rfl hwaits hsum
    · exact ⟨early, d :: later ++ l, by rw [hlog, List.append_assoc], hearly,
        Or.inr ⟨Session.subscribed_step hst hsub, d, later ++ l, rfl, hd⟩,
        h.told hsub hst hlog hsum⟩

theorem Counts.execute (h : Counts b log s) {msg : ClientMsg} {outbox : List ClientMsg}
    (houtbox : s.outbox = msg :: outbox)
    (hst : s.session.step (.message s.fd msg) = some (l, session)) :
    Counts b (log ++ l) ({ s with session := session, outbox := outbox }.hear l) := by
  refine h.server hst (Or.inr ⟨msg, rfl⟩) ?_
  rintro early _ hlog hearly rfl hwaits hsum
  rw [hwaits.outbox, List.cons.injEq] at houtbox
  obtain ⟨rfl, -⟩ := houtbox
  rw [Session.step_message h.connected, Option.some.injEq, Prod.mk.injEq] at hst
  obtain ⟨rfl, rfl⟩ := hst
  refine ⟨early, [_], by rw [hlog, List.append_nil], hearly,
    Or.inr ⟨Function.update_self .., _, [], rfl, rfl, rfl⟩, ?_⟩
  have hsilent : received s.conn
      (s.session.deliver (s.session.server.dispatch s.fd .subscribeFills).1) = [] := rfl
  rw [List.flatMap_singleton, hsilent, List.append_nil]
  exact hsum

theorem Counts.other (h : Counts b log s) {e' : Velo.Event} (hne : eventFd e' ≠ s.fd)
    (hst : s.session.step e' = some (l, session)) :
    Counts b (log ++ l) ({ s with session := session }.hear l) := by
  refine h.server hst (Or.inl hne) ?_
  rintro early _ hlog hearly rfl hwaits hsum
  obtain ⟨hstill, hsenders⟩ := hwaits.other h.sound h.connected hne hst
  have hinbox := hstill.inbox
  simp only [hear] at hinbox
  refine ⟨log ++ l, [], (List.append_nil _).symm, ?_, Or.inl ⟨rfl, hstill⟩, ?_⟩
  · rw [hlog, List.append_nil]
    exact fun d hd => (List.mem_append.mp hd).elim (hearly d) (hsenders d)
  · rw [hwaits.inbox] at hsum
    rw [hinbox]
    exact hsum

theorem Counts.step (h : Counts b log s) (hst : s.step e = some (l, t)) :
    Counts b (log ++ l) t := by
  rcases step_cases hst with ⟨msg, outbox, -, houtbox, session, hsession, rfl⟩ |
    ⟨a, inbox, -, hinbox, rfl, rfl⟩ | ⟨f, inbox, -, hinbox, rfl, rfl⟩ |
    ⟨e', session, -, hne, hsession, rfl⟩
  · exact h.execute houtbox hsession
  · obtain ⟨early, late, hlog, hearly, hwhen, hsum⟩ := h.counted
    rw [hinbox] at hsum
    rw [List.append_nil]
    refine ⟨h.sound, h.connected, h.book, early, late, hlog, hearly, hwhen.imp_left ?_, hsum⟩
    rintro ⟨-, hwaits⟩
    rw [hwaits.inbox] at hinbox
    cases hinbox
  · obtain ⟨early, late, hlog, hearly, hwhen, hsum⟩ := h.counted
    rw [List.append_nil]
    refine ⟨h.sound, h.connected, h.book, early, late, hlog, hearly, hwhen.imp_left ?_, ?_⟩
    · rintro ⟨-, hwaits⟩
      rw [hwaits.inbox] at hinbox
      cases hinbox
    · have hfill : fillMsgs s.inbox = f :: fillMsgs inbox := by
        rw [hinbox]
        rfl
      rw [hfill, List.map_cons, List.sum_cons] at hsum
      rw [RiskEngine.netPosition_read, ← hsum]
      simp only [signedFill]
      omega
  · exact h.other hne hsession

theorem Counts.run (h : Counts b log s) {es : List MonitorEvent}
    (hr : Machine.run Monitor.step s es = some (l, t)) : Counts b (log ++ l) t :=
  run_history (P := Counts b) (fun _ _ _ _ _ hs hst => hs.step hst) hr log h

/-- However the engine, the server and everybody else interleave: the position that the engine has
counted, with the fills on their way to it, is that of all fills made since its subscription was
executed, each counted once. -/
theorem position_counts_every_fill (before : List Velo.Event) {log₀ : List Dispatch}
    {s₀ : Session} (h₀ : Machine.run Session.step .start before = some (log₀, s₀)) {fd : Fd}
    (hfd : s₀.holder fd = none) (hfresh : s₀.Unrecorded fd) (limits : RiskLimits)
    {es : List MonitorEvent} (hr : Machine.run step (start s₀ fd limits) es = some (log, t)) :
    ∃ early late, log = early ++ late ∧ (∀ d ∈ early, d.sender ≠ t.conn) ∧
      (late = [] ∨ ∃ d later, late = d :: later ∧ d.sender = t.conn ∧ d.msg = .subscribeFills) ∧
      t.engine.position.netPosition + ((fillMsgs t.inbox).map signedFill).sum =
        (((s₀.server.book.run (requests early)).2.fillsOf (requests late)).map signedFill).sum := by
  have hs := Session.Sound.start.run h₀
  have hcounts := (Counts.start hs hfd hfresh limits).run hr
  rw [List.nil_append] at hcounts
  obtain ⟨early, late, hlog, hearly, hwhen, hsum⟩ := hcounts.counted
  exact ⟨early, late, hlog, hearly, hwhen.imp And.left And.right, hsum⟩

/-- Fifty are bought, the engine sells them, and has read neither of the two fills of that yet. -/
theorem position_counts_every_fill_under_way :
    ∃ log t, Machine.run step (start .start 3 ⟨20⟩) [.execute, .other (.connect 4),
        .other (.connect 5), .other (.message 4 (.newOrder ⟨1, 1, 0, 100, 50⟩)),
        .other (.message 5 (.newOrder ⟨2, 0, 0, 100, 50⟩)), .read,
        .other (.message 4 (.newOrder ⟨3, 0, 0, 99, 20⟩)),
        .other (.message 4 (.newOrder ⟨4, 0, 0, 98, 40⟩)), .execute] = some (log, t) ∧
      ∃ early late, log = early ++ late ∧ t.engine.position.netPosition +
          ((fillMsgs t.inbox).map signedFill).sum =
        (((OrderBook.empty.run (requests early)).2.fillsOf (requests late)).map
          signedFill).sum := by
  have hfresh : Machine.run Session.step .start [] = some ([], .start) := rfl
  obtain ⟨⟨log, t⟩, hrun⟩ := Option.isSome_iff_exists.mp (show (Machine.run step
      (start .start 3 ⟨20⟩) [.execute, .other (.connect 4), .other (.connect 5),
        .other (.message 4 (.newOrder ⟨1, 1, 0, 100, 50⟩)),
        .other (.message 5 (.newOrder ⟨2, 0, 0, 100, 50⟩)), .read,
        .other (.message 4 (.newOrder ⟨3, 0, 0, 99, 20⟩)),
        .other (.message 4 (.newOrder ⟨4, 0, 0, 98, 40⟩)), .execute]).isSome by decide +kernel)
  obtain ⟨early, late, hlog, -, -, hsum⟩ :=
    position_counts_every_fill [] hfresh rfl (by decide) ⟨20⟩ hrun
  exact ⟨log, t, hrun, early, late, hlog, hsum⟩

end Monitor
end Velo.Risk
