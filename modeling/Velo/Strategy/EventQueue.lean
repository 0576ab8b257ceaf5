import Velo.Lib.TaggedReader
import Velo.Server.Acknowledgement
import Velo.Strategy.Client

/-! `client.py`: the reader thread, the queue and `poll_events`, side by side. -/
namespace Velo

/-- The fills that the server writes are fills of the book. -/
theorem OrderBookServer.fill_of_mem_dispatch {server : OrderBookServer} {L : List Order}
    (h : Represents server.book L) {fd : Fd} {msg : ClientMsg} {w : Send}
    (hw : w ∈ (server.dispatch fd msg).1) {g : FillWireMsg} (hg : w.msg = .fill g) :
    ∃ f : Fill, g = f.toWire := by
  cases msg with
  | newOrder m =>
    by_cases hid : server.book.Rests m.clientOrderId
    · rw [OrderBookServer.dispatch, dispatchNewOrder_rejected h fd hid] at hw
      cases List.mem_singleton.mp hw
      cases hg
    · rw [OrderBookServer.dispatch, (dispatchNewOrder_accepted h fd hid).1] at hw
      rcases List.mem_cons.mp hw with rfl | hw
      · cases hg
      · obtain ⟨f, -, hw⟩ := List.mem_flatMap.mp hw
        rw [Session.mem_fillSends hw] at hg
        exact ⟨f, (ServerMsg.fill.inj hg).symm⟩
  | cancel m =>
    rw [OrderBookServer.dispatch, (dispatchCancel_eq h fd m).1] at hw
    cases List.mem_singleton.mp hw
    cases hg
  | subscribeFills => exact absurd hw List.not_mem_nil

theorem Session.Sound.sides_delivered {s t : Session} (h : s.Sound) {e : Event} {l : List Dispatch}
    (hst : s.step e = some (l, t)) (k : ConnId) {g : FillWireMsg}
    (hg : .fill g ∈ l.flatMap fun d => received k d.delivered) :
    g.restingSide = 0 ∨ g.restingSide = 1 := by
  rcases Session.step_cases hst with ⟨fd, -, -, rfl, -⟩ | ⟨fd, j, -, -, rfl, -⟩ |
    ⟨fd, j, msg, -, -, rfl, -⟩
  · exact absurd hg List.not_mem_nil
  · exact absurd hg List.not_mem_nil
  · obtain ⟨L, hL⟩ := h.book
    rw [List.flatMap_singleton, received] at hg
    obtain ⟨⟨j', m⟩, hd, rfl⟩ := List.mem_map.mp hg
    obtain ⟨w, hw, hm⟩ := List.mem_filterMap.mp (List.mem_filter.mp hd).1
    obtain ⟨j'', -, hm⟩ := Option.map_eq_some_iff.mp hm
    obtain ⟨f, rfl⟩ := OrderBookServer.fill_of_mem_dispatch hL hw (Prod.mk.inj hm).2
    cases hside : f.restingSide <;> simp [Fill.toWire, hside, Side.toUInt8]

theorem Session.sides_of_run {es : List Event} {log : List Dispatch} {s : Session}
    (h : Machine.run Session.step .start es = some (log, s)) (k : ConnId) {g : FillWireMsg}
    (hg : .fill g ∈ log.flatMap fun d => received k d.delivered) :
    g.restingSide = 0 ∨ g.restingSide = 1 := by
  have hall : s.Sound ∧ ∀ g, .fill g ∈ (log.flatMap fun d => received k d.delivered) →
      g.restingSide = 0 ∨ g.restingSide = 1 := by
    refine Machine.run_history (P := fun log (s : Session) => s.Sound ∧
      ∀ g, .fill g ∈ (log.flatMap fun d => received k d.delivered) →
        g.restingSide = 0 ∨ g.restingSide = 1) ?_ h [] ⟨Session.Sound.start, by simp⟩
    rintro log s e l t ⟨hs, hlog⟩ hst
    refine ⟨hs.step hst, fun g hg => ?_⟩
    rw [List.flatMap_append, List.mem_append] at hg
    exact hg.elim (hlog g) fun hg => hs.sides_delivered hst k hg
  exact hall.2 g hg

end Velo

namespace Velo.Strategy
open Machine

/-- The stream from the server, as the reader thread takes it. -/
def eventStream : Tagged UInt8 Event := ⟨payloadSize, decodeEvent⟩

/-- Where the main thread is: outside of `poll_events`, at the `get` with a timeout, or in the loop
of `get_nowait` with the events that it has. -/
inductive Polling
  | outside
  | waiting
  | draining (events : List Event)

def Polling.events : Polling → List Event
  | .outside | .waiting => []
  | .draining events => events

/-- `socket` is what has arrived and is not received yet. -/
structure OrderBookClient where
  socket : List UInt8
  reader : TaggedReader eventStream
  events : List Event
  polling : Polling

/-- Bytes arrive, the reader thread's `recv` returns `n` of them or nothing any more, the main
thread calls `poll_events`, or its `get` returns or raises `Empty`. -/
inductive ThreadEvent
  | arrive (bytes : List UInt8)
  | receive (n : ℕ)
  | hangUp
  | poll (timeout : Bool)
  | get
  deriving DecidableEq

/-- All that arrives. -/
def arrived (es : List ThreadEvent) : List UInt8 :=
  es.flatMap fun
    | .arrive bytes => bytes
    | _ => []

namespace OrderBookClient

def start : OrderBookClient := ⟨[], .atTag, [], .outside⟩

/-- A step logs the list that a `poll_events` returns with it. -/
def step (s : OrderBookClient) : ThreadEvent → Option (List (List Event) × OrderBookClient)
  | .arrive bytes => some ([], { s with socket := s.socket ++ bytes })
  | .receive n =>
    if 1 ≤ n ∧ n ≤ s.reader.missing ∧ n ≤ s.socket.length then
      let (event, reader) := s.reader.receive (s.socket.take n)
      some ([], { s with
        socket := s.socket.drop n
        reader := reader
        events := s.events ++ event.toList })
    else none
  | .hangUp => some ([], { s with reader := .stopped })
  | .poll timeout =>
    match s.polling with
    | .outside => some ([], { s with polling := if timeout then .waiting else .draining [] })
    | .waiting | .draining _ => none
  | .get =>
    match s.polling, s.events with
    | .outside, _ => none
    | .waiting, [] => some ([[]], { s with polling := .outside })
    | .waiting, event :: events =>
      some ([], { s with polling := .draining [event], events := events })
    | .draining got, [] => some ([got], { s with polling := .outside })
    | .draining got, event :: events =>
      some ([], { s with polling := .draining (got ++ [event]), events := events })

/-- What has been put on the queue: it has been returned, is about to be, or is there still. -/
def seen (log : List (List Event)) (s : OrderBookClient) : List Event :=
  log.flatten ++ s.polling.events ++ s.events

variable {s t : OrderBookClient} {log l : List (List Event)} {e : ThreadEvent}

/-- `poll_events` takes from the front of the queue and leaves nothing out. -/
theorem step_cases (h : s.step e = some (l, t)) :
    (∃ bytes, e = .arrive bytes ∧ l = [] ∧ t = { s with socket := s.socket ++ bytes }) ∨
      (∃ n, e = .receive n ∧ 1 ≤ n ∧ n ≤ s.reader.missing ∧ n ≤ s.socket.length ∧ l = [] ∧
        t = { s with
          socket := s.socket.drop n
          reader := (s.reader.receive (s.socket.take n)).2
          events := s.events ++ (s.reader.receive (s.socket.take n)).1.toList }) ∨
      (e = .hangUp ∧ l = [] ∧ t = { s with reader := .stopped }) ∨
      (e ≠ .hangUp ∧ arrived [e] = [] ∧ t.socket = s.socket ∧ t.reader = s.reader ∧
        l.flatten ++ t.polling.events ++ t.events = s.polling.events ++ s.events) := by
  cases e with
  | arrive bytes =>
    cases h
    exact Or.inl ⟨bytes, rfl, rfl, rfl⟩
  | receive n =>
    simp only [step] at h
    split at h
    · rename_i hn
      cases h
      exact Or.inr (Or.inl ⟨n, rfl, hn.1, hn.2.1, hn.2.2, rfl, rfl⟩)
    · cases h
  | hangUp =>
    cases h
    exact Or.inr (Or.inr (Or.inl ⟨rfl, rfl, rfl⟩))
  | poll timeout =>
    simp only [step] at h
    split at h
    · rename_i hpolling
      cases h
      refine Or.inr (Or.inr (Or.inr ⟨by simp, rfl, rfl, rfl, ?_⟩))
      cases timeout <;> simp [hpolling, Polling.events]
    · cases h
    · cases h
  | get =>
    simp only [step] at h
    refine Or.inr (Or.inr (Or.inr ?_))
    split at h
    · cases h
    all_goals
      rename_i hpolling hevents
      cases h
      exact ⟨by simp, rfl, rfl, rfl, by simp [hpolling, hevents, Polling.events]⟩

/-- The events put on the queue are those of the stream so far, in order; the reader takes the rest
of it for the rest of them, unless the connection has been lost; and of what has been received all
are on the queue, lost or not. -/
structure Follows (es : List ThreadEvent) (log : List (List Event)) (s : OrderBookClient) :
    Prop where
  seen : seen log s <+: (eventStream.framing.parse (arrived es)).1
  rest : .hangUp ∉ es → ∀ later, OrderBookClient.seen log s ++ s.reader.ahead (s.socket ++ later) =
    (eventStream.framing.parse (arrived es ++ later)).1
  stopped : .hangUp ∈ es → s.reader = .stopped
  complete : s.socket = [] →
    OrderBookClient.seen log s = (eventStream.framing.parse (arrived es)).1

variable {es : List ThreadEvent}

theorem arrived_append (es es' : List ThreadEvent) :
    arrived (es ++ es') = arrived es ++ arrived es' :=
  List.flatMap_append

theorem follows_start : Follows [] [] .start where
  seen := List.nil_prefix
  rest := fun _ _ => rfl
  stopped := fun h => absurd h List.not_mem_nil
  complete := fun _ => (congrArg Prod.fst (eventStream.framing.parse_more rfl)).symm

theorem Follows.arrive (h : Follows es log s) (bytes : List UInt8) :
    Follows (es ++ [.arrive bytes]) log { s with socket := s.socket ++ bytes } := by
  have harrived : arrived (es ++ [.arrive bytes]) = arrived es ++ bytes := by
    simp [arrived]
  have hlost : ThreadEvent.hangUp ∈ es ++ [.arrive bytes] ↔ .hangUp ∈ es := by simp
  refine ⟨?_, fun hkept later => ?_, fun hgone => h.stopped (hlost.mp hgone), fun hsocket => ?_⟩
  · rw [harrived]
    exact h.seen.trans (eventStream.framing.parse_mono (arrived es) bytes)
  · rw [harrived, List.append_assoc (arrived es), ← h.rest (mt hlost.mpr hkept) (bytes ++ later),
      ← List.append_assoc s.socket]
    rfl
  · obtain ⟨hempty, rfl⟩ := List.append_eq_nil_iff.mp hsocket
    rw [harrived, List.append_nil (arrived es), List.append_nil]
    exact h.complete hempty

theorem Follows.receive (h : Follows es log s) {n : ℕ} (hpos : 1 ≤ n) (hn : n ≤ s.reader.missing)
    (hsocket : n ≤ s.socket.length) :
    Follows (es ++ [.receive n]) log { s with
      socket := s.socket.drop n
      reader := (s.reader.receive (s.socket.take n)).2
      events := s.events ++ (s.reader.receive (s.socket.take n)).1.toList } := by
  have harrived : arrived (es ++ [.receive n]) = arrived es := by
    simp [arrived]
  have hlost : ThreadEvent.hangUp ∈ es ++ [.receive n] ↔ .hangUp ∈ es := by simp
  have hkept : ThreadEvent.hangUp ∉ es := by
    intro hgone
    rw [h.stopped hgone] at hn
    exact absurd (hpos.trans hn) (by decide)
  have hseen (later : List UInt8) : OrderBookClient.seen log { s with
      socket := s.socket.drop n
      reader := (s.reader.receive (s.socket.take n)).2
      events := s.events ++ (s.reader.receive (s.socket.take n)).1.toList } ++
        (s.reader.receive (s.socket.take n)).2.ahead (s.socket.drop n ++ later) =
      (eventStream.framing.parse (arrived es ++ later)).1 := by
    rw [← h.rest hkept later, TaggedReader.receive_take hpos hn hsocket]
    simp only [OrderBookClient.seen, List.append_assoc]
  have hall := hseen []
  rw [List.append_nil (arrived es)] at hall
  refine ⟨?_, fun _ later => ?_, fun hgone => absurd (hlost.mp hgone) hkept, fun hempty => ?_⟩
  · rw [harrived, ← hall]
    exact List.prefix_append _ _
  · rw [harrived]
    exact hseen later
  · have hempty : s.socket.drop n = [] := hempty
    rw [harrived, ← hall, hempty, List.append_nil, TaggedReader.ahead_nil, List.append_nil]

theorem Follows.step (h : Follows es log s) (hst : s.step e = some (l, t)) :
    Follows (es ++ [e]) (log ++ l) t := by
  rcases step_cases hst with ⟨bytes, rfl, rfl, rfl⟩ | ⟨n, rfl, hpos, hn, hsocket, rfl, rfl⟩ |
    ⟨rfl, rfl, rfl⟩ | ⟨hne, hnone, hsocket, hreader, hkept⟩
  · rw [List.append_nil]
    exact h.arrive bytes
  · rw [List.append_nil]
    exact h.receive hpos hn hsocket
  · rw [List.append_nil]
    have harrived : arrived (es ++ [.hangUp]) = arrived es := by
      simp [arrived]
    refine ⟨?_, fun hkept => absurd (List.mem_append_right es List.mem_cons_self) hkept,
      fun _ => rfl, ?_⟩
    · rw [harrived]
      exact h.seen
    · rw [harrived]
      exact h.complete
  · have hseen : OrderBookClient.seen (log ++ l) t = OrderBookClient.seen log s := by
      rw [OrderBookClient.seen, OrderBookClient.seen, List.flatten_append, List.append_assoc,
        List.append_assoc, ← List.append_assoc l.flatten, hkept, List.append_assoc]
    have hlost : ThreadEvent.hangUp ∈ es ++ [e] ↔ .hangUp ∈ es := by
      rw [List.mem_append, List.mem_singleton, or_iff_left hne.symm]
    have harrived : arrived (es ++ [e]) = arrived es := by
      rw [arrived_append, hnone, List.append_nil]
    refine ⟨?_, fun hgone later => ?_, fun hgone => ?_, ?_⟩
    · rw [hseen, harrived]
      exact h.seen
    · rw [hseen, harrived, hreader, hsocket]
      exact h.rest (mt hlost.mpr hgone) later
    · rw [hreader]
      exact h.stopped (hlost.mp hgone)
    · rw [hsocket, hseen, harrived]
      exact h.complete

theorem Follows.run (h : Follows es log s) {es' : List ThreadEvent}
    (hr : Machine.run OrderBookClient.step s es' = some (l, t)) :
    Follows (es ++ es') (log ++ l) t := by
  induction es' generalizing s es log l with
  | nil =>
    obtain ⟨rfl, rfl⟩ := run_nil.mp hr
    rwa [List.append_nil, List.append_nil]
  | cons e es' ih =>
    obtain ⟨l₁, u, l₂, hst, hrest, rfl⟩ := run_cons.mp hr
    have hnext := ih (h.step hst) hrest
    rwa [List.append_assoc, List.append_assoc] at hnext

theorem parse_served {ms : List ServerMsg}
    (hsides : ∀ f, .fill f ∈ ms → f.restingSide = 0 ∨ f.restingSide = 1) :
    (eventStream.framing.parse (ms.flatMap ServerMsg.bytes)).1 = ms.map Wire.pythonEvent := by
  have hall := Tagged.parse_messages (T := eventStream) Wire.tag Wire.payload Wire.pythonEvent
    (fun m _ => (Wire.length_payload m).1)
    (fun m hm => Wire.decodeEvent_payload fun f hf => hsides f (hf ▸ hm)) []
  simp only [List.append_nil, ← Wire.bytes_eq] at hall
  rw [hall, eventStream.framing.parse_more rfl, List.append_nil]

/-- A connection of any run of the server, and a client at its other end: however the bytes arrive
and are received, and however the two threads interleave, the calls of `poll_events` return the
messages of the server one after the other, each once; and once all of them have been received, each
is returned, is about to be, or waits in the queue, also when the connection has been lost since. -/
theorem polled_in_order {before : List Velo.Event} {served : List Dispatch} {session : Session}
    (h₀ : Machine.run Session.step .start before = some (served, session)) (k : ConnId)
    {es : List ThreadEvent}
    (harrived : arrived es <+: (served.flatMap fun d => received k d.delivered).flatMap
      ServerMsg.bytes)
    (hr : Machine.run step start es = some (log, t)) :
    let told := (served.flatMap fun d => received k d.delivered).map Wire.pythonEvent
    seen log t <+: told ∧ (t.socket = [] →
      arrived es = (served.flatMap fun d => received k d.delivered).flatMap ServerMsg.bytes →
        seen log t = told) := by
  intro told
  have hsides : ∀ f, .fill f ∈ (served.flatMap fun d => received k d.delivered) →
      f.restingSide = 0 ∨ f.restingSide = 1 := fun f hf => Session.sides_of_run h₀ k hf
  have htold := parse_served hsides
  have hfollows := follows_start.run hr
  rw [List.nil_append, List.nil_append] at hfollows
  constructor
  · obtain ⟨later, hlater⟩ := harrived
    have hmono := eventStream.framing.parse_mono (arrived es) later
    rw [hlater, htold] at hmono
    exact hfollows.seen.trans hmono
  · intro hsocket hall
    rw [hfollows.complete hsocket, hall, htold]

/-- An acknowledgement and a fill, of which the fill arrives during a `poll_events`. -/
theorem polled_in_order_across_a_poll :
    let msgs : List ServerMsg := [.ack ⟨1, 1, 0⟩, .fill ⟨1, 2, 1, 100, 4, 2⟩]
    let bytes := msgs.flatMap ServerMsg.bytes
    ∃ log t, Machine.run step start [.arrive (bytes.take 20), .poll true, .receive 1, .receive 4,
        .receive 6, .get, .arrive (bytes.drop 20), .receive 1, .receive 30, .receive 7, .get,
        .get] = some (log, t) ∧ seen log t = msgs.map Wire.pythonEvent := by
  intro msgs bytes
  have hend : (Machine.run step start [.arrive (bytes.take 20), .poll true, .receive 1, .receive 4,
      .receive 6, .get, .arrive (bytes.drop 20), .receive 1, .receive 30, .receive 7, .get,
      .get]).map (fun r => decide (r.2.socket = [])) = some true := by
    decide +kernel
  obtain ⟨⟨log, t⟩, hrun, ht⟩ := Option.map_eq_some_iff.mp hend
  have hserved : (Machine.run Session.step .start [.connect 5,
      .message 5 (.newOrder ⟨1, 1, 0, 100, 10⟩), .connect 6,
      .message 6 (.newOrder ⟨2, 0, 0, 100, 4⟩)]).map (fun r =>
        decide ((r.1.flatMap fun d => received 0 d.delivered) = msgs)) = some true := by
    decide +kernel
  obtain ⟨⟨served, session⟩, h₀, hmsgs⟩ := Option.map_eq_some_iff.mp hserved
  have hbytes : arrived [.arrive (bytes.take 20), .poll true, .receive 1, .receive 4,
      .receive 6, .get, .arrive (bytes.drop 20), .receive 1, .receive 30, .receive 7, .get,
      .get] = bytes := by
    decide +kernel
  have hall := polled_in_order h₀ 0 (by rw [of_decide_eq_true hmsgs, hbytes]) hrun
  exact ⟨log, t, hrun, (of_decide_eq_true hmsgs) ▸ hall.2 (of_decide_eq_true ht)
    (by rw [of_decide_eq_true hmsgs, hbytes])⟩

end OrderBookClient
end Velo.Strategy
