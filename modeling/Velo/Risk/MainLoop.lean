import Velo.Lib.TaggedReader
import Velo.Risk.Breach
import Velo.Risk.RiskLog
import Velo.Risk.Settled

/-! The loop of `risk/src/main.rs` on its own `i64` and `f64`, in either build: from the bytes that
arrive to the bytes that it sends and the file that it writes. -/
namespace Velo.Risk
open Machine Overflow

/-- The stream from the server, as the loop takes it. -/
def frameStream : Tagged UInt8 Protocol.Frame :=
  ⟨Protocol.payloadSize, fun tag payload => some ⟨tag, payload⟩⟩

/-- Why the loop is left: the connection is closed between two messages or inside one, a tag is
unknown, or something panics. -/
inductive Exit
  | closed
  | midMessage
  | unknownTag
  | panicked
  deriving DecidableEq

/-- `socket` is what has arrived and is not read yet. -/
structure MainLoop where
  limits : MachineLimits
  position : MachineTracker
  nextFlattenId : UInt64
  socket : List UInt8
  reader : TaggedReader frameStream
  sent : List UInt8
  file : List UInt8
  exit : Option Exit

/-- Bytes arrive; a `read` returns `n` of them, and if that completes a message it is the time `ts`,
and `fails` says after how many bytes the write of an order fails, if it does; or a `read` returns
nothing any more. -/
inductive LoopEvent
  | arrive (bytes : List UInt8)
  | receive (n : ℕ) (ts : Stamp) (fails : Option ℕ)
  | hangUp

/-- All that arrives. -/
def LoopEvent.arrived (es : List LoopEvent) : List UInt8 :=
  es.flatMap fun
    | .arrive bytes => bytes
    | _ => []

namespace MainLoop

/-- The file is opened to append to it. -/
def start (limits : MachineLimits) (file : List UInt8) : MainLoop :=
  ⟨limits, .new, flattenOrderIdBase, [], .atTag, Protocol.encodeSubscribeFills, file, none⟩

def panic (s : MainLoop) : MainLoop := { s with exit := some .panicked }

/-- The order is sent before the halt is logged. -/
def flatten (build : Build) (s : MainLoop) (action : FlattenAction) (ts : Stamp)
    (fails : Option ℕ) : MainLoop :=
  let orderId := s.nextFlattenId
  match build.toUInt64 (orderId.toNat + 1) with
  | none => s.panic
  | some next =>
    let flattenMsg := Protocol.encodeNewOrder ⟨orderId, action.side, .market, 0, action.quantity⟩
    match fails with
    | some k => { s with nextFlattenId := next, sent := s.sent ++ flattenMsg.take k }.panic
    | none =>
      { s with
        nextFlattenId := next
        sent := s.sent ++ flattenMsg
        file := s.file ++ RiskLog.halt s.position.netPosition.toInt s.limits.maxAbsPosition.toInt
          orderId ts }

/-- A fill that is written to the file is counted, with the time. -/
def onFill (build : Build) (s : MainLoop) (fill : FillEvent) (ts : Stamp) (fails : Option ℕ) :
    List (FillEvent × Stamp) × MainLoop :=
  match s.position.onFill build.toInt64 fill.incomingSide fill.quantity fill.priceTicks with
  | none => ([], s.panic)
  | some position =>
    match position.unrealizedPnlTicks build.toInt64 with
    | none => ([], { s with position := position }.panic)
    | some unrealized =>
      let s := { s with
        position := position
        file := s.file ++ RiskLog.positionUpdate position.netPosition.toInt
          position.realizedPnlTicks.toInt unrealized.toInt ts }
      match s.limits.checkBreach build.toInt64 position.netPosition with
      | none => ([(fill, ts)], s.panic)
      | some none => ([(fill, ts)], s)
      | some (some action) => ([(fill, ts)], s.flatten build action ts fails)

/-- A whole message: only fills are looked into, and a payload too short for its fields panics. -/
def handle (build : Build) (s : MainLoop) (m : Protocol.Frame) (ts : Stamp) (fails : Option ℕ) :
    List (FillEvent × Stamp) × MainLoop :=
  if m.tag = Protocol.asU8 .fill then
    match Protocol.decodeFill m.payload with
    | none => ([], s.panic)
    | some fill => s.onFill build fill ts fails
  else ([], s)

/-- A step logs the fill that it counts. -/
def step (build : Build) (s : MainLoop) :
    LoopEvent → Option (List (FillEvent × Stamp) × MainLoop)
  | .arrive bytes => some ([], { s with socket := s.socket ++ bytes })
  | .receive n ts fails =>
    if s.exit = none ∧ 1 ≤ n ∧ n ≤ s.reader.missing ∧ n ≤ s.socket.length then
      let (m, reader) := s.reader.receive (s.socket.take n)
      let s := { s with socket := s.socket.drop n, reader := reader }
      match m, reader with
      | some m, _ => some (s.handle build m ts fails)
      | none, .stopped => some ([], { s with exit := some .unknownTag })
      | none, _ => some ([], s)
    else none
  | .hangUp =>
    match s.exit, s.reader with
    | none, .atTag => some ([], { s with exit := some .closed })
    | none, .inPayload .. => some ([], { s with exit := some .midMessage })
    | _, _ => some ([], s)

end MainLoop

namespace LogEntry

/-- The order that an entry tells of. -/
def order? : LogEntry → Option OrderMsg
  | .positionUpdate .. => none
  | .halt net _ orderId _ => some (closing orderId net)

/-- The bytes of the orders that some entries tell of. -/
def orders (entries : List LogEntry) : List UInt8 :=
  (entries.filterMap order?).flatMap Protocol.encodeNewOrder

def update (u : PositionUpdate) (ts : Stamp) : LogEntry :=
  .positionUpdate u.netPosition.toInt u.realizedPnl.toInt u.unrealizedPnl.toInt ts

theorem orders_append (entries entries' : List LogEntry) :
    orders (entries ++ entries') = orders entries ++ orders entries' := by
  rw [orders, List.filterMap_append, List.flatMap_append]
  rfl

end LogEntry

/-- The entries for some fills, from an order id on: each has the position and the P&L after it,
and if the position is beyond the limit, a halt with the next id. -/
def recorded (limits : MachineLimits) : UInt64 → List (PositionUpdate × Stamp) → List LogEntry
  | _, [] => []
  | id, (u, ts) :: rows =>
    if limits.Beyond u.netPosition then
      .update u ts :: .halt u.netPosition.toInt limits.maxAbsPosition.toInt id ts ::
        recorded limits (id + 1) rows
    else .update u ts :: recorded limits id rows

/-- How many orders some positions call for. -/
def breaches (limits : MachineLimits) (us : List PositionUpdate) : ℕ :=
  us.countP fun u => limits.Beyond u.netPosition

/-- A build with overflow checks stops at one of some fills: the position or the P&L does not fit,
or the position has no absolute value, or the order ids are used up. -/
def Overflows (limits : MachineLimits) (fills : List FillEvent) : Prop :=
  ∀ us, MachineTracker.updates Build.debug.toInt64 .new fills = some us →
    (∃ u ∈ us, |u.netPosition.toInt| = 2 ^ 63) ∨
      2 ^ 64 ≤ flattenOrderIdBase.toNat + breaches limits us

/-- The fills among the messages of a stream. -/
def fillEvents (ms : List Protocol.Frame) : List FillEvent :=
  ms.filterMap fun m => if m.tag = Protocol.asU8 .fill then Protocol.decodeFill m.payload else none

theorem fillEvents_append (ms ms' : List Protocol.Frame) :
    fillEvents (ms ++ ms') = fillEvents ms ++ fillEvents ms' :=
  List.filterMap_append

theorem fillEvents_mono (l m : List UInt8) : fillEvents (frameStream.framing.parse l).1 <+:
    fillEvents (frameStream.framing.parse (l ++ m)).1 := by
  obtain ⟨rest, hrest⟩ := frameStream.framing.parse_mono l m
  rw [← hrest, fillEvents_append]
  exact List.prefix_append _ _

theorem Protocol.decodeFill_of_length {payload : List UInt8} (h : payload.length = fillSize) :
    ∃ f, decodeFill payload = some f := by
  have hlen : payload.length = 37 := h
  simp [decodeFill, slice, hlen]

section recorded

variable {limits : MachineLimits} {id : UInt64} {u : PositionUpdate} {ts : Stamp}
  {rows : List (PositionUpdate × Stamp)}

theorem breaches_append (us us' : List PositionUpdate) :
    breaches limits (us ++ us') = breaches limits us + breaches limits us' :=
  List.countP_append

/-- The entries for more fills come after those for the first. -/
theorem recorded_append (limits : MachineLimits) (id : UInt64)
    (rows rows' : List (PositionUpdate × Stamp)) :
    recorded limits id (rows ++ rows') = recorded limits id rows ++
      recorded limits (id + .ofNat (breaches limits (rows.map Prod.fst))) rows' := by
  induction rows generalizing id with
  | nil => exact congrArg (recorded limits · rows') (UInt64.add_zero id).symm
  | cons row rows ih =>
    obtain ⟨u, ts⟩ := row
    by_cases hbeyond : limits.Beyond u.netPosition
    · have hcount : breaches limits (u :: rows.map Prod.fst) =
          breaches limits (rows.map Prod.fst) + 1 :=
        List.countP_cons_of_pos (decide_eq_true hbeyond)
      have hid (n : ℕ) : id + UInt64.ofNat (n + 1) = id + 1 + UInt64.ofNat n := by
        rw [UInt64.ofNat_add, UInt64.add_comm (UInt64.ofNat n), ← UInt64.add_assoc]
        rfl
      simp only [List.cons_append, recorded, if_pos hbeyond, ih, List.map_cons, hcount, hid]
    · have hcount : breaches limits (u :: rows.map Prod.fst) = breaches limits (rows.map Prod.fst) :=
        List.countP_cons_of_neg (by simpa using hbeyond)
      simp only [List.cons_append, recorded, if_neg hbeyond, ih, List.map_cons, hcount]

theorem recorded_of_beyond (h : limits.Beyond u.netPosition) : recorded limits id [(u, ts)] =
    [.update u ts, .halt u.netPosition.toInt limits.maxAbsPosition.toInt id ts] := if_pos h

theorem recorded_of_not_beyond (h : ¬ limits.Beyond u.netPosition) :
    recorded limits id [(u, ts)] = [.update u ts] := if_neg h

end recorded

namespace MainLoop

variable {build : Build} {s t : MainLoop} {e : LoopEvent} {l log : List (FillEvent × Stamp)}
  {limits : MachineLimits} {old part : List UInt8} {rows : List (PositionUpdate × Stamp)}
  {entries missing : List LogEntry} {f : FillEvent} {ts : Stamp} {fails : Option ℕ}

/-- The file and the bytes sent tell of the fills counted, but for some last entries; of the orders
of these, a part may have been sent. -/
structure Tells (build : Build) (limits : MachineLimits) (old : List UInt8)
    (log : List (FillEvent × Stamp)) (s : MainLoop) (rows : List (PositionUpdate × Stamp))
    (entries missing : List LogEntry) (part : List UInt8) : Prop where
  updated : MachineTracker.updates build.toInt64 .new (log.map Prod.fst) =
    some (rows.map Prod.fst)
  stamped : rows.map Prod.snd = log.map Prod.snd
  recorded : recorded limits flattenOrderIdBase rows = entries ++ missing
  file : s.file = old ++ entries.flatMap LogEntry.write
  sent : s.sent = Protocol.encodeSubscribeFills ++ (LogEntry.orders entries ++ part)

/-- The loop has not panicked. -/
structure Intact (build : Build) (limits : MachineLimits) (old : List UInt8)
    (log : List (FillEvent × Stamp)) (s : MainLoop) : Prop where
  unchanged : s.limits = limits
  position : MachineTracker.run build.toInt64 (log.map Prod.fst) = some s.position
  told : ∃ rows, s.nextFlattenId =
      flattenOrderIdBase + .ofNat (breaches limits (rows.map Prod.fst)) ∧
    Tells build limits old log s rows (Risk.recorded limits flattenOrderIdBase rows) [] []

/-- The loop has panicked, at the latest at the fills that have been seen. -/
structure Broken (build : Build) (limits : MachineLimits) (old : List UInt8)
    (log : List (FillEvent × Stamp)) (seen : List FillEvent) (failed : Prop) (s : MainLoop) :
    Prop where
  panicked : s.exit = some .panicked
  told : ∃ rows entries missing part, Tells build limits old log s rows entries missing part ∧
    part <+: LogEntry.orders missing ∧
      (missing = [] ∨ ∃ net limit id ts, missing = [.halt net limit id ts])
  cause : failed ∨ build = .debug ∧ Overflows limits seen

theorem intact_start (build : Build) (limits : MachineLimits) (old : List UInt8) :
    Intact build limits old [] (start limits old) :=
  ⟨rfl, rfl, [], rfl, rfl, rfl, rfl, (List.append_nil old).symm, rfl⟩

theorem debug_of_updates_eq_none {fills : List FillEvent} {p : MachineTracker}
    (h : MachineTracker.updates build.toInt64 p fills = none) : build = .debug := by
  cases build with
  | debug => rfl
  | release =>
    obtain ⟨us, hus⟩ := MachineTracker.updates_release p fills
    rw [hus] at h
    cases h

/-- Where the tracker stops at a fill, nothing is written of it. -/
theorem Intact.stop (h : Intact build limits old log s) {failed : Prop}
    (hnone : MachineTracker.updates build.toInt64 s.position [f] = none) {t : MainLoop}
    (hexit : t.exit = some .panicked) (hfile : t.file = s.file) (hsent : t.sent = s.sent) :
    Broken build limits old log (log.map Prod.fst ++ [f]) failed t := by
  obtain ⟨-, hposition, rows, -, htells⟩ := h
  have hall := MachineTracker.updates_append htells.updated hposition [f]
  rw [hnone, Option.map_none] at hall
  have hdebug := debug_of_updates_eq_none hnone
  refine ⟨hexit, ⟨rows, _, [], [], ⟨htells.updated, htells.stamped, htells.recorded,
    hfile.trans htells.file, hsent.trans htells.sent⟩, List.nil_prefix, Or.inl rfl⟩,
    Or.inr ⟨hdebug, fun us hus => ?_⟩⟩
  rw [hdebug, hus] at hall
  cases hall

/-- What is written of a fill and what is missing make up what is recorded of it. -/
theorem Intact.tells (h : Intact build limits old log s) {u : PositionUpdate}
    (hsome : MachineTracker.updates build.toInt64 s.position [f] = some [u])
    {written : List LogEntry}
    (hsplit : Risk.recorded limits s.nextFlattenId [(u, ts)] = written ++ missing)
    (hfile : t.file = s.file ++ written.flatMap LogEntry.write)
    (hsent : t.sent = s.sent ++ (LogEntry.orders written ++ part)) :
    ∃ rows, s.nextFlattenId = flattenOrderIdBase + .ofNat (breaches limits (rows.map Prod.fst)) ∧
      Tells build limits old (log ++ [(f, ts)]) t (rows ++ [(u, ts)])
        (Risk.recorded limits flattenOrderIdBase rows ++ written) missing part := by
  obtain ⟨-, hposition, rows, hnext, htells⟩ := h
  have hall := MachineTracker.updates_append htells.updated hposition [f]
  rw [hsome, Option.map_some] at hall
  refine ⟨rows, hnext, ?_, ?_, ?_, ?_, ?_⟩
  · rw [List.map_append, List.map_append]
    exact hall
  · rw [List.map_append, List.map_append, htells.stamped]
    rfl
  · rw [recorded_append, ← hnext, hsplit, List.append_assoc]
  · rw [hfile, htells.file, List.flatMap_append, List.append_assoc]
  · rw [hsent, htells.sent, List.append_nil, LogEntry.orders_append, List.append_assoc,
      List.append_assoc]

theorem Intact.run_append (h : Intact build limits old log s) {p : MachineTracker}
    (hp : s.position.onFill build.toInt64 f.incomingSide f.quantity f.priceTicks = some p)
    (ts : Stamp) :
    MachineTracker.run build.toInt64 ((log ++ [(f, ts)]).map Prod.fst) = some p := by
  have hrun := h.position
  rw [MachineTracker.run] at hrun ⊢
  rw [List.map_append, List.foldlM_append, hrun, Option.bind_eq_bind, Option.bind_some,
    List.map_singleton, List.foldlM_cons, hp]
  rfl

theorem overflows_of_update {u : PositionUpdate} {us : List PositionUpdate}
    {fills : List FillEvent}
    (hsome : MachineTracker.updates Build.debug.toInt64 .new fills = some (us ++ [u]))
    (h : |u.netPosition.toInt| = 2 ^ 63 ∨
      2 ^ 64 ≤ flattenOrderIdBase.toNat + breaches limits (us ++ [u])) : Overflows limits fills := by
  intro us' hus'
  rw [hsome] at hus'
  cases hus'
  exact h.imp_left fun hleast => ⟨u, List.mem_append_right us List.mem_cons_self, hleast⟩

theorem orders_halt (net limit : ℤ) (id : UInt64) (ts : Stamp) :
    LogEntry.orders [.halt net limit id ts] = Protocol.encodeNewOrder (closing id net) :=
  List.append_nil _

theorem orders_update (u : PositionUpdate) (ts : Stamp) (entries : List LogEntry) :
    LogEntry.orders (.update u ts :: entries) = LogEntry.orders entries := rfl

/-- The order is sent whole and told of, or some of it is sent, or its id would be the last. -/
theorem flatten_cases (build : Build) (s : MainLoop) (ts : Stamp) (fails : Option ℕ) :
    let net := s.position.netPosition.toInt
    let flattened :=
      s.flatten build ⟨if net > 0 then .sell else .buy, .ofNat net.natAbs⟩ ts fails
    let flattenMsg := Protocol.encodeNewOrder (closing s.nextFlattenId net)
    (fails = none ∧ flattened = { s with
      nextFlattenId := s.nextFlattenId + 1
      sent := s.sent ++ flattenMsg
      file := s.file ++
        (LogEntry.halt net s.limits.maxAbsPosition.toInt s.nextFlattenId ts).write }) ∨
    (∃ k, fails = some k ∧ flattened = { s with
      nextFlattenId := s.nextFlattenId + 1
      sent := s.sent ++ flattenMsg.take k }.panic) ∨
    (build = .debug ∧ 2 ^ 64 ≤ s.nextFlattenId.toNat + 1 ∧ flattened = s.panic) := by
  intro net flattened flattenMsg
  have hid : UInt64.ofNat (s.nextFlattenId.toNat + 1) = s.nextFlattenId + 1 := by
    rw [UInt64.ofNat_add, UInt64.ofNat_toNat]
    rfl
  rcases build.toUInt64_cases (s.nextFlattenId.toNat + 1) with hnext | ⟨hdebug, hlarge, hnone⟩
  · cases fails with
    | none =>
      refine Or.inl ⟨rfl, ?_⟩
      simp only [flattened, flatten, hnext, hid]
      rfl
    | some k =>
      refine Or.inr (Or.inl ⟨k, rfl, ?_⟩)
      simp only [flattened, flatten, hnext, hid]
      rfl
  · refine Or.inr (Or.inr ⟨hdebug, hlarge, ?_⟩)
    simp only [flattened, flatten, hnone]

/-- Once the update is written, an order is sent for the position, and then told of. -/
theorem Intact.flatten (h : Intact build limits old log s) {p : MachineTracker} {u : PositionUpdate}
    (hp : s.position.onFill build.toInt64 f.incomingSide f.quantity f.priceTicks = some p)
    (hsome : MachineTracker.updates build.toInt64 s.position [f] = some [u])
    (hnet : u.netPosition = p.netPosition) (hbeyond : limits.Beyond p.netPosition) (ts : Stamp)
    (fails : Option ℕ) :
    let flattened := MainLoop.flatten build
      { s with position := p, file := s.file ++ (LogEntry.update u ts).write }
      ⟨if p.netPosition.toInt > 0 then .sell else .buy, .ofNat p.netPosition.toInt.natAbs⟩ ts fails
    (Intact build limits old (log ++ [(f, ts)]) flattened ∧ flattened.exit = s.exit) ∨
      Broken build limits old (log ++ [(f, ts)]) (log.map Prod.fst ++ [f]) (fails ≠ none)
        flattened := by
  intro flattened
  let halt : LogEntry := .halt p.netPosition.toInt s.limits.maxAbsPosition.toInt s.nextFlattenId ts
  have hrecorded : Risk.recorded limits s.nextFlattenId [(u, ts)] = [.update u ts, halt] := by
    rw [recorded_of_beyond (hnet ▸ hbeyond), hnet, ← h.unchanged]
  have hone (rows : List (PositionUpdate × Stamp)) :
      breaches limits (rows.map Prod.fst ++ [u]) = breaches limits (rows.map Prod.fst) + 1 := by
    rw [breaches_append]
    exact congrArg _ (List.countP_cons_of_pos (decide_eq_true (hnet ▸ hbeyond)))
  have hsplit : Risk.recorded limits s.nextFlattenId [(u, ts)] = [.update u ts] ++ [halt] :=
    hrecorded
  have hwhole : Risk.recorded limits s.nextFlattenId [(u, ts)] = [.update u ts, halt] ++ [] :=
    hrecorded
  rcases flatten_cases build { s with
      position := p, file := s.file ++ (LogEntry.update u ts).write } ts fails with
    ⟨-, ht⟩ | ⟨k, hfails, ht⟩ | ⟨rfl, hlarge, ht⟩
  · left
    have hsent : flattened.sent = s.sent ++ (LogEntry.orders [.update u ts, halt] ++ []) := by
      simp only [flattened, ht, orders_update, orders_halt, halt, List.append_nil]
    obtain ⟨rows, hbefore, htells⟩ := h.tells (t := flattened) hsome hwhole
      (by simp only [flattened, ht]; simp [halt]) hsent
    have hall := htells.recorded
    rw [List.append_nil] at hall
    rw [← hall] at htells
    have hnext : flattened.nextFlattenId = s.nextFlattenId + 1 := by simp only [flattened, ht]
    have hposition : flattened.position = p := by simp only [flattened, ht]
    refine ⟨⟨by simp only [flattened, ht]; exact h.unchanged, hposition ▸ h.run_append hp ts, _, ?_,
      htells⟩, by simp only [flattened, ht]⟩
    rw [hnext, hbefore, List.map_append, List.map_singleton, hone, UInt64.ofNat_add,
      ← UInt64.add_assoc]
    rfl
  · right
    have hsent : flattened.sent = s.sent ++ (LogEntry.orders [.update u ts] ++
        (Protocol.encodeNewOrder (closing s.nextFlattenId p.netPosition.toInt)).take k) := by
      simp only [flattened, ht]
      rfl
    obtain ⟨rows, -, htells⟩ := h.tells (t := flattened) hsome hsplit
      (by simp only [flattened, ht]; simp [panic]) hsent
    have hfailed : fails ≠ none := hfails ▸ Option.some_ne_none k
    refine ⟨by simp only [flattened, ht]; rfl,
      ⟨_, _, _, _, htells, ?_, Or.inr ⟨_, _, _, _, rfl⟩⟩, Or.inl hfailed⟩
    rw [orders_halt]
    exact List.take_prefix k _
  · right
    have hsent : flattened.sent = s.sent ++ (LogEntry.orders [.update u ts] ++ []) := by
      simp only [flattened, ht]
      exact (List.append_nil _).symm
    obtain ⟨rows, hbefore, htells⟩ := h.tells (t := flattened) hsome hsplit
      (by simp only [flattened, ht]; simp [panic]) hsent
    refine ⟨by simp only [flattened, ht]; rfl,
      ⟨_, _, _, _, htells, List.nil_prefix, Or.inr ⟨_, _, _, _, rfl⟩⟩, Or.inr ⟨rfl, ?_⟩⟩
    have hupdated := htells.updated
    rw [List.map_append, List.map_append] at hupdated
    refine overflows_of_update (u := u) hupdated (Or.inr ?_)
    rw [hbefore, UInt64.toNat_add, UInt64.toNat_ofNat'] at hlarge
    rw [hone]
    omega

theorem updates_singleton {p q : MachineTracker}
    (hq : p.onFill build.toInt64 f.incomingSide f.quantity f.priceTicks = some q) :
    MachineTracker.updates build.toInt64 p [f] =
      (q.unrealizedPnlTicks build.toInt64).map
        fun unrealized => [⟨q.netPosition, q.realizedPnlTicks, unrealized⟩] := by
  rw [MachineTracker.updates, hq, Option.bind_eq_bind, Option.bind_some]
  cases q.unrealizedPnlTicks build.toInt64 <;> rfl

/-- A fill is counted and told of, or the loop panics. -/
theorem Intact.onFill (h : Intact build limits old log s) (f : FillEvent) (ts : Stamp)
    (fails : Option ℕ) :
    let r := s.onFill build f ts fails
    (r.1 = [(f, ts)] ∧ Intact build limits old (log ++ r.1) r.2 ∧ r.2.exit = s.exit) ∨
      (r.1 = [] ∨ r.1 = [(f, ts)]) ∧
        Broken build limits old (log ++ r.1) (log.map Prod.fst ++ [f]) (fails ≠ none) r.2 := by
  intro r
  cases hp : s.position.onFill build.toInt64 f.incomingSide f.quantity f.priceTicks with
  | none =>
    right
    have hr : r = ([], s.panic) := by simp only [r, MainLoop.onFill, hp]
    have hnone : MachineTracker.updates build.toInt64 s.position [f] = none := by
      rw [MachineTracker.updates, hp]
      rfl
    rw [hr, List.append_nil]
    exact ⟨Or.inl rfl, h.stop hnone rfl rfl rfl⟩
  | some p =>
    have hsingle := updates_singleton hp
    cases hun : p.unrealizedPnlTicks build.toInt64 with
    | none =>
      right
      have hr : r = ([], { s with position := p }.panic) := by
        simp only [r, MainLoop.onFill, hp, hun]
      rw [hun, Option.map_none] at hsingle
      rw [hr, List.append_nil]
      exact ⟨Or.inl rfl, h.stop hsingle rfl rfl rfl⟩
    | some unrealized =>
      let u : PositionUpdate := ⟨p.netPosition, p.realizedPnlTicks, unrealized⟩
      have hsome : MachineTracker.updates build.toInt64 s.position [f] = some [u] := by
        rw [hsingle, hun]
        rfl
      let updated : MainLoop :=
        { s with position := p, file := s.file ++ (LogEntry.update u ts).write }
      have hfile : updated.file = s.file ++ [LogEntry.update u ts].flatMap LogEntry.write := by
        simp [updated]
      have hsent : updated.sent = s.sent ++ (LogEntry.orders [.update u ts] ++ []) :=
        (List.append_nil _).symm
      rcases checkBreach_cases build s.limits p.netPosition with
        ⟨hcheck, rfl, hleast⟩ | ⟨hcheck, hwithin⟩ | ⟨hcheck, hbeyond⟩
      · right
        have hr : r = ([(f, ts)], updated.panic) := by
          simp only [r, MainLoop.onFill, hp, hun, hcheck]
          rfl
        have hrecorded : Risk.recorded limits s.nextFlattenId [(u, ts)] = [.update u ts] ++ [] :=
          recorded_of_not_beyond fun hbeyond => absurd hleast (ne_of_lt hbeyond.2)
        obtain ⟨rows, -, htells⟩ := h.tells (t := updated.panic) hsome hrecorded hfile hsent
        have hupdated := htells.updated
        rw [List.map_append, List.map_append] at hupdated
        rw [hr]
        exact ⟨Or.inr rfl, rfl, ⟨_, _, _, _, htells, List.nil_prefix, Or.inl rfl⟩,
          Or.inr ⟨rfl, overflows_of_update hupdated (Or.inl hleast)⟩⟩
      · left
        have hr : r = ([(f, ts)], updated) := by
          simp only [r, MainLoop.onFill, hp, hun, hcheck]
          rfl
        rw [h.unchanged] at hwithin
        have hrecorded : Risk.recorded limits s.nextFlattenId [(u, ts)] = [.update u ts] ++ [] :=
          recorded_of_not_beyond hwithin
        obtain ⟨rows, hbefore, htells⟩ := h.tells (t := updated) hsome hrecorded hfile hsent
        have hall := htells.recorded
        rw [List.append_nil] at hall
        rw [← hall] at htells
        have hnone : breaches limits [u] = 0 :=
          List.countP_cons_of_neg (by simpa using hwithin)
        rw [hr]
        refine ⟨rfl, ⟨h.unchanged, h.run_append hp ts, _, ?_, htells⟩, rfl⟩
        rw [List.map_append, List.map_singleton, breaches_append, hnone]
        exact hbefore
      · have hr : r = ([(f, ts)], MainLoop.flatten build updated
            ⟨if p.netPosition.toInt > 0 then .sell else .buy, .ofNat p.netPosition.toInt.natAbs⟩
            ts fails) := by
          simp only [r, MainLoop.onFill, hp, hun, hcheck]
          rfl
        rw [h.unchanged] at hbeyond
        rw [hr]
        rcases h.flatten hp hsome rfl hbeyond ts fails with ⟨hintact, hexit⟩ | hbroken
        · exact Or.inl ⟨rfl, hintact, hexit⟩
        · exact Or.inr ⟨Or.inr rfl, hbroken⟩

/-- A message that is no fill is passed over, and no payload is too short. -/
theorem Intact.handle (h : Intact build limits old log s) {m : Protocol.Frame}
    (hsize : Protocol.payloadSize m.tag = some m.payload.length) (ts : Stamp)
    (fails : Option ℕ) :
    let r := s.handle build m ts fails
    (r.1.map Prod.fst = fillEvents [m] ∧ Intact build limits old (log ++ r.1) r.2 ∧
        r.2.exit = s.exit) ∨
      r.1.map Prod.fst <+: fillEvents [m] ∧
        Broken build limits old (log ++ r.1) (log.map Prod.fst ++ fillEvents [m])
          (fails ≠ none) r.2 := by
  intro r
  by_cases htag : m.tag = Protocol.asU8 .fill
  · have hlen : m.payload.length = Protocol.fillSize := by
      rw [htag] at hsize
      exact (Option.some.inj hsize).symm
    obtain ⟨f, hf⟩ := Protocol.decodeFill_of_length hlen
    have hfill : fillEvents [m] = [f] := by simp [fillEvents, htag, hf]
    have hr : r = s.onFill build f ts fails := by simp only [r, MainLoop.handle, if_pos htag, hf]
    rw [hr, hfill]
    rcases h.onFill f ts fails with ⟨hone, hintact⟩ | ⟨hnone | hone, hbroken⟩
    · exact Or.inl ⟨congrArg (List.map Prod.fst) hone, hintact⟩
    · exact Or.inr ⟨by rw [hnone]; exact List.nil_prefix, hbroken⟩
    · exact Or.inr ⟨by rw [hone]; exact List.prefix_refl _, hbroken⟩
  · left
    have hr : r = ([], s) := by simp only [r, MainLoop.handle, if_neg htag]
    rw [hr, List.append_nil]
    exact ⟨by simp [fillEvents, htag], h, rfl⟩

/-- What a message does is no reading. -/
theorem handle_stream (build : Build) (s : MainLoop) (m : Protocol.Frame) (ts : Stamp)
    (fails : Option ℕ) : (s.handle build m ts fails).2.socket = s.socket ∧
      (s.handle build m ts fails).2.reader = s.reader := by
  have hflatten (s : MainLoop) (action : FlattenAction) :
      (s.flatten build action ts fails).socket = s.socket ∧
        (s.flatten build action ts fails).reader = s.reader := by
    rw [flatten]
    cases build.toUInt64 (s.nextFlattenId.toNat + 1) <;> cases fails <;> exact ⟨rfl, rfl⟩
  rw [handle]
  split
  · split
    · exact ⟨rfl, rfl⟩
    · rw [onFill]
      split
      · exact ⟨rfl, rfl⟩
      · split
        · exact ⟨rfl, rfl⟩
        · dsimp only
          split
          · exact ⟨rfl, rfl⟩
          · exact ⟨rfl, rfl⟩
          · exact hflatten _ _
  · exact ⟨rfl, rfl⟩

/-- The fills counted are those of the stream so far, in order. While the connection lasts, what
the loop makes of the rest of it are the rest of them; and whatever becomes of it, they are all the
fills of what has been read. -/
structure Follows (es : List LoopEvent) (fills : List FillEvent) (s : MainLoop) : Prop where
  seen : fills <+: fillEvents (frameStream.framing.parse (LoopEvent.arrived es)).1
  rest : s.exit = none ∨ s.exit = some .unknownTag →
    ∀ later, fills ++ fillEvents (s.reader.ahead (s.socket ++ later)) =
      fillEvents (frameStream.framing.parse (LoopEvent.arrived es ++ later)).1
  complete : s.exit ≠ some .panicked → s.socket = [] →
    fills = fillEvents (frameStream.framing.parse (LoopEvent.arrived es)).1

variable {es : List LoopEvent} {fills : List FillEvent}

theorem complete_of_rest (hrest : ∀ later, fills ++ fillEvents (s.reader.ahead (s.socket ++ later)) =
    fillEvents (frameStream.framing.parse (LoopEvent.arrived es ++ later)).1)
    (hsocket : s.socket = []) :
    fills = fillEvents (frameStream.framing.parse (LoopEvent.arrived es)).1 := by
  have hall := hrest []
  rw [hsocket, List.append_nil, List.append_nil, TaggedReader.ahead_nil] at hall
  exact (List.append_nil _).symm.trans hall

theorem follows_start (limits : MachineLimits) (file : List UInt8) :
    Follows [] [] (start limits file) where
  seen := List.nil_prefix
  rest := fun _ _ => rfl
  complete := fun _ _ => by
    have hmore : frameStream.framing.next (LoopEvent.arrived []) = .more := rfl
    rw [frameStream.framing.parse_more hmore]
    rfl

theorem Follows.arrive (h : Follows es fills s) (bytes : List UInt8) :
    Follows (es ++ [.arrive bytes]) fills { s with socket := s.socket ++ bytes } := by
  have harrived : LoopEvent.arrived (es ++ [.arrive bytes]) = LoopEvent.arrived es ++ bytes := by
    simp [LoopEvent.arrived]
  refine ⟨?_, fun hlasts later => ?_, fun hexit hsocket => ?_⟩
  · rw [harrived]
    exact h.seen.trans (fillEvents_mono _ bytes)
  · rw [harrived, List.append_assoc (LoopEvent.arrived es), ← h.rest hlasts (bytes ++ later),
      ← List.append_assoc s.socket]
  · obtain ⟨hempty, rfl⟩ := List.append_eq_nil_iff.mp hsocket
    rw [harrived, List.append_nil]
    exact h.complete hexit hempty

theorem Follows.hangUp (h : Follows es fills s) (hst : s.step build .hangUp = some (l, t)) :
    Follows (es ++ [.hangUp]) fills t ∧ l = [] ∧ (t = s ∨ s.exit = none ∧
      ∃ exit, exit ≠ .panicked ∧ t = { s with exit := some exit }) := by
  have harrived : LoopEvent.arrived (es ++ [.hangUp]) = LoopEvent.arrived es := by
    simp [LoopEvent.arrived]
  have hleft {exit : Exit} (hexit : s.exit = none) (hno : exit ≠ .unknownTag) :
      Follows (es ++ [.hangUp]) fills { s with exit := some exit } := by
    refine ⟨harrived ▸ h.seen, fun hlasts => ?_, fun _ hsocket => ?_⟩
    · rcases hlasts with hnone | hunknown
      · cases hnone
      · exact absurd (Option.some.inj hunknown) hno
    · rw [harrived]
      exact h.complete (by simp [hexit]) hsocket
  simp only [step] at hst
  split at hst
  · rename_i hexit hreader
    cases hst
    exact ⟨hleft hexit (by decide), rfl, Or.inr ⟨hexit, _, by decide, rfl⟩⟩
  · rename_i hexit hreader
    cases hst
    exact ⟨hleft hexit (by decide), rfl, Or.inr ⟨hexit, _, by decide, rfl⟩⟩
  · cases hst
    refine ⟨⟨harrived ▸ h.seen, ?_, ?_⟩, rfl, Or.inl rfl⟩
    · rw [harrived]
      exact h.rest
    · rw [harrived]
      exact h.complete

/-- A read that returns something, and the message that it may complete. -/
theorem Follows.receive (h : Follows es fills s) {n : ℕ} (ts : Stamp) (fails : Option ℕ)
    (hexit : s.exit = none) (hpos : 1 ≤ n) (hn : n ≤ s.reader.missing)
    (hsocket : n ≤ s.socket.length) (counted : List FillEvent)
    (htsocket : t.socket = s.socket.drop n)
    (htreader : t.reader = (s.reader.receive (s.socket.take n)).2)
    (hcounted : counted <+: fillEvents (s.reader.receive (s.socket.take n)).1.toList)
    (hall : t.exit ≠ some .panicked →
      counted = fillEvents (s.reader.receive (s.socket.take n)).1.toList) :
    Follows (es ++ [.receive n ts fails]) (fills ++ counted) t ∧
      fills ++ fillEvents (s.reader.receive (s.socket.take n)).1.toList <+:
        fillEvents (frameStream.framing.parse
          (LoopEvent.arrived (es ++ [.receive n ts fails]))).1 := by
  have harrived : LoopEvent.arrived (es ++ [.receive n ts fails]) = LoopEvent.arrived es := by
    simp [LoopEvent.arrived]
  have hrest (later : List UInt8) :
      (fills ++ fillEvents (s.reader.receive (s.socket.take n)).1.toList) ++
        fillEvents (t.reader.ahead (t.socket ++ later)) =
      fillEvents (frameStream.framing.parse (LoopEvent.arrived es ++ later)).1 := by
    rw [← h.rest (Or.inl hexit) later, TaggedReader.receive_take hpos hn hsocket,
      fillEvents_append, List.append_assoc, htsocket, htreader]
  have hseen : fills ++ fillEvents (s.reader.receive (s.socket.take n)).1.toList <+:
      fillEvents (frameStream.framing.parse (LoopEvent.arrived es)).1 := by
    have hnow := hrest []
    rw [List.append_nil (LoopEvent.arrived es)] at hnow
    rw [← hnow]
    exact List.prefix_append _ _
  rw [harrived]
  refine ⟨⟨?_, fun hlasts => ?_, fun hexit' htempty => ?_⟩, hseen⟩
  · rw [harrived]
    exact ((List.prefix_append_right_inj fills).mpr hcounted).trans hseen
  · have hexit' : t.exit ≠ some .panicked := by
      rcases hlasts with hnone | hunknown
      · simp [hnone]
      · simp [hunknown]
    rw [harrived, hall hexit']
    exact hrest
  · rw [harrived, hall hexit']
    exact complete_of_rest hrest htempty

theorem Intact.congr (h : Intact build limits old log s) (hlimits : t.limits = s.limits)
    (hposition : t.position = s.position) (hnext : t.nextFlattenId = s.nextFlattenId)
    (hfile : t.file = s.file) (hsent : t.sent = s.sent) : Intact build limits old log t := by
  obtain ⟨rows, hid, htells⟩ := h.told
  exact ⟨hlimits.trans h.unchanged, hposition ▸ h.position, rows, hnext.trans hid, htells.updated,
    htells.stamped, htells.recorded, hfile.trans htells.file, hsent.trans htells.sent⟩

theorem Broken.congr {seen : List FillEvent} {failed failed' : Prop}
    (h : Broken build limits old log seen failed s) (himp : failed → failed')
    (hexit : t.exit = s.exit) (hfile : t.file = s.file) (hsent : t.sent = s.sent) :
    Broken build limits old log seen failed' t := by
  obtain ⟨rows, entries, missing, part, htells, hpart, hmissing⟩ := h.told
  exact ⟨hexit.trans h.panicked, ⟨rows, entries, missing, part, ⟨htells.updated, htells.stamped,
    htells.recorded, hfile.trans htells.file, hsent.trans htells.sent⟩, hpart, hmissing⟩,
    h.cause.imp_left himp⟩

/-- Writing an order fails. -/
def Fails (es : List LoopEvent) : Prop := ∃ n ts k, LoopEvent.receive n ts (some k) ∈ es

theorem fails_append (e : LoopEvent) (h : Fails es) : Fails (es ++ [e]) := by
  obtain ⟨n, ts, k, hmem⟩ := h
  exact ⟨n, ts, k, List.mem_append_left _ hmem⟩

/-- How the loop stands to the stream, to the file and to what it has sent. -/
structure Told (build : Build) (limits : MachineLimits) (old : List UInt8) (es : List LoopEvent)
    (log : List (FillEvent × Stamp)) (s : MainLoop) : Prop where
  follows : Follows es (log.map Prod.fst) s
  record : (s.exit ≠ some .panicked ∧ Intact build limits old log s) ∨
    ∃ seen, seen <+: fillEvents (frameStream.framing.parse (LoopEvent.arrived es)).1 ∧
      Broken build limits old log seen (Fails es) s

theorem told_start (build : Build) (limits : MachineLimits) (old : List UInt8) :
    Told build limits old [] [] (start limits old) :=
  ⟨follows_start limits old, Or.inl ⟨Option.some_ne_none _ |>.symm, intact_start build limits old⟩⟩

theorem Told.receive (h : Told build limits old es log s) {n : ℕ} {ts : Stamp}
    {fails : Option ℕ} (hst : s.step build (.receive n ts fails) = some (l, t)) :
    Told build limits old (es ++ [.receive n ts fails]) (log ++ l) t := by
  simp only [step] at hst
  split at hst
  · rename_i hcond
    obtain ⟨hexit, hpos, hn, hsocket⟩ := hcond
    have hintact : Intact build limits old log s := by
      rcases h.record with ⟨-, hintact⟩ | ⟨seen, -, hbroken⟩
      · exact hintact
      · rw [hbroken.panicked] at hexit
        cases hexit
    have hlen : (s.socket.take n).length ≤ s.reader.missing :=
      (List.length_take_le n _).trans hn
    have hreceive {u : MainLoop} (counted : List FillEvent) :=
      h.follows.receive (t := u) ts fails hexit hpos hn hsocket counted
    have hquiet (exit : Option Exit) (hne : exit ≠ some .panicked)
        (hm : (s.reader.receive (s.socket.take n)).1 = none) :
        Told build limits old (es ++ [.receive n ts fails]) log { s with
          socket := s.socket.drop n
          reader := (s.reader.receive (s.socket.take n)).2
          exit := exit } := by
      rw [hm] at hreceive
      obtain ⟨hfollows, -⟩ := hreceive (u := { s with
        socket := s.socket.drop n
        reader := (s.reader.receive (s.socket.take n)).2
        exit := exit }) [] rfl rfl List.nil_prefix fun _ => rfl
      rw [List.append_nil] at hfollows
      exact ⟨hfollows, Or.inl ⟨hne, hintact.congr rfl rfl rfl rfl rfl⟩⟩
    split at hst
    · rename_i reader m hm
      have hsize : Protocol.payloadSize m.tag = some m.payload.length := by
        obtain ⟨tag, payload, hsize, hdecode⟩ := TaggedReader.receive_complete hlen hm
        cases hdecode
        exact hsize
      let read : MainLoop := { s with
        socket := s.socket.drop n
        reader := (s.reader.receive (s.socket.take n)).2 }
      have hread : Intact build limits old log read := hintact.congr rfl rfl rfl rfl rfl
      have hhandle := hread.handle hsize ts fails
      obtain ⟨hsame, hreader⟩ := handle_stream build read m ts fails
      have hr : read.handle build m ts fails = (l, t) := Option.some.inj hst
      rw [hr] at hhandle hsame hreader
      rw [hm] at hreceive
      rcases hhandle with ⟨hfills, hnext, hkept⟩ | ⟨hfills, hbroken⟩
      · have hnone : t.exit ≠ some .panicked := by
          simp [show t.exit = s.exit from hkept, hexit]
        obtain ⟨hfollows, -⟩ := hreceive _ hsame hreader (hfills ▸ List.prefix_refl _) fun _ => hfills
        rw [← List.map_append] at hfollows
        exact ⟨hfollows, Or.inl ⟨hnone, hnext⟩⟩
      · obtain ⟨hfollows, hseen⟩ := hreceive _ hsame hreader hfills fun hexit' =>
          absurd hbroken.panicked hexit'
        rw [← List.map_append] at hfollows
        refine ⟨hfollows, Or.inr ⟨_, hseen, hbroken.congr (fun hfails => ?_) rfl rfl rfl⟩⟩
        obtain ⟨k, rfl⟩ := Option.ne_none_iff_exists'.mp hfails
        exact ⟨n, ts, k, List.mem_append_right es List.mem_cons_self⟩
    · rename_i hm hstopped
      cases hst
      rw [List.append_nil]
      exact hquiet (some .unknownTag) (by decide) hm
    · rename_i hm hstopped
      cases hst
      rw [List.append_nil]
      exact hquiet s.exit (by simp [hexit]) hm
  · cases hst

theorem Told.arrive (h : Told build limits old es log s) (bytes : List UInt8) :
    Told build limits old (es ++ [.arrive bytes]) log { s with socket := s.socket ++ bytes } := by
  refine ⟨h.follows.arrive bytes, ?_⟩
  rcases h.record with ⟨hexit, hintact⟩ | ⟨seen, hseen, hbroken⟩
  · exact Or.inl ⟨hexit, hintact.congr rfl rfl rfl rfl rfl⟩
  · refine Or.inr ⟨seen, ?_, hbroken.congr (fails_append _) rfl rfl rfl⟩
    have harrived : LoopEvent.arrived (es ++ [.arrive bytes]) = LoopEvent.arrived es ++ bytes := by
      simp [LoopEvent.arrived]
    rw [harrived]
    exact hseen.trans (fillEvents_mono _ bytes)

theorem Told.hangUp (h : Told build limits old es log s)
    (hst : s.step build .hangUp = some (l, t)) :
    Told build limits old (es ++ [.hangUp]) (log ++ l) t := by
  have harrived : LoopEvent.arrived (es ++ [.hangUp]) = LoopEvent.arrived es := by
    simp [LoopEvent.arrived]
  obtain ⟨hfollows, rfl, hleft⟩ := h.follows.hangUp hst
  rw [List.append_nil]
  refine ⟨hfollows, ?_⟩
  rcases h.record with ⟨hexit, hintact⟩ | ⟨seen, hseen, hbroken⟩
  · rcases hleft with rfl | ⟨-, exit, hexit', rfl⟩
    · exact Or.inl ⟨hexit, hintact⟩
    · exact Or.inl ⟨by simp [hexit'], hintact.congr rfl rfl rfl rfl rfl⟩
  · rcases hleft with rfl | ⟨hnone, -⟩
    · exact Or.inr ⟨seen, harrived ▸ hseen, hbroken.congr (fails_append _) rfl rfl rfl⟩
    · rw [hbroken.panicked] at hnone
      cases hnone

theorem Told.step (h : Told build limits old es log s) (hst : s.step build e = some (l, t)) :
    Told build limits old (es ++ [e]) (log ++ l) t := by
  cases e with
  | arrive bytes =>
    cases hst
    rw [List.append_nil]
    exact h.arrive bytes
  | receive n ts fails => exact h.receive hst
  | hangUp => exact h.hangUp hst

theorem Told.run (h : Told build limits old es log s) {es' : List LoopEvent}
    (hr : Machine.run (MainLoop.step build) s es' = some (l, t)) :
    Told build limits old (es ++ es') (log ++ l) t := by
  induction es' generalizing s es log l with
  | nil =>
    obtain ⟨rfl, rfl⟩ := run_nil.mp hr
    rwa [List.append_nil, List.append_nil]
  | cons e es' ih =>
    obtain ⟨l₁, u, l₂, hst, hrest, rfl⟩ := run_cons.mp hr
    have hall := ih (h.step hst) hrest
    rwa [List.append_assoc, List.append_assoc] at hall

/-- However the bytes of the stream arrive and are read, whatever they are, and wherever the writing
of an order fails: the file says, after what it said before, for each fill of the stream in turn the
position and the P&L after it and, if the position is beyond the limit, the order that closes it;
and these orders are what has been sent. Only if the loop panics may the last halt be missing, and
the bytes of its order be a first part. -/
theorem risk_log_complete (build : Build) (limits : MachineLimits) (before : List LogEntry)
    {es : List LoopEvent}
    (hr : Machine.run (step build) (start limits (before.flatMap LogEntry.write)) es =
      some (log, t)) :
    let fills := fillEvents (frameStream.framing.parse (LoopEvent.arrived es)).1
    log.map Prod.fst <+: fills ∧
    (t.exit ≠ some .panicked → t.socket = [] → log.map Prod.fst = fills) ∧
    (∃ rows entries missing part,
      MachineTracker.updates build.toInt64 .new (log.map Prod.fst) = some (rows.map Prod.fst) ∧
      rows.map Prod.snd = log.map Prod.snd ∧
      recorded limits flattenOrderIdBase rows = entries ++ missing ∧
      readLog t.file = some (before ++ entries) ∧
      t.sent = Protocol.encodeSubscribeFills ++ (LogEntry.orders entries ++ part) ∧
      part <+: LogEntry.orders missing ∧
      (missing = [] ∨ ∃ net limit id ts, missing = [.halt net limit id ts]) ∧
      (missing ≠ [] → t.exit = some .panicked)) ∧
    (t.exit = some .panicked → (∃ n ts k, .receive n ts (some k) ∈ es) ∨
      build = .debug ∧ ∃ seen, seen <+: fills ∧ Overflows limits seen) := by
  intro fills
  have htold := (told_start build limits (before.flatMap LogEntry.write)).run hr
  rw [List.nil_append, List.nil_append] at htold
  have hread {entries : List LogEntry}
      (hfile : t.file = before.flatMap LogEntry.write ++ entries.flatMap LogEntry.write) :
      readLog t.file = some (before ++ entries) := by
    rw [hfile, ← List.flatMap_append, readLog_write]
  refine ⟨htold.follows.seen, htold.follows.complete, ?_⟩
  rcases htold.record with ⟨hexit, hintact⟩ | ⟨seen, hseen, hbroken⟩
  · obtain ⟨rows, -, htells⟩ := hintact.told
    exact ⟨⟨rows, _, [], [], htells.updated, htells.stamped, htells.recorded, hread htells.file,
      htells.sent, List.nil_prefix, Or.inl rfl, fun hne => absurd rfl hne⟩,
      fun hpanicked => absurd hpanicked hexit⟩
  · obtain ⟨rows, entries, missing, part, htells, hpart, hmissing⟩ := hbroken.told
    exact ⟨⟨rows, entries, missing, part, htells.updated, htells.stamped, htells.recorded,
      hread htells.file, htells.sent, hpart, hmissing, fun _ => hbroken.panicked⟩,
      fun _ => hbroken.cause.imp_right fun ⟨hdebug, hover⟩ => ⟨hdebug, seen, hseen, hover⟩⟩

/-- Fifty are bought, which is beyond the limit, and the order to close them is cut off after ten of
its bytes. -/
theorem risk_log_complete_of_a_breach :
    let ts : Stamp := ⟨decimal 15, Json.plain_decimal 15⟩
    let bytes := ServerMsg.bytes (.fill ⟨1, 2, 1, 100, 50, 2⟩)
    ∃ log t rows entries missing part, Machine.run (step .debug) (start ⟨20⟩ [])
        [.arrive (bytes.take 30), .receive 1 ts none, .receive 20 ts none,
          .arrive (bytes.drop 30), .receive 17 ts (some 10), .hangUp] = some (log, t) ∧
      recorded ⟨20⟩ flattenOrderIdBase rows = entries ++ missing ∧
      readLog t.file = some entries ∧
      t.sent = Protocol.encodeSubscribeFills ++ (LogEntry.orders entries ++ part) := by
  intro ts bytes
  have hsome : (Machine.run (step .debug) (start ⟨20⟩ [])
      [.arrive (bytes.take 30), .receive 1 ts none, .receive 20 ts none,
        .arrive (bytes.drop 30), .receive 17 ts (some 10), .hangUp]).isSome := by
    decide +kernel
  obtain ⟨⟨log, t⟩, hrun⟩ := Option.isSome_iff_exists.mp hsome
  obtain ⟨-, -, ⟨rows, entries, missing, part, -, -, hrecorded, hread, hsent, -⟩, -⟩ :=
    risk_log_complete .debug ⟨20⟩ [] hrun
  exact ⟨log, t, rows, entries, missing, part, hrun, hrecorded, hread, hsent⟩

end MainLoop
end Velo.Risk
