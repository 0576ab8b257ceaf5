import Velo.Lib.JsonLines
import Velo.Risk.Engine

/-! `risk/src/risk_log.rs`: a line for each fill that is counted and one for each order that is
sent; and what the file says to somebody who reads it. -/
namespace Velo.Risk
open Json

/-- The time, an `f64`, as it is displayed. -/
structure Stamp where
  text : List UInt8
  plain : (Value.number text).Plain

/-- A string literal by its bytes. -/
def literal (s : String) : List UInt8 := Utf8.encode s.toList

namespace RiskLog

/-- What `position_update` appends to the file. -/
def positionUpdate (netPosition realizedPnlTicks unrealizedPnlTicks : ℤ) (ts : Stamp) :
    List UInt8 :=
  literal "\x7b\"event\": \"position_update\", \"net_position\": " ++ writeInt netPosition ++
    literal ", \"realized_pnl_ticks\": " ++ writeInt realizedPnlTicks ++
    literal ", \"unrealized_pnl_ticks\": " ++ writeInt unrealizedPnlTicks ++
    literal ", \"ts\": " ++ ts.text ++ literal "\x7d\n"

/-- What `halt` appends to the file. -/
def halt (netPosition maxAbsPosition : ℤ) (orderId : UInt64) (ts : Stamp) : List UInt8 :=
  literal "\x7b\"event\": \"halt\", \"net_position\": " ++ writeInt netPosition ++
    literal ", \"max_abs_position\": " ++ writeInt maxAbsPosition ++
    literal ", \"action\": \"flatten_market_order\", \"order_id\": " ++
    decimal orderId.toNat ++ literal ", \"ts\": " ++ ts.text ++ literal "\x7d\n"

end RiskLog

/-- A line of the file, for somebody who reads it. -/
inductive LogEntry
  | positionUpdate (netPosition realizedPnlTicks unrealizedPnlTicks : ℤ) (ts : Stamp)
  | halt (netPosition maxAbsPosition : ℤ) (orderId : UInt64) (ts : Stamp)

namespace LogEntry

def write : LogEntry → List UInt8
  | .positionUpdate net realized unrealized ts => RiskLog.positionUpdate net realized unrealized ts
  | .halt net limit orderId ts => RiskLog.halt net limit orderId ts

def fields : LogEntry → List Field
  | .positionUpdate net realized unrealized ts =>
    [(literal "event", .text (literal "position_update")),
      (literal "net_position", .number (writeInt net)),
      (literal "realized_pnl_ticks", .number (writeInt realized)),
      (literal "unrealized_pnl_ticks", .number (writeInt unrealized)),
      (literal "ts", .number ts.text)]
  | .halt net limit orderId ts =>
    [(literal "event", .text (literal "halt")),
      (literal "net_position", .number (writeInt net)),
      (literal "max_abs_position", .number (writeInt limit)),
      (literal "action", .text (literal "flatten_market_order")),
      (literal "order_id", .number (decimal orderId.toNat)),
      (literal "ts", .number ts.text)]

theorem write_eq (e : LogEntry) : e.write = writeObject e.fields ++ [newline] := by
  cases e with
  | positionUpdate net realized unrealized ts =>
    have hevent : literal "\x7b\"event\": \"position_update\", \"net_position\": " =
        openBrace :: (writeField (literal "event", .text (literal "position_update")) ++
          comma :: space :: quote :: (literal "net_position" ++ [quote, colon, space])) := by
      decide +kernel
    have hrealized : literal ", \"realized_pnl_ticks\": " =
        comma :: space :: quote :: (literal "realized_pnl_ticks" ++ [quote, colon, space]) := by
      decide +kernel
    have hunrealized : literal ", \"unrealized_pnl_ticks\": " =
        comma :: space :: quote :: (literal "unrealized_pnl_ticks" ++ [quote, colon, space]) := by
      decide +kernel
    have hts : literal ", \"ts\": " =
        comma :: space :: quote :: (literal "ts" ++ [quote, colon, space]) := by
      decide +kernel
    have hend : literal "\x7d\n" = [closeBrace, newline] := by decide +kernel
    simp only [write, RiskLog.positionUpdate, hevent, hrealized, hunrealized, hts, hend, fields,
      writeObject, writeFields, writeField, Value.write, List.append_assoc, List.cons_append,
      List.nil_append]
  | halt net limit orderId ts =>
    have hevent : literal "\x7b\"event\": \"halt\", \"net_position\": " =
        openBrace :: (writeField (literal "event", .text (literal "halt")) ++
          comma :: space :: quote :: (literal "net_position" ++ [quote, colon, space])) := by
      decide +kernel
    have hlimit : literal ", \"max_abs_position\": " =
        comma :: space :: quote :: (literal "max_abs_position" ++ [quote, colon, space]) := by
      decide +kernel
    have haction : literal ", \"action\": \"flatten_market_order\", \"order_id\": " =
        comma :: space :: (writeField
          (literal "action", .text (literal "flatten_market_order")) ++
            comma :: space :: quote :: (literal "order_id" ++ [quote, colon, space])) := by
      decide +kernel
    have hts : literal ", \"ts\": " =
        comma :: space :: quote :: (literal "ts" ++ [quote, colon, space]) := by
      decide +kernel
    have hend : literal "\x7d\n" = [closeBrace, newline] := by decide +kernel
    simp only [write, RiskLog.halt, hevent, hlimit, haction, hts, hend, fields, writeObject,
      writeFields, writeField, Value.write, List.append_assoc, List.cons_append, List.nil_append]

theorem fields_plain (e : LogEntry) : ∀ f ∈ e.fields, f.Plain := by
  have htext {key value : String} (h : quote ∉ literal key ∧ newline ∉ literal key ∧
      quote ∉ literal value ∧ newline ∉ literal value) :
      Field.Plain (literal key, .text (literal value)) := ⟨h.1, h.2.1, h.2.2⟩
  have hnumber {key : String} {s : List UInt8} (h : quote ∉ literal key ∧ newline ∉ literal key)
      (hs : (Value.number s).Plain) : Field.Plain (literal key, .number s) := ⟨h.1, h.2, hs⟩
  cases e with
  | positionUpdate net realized unrealized ts =>
    simp only [fields, List.forall_mem_cons, List.not_mem_nil, false_implies, implies_true,
      and_true]
    exact ⟨htext (by decide +kernel), hnumber (by decide +kernel) (plain_writeInt net),
      hnumber (by decide +kernel) (plain_writeInt realized),
      hnumber (by decide +kernel) (plain_writeInt unrealized),
      hnumber (by decide +kernel) ts.plain⟩
  | halt net limit orderId ts =>
    simp only [fields, List.forall_mem_cons, List.not_mem_nil, false_implies, implies_true,
      and_true]
    exact ⟨htext (by decide +kernel), hnumber (by decide +kernel) (plain_writeInt net),
      hnumber (by decide +kernel) (plain_writeInt limit), htext (by decide +kernel),
      hnumber (by decide +kernel) (plain_decimal orderId.toNat),
      hnumber (by decide +kernel) ts.plain⟩

def readStamp (s : List UInt8) : Option Stamp :=
  if h : s ≠ [] ∧ ∀ b ∈ s, isNumberByte b then some ⟨s, h⟩ else none

/-- By its fields, wherever they stand in the object. -/
def ofFields (fs : List Field) : Option LogEntry := do
  let event ← getText (literal "event") fs
  let net ← getNumber (literal "net_position") fs >>= readInt
  let ts ← getNumber (literal "ts") fs >>= readStamp
  if event = literal "position_update" then
    return .positionUpdate net (← getNumber (literal "realized_pnl_ticks") fs >>= readInt)
      (← getNumber (literal "unrealized_pnl_ticks") fs >>= readInt) ts
  else if event = literal "halt" then
    return .halt net (← getNumber (literal "max_abs_position") fs >>= readInt)
      (.ofNat (← getNumber (literal "order_id") fs >>= readNat)) ts
  else none

def read (line : List UInt8) : Option LogEntry := readObject line >>= ofFields

theorem ofFields_fields (e : LogEntry) : ofFields e.fields = some e := by
  have hstamp (ts : Stamp) : readStamp ts.text = some ts := dif_pos ts.plain
  cases e with
  | positionUpdate net realized unrealized ts =>
    simp (disch := decide +kernel) only [fields, ofFields, getText_self, getNumber_self,
      getNumber_of_ne, Option.bind_eq_bind, Option.bind_some, readInt_writeInt, hstamp, if_true]
    rfl
  | halt net limit orderId ts =>
    have hevent : literal "halt" ≠ literal "position_update" := by decide +kernel
    simp (disch := decide +kernel) only [fields, ofFields, getText_self, getNumber_self,
      getNumber_of_ne, Option.bind_eq_bind, Option.bind_some, readInt_writeInt, readNat_decimal,
      hstamp, if_neg hevent, if_true, UInt64.ofNat_toNat]
    rfl

theorem read_writeObject (e : LogEntry) : read (writeObject e.fields) = some e := by
  have hne : e.fields ≠ [] := by
    cases e <;> exact List.cons_ne_nil _ _
  rw [read, readObject_write hne (fields_plain e), Option.bind_eq_bind, Option.bind_some,
    ofFields_fields]

end LogEntry

/-- The entries of a file, if every whole line of it is one. -/
def readLog (file : List UInt8) : Option (List LogEntry) :=
  (lines.parse file).1.mapM LogEntry.read

theorem mapM_read (entries : List LogEntry) :
    (entries.map fun e => writeObject e.fields).mapM LogEntry.read = some entries := by
  induction entries with
  | nil => rfl
  | cons e entries ih =>
    rw [List.map_cons, List.mapM_cons, LogEntry.read_writeObject, ih]
    rfl

theorem parse_write (entries : List LogEntry) : (lines.parse (entries.flatMap LogEntry.write)).1 =
    entries.map fun e => writeObject e.fields := by
  have hwrite : entries.flatMap LogEntry.write =
      (entries.map fun e => writeObject e.fields).flatMap fun l => l ++ [newline] := by
    rw [List.flatMap_map]
    exact List.flatMap_congr fun e _ => e.write_eq
  rw [hwrite, parse_lines]
  intro l hl
  obtain ⟨e, -, rfl⟩ := List.mem_map.mp hl
  have hbrace : newline ≠ openBrace := by decide
  rw [writeObject, List.mem_cons, not_or]
  exact ⟨hbrace, newline_not_mem_writeFields e.fields_plain⟩

theorem readLog_write (entries : List LogEntry) :
    readLog (entries.flatMap LogEntry.write) = some entries := by
  rw [readLog, parse_write, mapM_read]

/-- A file that is still being written, or was cut off anywhere, is read as the first entries. -/
theorem readLog_of_prefix {entries : List LogEntry} {file : List UInt8}
    (h : file <+: entries.flatMap LogEntry.write) :
    ∃ first, first <+: entries ∧ readLog file = some first := by
  obtain ⟨rest, hrest⟩ := h
  have hmono := lines.parse_mono file rest
  rw [hrest, parse_write] at hmono
  obtain ⟨first, hfirst, hparse⟩ := List.prefix_map_iff.mp hmono
  exact ⟨first, hfirst, by rw [readLog, hparse, mapM_read]⟩

end Velo.Risk
