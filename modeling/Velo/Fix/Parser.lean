import Mathlib.Algebra.GroupWithZero.Nat
import Mathlib.Data.Finmap
import Velo.Lib.Outcome
import Velo.Lib.Text

/-! The FIX message parser of the risk engine. -/
namespace Velo.Fix
open Outcome Utf8

/-- A `&str`, by its bytes. -/
abbrev Text := List UInt8

def SOH : UInt8 := 0x01

def equals : UInt8 := 0x3D

def tagBeginString : UInt32 := 8
def tagBodyLength : UInt32 := 9
def tagMsgType : UInt32 := 35
def tagClOrdId : UInt32 := 11
def tagSymbol : UInt32 := 55
def tagSide : UInt32 := 54
def tagOrderQty : UInt32 := 38
def tagOrdType : UInt32 := 40
def tagPrice : UInt32 := 44
def tagChecksum : UInt32 := 10

inductive FixParseError
  | notUtf8
  | emptyMessage
  | missingDelimiter
  | invalidTag (tag : Text)
  | missingRequiredTag (tag : UInt32)
  | malformedChecksumField
  | malformedField (tag : UInt32)
  | checksumMismatch (expected computed : UInt8)
  | bodyLengthMismatch (declared actual : ℕ)
  | unexpectedMsgType (msgType : Text)
  deriving DecidableEq, Repr

/-- A `&[u8]`: no slice has more than `isize::MAX` bytes. -/
structure Slice where
  bytes : List UInt8
  small : bytes.length < 2 ^ 63
  deriving DecidableEq

/-- A message as people print it, with a bar for each SOH. -/
def printed (s : String) : Text :=
  s.toList.map fun c => if c = '|' then SOH else UInt8.ofNat c.toNat

/-- A parsed field; `(tag, value)` before the caller stores it. -/
abbrev Field := UInt32 × Text

/-- `a - b` on `usize`: with overflow checks it panics below zero, without it wraps. -/
def usizeSub (checks : Bool) (a b : ℕ) : Option ℕ :=
  if b ≤ a then some (a - b) else if checks then none else some (2 ^ 64 + a - b)

/-- `a + b` on `usize` -/
def usizeAdd (checks : Bool) (a b : ℕ) : Option ℕ :=
  if a + b < 2 ^ 64 then some (a + b) else if checks then none else some (a + b - 2 ^ 64)

/-- `"{SOH}10="` -/
def marker : Text := [SOH, 0x31, 0x30, equals]

/-- The sum of bytes on `u8`. -/
def byteSum (l : List UInt8) : UInt8 := l.foldl (· + ·) 0

/-- The check of `CheckSum`; it leaves the position of the marker. -/
def checkSum (text : Text) : Outcome FixParseError ℕ := do
  let markerPos ← orErr (.missingRequiredTag tagChecksum) (rfind? marker text)
  let computed := byteSum (text.take (markerPos + 1))
  let valueStart := markerPos + marker.length
  if text.length < valueStart + 3 then
    .err .malformedChecksumField
  else
    let checksumStr ← orPanic (slice? text valueStart (valueStart + 3))
    let declared ← orErr .malformedChecksumField (parseUnsigned (2 ^ 32) checksumStr)
    let declaredChecksum := UInt8.ofNat declared
    if declaredChecksum ≠ computed then
      .err (.checksumMismatch declaredChecksum computed)
    else
      return markerPos

def parseField (field : Text) : Except FixParseError Field :=
  match splitOnce equals field with
  | none => .error .missingDelimiter
  | some (tagStr, value) =>
    match parseUnsigned (2 ^ 32) tagStr with
    | none => .error (.invalidTag tagStr)
    | some tag => .ok (UInt32.ofNat tag, value)

/-- The fields of a text; what is empty between two SOHs is skipped. -/
def splitFields (text : Text) : Except FixParseError (List Field) :=
  ((text.splitOn SOH).filter (· ≠ [])).mapM parseField

/-- The check of `BodyLength`. -/
def checkBodyLength (checks : Bool) (sohPositions : List ℕ) (markerPos : ℕ) :
    List Field → Outcome FixParseError Unit
  | (tag, _) :: (tag', value) :: _ =>
    if tag ≠ tagBeginString then .err (.missingRequiredTag tagBeginString)
    else if tag' ≠ tagBodyLength then .err (.missingRequiredTag tagBodyLength)
    else do
      let firstAfter ← orPanic sohPositions[1]?
      let bodyStart := firstAfter + 1
      let declaredBodyLen ← orErr (.malformedField tagBodyLength) (parseUnsigned (2 ^ 64) value)
      let bodyLen ← orPanic (usizeSub checks markerPos bodyStart)
      let actualBodyLen ← orPanic (usizeAdd checks bodyLen 1)
      if declaredBodyLen ≠ actualBodyLen then
        .err (.bodyLengthMismatch declaredBodyLen actualBodyLen)
      else
        return ()
  | _ => .err (.missingRequiredTag tagBeginString)

/-- The value of the first field with a tag. -/
def get (fields : List Field) (tag : UInt32) : Option Text :=
  (fields.find? (·.1 = tag)).map (·.2)

/-- The check of the tags `NewOrderSingle` requires. -/
def checkRequiredTags (fields : List Field) : Except FixParseError Unit :=
  match get fields tagMsgType with
  | none => .error (.missingRequiredTag tagMsgType)
  | some msgType =>
    if msgType ≠ [0x44] then .error (.unexpectedMsgType msgType)
    else
      match [tagClOrdId, tagSymbol, tagSide, tagOrderQty, tagOrdType].find?
          fun required => get fields required = none with
      | some required => .error (.missingRequiredTag required)
      | none =>
        if get fields tagOrdType = some [0x32] ∧ get fields tagPrice = none then
          .error (.missingRequiredTag tagPrice)
        else .ok ()

/-- `checks`: whether the build checks integer overflow. -/
def validateAndParseFields (checks : Bool) (raw : Slice) :
    Outcome FixParseError (List Field) :=
  let text := raw.bytes
  if isUtf8 text = false then .err .notUtf8
  else if text = [] then .err .emptyMessage
  else
    let sohPositions := indicesOf SOH text
    if sohPositions.length < 3 then .err .missingDelimiter
    else do
      let markerPos ← checkSum text
      let fields ← ofExcept (splitFields text)
      checkBodyLength checks sohPositions markerPos fields
      ofExcept (checkRequiredTags fields)
      return fields

/-- `HashMap<u32, String>` -/
abbrev FieldMap := Finmap fun _ : UInt32 => Text

/-- `collect` into a map: a later field with the same tag replaces an earlier one. -/
def collect (fields : List Field) : FieldMap :=
  fields.foldl (fun map field => map.insert field.1 field.2) ∅

def parseNaive (checks : Bool) (raw : Slice) : Outcome FixParseError FieldMap := do
  let fields ← validateAndParseFields checks raw
  return collect fields

structure FixField where
  tag : UInt32
  value : Text
  deriving DecidableEq, Repr

def parseZeroCopy (checks : Bool) (raw : Slice) : Outcome FixParseError (List FixField) := do
  let fields ← validateAndParseFields checks raw
  return fields.map fun (tag, value) => ⟨tag, value⟩

end Velo.Fix
