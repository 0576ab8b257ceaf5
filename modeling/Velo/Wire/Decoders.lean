import Velo.Wire.Agreement
import Velo.Wire.Codecs

/-! The three decoders of an order and of a fill, on every payload of the right size. -/
namespace Velo.Wire
open BigEndian Reader Struct

/-- The order that the server makes of a payload. -/
def cppNewOrder (payload : List UInt8) : Option Risk.OrderMsg :=
  (decodeClientOrder payload).map fun r =>
    let o := r.1.toOrder
    ⟨o.id, o.side, o.type, o.priceTicks, o.quantity⟩

/-- The fill in a payload, its side read as the server reads one. -/
def cppFill (payload : List UInt8) : Option Risk.FillEvent :=
  (decodeFill payload).map fun r =>
    ⟨r.1.restingOrderId, r.1.incomingOrderId, if r.1.restingSide = 0 then .buy else .sell,
      r.1.priceTicks, r.1.quantity, r.1.timestamp⟩

/-- An order with the integers of its fields. -/
def ofOrder (o : Risk.OrderMsg) : Strategy.OrderMsg :=
  ⟨o.clientOrderId.toNat, o.side, o.orderType, o.priceTicks.toInt, o.quantity.toNat⟩

def ofFill (f : Risk.FillEvent) : Strategy.FillEvent :=
  ⟨f.restingOrderId.toNat, f.incomingOrderId.toNat, f.restingSide, f.priceTicks.toInt,
    f.quantity.toNat, f.timestamp.toNat⟩

/-- All three reject the payload, or all three decode it to the same order. -/
def SameNewOrder (payload : List UInt8) : Prop :=
  (cppNewOrder payload = none ∧ Risk.Protocol.decodeNewOrder payload = none ∧
      Strategy.decodeNewOrder payload = none) ∨
    ∃ o, cppNewOrder payload = some o ∧ Risk.Protocol.decodeNewOrder payload = some o ∧
      Strategy.decodeNewOrder payload = some (ofOrder o)

def SameFill (payload : List UInt8) : Prop :=
  (cppFill payload = none ∧ Risk.Protocol.decodeFill payload = none ∧
      Strategy.decodeFill payload = none) ∨
    ∃ f, cppFill payload = some f ∧ Risk.Protocol.decodeFill payload = some f ∧
      Strategy.decodeFill payload = some (ofFill f)

variable {payload : List UInt8}

theorem encodeClientOrder_eq (msg : ClientOrderMsg) : encodeClientOrder msg =
    toBytes 8 msg.clientOrderId.toNat ++ (msg.side :: msg.orderType ::
      (toBytes 8 msg.priceTicks.toUInt64.toNat ++ toBytes 4 msg.quantity.toNat)) := by
  simp [encodeClientOrder, putU64_eq, putU32_eq, putU8]

theorem encodeFill_eq (msg : FillWireMsg) : encodeFill msg =
    toBytes 8 msg.restingOrderId.toNat ++ (toBytes 8 msg.incomingOrderId.toNat ++
      (msg.restingSide :: (toBytes 8 msg.priceTicks.toUInt64.toNat ++
        (toBytes 4 msg.quantity.toNat ++ toBytes 8 msg.timestamp.toNat)))) := by
  simp [encodeFill, putU64_eq, putU32_eq, putU8]

theorem exists_clientOrder (h : payload.length = clientOrderMsgSize) :
    ∃ msg : ClientOrderMsg, payload = encodeClientOrder msg := by
  obtain ⟨msg, -, hmsg⟩ := Out.codec_clientOrder.exists_bytes Out.writes_encodeClientOrder h
  exact ⟨msg, hmsg⟩

theorem exists_fill (h : payload.length = fillWireMsgSize) :
    ∃ msg : FillWireMsg, payload = encodeFill msg := by
  obtain ⟨msg, -, hmsg⟩ := Out.codec_fill.exists_bytes Out.writes_encodeFill h
  exact ⟨msg, hmsg⟩

theorem decodeClientOrder_encode (msg : ClientOrderMsg) :
    decodeClientOrder (encodeClientOrder msg) = some (msg, []) := by
  rw [← List.append_nil (encodeClientOrder msg)]
  exact Out.codec_clientOrder.decode_bytes Out.writes_encodeClientOrder trivial []

theorem decodeFill_encode (msg : FillWireMsg) :
    decodeFill (encodeFill msg) = some (msg, []) := by
  rw [← List.append_nil (encodeFill msg)]
  exact Out.codec_fill.decode_bytes Out.writes_encodeFill trivial []

/-- The order that C++ and Rust make of a message. -/
def orderOf (msg : ClientOrderMsg) : Risk.OrderMsg :=
  ⟨msg.clientOrderId, Risk.Protocol.sideFromU8 msg.side,
    if msg.orderType = 0 then .limit else .market, msg.priceTicks, msg.quantity⟩

theorem cppNewOrder_encode (msg : ClientOrderMsg) :
    cppNewOrder (encodeClientOrder msg) = some (orderOf msg) := by
  rw [cppNewOrder, decodeClientOrder_encode]
  rfl

theorem rustNewOrder_encode (msg : ClientOrderMsg) :
    Risk.Protocol.decodeNewOrder (encodeClientOrder msg) = some (orderOf msg) := by
  rw [encodeClientOrder_eq]
  simp [Risk.Protocol.decodeNewOrder, Risk.Protocol.slice, List.take_append, List.drop_append,
    List.take_of_length_le, List.drop_eq_nil_of_le, Risk.Protocol.u64FromBeBytes_toBytes,
    Risk.Protocol.u32FromBeBytes_toBytes, orderOf]

theorem byte_cases (b : UInt8) : b = 0 ∨ b = 1 ∨ 1 < b.toNat := by
  rw [← UInt8.toNat_inj, ← UInt8.toNat_inj]
  change b.toNat = 0 ∨ b.toNat = 1 ∨ _
  omega

theorem not_byte_le_one {b : UInt8} (h : 1 < b.toNat) : ¬ b ≤ 1 := by
  rw [UInt8.le_iff_toNat_le]
  exact Nat.not_le_of_lt h

theorem side?_byte (b : UInt8) :
    Strategy.side? b.toNat = if b ≤ 1 then some (Risk.Protocol.sideFromU8 b) else none := by
  rcases byte_cases b with rfl | rfl | hb
  · rfl
  · rfl
  · rw [if_neg (not_byte_le_one hb), Strategy.side?, List.find?_eq_none]
    intro side _
    rw [decide_eq_true_eq]
    cases side <;> simp only [Strategy.sideValue] <;> omega

theorem orderType?_byte (b : UInt8) :
    Strategy.orderType? b.toNat = if b ≤ 1 then some (if b = 0 then .limit else .market)
      else none := by
  rcases byte_cases b with rfl | rfl | hb
  · rfl
  · rfl
  · rw [if_neg (not_byte_le_one hb), Strategy.orderType?, List.find?_eq_none]
    intro type _
    rw [decide_eq_true_eq]
    cases type <;> simp only [Strategy.orderTypeValue] <;> omega

theorem pack_clientOrder (msg : ClientOrderMsg) : pack Strategy.newOrderFmt
    [msg.clientOrderId.toNat, msg.side.toNat, msg.orderType.toNat, msg.priceTicks.toInt,
      msg.quantity.toNat] = some (encodeClientOrder msg) := by
  simp [pack, Strategy.newOrderFmt, pack_Q, pack_B, pack_q, pack_I, encodeClientOrder_eq]

theorem pythonNewOrder_encode (msg : ClientOrderMsg) :
    Strategy.decodeNewOrder (encodeClientOrder msg) =
      if msg.side ≤ 1 ∧ msg.orderType ≤ 1 then some (ofOrder (orderOf msg)) else none := by
  simp only [Strategy.decodeNewOrder, unpack_pack (pack_clientOrder msg), Option.bind_eq_bind,
    Option.bind_some, side?_byte, orderType?_byte]
  by_cases hside : msg.side ≤ 1 <;> by_cases htype : msg.orderType ≤ 1 <;>
    simp [hside, htype, ofOrder, orderOf]

theorem cppFill_encode (msg : FillWireMsg) :
    cppFill (encodeFill msg) = some (Risk.Protocol.ofWire msg) := by
  rw [cppFill, decodeFill_encode]
  rfl

theorem pythonFill_encode (msg : FillWireMsg) :
    Strategy.decodeFill (encodeFill msg) =
      if msg.restingSide ≤ 1 then some (ofFill (Risk.Protocol.ofWire msg)) else none := by
  simp only [Strategy.decodeFill, unpack_pack (Strategy.pack_fill msg), Option.bind_eq_bind,
    Option.bind_some, side?_byte]
  by_cases hside : msg.restingSide ≤ 1 <;> simp [hside, ofFill, Risk.Protocol.ofWire]

theorem sameNewOrder_encode (msg : ClientOrderMsg) :
    SameNewOrder (encodeClientOrder msg) ↔ msg.side ≤ 1 ∧ msg.orderType ≤ 1 := by
  rw [SameNewOrder, cppNewOrder_encode, rustNewOrder_encode, pythonNewOrder_encode]
  by_cases h : msg.side ≤ 1 ∧ msg.orderType ≤ 1
  · rw [if_pos h]
    simp [h]
  · rw [if_neg h]
    simp [h]

theorem sameFill_encode (msg : FillWireMsg) :
    SameFill (encodeFill msg) ↔ msg.restingSide ≤ 1 := by
  rw [SameFill, cppFill_encode, Risk.Protocol.decodeFill_encodeFill, pythonFill_encode]
  by_cases h : msg.restingSide ≤ 1
  · rw [if_pos h]
    simp [h]
  · rw [if_neg h]
    simp [h]

/-- On every order payload and every fill payload: the three decoders agree exactly if the bytes
for the side, and for the type of an order, are zero or one. -/
theorem decoders_agree_iff (order : Vector UInt8 22) (fill : Vector UInt8 37) :
    (SameNewOrder order.toList ↔ order[8] ≤ 1 ∧ order[9] ≤ 1) ∧
      (SameFill fill.toList ↔ fill[16] ≤ 1) := by
  constructor
  · obtain ⟨msg, hmsg⟩ := exists_clientOrder order.length_toList
    have hside : order[8] = msg.side := by
      have hget : order.toList[8]? = some msg.side := by
        rw [hmsg, encodeClientOrder_eq]
        simp
      simpa using hget
    have htype : order[9] = msg.orderType := by
      have hget : order.toList[9]? = some msg.orderType := by
        rw [hmsg, encodeClientOrder_eq]
        simp
      simpa using hget
    rw [hmsg, sameNewOrder_encode, hside, htype]
  · obtain ⟨msg, hmsg⟩ := exists_fill fill.length_toList
    have hside : fill[16] = msg.restingSide := by
      have hget : fill.toList[16]? = some msg.restingSide := by
        rw [hmsg, encodeFill_eq]
        simp
      simpa using hget
    rw [hmsg, sameFill_encode, hside]

/-- An order and a fill with side two: a sale for C++ and Rust, an error for Python. -/
theorem decoders_disagree_on_side_two :
    ¬ SameNewOrder [0, 0, 0, 0, 0, 0, 0, 1, 2, 0, 0, 0, 0, 0, 0, 0, 0, 100, 0, 0, 0, 5] ∧
      ¬ SameFill [0, 0, 0, 0, 0, 0, 0, 1, 0, 0, 0, 0, 0, 0, 0, 2, 2, 0, 0, 0, 0, 0, 0, 0, 100,
        0, 0, 0, 5, 0, 0, 0, 0, 0, 0, 0, 9] := by
  constructor
  · exact (sameNewOrder_encode ⟨1, 2, 0, 100, 5⟩).not.mpr (by decide)
  · exact (sameFill_encode ⟨1, 2, 2, 100, 5, 9⟩).not.mpr (by decide)

end Velo.Wire
