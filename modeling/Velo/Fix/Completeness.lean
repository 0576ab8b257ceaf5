import Velo.Fix.Builder

/-! Well-formed order messages are accepted and read back field by field. -/
namespace Velo.Fix
open Outcome Utf8

variable {checks : Bool} {raw : Slice} {version x y q : Text} {fs : List Field} {tag : UInt32}

theorem isUtf8_decimal (n : ℕ) : isUtf8 (decimal n) = true :=
  isUtf8_of_ascii (ascii_of_digits (isDigit_decimal n))

theorem isUtf8_bodyText (h : ∀ f ∈ fs, isUtf8 f.2 = true) : isUtf8 (bodyText fs) = true := by
  induction fs with
  | nil => rfl
  | cons f fs ih =>
    have hbody := ih fun g hg => h g (by simp [hg])
    have hf := h f (by simp)
    have htext : bodyText (f :: fs) =
        decimal f.1.toNat ++ equals :: (f.2 ++ SOH :: bodyText fs) := by
      simp [bodyText_cons, fieldText]
    rw [htext, isUtf8_ascii (by decide), isUtf8_ascii (by decide), isUtf8_decimal, hf, hbody]
    rfl

theorem get_eq_none : get fs tag = none ↔ tag ∉ fs.map Prod.fst := by
  simp only [get, Option.map_eq_none_iff, List.find?_eq_none, List.mem_map, decide_eq_true_eq]
  constructor
  · rintro h ⟨f, hf, rfl⟩
    exact h f hf rfl
  · intro h f hf heq
    exact h ⟨f, hf, heq⟩

theorem get_append (fs gs : List Field) (tag : UInt32) :
    get (fs ++ gs) tag = (get fs tag).or (get gs tag) := by
  simp only [get, List.find?_append]
  cases fs.find? (·.1 = tag) <;> rfl

theorem get_messageFields (h8 : tag ≠ tagBeginString) (h9 : tag ≠ tagBodyLength)
    (h10 : tag ≠ tagChecksum) : get (messageFields version fs) tag = get fs tag := by
  have hhead : get (messageFields version fs) tag =
      get (fs ++ [(tagChecksum, checksumText version fs)]) tag := by
    simp [messageFields, get, Ne.symm h8, Ne.symm h9]
  have hlast : get [(tagChecksum, checksumText version fs)] tag = none := by
    simp [get_eq_none, h10]
  rw [hhead, get_append, hlast, Option.or_none]

/-- The fields a `NewOrderSingle` body has, whatever else is in it. -/
structure OrderSingle (fs : List Field) : Prop where
  msgType : get fs tagMsgType = some (text "D")
  required : ∀ tag ∈ [tagClOrdId, tagSymbol, tagSide, tagOrderQty, tagOrdType],
    tag ∈ fs.map Prod.fst
  price : get fs tagOrdType = some (text "2") → tagPrice ∈ fs.map Prod.fst

theorem OrderSingle.checkRequiredTags (h : OrderSingle fs) :
    checkRequiredTags (messageFields version fs) = .ok () := by
  have hnone : [tagClOrdId, tagSymbol, tagSide, tagOrderQty, tagOrdType].find?
      (fun tag => get (messageFields version fs) tag = none) = none := by
    rw [List.find?_eq_none]
    intro tag htag
    have hne : tag ≠ tagBeginString ∧ tag ≠ tagBodyLength ∧ tag ≠ tagChecksum := by
      revert tag
      simp [tagBeginString, tagBodyLength, tagChecksum, tagClOrdId, tagSymbol, tagSide,
        tagOrderQty, tagOrdType]
    rw [get_messageFields hne.1 hne.2.1 hne.2.2]
    simpa [get_eq_none] using h.required tag htag
  have htype : get (messageFields version fs) tagMsgType = some (text "D") := by
    rw [get_messageFields (by decide) (by decide) (by decide), h.msgType]
  have hprice : ¬ (get (messageFields version fs) tagOrdType = some [0x32] ∧
      get (messageFields version fs) tagPrice = none) := by
    rw [get_messageFields (by decide) (by decide) (by decide),
      get_messageFields (by decide) (by decide) (by decide), get_eq_none]
    exact fun hboth => hboth.2 (h.price hboth.1)
  have hd : text "D" = [0x44] := by decide
  simp only [Fix.checkRequiredTags, htype, hd, hnone, if_neg hprice]
  rfl

theorem exists_bodyText (h : fs ≠ []) : ∃ q, bodyText fs = q ++ [SOH] := by
  obtain ⟨gs, f, rfl⟩ := List.eq_nil_or_concat fs |>.resolve_left h
  refine ⟨bodyText gs ++ (decimal f.1.toNat ++ equals :: f.2), ?_⟩
  simp [bodyText, fieldText]

/-- The parts of a message: two fields and a body whose last SOH is that of the marker. -/
structure Layout (version : Text) (fs : List Field) (x y q : Text) : Prop where
  first : x = text "8=" ++ version
  second : y = text "9=" ++ decimal (bodyText fs).length
  body : bodyText fs = q ++ [SOH]

theorem exists_layout (version : Text) (h : fs ≠ []) : ∃ x y q, Layout version fs x y q := by
  obtain ⟨q, hq⟩ := exists_bodyText h
  exact ⟨_, _, q, rfl, rfl, hq⟩

theorem Layout.summedText_eq (h : Layout version fs x y q) :
    summedText version fs = x ++ SOH :: (y ++ SOH :: q) ++ [SOH] := by
  rw [summedText, h.body, h.first, h.second, h.body]
  simp

theorem Layout.message_eq (h : Layout version fs x y q) :
    message version fs =
      x ++ SOH :: (y ++ SOH :: q) ++ marker ++ checksumText version fs ++ [SOH] := by
  have h10 : text "10=" = [0x31, 0x30, equals] := by decide
  rw [message, checksumText, h10, h.summedText_eq]
  simp [marker]

theorem Layout.cut (h : Layout version fs x y q) :
    Cut (message version fs) (x ++ SOH :: (y ++ SOH :: q)) (checksumText version fs) [SOH] := by
  rw [h.message_eq]
  exact cut_trailer (length_checksumText _ _)

theorem Layout.soh_not_mem (h : Layout version fs x y q) (hversion : SOH ∉ version) :
    SOH ∉ x ∧ SOH ∉ y := by
  rw [h.first, h.second]
  simpa using ⟨⟨by decide, hversion⟩, by decide, not_mem_decimal (by decide) _⟩

theorem Layout.second_delimiter (h : Layout version fs x y q) (hversion : SOH ∉ version)
    (tail : Text) :
    (indicesOf SOH (x ++ SOH :: (y ++ SOH :: q) ++ tail))[1]? =
      some (x.length + 1 + y.length) := by
  obtain ⟨hx, hy⟩ := h.soh_not_mem hversion
  have htext : x ++ SOH :: (y ++ SOH :: q) ++ tail = x ++ SOH :: (y ++ SOH :: (q ++ tail)) := by
    simp
  rw [htext, indicesOf_append hx, indicesOf_append hy]
  simp
  omega

theorem Layout.delimiters (h : Layout version fs x y q) :
    4 ≤ (message version fs).count SOH := by
  simp [h.message_eq, List.count_append, List.count_cons, marker]
  omega

theorem parse_checksumText (version : Text) (fs : List Field) :
    parseUnsigned (2 ^ 32) (checksumText version fs) =
      some (byteSum (summedText version fs)).toNat := by
  have hnum : number (checksumText version fs) = (byteSum (summedText version fs)).toNat :=
    number_padded _ _
  have hlt := (byteSum (summedText version fs)).toNat_lt
  have hne : checksumText version fs ≠ [] := by
    intro hnil
    simpa [hnil] using length_checksumText version fs
  rw [← hnum]
  exact parseUnsigned_digits hne (isDigit_padded _ _) (by omega)

theorem parse_decimal {n bound : ℕ} (h : n < bound) : parseUnsigned bound (decimal n) = some n := by
  have hlt : number (decimal n) < bound := by rwa [number_decimal]
  have hparse := parseUnsigned_digits (decimal_ne_nil n) (isDigit_decimal n) hlt
  rwa [number_decimal] at hparse

theorem soh_not_mem_messageFields (hversion : SOH ∉ version) (hfs : ∀ f ∈ fs, SOH ∉ f.2) :
    ∀ f ∈ messageFields version fs, SOH ∉ f.2 := by
  simp only [messageFields, List.cons_append, List.mem_cons, List.mem_append, List.not_mem_nil,
    or_false]
  rintro f (rfl | rfl | hf | rfl)
  · exact hversion
  · exact not_mem_decimal (by decide) _
  · exact hfs f hf
  · exact soh_not_mem_checksumText _ _

theorem splitFields_message (hversion : SOH ∉ version) (hfs : ∀ f ∈ fs, SOH ∉ f.2) :
    splitFields (message version fs) = .ok (messageFields version fs) := by
  rw [message_eq]
  exact splitFields_bodyText (soh_not_mem_messageFields hversion hfs)

theorem Layout.checkBodyLength_eq (h : Layout version fs x y q)
    (hlen : (x ++ SOH :: (y ++ SOH :: q)).length < 2 ^ 63) {positions : List ℕ}
    (hi : positions[1]? = some (x.length + 1 + y.length)) (others : List Field) :
    checkBodyLength checks positions (x ++ SOH :: (y ++ SOH :: q)).length
      ((tagBeginString, version) :: (tagBodyLength, decimal (bodyText fs).length) :: others) =
        .ok () := by
  have hbody : (bodyText fs).length = q.length + 1 := by
    simp [h.body]
  have hm : (x ++ SOH :: (y ++ SOH :: q)).length = x.length + 1 + y.length + (q.length + 1) := by
    simp
    omega
  rw [Fix.checkBodyLength_eq hi (by omega) (by omega), parse_decimal (by omega), orErr, ok_bind,
    if_neg (by omega), if_neg (by omega)]

theorem OrderSingle.ne_nil (h : OrderSingle fs) : fs ≠ [] := by
  rintro rfl
  simpa [get] using h.msgType

theorem OrderSingle.accepted (h : OrderSingle fs) (hversion : SOH ∉ version)
    (hfs : ∀ f ∈ fs, SOH ∉ f.2) (hraw : raw.bytes = message version fs)
    (hutf : isUtf8 raw.bytes = true) :
    validateAndParseFields checks raw = .ok (messageFields version fs) := by
  obtain ⟨x, y, q, hl⟩ := exists_layout version h.ne_nil
  have hsmall := raw.small
  rw [hraw] at hutf hsmall
  have hlen := hl.cut.length_le
  have hdelimiters := hl.delimiters
  rw [← length_indicesOf] at hdelimiters
  have hindex := hl.second_delimiter hversion (marker ++ checksumText version fs ++ [SOH])
  have htext : x ++ SOH :: (y ++ SOH :: q) ++ (marker ++ checksumText version fs ++ [SOH]) =
      message version fs := by
    simp [hl.message_eq]
  rw [htext] at hindex
  have hsum : UInt8.ofNat (byteSum (summedText version fs)).toNat =
      byteSum (x ++ SOH :: (y ++ SOH :: q) ++ [SOH]) := by
    rw [UInt8.ofNat_toNat, hl.summedText_eq]
  rw [validateAndParseFields_eq_ok, hraw]
  exact ⟨_, _, _, ⟨⟨hl.cut, hutf, by omega, rfl, _, parse_checksumText _ _, hsum⟩,
    splitFields_message hversion hfs,
    hl.checkBodyLength_eq (by omega) hindex _, h.checkRequiredTags⟩⟩

section Order

variable {Price : Type} {priceText : Price → Text} {fields : NewOrderSingleFields Price}

/-- No SOH in what the caller supplies. -/
structure NewOrderSingleFields.SohFree (fields : NewOrderSingleFields Price) : Prop where
  clOrdId : '\x01' ∉ fields.clOrdId.toList
  symbol : '\x01' ∉ fields.symbol.toList
  side : fields.side ≠ '\x01'
  ordType : fields.ordType ≠ '\x01'

/-- What `format!` with `:.2` makes of any price: text without SOH. -/
def PlainPrices (priceText : Price → Text) : Prop :=
  ∀ price, isUtf8 (priceText price) = true ∧ SOH ∉ priceText price

theorem soh_not_mem_encode {s : List Char} (h : '\x01' ∉ s) : SOH ∉ encode s :=
  mem_encode (c := '\x01') (by decide) h

theorem orderFields_values (hprices : PlainPrices priceText) (h : fields.SohFree) :
    ∀ f ∈ orderFields priceText fields, isUtf8 f.2 = true ∧ SOH ∉ f.2 := by
  have hliteral : ∀ s : String, '\x01' ∉ s.toList → isUtf8 (text s) = true ∧ SOH ∉ text s :=
    fun s hs => ⟨isUtf8_encode _, soh_not_mem_encode hs⟩
  have hdecimal : ∀ n, isUtf8 (decimal n) = true ∧ SOH ∉ decimal n :=
    fun n => ⟨isUtf8_decimal n, not_mem_decimal (by decide) n⟩
  have hchar : ∀ c, c ≠ '\x01' → isUtf8 (encode [c]) = true ∧ SOH ∉ encode [c] :=
    fun c hc => ⟨isUtf8_encode _, soh_not_mem_encode (by simpa using hc.symm)⟩
  intro f hf
  simp only [orderFields, List.mem_append, List.mem_cons, List.not_mem_nil, or_false,
    Option.mem_toList, Option.map_eq_some_iff] at hf
  obtain ((rfl | rfl | rfl | rfl | rfl | rfl | rfl | rfl | rfl | rfl) | ⟨price, -, rfl⟩) | rfl := hf
  · exact hliteral _ (by decide)
  · exact hliteral _ (by decide)
  · exact hliteral _ (by decide)
  · exact hdecimal _
  · exact hliteral _ (by decide)
  · exact hliteral _ h.clOrdId
  · exact hliteral _ h.symbol
  · exact hchar _ h.side
  · exact hdecimal _
  · exact hchar _ h.ordType
  · exact hprices price
  · exact hliteral _ (by decide)

theorem encode_eq_limit {c : Char} (h : encode [c] = text "2") : c = '2' := by
  have hmem : (0x32 : UInt8) ∈ String.utf8EncodeChar c := by
    have hone : encode [c] = String.utf8EncodeChar c := by simp [encode]
    rw [← hone, h]
    decide
  have hcode := mem_utf8EncodeChar (by decide) hmem
  exact Char.ext (UInt32.toNat_inj.1 hcode)

theorem orderSingle_orderFields (hprice : fields.ordType = '2' → fields.price.isSome = true) :
    OrderSingle (orderFields priceText fields) where
  msgType := rfl
  required := by
    simp [orderFields]
  price := by
    intro hlimit
    have hget : get (orderFields priceText fields) tagOrdType = some (encode [fields.ordType]) :=
      rfl
    rw [hget, Option.some.injEq] at hlimit
    obtain ⟨price, hsome⟩ := Option.isSome_iff_exists.1 (hprice (encode_eq_limit hlimit))
    simp [orderFields, hsome]

theorem isUtf8_message {version : Text} {fs : List Field} (hversion : isUtf8 version = true)
    (hfs : ∀ f ∈ fs, isUtf8 f.2 = true) : isUtf8 (message version fs) = true := by
  rw [message_eq]
  refine isUtf8_bodyText ?_
  simp only [messageFields, List.cons_append, List.mem_cons, List.mem_append, List.not_mem_nil,
    or_false]
  rintro f (rfl | rfl | hf | rfl)
  · exact hversion
  · exact isUtf8_decimal _
  · exact hfs f hf
  · exact isUtf8_of_ascii (ascii_of_digits (isDigit_padded _ _))

theorem buildNewOrderSingle_accepted (hprices : PlainPrices priceText) (h : fields.SohFree)
    (hprice : fields.ordType = '2' → fields.price.isSome = true)
    (hraw : raw.bytes = buildNewOrderSingle priceText fields) :
    validateAndParseFields checks raw =
      .ok (messageFields (text "FIX.4.2") (orderFields priceText fields)) := by
  have hvalues := orderFields_values hprices h
  rw [buildNewOrderSingle_eq] at hraw
  refine (orderSingle_orderFields hprice).accepted (by decide) (fun f hf => (hvalues f hf).2)
    hraw ?_
  rw [hraw]
  exact isUtf8_message (by decide) fun f hf => (hvalues f hf).1

end Order

/-- Every well-formed order message is accepted and gives back its fields in order, and so is every
message the builder makes of texts without SOH. -/
theorem parseZeroCopy_complete :
    (∀ checks version fs (raw : Slice), SOH ∉ version → (∀ f ∈ fs, SOH ∉ f.2) → OrderSingle fs →
      raw.bytes = message version fs → isUtf8 raw.bytes = true →
      parseZeroCopy checks raw =
        .ok ((messageFields version fs).map fun f => ⟨f.1, f.2⟩)) ∧
    ∀ checks (Price : Type) (priceText : Price → Text) (fields : NewOrderSingleFields Price)
      (raw : Slice), PlainPrices priceText → fields.SohFree →
      (fields.ordType = '2' → fields.price.isSome = true) →
      raw.bytes = buildNewOrderSingle priceText fields →
      parseZeroCopy checks raw =
        .ok ((messageFields (text "FIX.4.2") (orderFields priceText fields)).map
          fun f => ⟨f.1, f.2⟩) := by
  constructor
  · intro checks version fs raw hversion hfs horder hraw hutf
    exact parseZeroCopy_eq_ok.2 ⟨_, horder.accepted hversion hfs hraw hutf, rfl⟩
  · intro checks Price priceText fields raw hprices hsoh hprice hraw
    exact parseZeroCopy_eq_ok.2 ⟨_, buildNewOrderSingle_accepted hprices hsoh hprice hraw, rfl⟩

/-- A second checksum field in the body, a value with a checksum in it and one beyond ASCII. -/
def intricateFields : List Field :=
  [(35, text "D"), (10, text "000"), (11, text "10=7"), (58, text "é"), (55, []), (54, text "1"),
    (38, text "10"), (40, text "2"), (44, text "1=1")]

def sampleFields : NewOrderSingleFields Unit where
  seqNum := 1
  clOrdId := "ORDER1"
  symbol := "ESZ5"
  side := '1'
  orderQty := 10
  ordType := '2'
  price := some ()

def sampleOrder : Slice :=
  ⟨buildNewOrderSingle (fun _ => text "4800.00") sampleFields, by decide +kernel⟩

theorem parseZeroCopy_complete_at_orders :
    parseZeroCopy true ⟨message (text "FIX.4.2") intricateFields, by decide +kernel⟩ =
      .ok ((messageFields (text "FIX.4.2") intricateFields).map fun f => ⟨f.1, f.2⟩) ∧
    parseZeroCopy true sampleOrder =
      .ok ((messageFields (text "FIX.4.2") (orderFields (fun _ => text "4800.00")
        sampleFields)).map fun f => ⟨f.1, f.2⟩) := by
  constructor
  · have hrequired : ∀ tag ∈ [tagClOrdId, tagSymbol, tagSide, tagOrderQty, tagOrdType],
        tag ∈ intricateFields.map Prod.fst := by
      simp [intricateFields, tagClOrdId, tagSymbol, tagSide, tagOrderQty, tagOrdType]
    exact parseZeroCopy_complete.1 _ _ intricateFields _ (by decide) (by decide)
      ⟨by decide, hrequired, by decide⟩ rfl (by decide +kernel)
  · exact parseZeroCopy_complete.2 _ _ _ sampleFields _ (fun _ => ⟨by decide, by decide⟩)
      ⟨by decide, by decide, by decide, by decide⟩ (by decide) rfl

end Velo.Fix
