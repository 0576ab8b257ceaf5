import Velo.Fix.Soundness

/-! FIX messages by their fields, and the builder of `NewOrderSingle`. -/
namespace Velo.Fix
open Outcome Utf8

/-- A Rust string literal, `String` or `char`, by its bytes. -/
def text (s : String) : Text := encode s.toList

/-- `order_qty`, `seq_num` and the like come from the caller as they are; `Price` is `f64`. -/
structure NewOrderSingleFields (Price : Type) where
  seqNum : UInt32
  clOrdId : String
  symbol : String
  side : Char
  orderQty : UInt32
  ordType : Char
  price : Option Price

section

variable {Price : Type} (priceText : Price → Text)

/-- The `body` of `build_new_order_single`; `priceText` is `format!` with `:.2`. -/
def orderBody (fields : NewOrderSingleFields Price) : Text :=
  text "35=D" ++ [SOH] ++
  text "49=SENDER" ++ [SOH] ++
  text "56=TARGET" ++ [SOH] ++
  (text "34=" ++ decimal fields.seqNum.toNat) ++ [SOH] ++
  text "52=20260101-00:00:00" ++ [SOH] ++
  (text "11=" ++ text fields.clOrdId) ++ [SOH] ++
  (text "55=" ++ text fields.symbol) ++ [SOH] ++
  (text "54=" ++ encode [fields.side]) ++ [SOH] ++
  (text "38=" ++ decimal fields.orderQty.toNat) ++ [SOH] ++
  (text "40=" ++ encode [fields.ordType]) ++ [SOH] ++
  (match fields.price with
    | some price => (text "44=" ++ priceText price) ++ [SOH]
    | none => []) ++
  text "59=0" ++ [SOH]

def buildNewOrderSingle (fields : NewOrderSingleFields Price) : Text :=
  let body := orderBody priceText fields
  let message := text "8=FIX.4.2" ++ [SOH] ++ (text "9=" ++ decimal body.length ++ [SOH]) ++ body
  let checksum := byteSum message
  message ++ (text "10=" ++ padded 3 checksum.toNat) ++ [SOH]

/-- The fields between the body length and the checksum. -/
def orderFields (fields : NewOrderSingleFields Price) : List Field :=
  [(tagMsgType, text "D"), (49, text "SENDER"), (56, text "TARGET"),
    (34, decimal fields.seqNum.toNat), (52, text "20260101-00:00:00"),
    (tagClOrdId, text fields.clOrdId), (tagSymbol, text fields.symbol),
    (tagSide, encode [fields.side]), (tagOrderQty, decimal fields.orderQty.toNat),
    (tagOrdType, encode [fields.ordType])] ++
    (fields.price.map fun price => (tagPrice, priceText price)).toList ++ [(59, text "0")]

end

/-- `tag=value` and an SOH, the tag in canonical decimal. -/
def fieldText (f : Field) : Text := decimal f.1.toNat ++ equals :: f.2 ++ [SOH]

def bodyText (fs : List Field) : Text := fs.flatMap fieldText

/-- Up to the checksum. -/
def summedText (version : Text) (fs : List Field) : Text :=
  text "8=" ++ version ++ [SOH] ++ (text "9=" ++ decimal (bodyText fs).length ++ [SOH]) ++
    bodyText fs

/-- The message of a version and the fields of a body, with its length and its checksum. -/
def message (version : Text) (fs : List Field) : Text :=
  summedText version fs ++ text "10=" ++ padded 3 (byteSum (summedText version fs)).toNat ++ [SOH]

/-- The three digits of the checksum. -/
def checksumText (version : Text) (fs : List Field) : Text :=
  padded 3 (byteSum (summedText version fs)).toNat

/-- Every field of the message. -/
def messageFields (version : Text) (fs : List Field) : List Field :=
  (tagBeginString, version) :: (tagBodyLength, decimal (bodyText fs).length) :: fs ++
    [(tagChecksum, checksumText version fs)]

variable {version : Text} {fs : List Field} {f : Field}

theorem bodyText_cons (f : Field) (fs : List Field) :
    bodyText (f :: fs) = fieldText f ++ bodyText fs := rfl

theorem bodyText_append (fs gs : List Field) :
    bodyText (fs ++ gs) = bodyText fs ++ bodyText gs := List.flatMap_append

theorem summedText_eq (version : Text) (fs : List Field) :
    summedText version fs = bodyText
      ((tagBeginString, version) :: (tagBodyLength, decimal (bodyText fs).length) :: fs) := by
  have h8 : text "8=" = decimal tagBeginString.toNat ++ [equals] := by decide
  have h9 : text "9=" = decimal tagBodyLength.toNat ++ [equals] := by decide
  simp [summedText, bodyText_cons, fieldText, h8, h9]

theorem message_eq (version : Text) (fs : List Field) :
    message version fs = bodyText (messageFields version fs) := by
  have h10 : text "10=" = decimal tagChecksum.toNat ++ [equals] := by decide
  rw [message, summedText_eq, messageFields, bodyText_append, ← summedText_eq]
  simp [bodyText, fieldText, h10, checksumText]

theorem literal_eq (s : String) (tag : UInt32) (value : Text)
    (h : text s = decimal tag.toNat ++ equals :: value) (body : Text) :
    body ++ text s ++ [SOH] = body ++ fieldText (tag, value) := by
  simp [h, fieldText]

theorem tagged_eq (s : String) (tag : UInt32) (h : text s = decimal tag.toNat ++ [equals])
    (body value : Text) : body ++ (text s ++ value) ++ [SOH] = body ++ fieldText (tag, value) := by
  simp [h, fieldText]

theorem orderBody_eq {Price : Type} (priceText : Price → Text)
    (fields : NewOrderSingleFields Price) :
    orderBody priceText fields = bodyText (orderFields priceText fields) := by
  have h35 := literal_eq "35=D" tagMsgType (text "D") (by decide +kernel) []
  have h49 := literal_eq "49=SENDER" 49 (text "SENDER") (by decide +kernel)
  have h56 := literal_eq "56=TARGET" 56 (text "TARGET") (by decide +kernel)
  have h34 := tagged_eq "34=" 34 (by decide +kernel)
  have h52 := literal_eq "52=20260101-00:00:00" 52 (text "20260101-00:00:00") (by decide +kernel)
  have h11 := tagged_eq "11=" tagClOrdId (by decide +kernel)
  have h55 := tagged_eq "55=" tagSymbol (by decide +kernel)
  have h54 := tagged_eq "54=" tagSide (by decide +kernel)
  have h38 := tagged_eq "38=" tagOrderQty (by decide +kernel)
  have h40 := tagged_eq "40=" tagOrdType (by decide +kernel)
  have h44 := tagged_eq "44=" tagPrice (by decide +kernel) []
  have h59 := literal_eq "59=0" 59 (text "0") (by decide +kernel)
  have hprice : (match fields.price with
      | some price => (text "44=" ++ priceText price) ++ [SOH]
      | none => []) =
        bodyText (fields.price.map fun price => (tagPrice, priceText price)).toList := by
    cases fields.price with
    | none => rfl
    | some price =>
      have h44 := h44 (priceText price)
      rw [List.nil_append] at h44
      simp [bodyText, h44]
  rw [List.nil_append, List.nil_append] at h35
  unfold orderBody
  rw [hprice, h35, h49, h56, h34, h52, h11, h55, h54, h38, h40, h59]
  simp [orderFields, bodyText]

theorem buildNewOrderSingle_eq {Price : Type} (priceText : Price → Text)
    (fields : NewOrderSingleFields Price) :
    buildNewOrderSingle priceText fields =
      message (text "FIX.4.2") (orderFields priceText fields) := by
  have h8 : text "8=FIX.4.2" = text "8=" ++ text "FIX.4.2" := by decide
  rw [buildNewOrderSingle, orderBody_eq, h8, message, summedText]
  simp only [List.append_assoc]

theorem length_checksumText (version : Text) (fs : List Field) :
    (checksumText version fs).length = 3 :=
  length_padded (by omega) (Nat.lt_trans (UInt8.toNat_lt _) (by decide))

theorem soh_not_mem_checksumText (version : Text) (fs : List Field) :
    SOH ∉ checksumText version fs :=
  soh_not_mem_digits (isDigit_padded _ _)

theorem not_mem_decimal {b : UInt8} (hb : isDigit b = false) (n : ℕ) : b ∉ decimal n := by
  intro hmem
  have := List.all_eq_true.1 (isDigit_decimal n) b hmem
  simp [hb] at this

theorem parseField_tag (f : Field) : parseField (decimal f.1.toNat ++ equals :: f.2) = .ok f := by
  have hparse := parseUnsigned_digits (decimal_ne_nil f.1.toNat) (isDigit_decimal f.1.toNat)
    (by rw [number_decimal]; exact f.1.toNat_lt)
  rw [number_decimal] at hparse
  refine parseField_eq_ok.2 ⟨_, _, rfl, not_mem_decimal (by decide) _, hparse, ?_⟩
  exact UInt32.ofNat_toNat

theorem splitFields_bodyText (hfs : ∀ f ∈ fs, SOH ∉ f.2) : splitFields (bodyText fs) = .ok fs := by
  induction fs with
  | nil => exact splitFields_nil
  | cons f fs ih =>
    have hf : SOH ∉ decimal f.1.toNat ++ equals :: f.2 := by
      have := not_mem_decimal (b := SOH) (by decide) f.1.toNat
      have := hfs f (by simp)
      simp only [List.mem_append, List.mem_cons, not_or]
      exact ⟨‹_›, by decide, ‹_›⟩
    have htext : bodyText (f :: fs) =
        (decimal f.1.toNat ++ equals :: f.2) ++ SOH :: bodyText fs := by
      simp [bodyText_cons, fieldText]
    rw [htext]
    refine splitFields_append_ok.2 ⟨[f], fs, ?_, ih fun g hg => hfs g (by simp [hg]), rfl⟩
    rw [splitFields_single hf (by simp), parseField_tag]
    rfl

end Velo.Fix
