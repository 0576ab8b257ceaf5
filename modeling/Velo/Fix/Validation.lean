import Velo.Fix.Parser

/-! What the shared validation of the FIX parsers lets through. -/
namespace Velo.Fix
open Outcome Utf8

variable {checks : Bool} {raw : Slice} {text p ds rest x y : Text} {fields : List Field} {m : ℕ}

/-- The text around its last marker and the three bytes after that. -/
structure Cut (text p ds rest : Text) : Prop where
  text_eq : text = p ++ marker ++ ds ++ rest
  three : ds.length = 3
  last : rfind? marker text = some p.length

theorem marker_ne_nil : marker ≠ [] := by decide

theorem exists_cut (h : rfind? marker text = some m) (hlen : m + 7 ≤ text.length) :
    ∃ p ds rest, Cut text p ds rest ∧ m = p.length := by
  obtain ⟨p, y, rfl, rfl, -⟩ := rfind?_eq_some marker_ne_nil h
  have hy : 3 ≤ y.length := by
    simp only [marker, List.length_append, List.length_cons, List.length_nil] at hlen
    omega
  refine ⟨p, y.take 3, y.drop 3, ⟨?_, ?_, h⟩, rfl⟩
  · rw [List.append_assoc _ (y.take 3), List.take_append_drop]
  · rw [List.length_take]
    omega

theorem Cut.length_le (h : Cut text p ds rest) : p.length + 7 ≤ text.length := by
  rw [h.text_eq]
  simp [marker, h.three]

theorem Cut.take_eq (h : Cut text p ds rest) : text.take (p.length + 1) = p ++ [SOH] := by
  have heq : text = (p ++ [SOH]) ++ ([0x31, 0x30, equals] ++ ds ++ rest) := by
    simp [h.text_eq, marker]
  rw [heq, List.take_left' (by simp)]

theorem Cut.startsInside_eq (h : Cut text p ds rest) (hutf : isUtf8 text = true) :
    startsInside (ds ++ rest) = false := by
  have heq : text = (p ++ [SOH, 0x31, 0x30]) ++ equals :: (ds ++ rest) := by
    simp [h.text_eq, marker]
  rw [heq, isUtf8_ascii (by decide), Bool.and_eq_true] at hutf
  exact startsInside_of_isUtf8 hutf.2

theorem Cut.slice?_eq (h : Cut text p ds rest) (hutf : isUtf8 text = true) :
    slice? text (p.length + marker.length) (p.length + marker.length + 3) =
      if startsInside rest = true then none else some ds := by
  have hslice := slice?_append (l := p ++ marker) (by simp [marker]) (h.startsInside_eq hutf)
  rw [← h.text_eq, List.length_append, h.three] at hslice
  exact hslice

/-- What `checkSum` comes to on a text it can cut. -/
theorem checkSum_cut (h : Cut text p ds rest) (hutf : isUtf8 text = true) :
    checkSum text =
      if startsInside rest = true then .panic
      else orErr .malformedChecksumField (parseUnsigned (2 ^ 32) ds) >>= fun d =>
        if UInt8.ofNat d ≠ byteSum (p ++ [SOH]) then
          .err (.checksumMismatch (UInt8.ofNat d) (byteSum (p ++ [SOH])))
        else .ok p.length := by
  have hlen : ¬ text.length < p.length + marker.length + 3 := by
    have := h.length_le
    simp only [marker, List.length_cons, List.length_nil]
    omega
  simp only [checkSum, h.last, orErr, ok_bind, if_neg hlen, h.slice?_eq hutf, h.take_eq]
  by_cases hin : startsInside rest = true
  · rw [if_pos hin, if_pos hin]
    rfl
  · rw [if_neg hin, if_neg hin]
    rfl

theorem checkSum_err (h : ∀ p ds rest, ¬ Cut text p ds rest) : ∃ e, checkSum text = .err e := by
  rw [checkSum]
  cases hm : rfind? marker text with
  | none => exact ⟨_, rfl⟩
  | some m =>
    have hshort : text.length < m + marker.length + 3 := by
      by_contra hlong
      simp only [marker, List.length_cons, List.length_nil] at hlong
      obtain ⟨p, ds, rest, hcut, -⟩ := exists_cut hm (by omega)
      exact h p ds rest hcut
    simp only [orErr, ok_bind, if_pos hshort]
    exact ⟨_, rfl⟩

theorem checkSum_eq_ok (hutf : isUtf8 text = true) :
    checkSum text = .ok m ↔ ∃ p ds rest d, Cut text p ds rest ∧ m = p.length ∧
      startsInside rest = false ∧ parseUnsigned (2 ^ 32) ds = some d ∧
      UInt8.ofNat d = byteSum (p ++ [SOH]) := by
  constructor
  · intro h
    by_cases hcut : ∃ p ds rest, Cut text p ds rest
    · obtain ⟨p, ds, rest, hcut⟩ := hcut
      rw [checkSum_cut hcut hutf] at h
      by_cases hin : startsInside rest = true
      · simp [hin] at h
      rw [if_neg hin, bind_eq_ok] at h
      obtain ⟨d, hd, h⟩ := h
      by_cases hsum : UInt8.ofNat d = byteSum (p ++ [SOH])
      · simp only [hsum, ne_eq, not_true, if_false, Outcome.ok.injEq] at h
        exact ⟨p, ds, rest, d, hcut, h.symm, by simpa using hin, orErr_eq_ok.1 hd, hsum⟩
      · simp [hsum] at h
    · obtain ⟨e, he⟩ := checkSum_err fun p ds rest hc => hcut ⟨p, ds, rest, hc⟩
      simp [he] at h
  · rintro ⟨p, ds, rest, d, hcut, rfl, hin, hd, hsum⟩
    rw [checkSum_cut hcut hutf, hin, hd, orErr]
    simp [hsum]

theorem checkSum_eq_panic (hutf : isUtf8 text = true) :
    checkSum text = .panic ↔ ∃ p ds rest, Cut text p ds rest ∧ startsInside rest = true := by
  constructor
  · intro h
    by_cases hcut : ∃ p ds rest, Cut text p ds rest
    · obtain ⟨p, ds, rest, hcut⟩ := hcut
      refine ⟨p, ds, rest, hcut, ?_⟩
      by_contra hin
      rw [checkSum_cut hcut hutf, if_neg hin, bind_eq_panic] at h
      obtain h | ⟨d, -, h⟩ := h
      · exact orErr_ne_panic h
      · split at h <;> simp at h
    · obtain ⟨e, he⟩ := checkSum_err fun p ds rest hc => hcut ⟨p, ds, rest, hc⟩
      simp [he] at h
  · rintro ⟨p, ds, rest, hcut, hin⟩
    rw [checkSum_cut hcut hutf, if_pos hin]

/-- Where a text is cut is settled by its last marker. -/
theorem Cut.unique {p' ds' rest' : Text} (h : Cut text p ds rest) (h' : Cut text p' ds' rest') :
    p = p' ∧ ds = ds' ∧ rest = rest' := by
  have hlen : p.length = p'.length := Option.some.inj (h.last.symm.trans h'.last)
  have heq := h.text_eq.symm.trans h'.text_eq
  simp only [List.append_assoc] at heq
  obtain ⟨hp, heq⟩ := List.append_inj heq hlen
  obtain ⟨hds, hrest⟩ := List.append_inj (List.append_cancel_left heq) (h.three.trans h'.three.symm)
  exact ⟨hp, hds, hrest⟩

theorem splitFields_nil : splitFields [] = .ok [] := rfl

theorem splitFields_single (hx : SOH ∉ x) (hne : x ≠ []) :
    splitFields x = (parseField x).map fun f => [f] := by
  have hsplit : x.splitOn SOH = [x] := List.splitOn_eq_singleton hx
  simp only [splitFields, hsplit]
  cases h : parseField x with
  | error e => simp [hne, h]; rfl
  | ok f => simp [hne, h]; rfl

theorem splitFields_append (x y : Text) :
    splitFields (x ++ SOH :: y) =
      splitFields x >>= fun fs => splitFields y >>= fun gs => .ok (fs ++ gs) := by
  simp only [splitFields, List.splitOn_append_cons_self, List.filter_append, List.mapM_append]
  rfl

theorem except_bind_eq_ok {ε α β : Type} {r : Except ε α} {f : α → Except ε β} {b : β} :
    r >>= f = .ok b ↔ ∃ a, r = .ok a ∧ f a = .ok b := by
  cases r <;> simp [Bind.bind, Except.bind]

theorem splitFields_append_ok :
    splitFields (x ++ SOH :: y) = .ok fields ↔
      ∃ fs gs, splitFields x = .ok fs ∧ splitFields y = .ok gs ∧ fields = fs ++ gs := by
  simp only [splitFields_append, except_bind_eq_ok, Except.ok.injEq]
  constructor
  · rintro ⟨fs, hfs, gs, hgs, h⟩
    exact ⟨fs, gs, hfs, hgs, h.symm⟩
  · rintro ⟨fs, gs, hfs, hgs, h⟩
    exact ⟨fs, hfs, gs, hgs, h.symm⟩

theorem parseField_eq_ok {field : Field} :
    parseField x = .ok field ↔ ∃ tag n, x = tag ++ equals :: field.2 ∧ equals ∉ tag ∧
      parseUnsigned (2 ^ 32) tag = some n ∧ UInt32.ofNat n = field.1 := by
  obtain ⟨f1, f2⟩ := field
  rw [parseField]
  cases hs : splitOnce equals x with
  | none =>
    have hmem := splitOnce_eq_none.1 hs
    simp only [reduceCtorEq, false_iff]
    rintro ⟨tag, n, rfl, -⟩
    simp at hmem
  | some r =>
    obtain ⟨rfl, hr⟩ := splitOnce_eq_some.1 hs
    constructor
    · intro h
      cases hn : parseUnsigned (2 ^ 32) r.1 with
      | none => simp only [hn, reduceCtorEq] at h
      | some n =>
        simp only [hn, Except.ok.injEq, Prod.mk.injEq] at h
        exact ⟨r.1, n, by rw [h.2], hr, hn, h.1⟩
    · rintro ⟨tag, n, heq, htag, hn, rfl⟩
      have hsame := (splitOnce_append (y := f2) htag).symm.trans (heq ▸ hs)
      obtain rfl := Option.some.inj hsame
      simp only [hn]

theorem parseField_checksum (x : Text) :
    parseField (0x31 :: 0x30 :: equals :: x) = .ok (tagChecksum, x) :=
  parseField_eq_ok.2 ⟨[0x31, 0x30], 10, rfl, by decide, by decide, rfl⟩

/-- The first field after the marker. -/
theorem splitFields_checksum (h : splitFields (0x31 :: 0x30 :: equals :: x) = .ok fields) :
    ∃ value others, fields = (tagChecksum, value) :: others := by
  have hhead : ∀ y : Text, SOH ∉ y →
      splitFields (0x31 :: 0x30 :: equals :: y) = .ok [(tagChecksum, y)] := by
    intro y hy
    rw [splitFields_single (by simpa [SOH, equals] using hy) (by simp), parseField_checksum]
    rfl
  obtain hx | ⟨y, z, rfl, hy⟩ := mem_cases SOH x
  · rw [hhead x hx] at h
    exact ⟨x, [], (Except.ok.inj h).symm⟩
  · obtain ⟨fs, gs, hfs, -, rfl⟩ := splitFields_append_ok
      (x := 0x31 :: 0x30 :: equals :: y) |>.1 h
    rw [hhead y hy] at hfs
    obtain rfl := Except.ok.inj hfs
    exact ⟨y, gs, rfl⟩

theorem append_cons_cases {a : UInt8} {q z : Text} (h : x ++ a :: z = p ++ a :: q) (hx : a ∉ x) :
    p = x ∧ z = q ∨ ∃ y, p = x ++ a :: y ∧ z = y ++ a :: q := by
  obtain ⟨w, hp, hz⟩ | ⟨w, hp, hz⟩ := List.append_eq_append_iff.1 h
  · cases w with
    | nil => exact .inl ⟨by simpa using hp, (List.cons.inj hz).2⟩
    | cons b w =>
      obtain rfl := (List.cons.inj hz).1
      exact .inr ⟨w, hp, (List.cons.inj hz).2⟩
  · cases w with
    | nil => exact .inl ⟨by simpa using hp.symm, (List.cons.inj hz).2.symm⟩
    | cons b w =>
      obtain ⟨rfl, -⟩ := List.cons.inj hz
      simp [hp] at hx

theorem append_cons_inj {a : UInt8} {q z : Text} (h : x ++ a :: z = p ++ a :: q) (hx : a ∉ x)
    (hp : a ∉ p) : x = p ∧ z = q := by
  obtain ⟨rfl, hz⟩ | ⟨y, rfl, -⟩ := append_cons_cases h hx
  · exact ⟨rfl, hz⟩
  · simp at hp

theorem exists_delimiters (h : 3 ≤ (indicesOf SOH text).length) :
    ∃ x y z, text = x ++ SOH :: (y ++ SOH :: z) ∧ SOH ∉ x ∧ SOH ∉ y ∧
      (indicesOf SOH text)[1]? = some (x.length + 1 + y.length) := by
  obtain hx | ⟨x, w, rfl, hx⟩ := mem_cases SOH text
  · simp [indicesOf_of_not_mem hx] at h
  obtain hw | ⟨y, z, rfl, hy⟩ := mem_cases SOH w
  · simp [indicesOf_append hx, indicesOf_of_not_mem hw] at h
  refine ⟨x, y, z, rfl, hx, hy, ?_⟩
  rw [indicesOf_append hx, indicesOf_append hy]
  simp
  omega

/-- The fields 8= and 9= come first, so the marker is no earlier than the second delimiter. -/
theorem Cut.marker_after {z value length : Text} {others : List Field}
    (h : Cut (x ++ SOH :: (y ++ SOH :: z)) p ds rest) (hx : SOH ∉ x) (hy : SOH ∉ y)
    (hfields : splitFields (x ++ SOH :: (y ++ SOH :: z)) =
      .ok ((tagBeginString, value) :: (tagBodyLength, length) :: others)) :
    p = x ++ SOH :: y ∨ ∃ p', p = x ++ SOH :: (y ++ SOH :: p') := by
  have heq : x ++ SOH :: (y ++ SOH :: z) =
      p ++ SOH :: (0x31 :: 0x30 :: equals :: (ds ++ rest)) := by
    simp [h.text_eq, marker]
  obtain ⟨rfl, hz⟩ | ⟨w, rfl, hz⟩ := append_cons_cases heq hx
  · -- then a field 10= would be among the first two
    exfalso
    obtain ⟨fs, gs, hfs, hgs, hall⟩ := splitFields_append_ok.1 hfields
    rw [hz] at hgs
    obtain ⟨v, gs', rfl⟩ := splitFields_checksum hgs
    by_cases hp : p = []
    · rw [hp, splitFields_nil] at hfs
      obtain rfl := Except.ok.inj hfs
      simp [tagBeginString, tagChecksum] at hall
    · rw [splitFields_single hx hp] at hfs
      cases hf : parseField p with
      | error e => simp [hf, Except.map] at hfs
      | ok f =>
        simp only [hf, Except.map, Except.ok.injEq] at hfs
        subst hfs
        simp [tagBodyLength, tagChecksum] at hall
  · obtain ⟨rfl, -⟩ | ⟨p', rfl, -⟩ := append_cons_cases hz hy
    · exact .inl rfl
    · exact .inr ⟨p', rfl⟩

/-- What `checkBodyLength` comes to: the marker on the second delimiter is the one case in which
the subtraction goes below zero. -/
theorem checkBodyLength_eq {positions : List ℕ} {i : ℕ} {value length : Text}
    {others : List Field} (hi : positions[1]? = some i) (him : i ≤ m) (hm : m < 2 ^ 63) :
    checkBodyLength checks positions m
        ((tagBeginString, value) :: (tagBodyLength, length) :: others) =
      orErr (.malformedField tagBodyLength) (parseUnsigned (2 ^ 64) length) >>= fun declared =>
        if i = m ∧ checks = true then .panic
        else if declared ≠ m - i then .err (.bodyLengthMismatch declared (m - i))
        else .ok () := by
  simp only [checkBodyLength, hi, orPanic, ok_bind, ne_eq, not_true, if_false, pure_eq]
  congr 1
  funext declared
  by_cases hlt : i < m
  · have hsub : usizeSub checks m (i + 1) = some (m - i - 1) := by
      rw [usizeSub, if_pos (by omega)]
      exact congrArg some (by omega)
    have hadd : usizeAdd checks (m - i - 1) 1 = some (m - i) := by
      rw [usizeAdd, if_pos (by omega)]
      exact congrArg some (by omega)
    have hne : ¬ (i = m ∧ checks = true) := by omega
    simp [hsub, hadd, hne]
  · obtain rfl : i = m := by omega
    have hneg : ¬ i + 1 ≤ i := by omega
    cases checks with
    | true =>
      have hsub : usizeSub true i (i + 1) = none := by
        rw [usizeSub, if_neg hneg]
        rfl
      simp [hsub]
    | false =>
      have hsub : usizeSub false i (i + 1) = some (2 ^ 64 - 1) := by
        rw [usizeSub, if_neg hneg]
        exact congrArg some (by omega)
      have hadd : usizeAdd false (2 ^ 64 - 1) 1 = some 0 := by decide
      simp only [hsub, ok_bind, hadd]
      simp

theorem checkBodyLength_head {positions : List ℕ} {o : Outcome FixParseError Unit}
    (h : checkBodyLength checks positions m fields = o) (ho : ∀ e, o ≠ .err e) :
    ∃ value length others,
      fields = (tagBeginString, value) :: (tagBodyLength, length) :: others := by
  match fields with
  | [] => exact absurd h.symm (ho _)
  | [_] => exact absurd h.symm (ho _)
  | (tag, value) :: (tag', length) :: others =>
    by_cases h8 : tag = tagBeginString
    · by_cases h9 : tag' = tagBodyLength
      · exact ⟨value, length, others, by rw [h8, h9]⟩
      · simp only [checkBodyLength, h8, h9, ne_eq, not_true, not_false_iff, if_true, if_false] at h
        exact absurd h.symm (ho _)
    · simp only [checkBodyLength, h8, ne_eq, not_false_iff, if_true] at h
      exact absurd h.symm (ho _)

/-- The checks made before the fields are looked at, all passed. -/
structure Summed (text p ds rest : Text) : Prop extends Cut text p ds rest where
  utf8 : isUtf8 text = true
  delimiters : 3 ≤ (indicesOf SOH text).length
  whole : startsInside rest = false
  sum : ∃ d, parseUnsigned (2 ^ 32) ds = some d ∧ UInt8.ofNat d = byteSum (p ++ [SOH])

theorem validateAndParseFields_bytes (h : raw.bytes = text) (hutf : isUtf8 text = true)
    (hsoh : 3 ≤ (indicesOf SOH text).length) :
    validateAndParseFields checks raw = do
      let markerPos ← checkSum text
      let fields ← ofExcept (splitFields text)
      checkBodyLength checks (indicesOf SOH text) markerPos fields
      ofExcept (checkRequiredTags fields)
      return fields := by
  have hne : text ≠ [] := by
    rintro rfl
    simp [indicesOf] at hsoh
  simp only [validateAndParseFields, h, hutf, Bool.true_eq_false, if_false, hne, Nat.not_lt.2 hsoh]

theorem validateAndParseFields_err
    (h : ¬ (isUtf8 raw.bytes = true ∧ 3 ≤ (indicesOf SOH raw.bytes).length)) :
    ∃ e, validateAndParseFields checks raw = .err e := by
  rw [validateAndParseFields]
  by_cases hutf : isUtf8 raw.bytes = false
  · exact ⟨_, if_pos hutf⟩
  have hsoh : (indicesOf SOH raw.bytes).length < 3 := by
    simp only [Bool.not_eq_false] at hutf
    simp only [hutf, true_and] at h
    omega
  by_cases hne : raw.bytes = []
  · exact ⟨_, by rw [if_neg hutf, if_pos hne]⟩
  · exact ⟨_, by rw [if_neg hutf, if_neg hne, if_pos hsoh]⟩

theorem delimited_of_ne_err (h : ∀ e, validateAndParseFields checks raw ≠ .err e) :
    isUtf8 raw.bytes = true ∧ 3 ≤ (indicesOf SOH raw.bytes).length := by
  by_contra hpre
  obtain ⟨e, he⟩ := validateAndParseFields_err hpre
  exact h e he

theorem validateAndParseFields_summed (h : Summed raw.bytes p ds rest) :
    validateAndParseFields checks raw = do
      let fields ← ofExcept (splitFields raw.bytes)
      checkBodyLength checks (indicesOf SOH raw.bytes) p.length fields
      ofExcept (checkRequiredTags fields)
      return fields := by
  obtain ⟨d, hd, hsum⟩ := h.sum
  rw [validateAndParseFields_bytes rfl h.utf8 h.delimiters, (checkSum_eq_ok h.utf8).2
    ⟨p, ds, rest, d, h.toCut, rfl, h.whole, hd, hsum⟩, ok_bind]

/-- What validation accepts. -/
structure Accepted (checks : Bool) (text : Text) (fields : List Field) (p ds rest : Text) : Prop
    extends Summed text p ds rest where
  fields_eq : splitFields text = .ok fields
  bodyLength : checkBodyLength checks (indicesOf SOH text) p.length fields = .ok ()
  required : checkRequiredTags fields = .ok ()

theorem validateAndParseFields_eq_ok :
    validateAndParseFields checks raw = .ok fields ↔
      ∃ p ds rest, Accepted checks raw.bytes fields p ds rest := by
  constructor
  · intro h
    have hne : ∀ e, validateAndParseFields checks raw ≠ .err e := by
      intro e he
      rw [h] at he
      cases he
    obtain ⟨hutf, hsoh⟩ := delimited_of_ne_err hne
    rw [validateAndParseFields_bytes rfl hutf hsoh] at h
    simp only [bind_eq_ok, pure_eq, Outcome.ok.injEq] at h
    obtain ⟨m, hm, fs, hfs, ⟨⟩, hlen, ⟨⟩, hreq, rfl⟩ := h
    obtain ⟨p, ds, rest, d, hcut, rfl, hwhole, hd, hsum⟩ := (checkSum_eq_ok hutf).1 hm
    exact ⟨p, ds, rest, ⟨⟨hcut, hutf, hsoh, hwhole, d, hd, hsum⟩, ofExcept_eq_ok.1 hfs, hlen,
      ofExcept_eq_ok.1 hreq⟩⟩
  · rintro ⟨p, ds, rest, h⟩
    rw [validateAndParseFields_summed h.toSummed, h.fields_eq]
    simp [Outcome.ofExcept, h.bodyLength, h.required]

theorem parseZeroCopy_eq_ok {zs : List FixField} :
    parseZeroCopy checks raw = .ok zs ↔ ∃ fields,
      validateAndParseFields checks raw = .ok fields ∧ fields.map (fun f => ⟨f.1, f.2⟩) = zs := by
  simp [parseZeroCopy, bind_eq_ok]

theorem parseNaive_eq_ok {map : FieldMap} :
    parseNaive checks raw = .ok map ↔ ∃ fields,
      validateAndParseFields checks raw = .ok fields ∧ collect fields = map := by
  simp [parseNaive, bind_eq_ok]

/-- An accepted text in its parts. -/
theorem Accepted.head (h : Accepted checks text fields p ds rest) (hlen : text.length < 2 ^ 63) :
    ∃ x y z value length others declared, text = x ++ SOH :: (y ++ SOH :: z) ∧ SOH ∉ x ∧ SOH ∉ y ∧
      fields = (tagBeginString, value) :: (tagBodyLength, length) :: others ∧
      parseUnsigned (2 ^ 64) length = some declared ∧
      x.length + 1 + y.length ≤ p.length ∧ declared = p.length - (x.length + 1 + y.length) := by
  obtain ⟨x, y, z, rfl, hx, hy, hi⟩ := exists_delimiters h.delimiters
  obtain ⟨value, length, others, rfl⟩ := checkBodyLength_head h.bodyLength (by simp)
  have hle : x.length + 1 + y.length ≤ p.length := by
    obtain rfl | ⟨p', rfl⟩ := h.marker_after hx hy h.fields_eq
    · simp
      omega
    · simp
      omega
  have hm : p.length < 2 ^ 63 := by
    have := h.length_le
    omega
  have hbody := h.bodyLength
  rw [checkBodyLength_eq hi hle hm, bind_eq_ok] at hbody
  obtain ⟨declared, hdeclared, hbody⟩ := hbody
  refine ⟨x, y, z, value, length, others, declared, rfl, hx, hy, rfl, orErr_eq_ok.1 hdeclared, hle,
    ?_⟩
  by_contra hne
  by_cases hp : x.length + 1 + y.length = p.length ∧ checks = true
  · simp [hp] at hbody
  · simp [if_neg hp, hne] at hbody

end Velo.Fix
