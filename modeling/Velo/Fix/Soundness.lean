import Velo.Fix.Validation

/-! What the checksum and the body length of an accepted FIX message say of it. -/
namespace Velo.Fix
open Outcome Utf8

variable {checks : Bool} {raw : Slice} {text p ds rest x y z : Text} {fields : List Field}

theorem byteSum_toNat (l : Text) : (byteSum l).toNat = (l.map UInt8.toNat).sum % 256 := by
  have hfold : ∀ a : UInt8, (l.foldl (· + ·) a).toNat =
      (a.toNat + (l.map UInt8.toNat).sum) % 256 := by
    induction l with
    | nil =>
      intro a
      have := a.toNat_lt
      simp
    | cons b l ih =>
      intro a
      rw [List.foldl_cons, ih, UInt8.toNat_add, List.map_cons, List.sum_cons]
      omega
  rw [byteSum, hfold 0]
  simp

theorem soh_not_mem_digits (h : ds.all isDigit = true) : SOH ∉ ds := by
  intro hmem
  have hdigit := List.all_eq_true.1 h SOH hmem
  exact absurd hdigit (by decide)

theorem cut_of_not_infix (hlen : ds.length = 3) (h : ¬ marker <:+: ds ++ rest) :
    Cut (p ++ marker ++ ds ++ rest) p ds rest where
  text_eq := rfl
  three := hlen
  last := by
    have hnone : rfind? marker (0x31 :: 0x30 :: equals :: (ds ++ rest)) = none := by
      rw [rfind?_eq_none marker_ne_nil]
      simpa [List.infix_cons_iff, marker, SOH, equals] using h
    have hzero : rfind? marker (SOH :: 0x31 :: 0x30 :: equals :: (ds ++ rest)) = some 0 := by
      rw [rfind?, hnone]
      exact if_pos ⟨ds ++ rest, rfl⟩
    have hlast := rfind?_append (l := p) hzero
    simpa [marker] using hlast

theorem cut_trailer (hlen : ds.length = 3) : Cut (p ++ marker ++ ds ++ [SOH]) p ds [SOH] := by
  refine cut_of_not_infix hlen ?_
  obtain ⟨a, b, c, rfl⟩ := List.length_eq_three.1 hlen
  simp [List.infix_cons_iff, marker, SOH, equals]

theorem splitFields_trailer (hds : SOH ∉ ds) :
    splitFields (0x31 :: 0x30 :: equals :: ds ++ [SOH]) = .ok [(tagChecksum, ds)] := by
  refine splitFields_append_ok.2 ⟨[(tagChecksum, ds)], [], ?_, splitFields_nil, rfl⟩
  rw [splitFields_single (by simpa [SOH, equals] using hds) (by simp), parseField_checksum]
  rfl

theorem splitFields_closed :
    splitFields (p ++ [SOH]) = .ok fields ↔ splitFields p = .ok fields := by
  constructor
  · intro h
    obtain ⟨fs, gs, hfs, hgs, rfl⟩ := splitFields_append_ok.1 h
    rw [splitFields_nil] at hgs
    obtain rfl : [] = gs := Except.ok.inj hgs
    rwa [List.append_nil]
  · intro h
    exact splitFields_append_ok.2 ⟨fields, [], h, splitFields_nil, (List.append_nil _).symm⟩

/-- The text ends in a checksum field of three digits; these spell the sum of the bytes before the
field, and it comes last in what is returned. -/
def ChecksumSound (text : Text) (returned : List Field → Prop) : Prop :=
  ∃ summed digits others,
    text = summed ++ [0x31, 0x30, equals] ++ digits ++ [SOH] ∧ summed.getLast? = some SOH ∧
    digits.length = 3 ∧ digits.all isDigit = true ∧
    number digits = (summed.map UInt8.toNat).sum % 256 ∧
    splitFields summed = .ok others ∧ returned (others ++ [(tagChecksum, digits)])

/-- After the last marker there are three digits that spell a byte, an SOH and no more. -/
def PlainTrailer (text : Text) : Prop :=
  ∃ p digits, Cut text p digits [SOH] ∧ digits.all isDigit = true ∧ number digits < 256

theorem ChecksumSound.plainTrailer {returned : List Field → Prop}
    (h : ChecksumSound text returned) : PlainTrailer text := by
  obtain ⟨summed, digits, others, rfl, hlast, hlen, hdigits, hsum, -, -⟩ := h
  obtain ⟨p, rfl⟩ := List.getLast?_eq_some_iff.1 hlast
  refine ⟨p, digits, ?_, hdigits, ?_⟩
  · have heq : p ++ [SOH] ++ [0x31, 0x30, equals] ++ digits ++ [SOH] =
        p ++ marker ++ digits ++ [SOH] := by
      simp [marker]
    rw [heq]
    exact cut_trailer hlen
  · rw [hsum]
    omega

theorem Accepted.checksumSound (h : Accepted checks text fields p ds rest)
    (ht : PlainTrailer text) {returned : List Field → Prop} (hret : returned fields) :
    ChecksumSound text returned := by
  obtain ⟨p', digits, hcut, hdigits, hsmall⟩ := ht
  obtain ⟨rfl, rfl, rfl⟩ := h.unique hcut
  obtain ⟨d, hd, hsum⟩ := h.sum
  have hne : ds ≠ [] := by
    rintro rfl
    simpa using h.three
  have hnum : d = number ds := by
    rw [parseUnsigned_digits hne hdigits (by omega)] at hd
    exact (Option.some.inj hd).symm
  have hfields :
      splitFields (p ++ SOH :: (0x31 :: 0x30 :: equals :: ds ++ [SOH])) = .ok fields := by
    rw [← h.fields_eq, h.text_eq]
    simp [marker]
  obtain ⟨fs, gs, hfs, hgs, rfl⟩ := splitFields_append_ok.1 hfields
  rw [splitFields_trailer (soh_not_mem_digits hdigits)] at hgs
  obtain rfl := Except.ok.inj hgs
  refine ⟨p ++ [SOH], ds, fs, ?_, by simp, h.three, hdigits, ?_, splitFields_closed.2 hfs, hret⟩
  · simp [h.text_eq, marker]
  · rw [← byteSum_toNat, ← hsum, hnum]
    exact (toNat_ofNat hsmall).symm

theorem checksumSound_iff {returned : List Field → Prop}
    (h : validateAndParseFields checks raw = .ok fields) (hret : returned fields) :
    ChecksumSound raw.bytes returned ↔ PlainTrailer raw.bytes := by
  obtain ⟨p, ds, rest, h⟩ := validateAndParseFields_eq_ok.1 h
  exact ⟨ChecksumSound.plainTrailer, fun ht => h.checksumSound ht hret⟩

/-- What either parser accepts ends in a checksum field as the sum requires exactly if its last
marker is followed by three digits of a byte and the last SOH. -/
theorem accepted_checksumSound_iff (checks : Bool) (raw : Slice) :
    (∀ zs, parseZeroCopy checks raw = .ok zs →
      (ChecksumSound raw.bytes (fun fs => fs.map (fun f => ⟨f.1, f.2⟩) = zs) ↔
        PlainTrailer raw.bytes)) ∧
    ∀ map, parseNaive checks raw = .ok map →
      (ChecksumSound raw.bytes (fun fs => collect fs = map) ↔ PlainTrailer raw.bytes) := by
  constructor
  · intro zs h
    obtain ⟨fields, hok, hzs⟩ := parseZeroCopy_eq_ok.1 h
    exact checksumSound_iff hok hzs
  · intro map h
    obtain ⟨fields, hok, hmap⟩ := parseNaive_eq_ok.1 h
    exact checksumSound_iff hok hmap

theorem accepted_checksumSound_at_order :
    ChecksumSound (printed "8=F|9=30|35=D|11=A|55=B|54=1|38=1|40=1|10=208|") fun fs =>
      fs.map (fun f => (⟨f.1, f.2⟩ : FixField)) =
        [⟨8, printed "F"⟩, ⟨9, printed "30"⟩, ⟨35, printed "D"⟩, ⟨11, printed "A"⟩,
          ⟨55, printed "B"⟩, ⟨54, printed "1"⟩, ⟨38, printed "1"⟩, ⟨40, printed "1"⟩,
          ⟨10, printed "208"⟩] := by
  have hcut : Cut (printed "8=F|9=30|35=D|11=A|55=B|54=1|38=1|40=1|10=208|")
      (printed "8=F|9=30|35=D|11=A|55=B|54=1|38=1|40=1") (printed "208") [SOH] :=
    ⟨by decide, by decide, by decide⟩
  exact ((accepted_checksumSound_iff true ⟨_, by decide⟩).1 _ (by decide +kernel)).2
    ⟨_, _, hcut, by decide, by decide⟩

/-- A field after the checksum is accepted, outside the sum. -/
def trailingField : Slice :=
  ⟨printed "8=F|9=30|35=D|11=A|55=B|54=1|38=1|40=1|10=208|58=x|", by decide⟩

theorem accepted_not_checksumSound :
    (∃ zs, parseZeroCopy true trailingField = .ok zs ∧
      ¬ ChecksumSound trailingField.bytes fun fs => fs.map (fun f => ⟨f.1, f.2⟩) = zs) ∧
    ∃ map, parseNaive true trailingField = .ok map ∧
      ¬ ChecksumSound trailingField.bytes fun fs => collect fs = map := by
  have hcut : Cut trailingField.bytes (printed "8=F|9=30|35=D|11=A|55=B|54=1|38=1|40=1")
      (printed "208") (printed "|58=x|") :=
    ⟨by decide, by decide, by decide⟩
  have hplain : ¬ PlainTrailer trailingField.bytes := by
    rintro ⟨p, digits, hcut', -⟩
    exact absurd (hcut.unique hcut').2.2 (by decide)
  obtain ⟨fields, hok⟩ : ∃ fields, validateAndParseFields true trailingField = .ok fields :=
    exists_of_isOk (by decide +kernel)
  refine ⟨⟨_, parseZeroCopy_eq_ok.2 ⟨fields, hok, rfl⟩, fun h => ?_⟩,
    ⟨_, parseNaive_eq_ok.2 ⟨fields, hok, rfl⟩, fun h => ?_⟩⟩
  · exact hplain h.plainTrailer
  · exact hplain h.plainTrailer

/-- What follows the SOH that ends the first field. -/
def afterField (text : Text) : Text :=
  ((text.dropWhile (· = SOH)).dropWhile (· ≠ SOH)).drop 1

/-- The second field is 9= and declares the number of bytes from after its SOH to the SOH of the
last marker. -/
def BodyLengthSound (text : Text) : Prop :=
  ∃ first length others declared m,
    splitFields text = .ok (first :: (tagBodyLength, length) :: others) ∧
    parseUnsigned (2 ^ 64) length = some declared ∧ rfind? marker text = some m ∧
    declared + (text.length - (afterField (afterField text)).length) = m + 1

/-- Each of the first two SOHs ends a field. -/
def PlainHead (text : Text) : Prop :=
  ∃ x y z, text = x ++ SOH :: (y ++ SOH :: z) ∧ SOH ∉ x ∧ SOH ∉ y ∧ x ≠ [] ∧ y ≠ []

theorem afterField_append (hx : SOH ∉ x) (hne : x ≠ []) : afterField (x ++ SOH :: y) = y := by
  have hall : ∀ b ∈ x, b ≠ SOH := fun b hb heq => hx (heq ▸ hb)
  have hskip : (x ++ SOH :: y).dropWhile (· = SOH) = x ++ SOH :: y := by
    cases x with
    | nil => exact absurd rfl hne
    | cons b x => simp [hall b (by simp)]
  have hfield : (x ++ SOH :: y).dropWhile (· ≠ SOH) = SOH :: y := by
    rw [List.dropWhile_append_of_pos (by simpa using hall)]
    simp
  rw [afterField, hskip, hfield]
  rfl

theorem afterField_soh (x : Text) : afterField (SOH :: x) = afterField x := by
  simp [afterField]

theorem length_afterField_lt (hx : x ≠ []) : (afterField x).length < x.length := by
  have hskip := (List.dropWhile_suffix (l := x) (· = SOH)).length_le
  have hpos : 0 < x.length := List.length_pos_iff.2 hx
  rw [afterField, List.length_drop]
  cases h : x.dropWhile (· = SOH) with
  | nil =>
    simp
    omega
  | cons b y =>
    have hfield := (List.dropWhile_suffix (l := b :: y) (· ≠ SOH)).length_le
    rw [h] at hskip
    simp only [List.length_cons] at hskip hfield ⊢
    omega

theorem length_afterField_le (x : Text) : (afterField x).length ≤ x.length := by
  by_cases hx : x = []
  · simp [hx, afterField]
  · exact Nat.le_of_lt (length_afterField_lt hx)

/-- A skipped delimiter puts the body later than the parser does. -/
theorem length_afterField_skipped (hx : SOH ∉ x) (hy : SOH ∉ y) (hz : z ≠ [])
    (hskip : x = [] ∨ y = []) :
    (afterField (afterField (x ++ SOH :: (y ++ SOH :: z)))).length < z.length := by
  have hlt := length_afterField_lt hz
  have hle := length_afterField_le (afterField z)
  by_cases hx' : x = []
  · subst hx'
    rw [List.nil_append, afterField_soh]
    by_cases hy' : y = []
    · subst hy'
      rw [List.nil_append, afterField_soh]
      omega
    · rwa [afterField_append hy hy']
  · obtain rfl : y = [] := hskip.resolve_left hx'
    rw [afterField_append hx hx', List.nil_append, afterField_soh]
    exact hlt

theorem Accepted.bodyLengthSound_iff (h : Accepted checks text fields p ds rest)
    (hlen : text.length < 2 ^ 63) : BodyLengthSound text ↔ PlainHead text := by
  obtain ⟨x, y, z, value, length, others, declared, rfl, hx, hy, rfl, hparse, hle, hdeclared⟩ :=
    h.head hlen
  have hz : z ≠ [] := by
    rintro rfl
    have htext := congrArg List.length h.text_eq
    simp [marker, h.three] at htext
    omega
  have hstart : BodyLengthSound (x ++ SOH :: (y ++ SOH :: z)) ↔
      (afterField (afterField (x ++ SOH :: (y ++ SOH :: z)))).length = z.length := by
    have htotal := length_afterField_le (afterField (x ++ SOH :: (y ++ SOH :: z)))
    have htotal' := length_afterField_le (x ++ SOH :: (y ++ SOH :: z))
    simp only [List.length_append, List.length_cons] at htotal'
    constructor
    · rintro ⟨first, length', others', declared', m, hfields, hparse', hm, hcount⟩
      rw [h.fields_eq] at hfields
      simp only [Except.ok.injEq, List.cons.injEq, Prod.mk.injEq, true_and] at hfields
      obtain ⟨-, rfl, -⟩ := hfields
      obtain rfl := Option.some.inj (hparse.symm.trans hparse')
      obtain rfl := Option.some.inj (h.last.symm.trans hm)
      simp only [List.length_append, List.length_cons] at hcount
      omega
    · intro heq
      refine ⟨_, _, _, _, _, h.fields_eq, hparse, h.last, ?_⟩
      simp only [List.length_append, List.length_cons]
      omega
  rw [hstart]
  constructor
  · intro heq
    refine ⟨x, y, z, rfl, hx, hy, ?_⟩
    by_contra hskip
    have hlt := length_afterField_skipped hx hy hz (by grind)
    omega
  · rintro ⟨x', y', z', heq, hx', hy', hne, hne'⟩
    obtain ⟨rfl, hrest⟩ := append_cons_inj heq hx hx'
    obtain ⟨rfl, rfl⟩ := append_cons_inj hrest hy hy'
    rw [afterField_append hx hne, afterField_append hy hne']

/-- Of a text either parser accepts the declared length is the length of the body exactly if each
of the first two SOHs ends a field. -/
theorem accepted_bodyLengthSound_iff (checks : Bool) (raw : Slice)
    (h : (∃ zs, parseZeroCopy checks raw = .ok zs) ∨ ∃ map, parseNaive checks raw = .ok map) :
    BodyLengthSound raw.bytes ↔ PlainHead raw.bytes := by
  have hok : ∃ fields, validateAndParseFields checks raw = .ok fields := by
    obtain ⟨zs, h⟩ | ⟨map, h⟩ := h
    · obtain ⟨fields, hok, -⟩ := parseZeroCopy_eq_ok.1 h
      exact ⟨fields, hok⟩
    · obtain ⟨fields, hok, -⟩ := parseNaive_eq_ok.1 h
      exact ⟨fields, hok⟩
  obtain ⟨fields, hok⟩ := hok
  obtain ⟨p, ds, rest, h⟩ := validateAndParseFields_eq_ok.1 hok
  exact h.bodyLengthSound_iff raw.small

theorem accepted_bodyLengthSound_at_order :
    BodyLengthSound (printed "8=F|9=30|35=D|11=A|55=B|54=1|38=1|40=1|10=208|") := by
  have hhead : PlainHead (printed "8=F|9=30|35=D|11=A|55=B|54=1|38=1|40=1|10=208|") :=
    ⟨printed "8=F", printed "9=30", printed "35=D|11=A|55=B|54=1|38=1|40=1|10=208|", by decide,
      by decide, by decide, by decide, by decide⟩
  exact (accepted_bodyLengthSound_iff true ⟨_, by decide⟩
    (.inl (exists_of_isOk (by decide +kernel)))).2 hhead

/-- With an empty field before it the field 9= counts itself to the body. -/
def emptyField : Slice :=
  ⟨printed "8=F||9=35|35=D|11=A|55=B|54=1|38=1|40=1|10=214|", by decide⟩

theorem accepted_not_bodyLengthSound :
    (∃ zs, parseZeroCopy true emptyField = .ok zs) ∧ (∃ map, parseNaive true emptyField = .ok map) ∧
      ¬ BodyLengthSound emptyField.bytes := by
  obtain ⟨fields, hok⟩ : ∃ fields, validateAndParseFields true emptyField = .ok fields :=
    exists_of_isOk (by decide +kernel)
  obtain ⟨p, ds, rest, h⟩ := validateAndParseFields_eq_ok.1 hok
  refine ⟨⟨_, parseZeroCopy_eq_ok.2 ⟨fields, hok, rfl⟩⟩, ⟨_, parseNaive_eq_ok.2 ⟨fields, hok, rfl⟩⟩,
    ?_⟩
  rw [h.bodyLengthSound_iff emptyField.small]
  rintro ⟨x, y, z, heq, hx, hy, -, hne⟩
  have hsplit : emptyField.bytes = printed "8=F" ++ SOH :: ([] ++ SOH ::
      printed "9=35|35=D|11=A|55=B|54=1|38=1|40=1|10=214|") := by
    decide
  obtain ⟨-, hrest⟩ := append_cons_inj (heq.symm.trans hsplit) hx (by decide)
  exact hne (append_cons_inj hrest hy (by simp)).1

end Velo.Fix
