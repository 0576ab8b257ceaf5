import Velo.Fix.Completeness

/-! One byte of a FIX message replaced, position by position. -/
namespace Velo.Fix
open Outcome Utf8

variable {checks : Bool} {raw : Slice} {version p ds rest text' r w : Text} {fs gs : List Field}
  {i k : ℕ} {b : UInt8}

def Slice.corrupt (raw : Slice) (i : ℕ) (b : UInt8) : Slice where
  bytes := raw.bytes.set i b
  small := by
    rw [List.length_set]
    exact raw.small

/-- The last SOH gives way to an ASCII byte, or a leading zero of the checksum to a plus sign. -/
def Undetected (text : Text) (i : ℕ) (b : UInt8) : Prop :=
  i + 1 = text.length ∧ b.toNat < 0x80 ∨
    i + 4 = text.length ∧ text[i]? = some 0x30 ∧ b = 0x2B

theorem byteSum_append (l m : Text) : byteSum (l ++ m) = byteSum l + byteSum m := by
  have hfold : ∀ (m : Text) (a : UInt8), m.foldl (· + ·) a = a + m.foldl (· + ·) 0 := by
    intro m
    induction m with
    | nil => simp
    | cons b m ih =>
      intro a
      rw [List.foldl_cons, ih, List.foldl_cons, ih (0 + b), UInt8.zero_add, UInt8.add_assoc]
  rw [byteSum, byteSum, byteSum, List.foldl_append, hfold]

theorem byteSum_set (hi : i < p.length) (hb : b ≠ p[i]) : byteSum (p.set i b) ≠ byteSum p := by
  have hp : p = p.take i ++ p[i] :: p.drop (i + 1) := by simp
  have hset : p.set i b = p.take i ++ b :: p.drop (i + 1) := by
    rw [List.set_eq_take_append_cons_drop, if_pos hi]
  have hcons : ∀ c l, byteSum (c :: l) = c + byteSum l := by
    intro c l
    have hone := byteSum_append [c] l
    simpa [byteSum] using hone
  intro h
  rw [hset] at h
  nth_rewrite 3 [hp] at h
  rw [byteSum_append, byteSum_append, hcons, hcons] at h
  exact hb ((UInt8.add_left_inj _).1 ((UInt8.add_right_inj _).1 h))

theorem rejected_of_sum (h : Cut raw.bytes p ds rest) (hwhole : startsInside rest = false)
    (hsum : ∀ d, parseUnsigned (2 ^ 32) ds = some d → UInt8.ofNat d ≠ byteSum (p ++ [SOH])) :
    ∃ e, validateAndParseFields checks raw = .err e := by
  by_cases hpre : isUtf8 raw.bytes = true ∧ 3 ≤ (indicesOf SOH raw.bytes).length
  · rw [validateAndParseFields_bytes rfl hpre.1 hpre.2, checkSum_cut h hpre.1, hwhole]
    cases hd : parseUnsigned (2 ^ 32) ds with
    | none => exact ⟨_, rfl⟩
    | some d =>
      simp only [orErr, ok_bind, if_pos (hsum d hd)]
      exact ⟨_, rfl⟩
  · exact validateAndParseFields_err hpre

theorem rejected_of_no_marker (h : ¬ marker <:+: raw.bytes) :
    ∃ e, validateAndParseFields checks raw = .err e := by
  by_cases hpre : isUtf8 raw.bytes = true ∧ 3 ≤ (indicesOf SOH raw.bytes).length
  · rw [validateAndParseFields_bytes rfl hpre.1 hpre.2, checkSum,
      (rfind?_eq_none marker_ne_nil).2 h]
    exact ⟨_, rfl⟩
  · exact validateAndParseFields_err hpre

theorem not_prefix_tag {tag : UInt32} (h : tag ≠ tagChecksum) :
    ¬ [0x31, 0x30, equals] <+: decimal tag.toNat ++ equals :: w := by
  rintro ⟨t, ht⟩
  have hdecimal : [0x31, 0x30] = decimal tag.toNat := by
    have heq : [0x31, 0x30] ++ equals :: t = decimal tag.toNat ++ equals :: w := ht
    exact (append_cons_inj heq (by decide) (not_mem_decimal (by decide) _)).1
  have hnum := number_decimal tag.toNat
  rw [← hdecimal] at hnum
  exact h (UInt32.toNat_inj.1 hnum.symm)

/-- Fields with other tags hold no marker. -/
theorem marker_infix_bodyText (hgs : ∀ g ∈ gs, SOH ∉ g.2 ∧ g.1 ≠ tagChecksum) :
    marker <:+: SOH :: (bodyText gs ++ r) ↔ marker <:+: SOH :: r := by
  induction gs with
  | nil => rfl
  | cons g gs ih =>
    obtain ⟨hvalue, htag⟩ := hgs g (by simp)
    have hsoh : SOH ∉ decimal g.1.toNat ++ equals :: g.2 := by
      simpa using ⟨not_mem_decimal (by decide) _, by decide, hvalue⟩
    have htext : bodyText (g :: gs) ++ r =
        (decimal g.1.toNat ++ equals :: g.2) ++ SOH :: (bodyText gs ++ r) := by
      simp [bodyText_cons, fieldText]
    have hhead : ¬ [0x31, 0x30, equals] <+:
        (decimal g.1.toNat ++ equals :: g.2) ++ SOH :: (bodyText gs ++ r) := by
      rw [List.append_assoc]
      exact not_prefix_tag htag
    have hsplit := infix_append_cons (t := [0x31, 0x30, equals]) (y := bodyText gs ++ r) hsoh
    have hjoin := infix_append_cons (x := []) (t := [0x31, 0x30, equals]) (y := bodyText gs ++ r)
      (a := SOH) (by simp)
    rw [htext, List.infix_cons_iff, marker, List.cons_prefix_cons]
    rw [List.nil_append] at hjoin
    simp only [true_and, hhead, false_or]
    rw [hsplit, ← hjoin]
    exact ih fun g hg => hgs g (by simp [hg])

theorem parseUnsigned_three {a b c : UInt8} {bound d : ℕ}
    (h : parseUnsigned bound [a, b, c] = some d) :
    isDigit b = true ∧ isDigit c = true ∧
      (a = 0x2B ∧ d = 10 * (b.toNat - 0x30) + (c.toNat - 0x30) ∨
        isDigit a = true ∧
          d = 100 * (a.toNat - 0x30) + 10 * (b.toNat - 0x30) + (c.toNat - 0x30)) := by
  by_cases ha : a = 0x2B
  · subst ha
    simp [parseUnsigned, number] at h
    grind
  · simp [parseUnsigned, number, ha] at h
    grind

/-- No digit of three can change without the number changing modulo 256, except that a plus sign
reads as a leading zero. -/
theorem parse_changed {d1 d2 d3 : UInt8} {d : ℕ} (hd1 : isDigit d1 = true) (hd2 : isDigit d2 = true)
    (hd3 : isDigit d3 = true) (hk : k < [d1, d2, d3].length) (hb : b ≠ [d1, d2, d3][k])
    (hplus : ¬ (k = 0 ∧ d1 = 0x30 ∧ b = 0x2B))
    (h : parseUnsigned (2 ^ 32) ([d1, d2, d3].set k b) = some d) :
    d % 256 ≠ number [d1, d2, d3] % 256 := by
  simp only [isDigit, decide_eq_true_eq] at hd1 hd2 hd3
  have hnum : number [d1, d2, d3] =
      100 * (d1.toNat - 0x30) + 10 * (d2.toNat - 0x30) + (d3.toNat - 0x30) := by
    simp [number]
    omega
  rw [hnum]
  have hk' : k = 0 ∨ k = 1 ∨ k = 2 := by
    simp at hk
    omega
  obtain rfl | rfl | rfl := hk'
  · have hne : b.toNat ≠ d1.toNat := fun heq => hb (UInt8.toNat_inj.1 heq)
    obtain ⟨-, -, ⟨rfl, hd⟩ | ⟨hdigit, hd⟩⟩ := parseUnsigned_three h
    · have hzero : d1.toNat ≠ 0x30 := fun heq => hplus ⟨rfl, UInt8.toNat_inj.1 heq, rfl⟩
      omega
    · simp only [isDigit, decide_eq_true_eq] at hdigit
      omega
  · have hne : b.toNat ≠ d2.toNat := fun heq => hb (UInt8.toNat_inj.1 heq)
    obtain ⟨hdigit, -, ⟨rfl, -⟩ | ⟨-, hd⟩⟩ := parseUnsigned_three h
    · exact absurd hd1 (by decide)
    · simp only [isDigit, decide_eq_true_eq] at hdigit
      omega
  · have hne : b.toNat ≠ d3.toNat := fun heq => hb (UInt8.toNat_inj.1 heq)
    obtain ⟨-, hdigit, ⟨rfl, -⟩ | ⟨-, hd⟩⟩ := parseUnsigned_three h
    · exact absurd hd1 (by decide)
    · simp only [isDigit, decide_eq_true_eq] at hdigit
      omega

/-- A text of fields with the checksum, and only it, as its last one. -/
structure Sealed (text p ds : Text) (gs : List Field) : Prop where
  text_eq : text = p ++ (SOH :: 0x31 :: 0x30 :: equals :: ds ++ [SOH])
  three : ds.length = 3
  digits : ds.all isDigit = true
  sum : number ds = (byteSum (p ++ [SOH])).toNat
  closed : p ++ [SOH] = bodyText gs
  fields : ∀ g ∈ gs, SOH ∉ g.2 ∧ g.1 ≠ tagChecksum

theorem Sealed.parse (h : Sealed raw.bytes p ds gs) {d : ℕ}
    (hd : parseUnsigned (2 ^ 32) ds = some d) : UInt8.ofNat d = byteSum (p ++ [SOH]) := by
  have hne : ds ≠ [] := by
    rintro rfl
    simpa using h.three
  have hlt := (byteSum (p ++ [SOH])).toNat_lt
  rw [parseUnsigned_digits hne h.digits (by rw [h.sum]; omega), h.sum] at hd
  rw [← Option.some.inj hd, UInt8.ofNat_toNat]

theorem Sealed.rejected_front (h : Sealed raw.bytes p ds gs) (hi : i < p.length) (hb : b ≠ p[i]) :
    ∃ e, validateAndParseFields checks (raw.corrupt i b) = .err e := by
  have hbytes : (raw.corrupt i b).bytes = p.set i b ++ marker ++ ds ++ [SOH] := by
    simp [Slice.corrupt, h.text_eq, List.set_append_left _ _ hi, marker]
  have hcut : Cut (raw.corrupt i b).bytes (p.set i b) ds [SOH] := by
    rw [hbytes]
    exact cut_trailer h.three
  refine rejected_of_sum hcut (by decide) fun d hd => ?_
  rw [h.parse hd, byteSum_append, byteSum_append]
  intro heq
  exact byteSum_set hi hb ((UInt8.add_left_inj _).1 heq).symm

theorem no_marker_after (hp : p ++ [SOH] = bodyText gs)
    (hgs : ∀ g ∈ gs, SOH ∉ g.2 ∧ g.1 ≠ tagChecksum) (hhead : ¬ [0x31, 0x30, equals] <+: w)
    (hrest : ¬ marker <:+: w) : ¬ marker <:+: p ++ SOH :: w := by
  intro h
  have htext : p ++ SOH :: w = bodyText gs ++ w := by simp [← hp]
  rw [htext] at h
  have hin := (marker_infix_bodyText hgs).1 (h.trans (List.suffix_cons SOH _).isInfix)
  obtain h | h := List.infix_cons_iff.1 hin
  · exact hhead (List.cons_prefix_cons.1 h).2
  · exact hrest h

/-- The delimiter of the marker itself. -/
theorem no_marker_at (hp : p ++ [SOH] = bodyText gs)
    (hgs : ∀ g ∈ gs, SOH ∉ g.2 ∧ g.1 ≠ tagChecksum) (hb : b ≠ SOH) (hw : SOH ∉ w) :
    ¬ marker <:+: p ++ b :: (w ++ [SOH]) := by
  intro h
  obtain rfl | ⟨gs', g, rfl⟩ := List.eq_nil_or_concat gs
  · simp [bodyText] at hp
  obtain ⟨hvalue, htag⟩ := hgs g (by simp)
  have hfront : p = bodyText gs' ++ (decimal g.1.toNat ++ equals :: g.2) := by
    have hclosed : p ++ [SOH] = bodyText gs' ++ (decimal g.1.toNat ++ equals :: g.2) ++ [SOH] := by
      simp [hp, bodyText, fieldText]
    exact List.append_cancel_right hclosed
  have htext : p ++ b :: (w ++ [SOH]) =
      bodyText gs' ++ ((decimal g.1.toNat ++ equals :: (g.2 ++ b :: w)) ++ SOH :: []) := by
    simp [hfront]
  have hsoh : SOH ∉ decimal g.1.toNat ++ equals :: (g.2 ++ b :: w) := by
    simpa using ⟨not_mem_decimal (by decide) _, by decide, hvalue, Ne.symm hb, hw⟩
  rw [htext] at h
  have hin := (marker_infix_bodyText fun g hg => hgs g (by simp [hg])).1
    (h.trans (List.suffix_cons SOH _).isInfix)
  obtain h | h := List.infix_cons_iff.1 hin
  · have hhead := (List.cons_prefix_cons.1 h).2
    rw [List.append_assoc] at hhead
    exact not_prefix_tag htag hhead
  · obtain h | h := (infix_append_cons hsoh).1 h
    · simp at h
    · simp at h

/-- A byte of the marker. -/
theorem Sealed.rejected_marker (h : Sealed raw.bytes p ds gs) (hk : k < 4)
    (hb : b ≠ marker[k]) :
    ∃ e, validateAndParseFields checks (raw.corrupt (p.length + k) b) = .err e := by
  refine rejected_of_no_marker ?_
  have hbytes : (raw.corrupt (p.length + k) b).bytes =
      p ++ (SOH :: 0x31 :: 0x30 :: equals :: ds ++ [SOH]).set k b := by
    simp [Slice.corrupt, h.text_eq, List.set_append_right]
  have hsoh := soh_not_mem_digits h.digits
  obtain ⟨a, c, d, hds⟩ := List.length_eq_three.1 h.three
  rw [hbytes]
  obtain rfl | rfl | rfl | rfl : k = 0 ∨ k = 1 ∨ k = 2 ∨ k = 3 := by omega
  · exact no_marker_at h.closed h.fields hb (w := 0x31 :: 0x30 :: equals :: ds)
      (by simpa [SOH, equals] using hsoh)
  · have hb : b ≠ 0x31 := hb
    refine no_marker_after h.closed h.fields (w := b :: 0x30 :: equals :: ds ++ [SOH]) ?_ ?_
    · simp [hb.symm]
    · subst hds
      simp [List.infix_cons_iff, marker, SOH, equals]
  · have hb : b ≠ 0x30 := hb
    refine no_marker_after h.closed h.fields (w := 0x31 :: b :: equals :: ds ++ [SOH]) ?_ ?_
    · simp [hb.symm]
    · subst hds
      simp [List.infix_cons_iff, marker, SOH, equals]
  · have hb : b ≠ equals := hb
    refine no_marker_after h.closed h.fields (w := 0x31 :: 0x30 :: b :: ds ++ [SOH]) ?_ ?_
    · simp [hb.symm]
    · subst hds
      have hequals : 0x3D ≠ d := by
        rintro rfl
        simpa [isDigit] using h.digits
      simp [List.infix_cons_iff, marker, SOH, equals, hequals]

/-- A digit of the checksum. -/
theorem Sealed.rejected_digit (h : Sealed raw.bytes p ds gs) (hk : k < ds.length) (hb : b ≠ ds[k])
    (hplus : ¬ (k = 0 ∧ ds[k] = 0x30 ∧ b = 0x2B)) :
    ∃ e, validateAndParseFields checks (raw.corrupt (p.length + 4 + k) b) = .err e := by
  have hbytes : (raw.corrupt (p.length + 4 + k) b).bytes =
      p ++ marker ++ ds.set k b ++ [SOH] := by
    have hset : (SOH :: 0x31 :: 0x30 :: equals :: ds ++ [SOH]).set (4 + k) b =
        marker ++ (ds.set k b ++ [SOH]) := by
      rw [← List.set_append_left _ _ hk, Nat.add_comm]
      rfl
    have hshift : p.length + 4 + k - p.length = 4 + k := by omega
    simp only [Slice.corrupt, h.text_eq]
    rw [List.set_append_right _ _ (by omega), hshift, hset]
    simp
  have hcut : Cut (raw.corrupt (p.length + 4 + k) b).bytes p (ds.set k b) [SOH] := by
    rw [hbytes]
    exact cut_trailer (by simp [h.three])
  refine rejected_of_sum hcut (by decide) fun d hd hsum => ?_
  obtain ⟨d1, d2, d3, rfl⟩ := List.length_eq_three.1 h.three
  obtain ⟨hd1, hd2, hd3⟩ : isDigit d1 = true ∧ isDigit d2 = true ∧ isDigit d3 = true := by
    simpa using h.digits
  have hplus' : ¬ (k = 0 ∧ d1 = 0x30 ∧ b = 0x2B) := by
    rintro ⟨rfl, hzero, hb'⟩
    exact hplus ⟨rfl, hzero, hb'⟩
  have hne := parse_changed hd1 hd2 hd3 hk hb hplus' hd
  have hmod := congrArg UInt8.toNat hsum
  rw [UInt8.toNat_ofNat', ← h.sum] at hmod
  omega

/-- The last byte, when what replaces it is not a character. -/
theorem Sealed.rejected_end (h : Sealed raw.bytes p ds gs) (hb : ¬ b.toNat < 0x80) :
    ∃ e, validateAndParseFields checks (raw.corrupt (p.length + 7) b) = .err e := by
  have hbytes : (raw.corrupt (p.length + 7) b).bytes =
      (p ++ [SOH, 0x31, 0x30]) ++ equals :: (ds ++ [b]) := by
    obtain ⟨d1, d2, d3, rfl⟩ := List.length_eq_three.1 h.three
    simp [Slice.corrupt, h.text_eq, List.set_append_right]
  have hds : isUtf8 ds = true := isUtf8_of_ascii (ascii_of_digits h.digits)
  have hlast : isUtf8 [b] = false := by
    by_contra hutf
    simp only [Bool.not_eq_false] at hutf
    exact hb (isUtf8_singleton hutf)
  refine validateAndParseFields_err fun hpre => ?_
  have hutf := hpre.1
  rw [hbytes, isUtf8_ascii (by decide), isUtf8_append hds, hlast] at hutf
  simp at hutf

theorem checkRequiredTags_congr (h : ∀ tag ≠ tagChecksum, get fs tag = get gs tag) :
    checkRequiredTags fs = checkRequiredTags gs := by
  simp only [checkRequiredTags, List.find?, h tagMsgType (by decide), h tagClOrdId (by decide),
    h tagSymbol (by decide), h tagSide (by decide), h tagOrderQty (by decide),
    h tagOrdType (by decide), h tagPrice (by decide)]

theorem get_checksum (gs : List Field) (w : Text) {tag : UInt32} (h : tag ≠ tagChecksum) :
    get (gs ++ [(tagChecksum, w)]) tag = get gs tag := by
  have hlast : get [(tagChecksum, w)] tag = none := by
    simp [get_eq_none, h]
  rw [get_append, hlast, Option.or_none]

/-- Another checksum text with the right sum is accepted in place of the first. -/
theorem Layout.accepted_tail {x y q : Text} (hl : Layout version fs x y q)
    (hversion : SOH ∉ version)
    (hrequired : checkRequiredTags (messageFields version fs) = .ok ())
    (hsum : Summed raw.bytes (x ++ SOH :: (y ++ SOH :: q)) ds rest)
    (hgs : ∀ g ∈ (tagBeginString, version) :: (tagBodyLength, decimal (bodyText fs).length) :: fs,
      SOH ∉ g.2)
    (hlast : splitFields (0x31 :: 0x30 :: equals :: (ds ++ rest)) = .ok [(tagChecksum, w)]) :
    ∃ fields, validateAndParseFields checks raw = .ok fields := by
  have hfront := splitFields_bodyText hgs
  rw [← Fix.summedText_eq, hl.summedText_eq, splitFields_closed] at hfront
  have hsmall := raw.small
  have hlen := hsum.length_le
  have htext : raw.bytes = x ++ SOH :: (y ++ SOH :: q) ++ (marker ++ ds ++ rest) := by
    rw [hsum.text_eq]
    simp
  refine ⟨_, validateAndParseFields_eq_ok.2 ⟨_, ds, rest, hsum,
    ?_, hl.checkBodyLength_eq (by omega) ?_ (fs ++ [(tagChecksum, w)]), ?_⟩⟩
  · have hcut : raw.bytes =
        (x ++ SOH :: (y ++ SOH :: q)) ++ SOH :: (0x31 :: 0x30 :: equals :: (ds ++ rest)) := by
      simp [htext, marker]
    rw [hcut]
    exact splitFields_append_ok.2 ⟨_, _, hfront, hlast, rfl⟩
  · rw [htext]
    exact hl.second_delimiter hversion _
  · rw [← hrequired]
    refine checkRequiredTags_congr fun tag htag => ?_
    rw [messageFields, get_checksum _ _ htag]
    exact get_checksum ((tagBeginString, version) ::
      (tagBodyLength, decimal (bodyText fs).length) :: fs) w htag

section Message

variable {x y q : Text}

theorem Layout.sealed (hl : Layout version fs x y q) (hversion : SOH ∉ version)
    (hfs : ∀ f ∈ fs, SOH ∉ f.2 ∧ f.1 ≠ tagChecksum) :
    Sealed (message version fs) (x ++ SOH :: (y ++ SOH :: q)) (checksumText version fs)
      ((tagBeginString, version) :: (tagBodyLength, decimal (bodyText fs).length) :: fs) where
  text_eq := by
    rw [hl.message_eq]
    simp [marker]
  three := length_checksumText _ _
  digits := isDigit_padded _ _
  sum := by
    rw [← hl.summedText_eq]
    exact number_padded _ _
  closed := by
    rw [← hl.summedText_eq, Fix.summedText_eq]
  fields := by
    simp only [List.mem_cons]
    rintro f (rfl | rfl | hf)
    · exact ⟨hversion, by simp [tagBeginString, tagChecksum]⟩
    · exact ⟨not_mem_decimal (by decide) _, by simp [tagBodyLength, tagChecksum]⟩
    · exact hfs f hf

/-- The checks before the fields, for a text that differs in the checksum only. -/
theorem Sealed.summed {ds' : Text} (h : Sealed raw.bytes p ds gs) {raw' : Slice}
    (hbytes : raw'.bytes = p ++ marker ++ ds' ++ rest) (hutf : isUtf8 raw.bytes = true)
    (hcut : Cut raw'.bytes p ds' rest) (hcount : 2 ≤ p.count SOH)
    (hascii : ∀ a ∈ ds' ++ rest, a.toNat < 0x80) {d : ℕ}
    (hd : parseUnsigned (2 ^ 32) ds' = some d) (hsum : d = number ds) :
    Summed raw'.bytes p ds' rest where
  toCut := hcut
  utf8 := by
    have hold : raw.bytes = (p ++ [SOH, 0x31, 0x30]) ++ equals :: (ds ++ [SOH]) := by
      simp [h.text_eq]
    have hnew : raw'.bytes = (p ++ [SOH, 0x31, 0x30]) ++ equals :: (ds' ++ rest) := by
      simp [hbytes, marker]
    rw [hold, isUtf8_ascii (by decide), Bool.and_eq_true] at hutf
    rw [hnew, isUtf8_ascii (by decide), hutf.1, isUtf8_of_ascii hascii]
    rfl
  delimiters := by
    rw [length_indicesOf, hbytes]
    simp only [List.count_append]
    have hmarker : marker.count SOH = 1 := by decide
    omega
  whole := startsInside_of_isUtf8 (isUtf8_of_ascii fun a ha => hascii a (by simp [ha]))
  sum := by
    refine ⟨d, hd, ?_⟩
    rw [hsum, h.sum, UInt8.ofNat_toNat]

theorem Layout.count_soh (x y q : Text) : 2 ≤ (x ++ SOH :: (y ++ SOH :: q)).count SOH := by
  simp [List.count_append]
  omega

theorem Sealed.accepted_end (hl : Layout version fs x y q) (hversion : SOH ∉ version)
    (hrequired : checkRequiredTags (messageFields version fs) = .ok ())
    (h : Sealed raw.bytes (x ++ SOH :: (y ++ SOH :: q)) ds
      ((tagBeginString, version) :: (tagBodyLength, decimal (bodyText fs).length) :: fs))
    (hutf : isUtf8 raw.bytes = true) (hb : b.toNat < 0x80) (hne : b ≠ SOH) :
    ∃ fields, validateAndParseFields checks
      (raw.corrupt ((x ++ SOH :: (y ++ SOH :: q)).length + 7) b) = .ok fields := by
  have hsoh : SOH ∉ ds ++ [b] := by
    simpa using ⟨soh_not_mem_digits h.digits, hne.symm⟩
  have hlt := (byteSum (x ++ SOH :: (y ++ SOH :: q) ++ [SOH])).toNat_lt
  have hd : parseUnsigned (2 ^ 32) ds = some (number ds) := by
    refine parseUnsigned_digits ?_ h.digits (by rw [h.sum]; omega)
    rintro rfl
    simpa using h.three
  have hbytes : (raw.corrupt ((x ++ SOH :: (y ++ SOH :: q)).length + 7) b).bytes =
      x ++ SOH :: (y ++ SOH :: q) ++ marker ++ ds ++ [b] := by
    obtain ⟨d1, d2, d3, rfl⟩ := List.length_eq_three.1 h.three
    simp only [Slice.corrupt, h.text_eq]
    rw [List.set_append_right _ _ (by omega), Nat.add_sub_cancel_left]
    simp [marker]
  have hcut := hbytes ▸ cut_of_not_infix h.three (not_infix_of_not_mem hsoh)
  refine hl.accepted_tail (w := ds ++ [b]) hversion hrequired
    (h.summed hbytes hutf hcut (Layout.count_soh x y q) ?_ hd rfl)
    (fun g hg => (h.fields g hg).1) ?_
  · intro a ha
    obtain ha | ha := List.mem_append.1 ha
    · exact ascii_of_digits h.digits a ha
    · rwa [List.mem_singleton.1 ha]
  · rw [splitFields_single (by simpa [SOH, equals] using hsoh) (by simp), parseField_checksum]
    rfl

theorem Sealed.accepted_plus (hl : Layout version fs x y q) (hversion : SOH ∉ version)
    (hrequired : checkRequiredTags (messageFields version fs) = .ok ()) {d2 d3 : UInt8}
    (h : Sealed raw.bytes (x ++ SOH :: (y ++ SOH :: q)) [0x30, d2, d3]
      ((tagBeginString, version) :: (tagBodyLength, decimal (bodyText fs).length) :: fs))
    (hutf : isUtf8 raw.bytes = true) :
    ∃ fields, validateAndParseFields checks
      (raw.corrupt ((x ++ SOH :: (y ++ SOH :: q)).length + 4) 0x2B) = .ok fields := by
  obtain ⟨hd2, hd3⟩ : isDigit d2 = true ∧ isDigit d3 = true := by
    have hdigits := h.digits
    simp only [List.all_cons, List.all_nil, Bool.and_true, Bool.and_eq_true] at hdigits
    exact hdigits.2
  have hlt := (byteSum (x ++ SOH :: (y ++ SOH :: q) ++ [SOH])).toNat_lt
  have hsame : number [d2, d3] = number [0x30, d2, d3] := rfl
  have hd : parseUnsigned (2 ^ 32) [0x2B, d2, d3] = some (number [d2, d3]) := by
    have hsmall : number [d2, d3] < 2 ^ 32 := by
      rw [hsame, h.sum]
      omega
    simp only [parseUnsigned, List.head?_cons, if_true, List.tail_cons]
    rw [if_pos ⟨by simp, by simp [hd2, hd3], hsmall⟩]
  have hbytes : (raw.corrupt ((x ++ SOH :: (y ++ SOH :: q)).length + 4) 0x2B).bytes =
      x ++ SOH :: (y ++ SOH :: q) ++ marker ++ [0x2B, d2, d3] ++ [SOH] := by
    simp only [Slice.corrupt, h.text_eq]
    rw [List.set_append_right _ _ (by omega), Nat.add_sub_cancel_left]
    simp [marker]
  have hcut : Cut (raw.corrupt ((x ++ SOH :: (y ++ SOH :: q)).length + 4) 0x2B).bytes
      (x ++ SOH :: (y ++ SOH :: q)) [0x2B, d2, d3] [SOH] := by
    rw [hbytes]
    exact cut_trailer rfl
  have hdigits : ∀ a ∈ [d2, d3], isDigit a = true := by
    simpa using ⟨hd2, hd3⟩
  have hsoh : SOH ∉ [0x2B, d2, d3] := by
    have hrest := soh_not_mem_digits (List.all_eq_true.2 hdigits)
    simpa [SOH] using hrest
  refine hl.accepted_tail (w := [0x2B, d2, d3]) hversion hrequired
    (h.summed hbytes hutf hcut (Layout.count_soh x y q) ?_ hd hsame)
    (fun g hg => (h.fields g hg).1) (splitFields_trailer hsoh)
  intro a ha
  simp only [List.cons_append, List.nil_append, List.mem_cons, List.not_mem_nil, or_false] at ha
  obtain rfl | rfl | rfl | rfl := ha
  · decide
  · exact ascii_of_digits (List.all_eq_true.2 hdigits) _ (by simp)
  · exact ascii_of_digits (List.all_eq_true.2 hdigits) _ (by simp)
  · decide

theorem Sealed.length_eq (h : Sealed raw.bytes p ds gs) : raw.bytes.length = p.length + 8 := by
  rw [h.text_eq]
  simp [h.three]

theorem Sealed.getElem?_eq (h : Sealed raw.bytes p ds gs) (k : ℕ) :
    raw.bytes[p.length + k]? = (SOH :: 0x31 :: 0x30 :: equals :: ds ++ [SOH])[k]? := by
  rw [h.text_eq, List.getElem?_append_right (by omega), Nat.add_sub_cancel_left]

/-- Where a byte from the marker on belongs. -/
theorem tail_cases (hthree : ds.length = 3) {c : UInt8} (hk : k < 8)
    (hc : (SOH :: 0x31 :: 0x30 :: equals :: ds ++ [SOH])[k]? = some c) :
    (∃ h : k < 4, c = marker[k]) ∨ (∃ j, k = 4 + j ∧ ∃ h : j < ds.length, c = ds[j]) ∨
      k = 7 ∧ c = SOH := by
  obtain ⟨d1, d2, d3, rfl⟩ := List.length_eq_three.1 hthree
  obtain rfl | rfl | rfl | rfl | rfl | rfl | rfl | rfl :
      k = 0 ∨ k = 1 ∨ k = 2 ∨ k = 3 ∨ k = 4 ∨ k = 5 ∨ k = 6 ∨ k = 7 := by omega
  · exact .inl ⟨by omega, (Option.some.inj hc).symm⟩
  · exact .inl ⟨by omega, (Option.some.inj hc).symm⟩
  · exact .inl ⟨by omega, (Option.some.inj hc).symm⟩
  · exact .inl ⟨by omega, (Option.some.inj hc).symm⟩
  · exact .inr (.inl ⟨0, rfl, by simp, (Option.some.inj hc).symm⟩)
  · exact .inr (.inl ⟨1, rfl, by simp, (Option.some.inj hc).symm⟩)
  · exact .inr (.inl ⟨2, rfl, by simp, (Option.some.inj hc).symm⟩)
  · exact .inr (.inr ⟨rfl, (Option.some.inj hc).symm⟩)

theorem Sealed.front_iff (h : Sealed raw.bytes p ds gs) {c : UInt8} (hi : i < p.length)
    (hc : raw.bytes[i]? = some c) (hb : b ≠ c) :
    (∃ e, validateAndParseFields checks (raw.corrupt i b) = .err e) ↔
      ¬ Undetected raw.bytes i b := by
  have hlen := h.length_eq
  rw [h.text_eq, List.getElem?_append_left hi, List.getElem?_eq_getElem hi] at hc
  have hnot : ¬ Undetected raw.bytes i b := by
    rintro (⟨hlast, -⟩ | ⟨hlast, -⟩) <;> omega
  exact iff_of_true (h.rejected_front hi (Option.some.inj hc ▸ hb)) hnot

theorem Sealed.marker_iff (h : Sealed raw.bytes p ds gs) (hk : k < 4) (hb : b ≠ marker[k]) :
    (∃ e, validateAndParseFields checks (raw.corrupt (p.length + k) b) = .err e) ↔
      ¬ Undetected raw.bytes (p.length + k) b := by
  have hlen := h.length_eq
  have hnot : ¬ Undetected raw.bytes (p.length + k) b := by
    rintro (⟨hlast, -⟩ | ⟨hlast, -⟩) <;> omega
  exact iff_of_true (h.rejected_marker hk hb) hnot

/-- Of the digits a leading zero alone can be replaced unnoticed. -/
theorem Sealed.digit_iff (h : Sealed raw.bytes p ds gs) (hk : k < ds.length) (hb : b ≠ ds[k])
    (hplus : ∀ d2 d3, ds = [0x30, d2, d3] → ∃ fields,
      validateAndParseFields checks (raw.corrupt (p.length + 4) 0x2B) = .ok fields) :
    (∃ e, validateAndParseFields checks (raw.corrupt (p.length + 4 + k) b) = .err e) ↔
      ¬ Undetected raw.bytes (p.length + 4 + k) b := by
  have hlen := h.length_eq
  have hthree := h.three
  have hat : raw.bytes[p.length + 4 + k]? = some ds[k] := by
    have hget := h.getElem?_eq (k + 4)
    rw [Nat.add_comm k 4, ← Nat.add_assoc] at hget
    rw [hget, Nat.add_comm 4 k]
    simp [List.getElem?_append_left hk]
  by_cases hexact : k = 0 ∧ ds[k] = 0x30 ∧ b = 0x2B
  · obtain ⟨rfl, hzero, rfl⟩ := hexact
    obtain ⟨d1, d2, d3, hds⟩ := List.length_eq_three.1 hthree
    have hd1 : d1 = 0x30 := by simpa [hds] using hzero
    obtain ⟨fields, hok⟩ := hplus d2 d3 (hd1 ▸ hds)
    refine iff_of_false ?_ (not_not.2 (.inr ⟨by omega, hzero ▸ hat, rfl⟩))
    simp [hok]
  · have hnot : ¬ Undetected raw.bytes (p.length + 4 + k) b := by
      rintro (⟨hlast, -⟩ | ⟨hlast, hzero, hb'⟩)
      · omega
      · exact hexact ⟨by omega, Option.some.inj (hat.symm.trans hzero), hb'⟩
    exact iff_of_true (h.rejected_digit hk hb hexact) hnot

theorem Sealed.end_iff (h : Sealed raw.bytes p ds gs)
    (hend : b.toNat < 0x80 → ∃ fields,
      validateAndParseFields checks (raw.corrupt (p.length + 7) b) = .ok fields) :
    (∃ e, validateAndParseFields checks (raw.corrupt (p.length + 7) b) = .err e) ↔
      ¬ Undetected raw.bytes (p.length + 7) b := by
  have hlen := h.length_eq
  by_cases hlow : b.toNat < 0x80
  · obtain ⟨fields, hok⟩ := hend hlow
    refine iff_of_false ?_ (not_not.2 (.inl ⟨by omega, hlow⟩))
    simp [hok]
  · have hnot : ¬ Undetected raw.bytes (p.length + 7) b := by
      rintro (⟨-, hlow'⟩ | ⟨hlast, -⟩)
      · exact hlow hlow'
      · omega
    exact iff_of_true (h.rejected_end hlow) hnot

/-- A replaced byte of an accepted message is noticed unless it is the last SOH or a leading zero
of the checksum, and replaced in the one way that is not. -/
theorem message_rejected_iff (hversion : SOH ∉ version)
    (hfs : ∀ f ∈ fs, SOH ∉ f.2 ∧ f.1 ≠ tagChecksum) (hne : fs ≠ [])
    (hraw : raw.bytes = message version fs) {fields : List Field}
    (hok : validateAndParseFields checks raw = .ok fields) {c : UInt8}
    (hc : raw.bytes[i]? = some c) (hb : b ≠ c) :
    (∃ e, validateAndParseFields checks (raw.corrupt i b) = .err e) ↔
      ¬ Undetected raw.bytes i b := by
  obtain ⟨x, y, q, hl⟩ := exists_layout version hne
  have h := hl.sealed hversion hfs
  rw [← hraw] at h
  obtain ⟨p', ds', rest', hacc⟩ := validateAndParseFields_eq_ok.1 hok
  have hutf := hacc.utf8
  have hrequired : checkRequiredTags (messageFields version fs) = .ok () := by
    have hfields := hacc.fields_eq
    rw [hraw, splitFields_message hversion fun f hf => (hfs f hf).1] at hfields
    rw [Except.ok.inj hfields]
    exact hacc.required
  by_cases hi : i < (x ++ SOH :: (y ++ SOH :: q)).length
  · exact h.front_iff hi hc hb
  obtain ⟨k, rfl⟩ := Nat.exists_eq_add_of_le (Nat.le_of_not_lt hi)
  have hk : k < 8 := by
    have hlt := (List.getElem?_eq_some_iff.1 hc).1
    rw [h.length_eq] at hlt
    omega
  rw [h.getElem?_eq] at hc
  obtain ⟨hmarker, rfl⟩ | ⟨j, rfl, hj, rfl⟩ | ⟨rfl, rfl⟩ := tail_cases h.three hk hc
  · exact h.marker_iff hmarker hb
  · rw [← Nat.add_assoc]
    refine h.digit_iff hj hb fun d2 d3 hds => ?_
    exact Sealed.accepted_plus hl hversion hrequired (hds ▸ h) hutf
  · exact h.end_iff fun hlow => Sealed.accepted_end hl hversion hrequired h hutf hlow hb

end Message

theorem orderFields_tags {Price : Type} (priceText : Price → Text)
    (fields : NewOrderSingleFields Price) :
    ∀ f ∈ orderFields priceText fields, f.1 ≠ tagChecksum := by
  intro f hf
  simp only [orderFields, List.mem_append, List.mem_cons, List.not_mem_nil, or_false,
    Option.mem_toList, Option.map_eq_some_iff] at hf
  obtain ((rfl | rfl | rfl | rfl | rfl | rfl | rfl | rfl | rfl | rfl) | ⟨price, -, rfl⟩) | rfl := hf
  all_goals simp [tagChecksum, tagMsgType, tagClOrdId, tagSymbol, tagSide, tagOrderQty, tagOrdType,
    tagPrice]

/-- Both parsers reject a built and accepted message with one byte changed, except for the two
changes that go unnoticed. -/
theorem corruption_detected_iff {Price : Type} (priceText : Price → Text)
    (hprices : PlainPrices priceText) (fields : NewOrderSingleFields Price) (hsoh : fields.SohFree)
    (checks : Bool) (raw : Slice) (hraw : raw.bytes = buildNewOrderSingle priceText fields)
    (haccepted : ∃ zs, parseZeroCopy checks raw = .ok zs) (i : ℕ) (b : UInt8)
    (hi : i < raw.bytes.length) (hb : b ≠ raw.bytes[i]) :
    ((∃ e, parseNaive checks (raw.corrupt i b) = .err e) ∧
      ∃ e, parseZeroCopy checks (raw.corrupt i b) = .err e) ↔ ¬ Undetected raw.bytes i b := by
  obtain ⟨zs, hzs⟩ := haccepted
  obtain ⟨fs, hok, -⟩ := parseZeroCopy_eq_ok.1 hzs
  have hvalues := orderFields_values hprices hsoh
  have htags := orderFields_tags priceText fields
  have hversion : SOH ∉ text "FIX.4.2" := by decide
  have hiff := message_rejected_iff hversion
    (fun f hf => ⟨(hvalues f hf).2, htags f hf⟩) (by simp [orderFields])
    (hraw.trans (buildNewOrderSingle_eq priceText fields)) hok (List.getElem?_eq_getElem hi) hb
  rw [← hiff]
  simp [parseNaive, parseZeroCopy, bind_eq_err]

theorem corruption_detected_at_order :
    ∃ e, parseNaive true (sampleOrder.corrupt 70 0x58) = .err e := by
  have hnot : ¬ Undetected sampleOrder.bytes 70 0x58 := by
    rintro (⟨hlast, -⟩ | ⟨hlast, -⟩)
    · exact absurd hlast (by decide +kernel)
    · exact absurd hlast (by decide +kernel)
  exact ((corruption_detected_iff _ (fun _ => ⟨by decide, by decide⟩) sampleFields
    ⟨by decide, by decide, by decide, by decide⟩ true sampleOrder rfl
    (exists_of_isOk (by decide +kernel)) 70 0x58 (by decide +kernel) (by decide +kernel)).2 hnot).1

/-- The last SOH of a built order turned into a letter. -/
theorem corruption_undetected :
    sampleOrder.bytes[123]? = some SOH ∧
      (∃ map, parseNaive true (sampleOrder.corrupt 123 0x58) = .ok map) ∧
      ∃ zs, parseZeroCopy true (sampleOrder.corrupt 123 0x58) = .ok zs :=
  ⟨by decide +kernel, exists_of_isOk (by decide +kernel), exists_of_isOk (by decide +kernel)⟩

end Velo.Fix
