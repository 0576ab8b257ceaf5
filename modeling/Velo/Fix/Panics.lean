import Velo.Fix.Validation

/-! The two ways to make the FIX parsers panic. -/
namespace Velo.Fix
open Outcome Utf8

variable {checks : Bool} {raw : Slice} {text p ds rest : Text} {fields : List Field}

/-- The third byte after the last marker is not the last of its character. -/
structure ChecksumCut (text : Text) : Prop where
  utf8 : isUtf8 text = true
  delimiters : 3 ≤ (indicesOf SOH text).length
  inside : ∃ p ds rest, Cut text p ds rest ∧ startsInside rest = true

/-- The sum is right, every field parses, 8= and a number in 9= come first, and the SOH after 9= is
that of the last marker. -/
def EmptyBody (text : Text) : Prop :=
  ∃ x y ds rest value length others, Summed text (x ++ SOH :: y) ds rest ∧ SOH ∉ x ∧ SOH ∉ y ∧
    splitFields text = .ok ((tagBeginString, value) :: (tagBodyLength, length) :: others) ∧
    parseUnsigned (2 ^ 64) length ≠ none

theorem ChecksumCut.panics (h : ChecksumCut raw.bytes) :
    validateAndParseFields checks raw = .panic := by
  rw [validateAndParseFields_bytes rfl h.utf8 h.delimiters, (checkSum_eq_panic h.utf8).2 h.inside,
    panic_bind]

theorem EmptyBody.panics (h : EmptyBody raw.bytes) :
    validateAndParseFields true raw = .panic := by
  obtain ⟨x, y, ds, rest, value, length, others, hsum, hx, hy, hfields, hlength⟩ := h
  obtain ⟨declared, hdeclared⟩ := Option.ne_none_iff_exists'.1 hlength
  have hpos : (indicesOf SOH raw.bytes)[1]? = some (x.length + 1 + y.length) := by
    have heq : raw.bytes = x ++ SOH :: (y ++ SOH :: ([0x31, 0x30, equals] ++ ds ++ rest)) := by
      simp [hsum.text_eq, marker]
    rw [heq, indicesOf_append hx, indicesOf_append hy]
    simp
    omega
  have hm : (x ++ SOH :: y).length = x.length + 1 + y.length := by
    simp
    omega
  have hsmall := raw.small
  have hlen := hsum.length_le
  rw [validateAndParseFields_summed hsum, hfields, hm, Outcome.ofExcept, ok_bind,
    checkBodyLength_eq hpos (Nat.le_refl _) (by omega), hdeclared, orErr, ok_bind,
    if_pos ⟨rfl, rfl⟩, panic_bind]

theorem checkBodyLength_eq_panic (h : Summed raw.bytes p ds rest)
    (hfields : splitFields raw.bytes = .ok fields)
    (hpanic : checkBodyLength checks (indicesOf SOH raw.bytes) p.length fields = .panic) :
    checks = true ∧ EmptyBody raw.bytes := by
  obtain ⟨value, length, others, rfl⟩ := checkBodyLength_head hpanic (by simp)
  obtain ⟨x, y, z, htext, hx, hy, hi⟩ := exists_delimiters h.delimiters
  have hafter : p = x ++ SOH :: y ∨ ∃ p', p = x ++ SOH :: (y ++ SOH :: p') := by
    have hcut := h.toCut
    rw [htext] at hcut hfields
    exact hcut.marker_after hx hy hfields
  have hle : x.length + 1 + y.length ≤ p.length ∧
      (x.length + 1 + y.length = p.length → p = x ++ SOH :: y) := by
    obtain rfl | ⟨p', rfl⟩ := hafter
    · simp
      omega
    · simp
      omega
  have hsmall := raw.small
  have hlen := h.length_le
  rw [checkBodyLength_eq hi hle.1 (by omega), bind_eq_panic] at hpanic
  obtain hpanic | ⟨declared, hdeclared, hpanic⟩ := hpanic
  · exact absurd hpanic orErr_ne_panic
  by_cases hzero : x.length + 1 + y.length = p.length ∧ checks = true
  · obtain rfl := hle.2 hzero.1
    refine ⟨hzero.2, x, y, ds, rest, value, length, others, h, hx, hy, hfields, ?_⟩
    rw [orErr_eq_ok.1 hdeclared]
    simp
  · rw [if_neg hzero] at hpanic
    split at hpanic <;> simp at hpanic

theorem validateAndParseFields_eq_panic :
    validateAndParseFields checks raw = .panic ↔
      ChecksumCut raw.bytes ∨ checks = true ∧ EmptyBody raw.bytes := by
  constructor
  · intro h
    have hne : ∀ e, validateAndParseFields checks raw ≠ .err e := by
      intro e he
      rw [h] at he
      cases he
    obtain ⟨hutf, hsoh⟩ := delimited_of_ne_err hne
    rw [validateAndParseFields_bytes rfl hutf hsoh] at h
    obtain h | ⟨m, hm, h⟩ := bind_eq_panic.1 h
    · exact .inl ⟨hutf, hsoh, (checkSum_eq_panic hutf).1 h⟩
    obtain ⟨p, ds, rest, d, hcut, rfl, hwhole, hd, hsum⟩ := (checkSum_eq_ok hutf).1 hm
    obtain h | ⟨fields, hfields, h⟩ := bind_eq_panic.1 h
    · exact absurd h ofExcept_ne_panic
    obtain h | ⟨_, -, h⟩ := bind_eq_panic.1 h
    · exact .inr (checkBodyLength_eq_panic ⟨hcut, hutf, hsoh, hwhole, d, hd, hsum⟩
        (ofExcept_eq_ok.1 hfields) h)
    obtain h | ⟨_, -, h⟩ := bind_eq_panic.1 h
    · exact absurd h ofExcept_ne_panic
    · simp at h
  · rintro (h | ⟨rfl, h⟩)
    · exact h.panics
    · exact h.panics

theorem parseNaive_eq_panic :
    parseNaive checks raw = .panic ↔ validateAndParseFields checks raw = .panic := by
  simp [parseNaive, bind_eq_panic]

theorem parseZeroCopy_eq_panic :
    parseZeroCopy checks raw = .panic ↔ validateAndParseFields checks raw = .panic := by
  simp [parseZeroCopy, bind_eq_panic]

/-- With and without overflow checks, both parsers return exactly if the checksum is not cut within
a character and the body is not empty. -/
theorem parsers_return_iff (raw : Slice) :
    (∀ checks, parseNaive checks raw ≠ .panic ∧ parseZeroCopy checks raw ≠ .panic) ↔
      ¬ ChecksumCut raw.bytes ∧ ¬ EmptyBody raw.bytes := by
  simp only [ne_eq, parseNaive_eq_panic, parseZeroCopy_eq_panic, and_self,
    validateAndParseFields_eq_panic]
  constructor
  · intro h
    exact ⟨fun hcut => h true (.inl hcut), fun hempty => h true (.inr ⟨rfl, hempty⟩)⟩
  · rintro ⟨hcut, hempty⟩ checks (h | ⟨-, h⟩)
    · exact hcut h
    · exact hempty h

/-- The checksum text ends after the first byte of an accented letter. -/
def accentedChecksum : Slice :=
  ⟨printed "8=F|9=5|35=D|10=12" ++ [0xC3, 0xA9], by decide⟩

def noBody : Slice := ⟨printed "8=F|9=0|10=099|", by decide⟩

theorem parsers_panic :
    (∀ checks, parseNaive checks accentedChecksum = .panic ∧
      parseZeroCopy checks accentedChecksum = .panic) ∧
    parseNaive true noBody = .panic ∧ parseZeroCopy true noBody = .panic := by
  have hcut : ∀ checks, validateAndParseFields checks accentedChecksum = .panic := by
    decide +kernel
  have hbody : validateAndParseFields true noBody = .panic := by
    decide +kernel
  simp only [parseNaive_eq_panic, parseZeroCopy_eq_panic, hcut, hbody]
  simp

end Velo.Fix
