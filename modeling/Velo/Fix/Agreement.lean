import Velo.Fix.Panics

/-! The map of one FIX parser against the list of the other. -/
namespace Velo.Fix
open Outcome

variable {checks : Bool} {raw : Slice} {fields : List Field}

/-- The first value with a tag, as `parse_zero_copy` lists it. -/
def first (zs : List FixField) (tag : UInt32) : Option Text :=
  (zs.find? (·.tag = tag)).map (·.value)

/-- Both fail alike, or the map has for every tag its first value in the list. -/
def Agree (checks : Bool) (raw : Slice) : Prop :=
  (∃ e, parseNaive checks raw = .err e ∧ parseZeroCopy checks raw = .err e) ∨
    ∃ map zs, parseNaive checks raw = .ok map ∧ parseZeroCopy checks raw = .ok zs ∧
      ∀ tag, map.lookup tag = first zs tag

/-- It passes every check, and the last value of some tag is not the first. -/
def Repeats (text : Text) : Prop :=
  ∃ checks fields p ds rest tag, Accepted checks text fields p ds rest ∧
    get fields.reverse tag ≠ get fields tag

theorem lookup_collect (fields : List Field) (tag : UInt32) :
    (collect fields).lookup tag = get fields.reverse tag := by
  rw [collect, ← List.foldr_reverse]
  induction fields.reverse with
  | nil => rfl
  | cons f fs ih =>
    by_cases hf : f.1 = tag
    · subst hf
      simp [get]
    · rw [List.foldr_cons, Finmap.lookup_insert_of_ne _ (Ne.symm hf), ih]
      simp [get, hf]

theorem first_map (fields : List Field) (tag : UInt32) :
    first (fields.map fun f => ⟨f.1, f.2⟩) tag = get fields tag := by
  simp only [first, get, List.find?_map, Option.map_map]
  rfl

theorem agree_of_ok (h : validateAndParseFields checks raw = .ok fields) :
    Agree checks raw ↔ ∀ tag, get fields.reverse tag = get fields tag := by
  have hnaive : parseNaive checks raw = .ok (collect fields) := parseNaive_eq_ok.2 ⟨_, h, rfl⟩
  have hzero : parseZeroCopy checks raw = .ok (fields.map fun f => ⟨f.1, f.2⟩) :=
    parseZeroCopy_eq_ok.2 ⟨_, h, rfl⟩
  constructor
  · rintro (⟨e, he, -⟩ | ⟨map, zs, hmap, hzs, hagree⟩) tag
    · simp [hnaive] at he
    · obtain rfl := Outcome.ok.inj (hnaive.symm.trans hmap)
      obtain rfl := Outcome.ok.inj (hzero.symm.trans hzs)
      rw [← lookup_collect, ← first_map]
      exact hagree tag
  · intro h
    refine .inr ⟨_, _, hnaive, hzero, fun tag => ?_⟩
    rw [lookup_collect, first_map, h]

theorem agree_of_err {e : FixParseError} (h : validateAndParseFields checks raw = .err e) :
    Agree checks raw :=
  .inl ⟨e, by simp [parseNaive, h], by simp [parseZeroCopy, h]⟩

theorem not_agree_of_panic (h : validateAndParseFields checks raw = .panic) :
    ¬ Agree checks raw := by
  rintro (⟨e, he, -⟩ | ⟨map, zs, hmap, -⟩)
  · simp [parseNaive, h] at he
  · simp [parseNaive, h] at hmap

/-- The parsers agree on a slice exactly if it makes neither panic and, where it is accepted, the
last value of each tag is the first. -/
theorem parsers_agree_iff (raw : Slice) :
    (∀ checks, Agree checks raw) ↔
      ¬ ChecksumCut raw.bytes ∧ ¬ EmptyBody raw.bytes ∧ ¬ Repeats raw.bytes := by
  constructor
  · intro h
    refine ⟨fun hcut => ?_, fun hempty => ?_, ?_⟩
    · exact not_agree_of_panic (validateAndParseFields_eq_panic.2 (.inl hcut)) (h true)
    · exact not_agree_of_panic (validateAndParseFields_eq_panic.2 (.inr ⟨rfl, hempty⟩)) (h true)
    · rintro ⟨checks, fields, p, ds, rest, tag, hacc, hne⟩
      have hok := validateAndParseFields_eq_ok.2 ⟨p, ds, rest, hacc⟩
      exact hne ((agree_of_ok hok).1 (h checks) tag)
  · rintro ⟨hcut, hempty, hrepeats⟩ checks
    cases hv : validateAndParseFields checks raw with
    | ok fields =>
      obtain ⟨p, ds, rest, hacc⟩ := validateAndParseFields_eq_ok.1 hv
      refine (agree_of_ok hv).2 fun tag => ?_
      by_contra hne
      exact hrepeats ⟨checks, fields, p, ds, rest, tag, hacc, hne⟩
    | err e => exact agree_of_err hv
    | panic =>
      obtain h | ⟨-, h⟩ := validateAndParseFields_eq_panic.1 hv
      · exact absurd h hcut
      · exact absurd h hempty

/-- The message type again, with another value. -/
def secondMsgType : Slice :=
  ⟨printed "8=F|9=35|35=D|11=A|55=B|54=1|38=1|40=1|35=F|10=193|", by decide⟩

theorem parsers_disagree :
    ¬ Agree true secondMsgType ∧ ∃ map zs, parseNaive true secondMsgType = .ok map ∧
      parseZeroCopy true secondMsgType = .ok zs ∧ first zs tagMsgType = some (printed "D") ∧
      map.lookup tagMsgType = some (printed "F") := by
  have hok : validateAndParseFields true secondMsgType = .ok
      [(8, printed "F"), (9, printed "35"), (35, printed "D"), (11, printed "A"),
        (55, printed "B"), (54, printed "1"), (38, printed "1"), (40, printed "1"),
        (35, printed "F"), (10, printed "193")] := by
    decide +kernel
  constructor
  · rw [agree_of_ok hok]
    exact fun h => absurd (h tagMsgType) (by decide)
  · refine ⟨_, _, parseNaive_eq_ok.2 ⟨_, hok, rfl⟩, parseZeroCopy_eq_ok.2 ⟨_, hok, rfl⟩, ?_, ?_⟩
    · rw [first_map]
      decide
    · rw [lookup_collect]
      decide

end Velo.Fix
