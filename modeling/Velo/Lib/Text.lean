import Mathlib.Algebra.Group.Nat.Defs
import Mathlib.Data.List.Infix
import Velo.Lib.Utf8

/-! Searching and cutting texts, and the numbers written in them. -/
namespace Velo

section Search

variable {α : Type} {a : α} {p t l m x y : List α} {i : ℕ}

theorem mem_cases (a : α) (l : List α) : a ∉ l ∨ ∃ x y, l = x ++ a :: y ∧ a ∉ x := by
  by_cases h : a ∈ l
  · exact .inr (List.eq_append_cons_of_mem h)
  · exact .inl h

theorem infix_append_cons (hx : a ∉ x) :
    a :: t <:+: x ++ a :: y ↔ t <+: y ∨ a :: t <:+: y := by
  induction x with
  | nil => simp [List.infix_cons_iff]
  | cons b x ih =>
    have hb : a ≠ b := fun h => hx (by simp [h])
    have hx : a ∉ x := fun h => hx (by simp [h])
    rw [List.cons_append, List.infix_cons_iff, ih hx]
    simp [hb]

theorem not_infix_of_not_mem (hx : a ∉ x) : ¬ a :: t <:+: x := by
  rintro ⟨z, w, rfl⟩
  simp at hx

variable [DecidableEq α]

/-- Where `p` occurs last: `str::rfind`. -/
def rfind? (p : List α) : List α → Option ℕ
  | [] => if p = [] then some 0 else none
  | b :: l =>
    match rfind? p l with
    | some i => some (i + 1)
    | none => if p <+: b :: l then some 0 else none

/-- Every index of `a`: `str::match_indices`. -/
def indicesOf (a : α) : List α → List ℕ
  | [] => []
  | b :: l => if b = a then 0 :: (indicesOf a l).map (· + 1) else (indicesOf a l).map (· + 1)

/-- Before and after the first `a`: `str::split_once`. -/
def splitOnce (a : α) : List α → Option (List α × List α)
  | [] => none
  | b :: l => if b = a then some ([], l) else (splitOnce a l).map fun r => (b :: r.1, r.2)

theorem rfind?_eq_none (hp : p ≠ []) : rfind? p l = none ↔ ¬ p <:+: l := by
  induction l with
  | nil => simp [rfind?, hp]
  | cons b l ih =>
    rw [rfind?, List.infix_cons_iff]
    cases hl : rfind? p l with
    | none => simp [ih.1 hl]
    | some i =>
      rw [hl] at ih
      simp only [reduceCtorEq, false_iff, not_not] at ih
      simp [ih]

/-- The last occurrence, cut out. -/
theorem rfind?_eq_some (hp : p ≠ []) (h : rfind? p l = some i) :
    ∃ x y, l = x ++ p ++ y ∧ x.length = i ∧ ∀ z w, l = z ++ p ++ w → z.length ≤ i := by
  induction l generalizing i with
  | nil => simp [rfind?, hp] at h
  | cons b l ih =>
    rw [rfind?] at h
    cases hl : rfind? p l with
    | some k =>
      rw [hl] at h
      obtain ⟨x, y, rfl, rfl, hlast⟩ := ih hl
      have hi : x.length + 1 = i := Option.some.inj h
      refine ⟨b :: x, y, rfl, hi, fun z w hzw => ?_⟩
      cases z with
      | nil => simp
      | cons c z =>
        have hle := hlast z w (List.cons.inj hzw).2
        rw [List.length_cons]
        omega
    | none =>
      rw [hl] at h
      by_cases hpre : p <+: b :: l
      · obtain ⟨y, hy⟩ := hpre
        have hi : i = 0 := by
          simp only [← hy, List.prefix_append, if_true, Option.some.injEq] at h
          exact h.symm
        refine ⟨[], y, hy.symm, hi.symm, fun z w hzw => ?_⟩
        cases z with
        | nil => simp
        | cons c z =>
          have hin : p <:+: l := ⟨z, w, (List.cons.inj hzw).2.symm⟩
          exact absurd hin ((rfind?_eq_none hp).1 hl)
      · simp [hpre] at h

theorem rfind?_append (h : rfind? p m = some i) : rfind? p (l ++ m) = some (l.length + i) := by
  induction l with
  | nil => simpa using h
  | cons b l ih =>
    rw [List.cons_append, rfind?, ih, List.length_cons]
    exact congrArg some (by omega)

theorem indicesOf_append (hx : a ∉ x) :
    indicesOf a (x ++ a :: y) =
      x.length :: (indicesOf a y).map (· + (x.length + 1)) := by
  induction x with
  | nil => simp [indicesOf]
  | cons b x ih =>
    have hb : b ≠ a := fun h => hx (by simp [h])
    have hx : a ∉ x := fun h => hx (by simp [h])
    rw [List.cons_append, indicesOf, if_neg hb, ih hx]
    simp [Nat.add_assoc]

theorem indicesOf_of_not_mem (hx : a ∉ x) : indicesOf a x = [] := by
  induction x with
  | nil => rfl
  | cons b x ih =>
    have hb : b ≠ a := fun h => hx (by simp [h])
    have hx : a ∉ x := fun h => hx (by simp [h])
    simp [indicesOf, hb, ih hx]

theorem length_indicesOf (a : α) (l : List α) : (indicesOf a l).length = l.count a := by
  induction l with
  | nil => rfl
  | cons b l ih =>
    rw [indicesOf, List.count_cons]
    by_cases hb : b = a
    · simp [hb, ih]
    · simp [hb, ih]

theorem splitOnce_eq_some {r : List α × List α} :
    splitOnce a l = some r ↔ l = r.1 ++ a :: r.2 ∧ a ∉ r.1 := by
  induction l generalizing r with
  | nil => simp [splitOnce]
  | cons b l ih =>
    obtain ⟨x, y⟩ := r
    rw [splitOnce]
    by_cases hb : b = a
    · rw [if_pos hb]
      cases x with
      | nil => simp [hb]
      | cons c x => simp [hb]; grind
    · rw [if_neg hb]
      simp only [Option.map_eq_some_iff, ih]
      cases x with
      | nil => simp; grind
      | cons c x => simp; grind

theorem splitOnce_append (hx : a ∉ x) : splitOnce a (x ++ a :: y) = some (x, y) :=
  splitOnce_eq_some.2 ⟨rfl, hx⟩

theorem splitOnce_eq_none : splitOnce a l = none ↔ a ∉ l := by
  induction l with
  | nil => simp [splitOnce]
  | cons b l ih =>
    rw [splitOnce]
    by_cases hb : b = a
    · simp [hb]
    · simp [hb, ih, Ne.symm hb]

end Search

section Numbers

variable {b : UInt8} {l m : List UInt8} {n bound : ℕ}

/-- `&text[start..stop]`, unless an end is not between two characters. -/
def slice? (l : List UInt8) (start stop : ℕ) : Option (List UInt8) :=
  if start ≤ stop ∧ Utf8.isCharBoundary l start ∧ Utf8.isCharBoundary l stop then
    some ((l.take stop).drop start)
  else none

/-- The text begins within a character. -/
def startsInside : List UInt8 → Bool
  | [] => false
  | b :: _ => Utf8.isContinuation b

theorem isCharBoundary_append (hl : l ≠ []) :
    Utf8.isCharBoundary (l ++ m) l.length = !startsInside m := by
  have hlen : l.length ≠ 0 := by simpa using hl
  rw [Utf8.isCharBoundary, List.drop_left]
  cases m with
  | nil => simp [startsInside]
  | cons b m => simp [startsInside, hlen]

theorem startsInside_of_isUtf8 (h : Utf8.isUtf8 m = true) : startsInside m = false := by
  cases m with
  | nil => rfl
  | cons b m => exact Utf8.isUtf8_head h

theorem slice?_append {r : List UInt8} (hl : l ≠ []) (hm : startsInside (m ++ r) = false) :
    slice? (l ++ m ++ r) l.length (l.length + m.length) =
      if startsInside r = true then none else some m := by
  have hstart : Utf8.isCharBoundary (l ++ m ++ r) l.length = true := by
    rw [List.append_assoc, isCharBoundary_append hl, hm]
    rfl
  have hstop : Utf8.isCharBoundary (l ++ m ++ r) (l.length + m.length) = !startsInside r := by
    rw [← List.length_append]
    exact isCharBoundary_append (by simp [hl])
  have hcut : ((l ++ m ++ r).take (l.length + m.length)).drop l.length = m := by
    rw [← List.length_append, List.take_left, List.drop_left]
  rw [slice?, hstart, hstop, hcut]
  cases startsInside r <;> simp

def isDigit (b : UInt8) : Bool := decide (0x30 ≤ b.toNat ∧ b.toNat ≤ 0x39)

/-- The number some decimal digits spell. -/
def number (l : List UInt8) : ℕ := l.foldl (fun n b => 10 * n + (b.toNat - 0x30)) 0

/-- `str::parse` for an unsigned type of `bound` values: a plus sign may come first. -/
def parseUnsigned (bound : ℕ) (l : List UInt8) : Option ℕ :=
  let digits := if l.head? = some 0x2B then l.tail else l
  if digits ≠ [] ∧ digits.all isDigit ∧ number digits < bound then some (number digits) else none

/-- An integer as `format!` writes it. -/
def decimal (n : ℕ) : List UInt8 := (Nat.toDigits 10 n).map fun c => UInt8.ofNat c.toNat

/-- The same at no less than a width: `format!` with `:0width`. -/
def padded (width n : ℕ) : List UInt8 :=
  List.replicate (width - (decimal n).length) 0x30 ++ decimal n

theorem toNat_of_isDigit {c : Char} (h : c.isDigit = true) :
    (UInt8.ofNat c.toNat).toNat = c.toNat ∧ 0x30 ≤ c.toNat ∧ c.toNat ≤ 0x39 := by
  simp only [Char.isDigit, Bool.and_eq_true, decide_eq_true_eq, ge_iff_le,
    UInt32.le_iff_toNat_le] at h
  have hlow : 0x30 ≤ c.toNat := h.1
  have hhigh : c.toNat ≤ 0x39 := h.2
  exact ⟨Utf8.toNat_ofNat (by omega), hlow, hhigh⟩

theorem isDigit_decimal (n : ℕ) : (decimal n).all isDigit = true := by
  simp only [decimal, List.all_map, List.all_eq_true]
  intro c hc
  obtain ⟨heq, hlow, hhigh⟩ :=
    toNat_of_isDigit (Nat.isDigit_of_mem_toDigits (by omega) (by omega) hc)
  simp [isDigit, heq, hlow, hhigh]

theorem decimal_ne_nil (n : ℕ) : decimal n ≠ [] := by
  simp [decimal, Nat.toDigits_ne_nil]

theorem number_decimal (n : ℕ) : number (decimal n) = n := by
  have hfold : number (decimal n) = Nat.ofDigitChars 10 (Nat.toDigits 10 n) 0 := by
    rw [number, decimal, List.foldl_map, Nat.ofDigitChars_eq_foldl]
    refine List.foldl_ext _ _ 0 fun k c hc => ?_
    rw [(toNat_of_isDigit (Nat.isDigit_of_mem_toDigits (by omega) (by omega) hc)).1]
    rfl
  rw [hfold, Nat.ofDigitChars_ten_toDigits]

theorem number_replicate_append (k : ℕ) (l : List UInt8) :
    number (List.replicate k 0x30 ++ l) = number l := by
  induction k with
  | zero => rfl
  | succ k ih => exact ih

theorem number_padded (width n : ℕ) : number (padded width n) = n := by
  rw [padded, number_replicate_append, number_decimal]

theorem length_padded {width : ℕ} (hw : 0 < width) (h : n < 10 ^ width) :
    (padded width n).length = width := by
  have hlen : (decimal n).length ≤ width := by
    rw [decimal, List.length_map]
    exact (Nat.length_toDigits_le_iff (by omega) hw).2 h
  simp [padded]
  omega

theorem isDigit_padded (width n : ℕ) : (padded width n).all isDigit = true := by
  simp [padded, isDigit_decimal, isDigit]

theorem ascii_of_digits (h : l.all isDigit = true) : ∀ b ∈ l, b.toNat < 0x80 := by
  intro b hb
  have hdigit := List.all_eq_true.1 h b hb
  simp only [isDigit, decide_eq_true_eq] at hdigit
  omega

theorem parseUnsigned_digits (hl : l ≠ []) (hd : l.all isDigit = true) (h : number l < bound) :
    parseUnsigned bound l = some (number l) := by
  have hplus : l.head? ≠ some 0x2B := by
    intro hh
    cases l with
    | nil => simp at hh
    | cons b l =>
      simp only [List.head?_cons, Option.some.injEq] at hh
      simp [hh, isDigit] at hd
  simp only [parseUnsigned, if_neg hplus]
  rw [if_pos ⟨hl, hd, h⟩]

end Numbers

end Velo
