import Velo.Lib.Framing
import Velo.Lib.Text

/-! JSON Lines: on each line one flat object, whose values are texts without escapes and numbers. A
number is kept as it is spelled. -/
namespace Velo.Json

def quote : UInt8 := 0x22
def comma : UInt8 := 0x2C
def colon : UInt8 := 0x3A
def openBrace : UInt8 := 0x7B
def closeBrace : UInt8 := 0x7D
def space : UInt8 := 0x20
def newline : UInt8 := 0x0A
def minus : UInt8 := 0x2D

def isNumberByte (b : UInt8) : Bool :=
  isDigit b || [minus, 0x2B, 0x2E, 0x45, 0x65].contains b

inductive Value
  | text (s : List UInt8)
  | number (s : List UInt8)
  deriving DecidableEq

abbrev Field := List UInt8 × Value

def Value.write : Value → List UInt8
  | .text s => quote :: (s ++ [quote])
  | .number s => s

def writeField (f : Field) : List UInt8 :=
  quote :: (f.1 ++ quote :: colon :: space :: f.2.write)

def writeFields : List Field → List UInt8
  | [] => [closeBrace]
  | [f] => writeField f ++ [closeBrace]
  | f :: f' :: fs => writeField f ++ comma :: space :: writeFields (f' :: fs)

def writeObject (fs : List Field) : List UInt8 := openBrace :: writeFields fs

def skipSpace (l : List UInt8) : List UInt8 := l.dropWhile (· = space)

def readValue (l : List UInt8) : Option (Value × List UInt8) :=
  match l with
  | [] => none
  | b :: r =>
    if b = quote then (splitOnce quote r).map fun x => (.text x.1, x.2)
    else if isNumberByte b then
      some (.number ((b :: r).takeWhile isNumberByte), (b :: r).dropWhile isNumberByte)
    else none

def readField (l : List UInt8) : Option (Field × List UInt8) :=
  match l with
  | [] => none
  | b :: r =>
    if b = quote then
      match splitOnce quote r with
      | some (key, c :: r) =>
        if c = colon then (readValue (skipSpace r)).map fun x => ((key, x.1), x.2) else none
      | _ => none
    else none

/-- Fields up to the closing brace, which is the end. -/
def readFields : ℕ → List UInt8 → Option (List Field)
  | 0, _ => none
  | fuel + 1, l =>
    match readField l with
    | some (f, b :: r) =>
      if b = comma then (readFields fuel (skipSpace r)).map (f :: ·)
      else if b = closeBrace ∧ r = [] then some [f]
      else none
    | _ => none

def readObject (l : List UInt8) : Option (List Field) :=
  match l with
  | [] => none
  | b :: r => if b = openBrace then readFields r.length r else none

/-- A value that is read back as it is written. -/
def Value.Plain : Value → Prop
  | .text s => quote ∉ s ∧ newline ∉ s
  | .number s => s ≠ [] ∧ ∀ b ∈ s, isNumberByte b

def Field.Plain (f : Field) : Prop := quote ∉ f.1 ∧ newline ∉ f.1 ∧ f.2.Plain

variable {l r : List UInt8} {v : Value} {f : Field} {fs : List Field}

theorem isNumberByte_ne {b : UInt8} (h : isNumberByte b) :
    b ≠ quote ∧ b ≠ comma ∧ b ≠ space ∧ b ≠ newline ∧ b ≠ closeBrace := by
  refine ⟨?_, ?_, ?_, ?_, ?_⟩ <;> rintro rfl <;> exact absurd h (by decide)

theorem takeWhile_append_stop {p : UInt8 → Bool} (hl : ∀ b ∈ l, p b) {c : UInt8} (hc : ¬ p c) :
    (l ++ c :: r).takeWhile p = l ∧ (l ++ c :: r).dropWhile p = c :: r := by
  rw [List.takeWhile_append_of_pos hl, List.dropWhile_append_of_pos hl,
    List.takeWhile_cons_of_neg hc, List.dropWhile_cons_of_neg hc, List.append_nil]
  exact ⟨rfl, rfl⟩

/-- A value is followed by something that no number goes on with. -/
theorem readValue_write (hv : v.Plain) {c : UInt8} (hc : isNumberByte c = false) :
    readValue (v.write ++ c :: r) = some (v, c :: r) := by
  cases v with
  | text s =>
    have hsplit := splitOnce_append (y := c :: r) hv.1
    simp only [Value.write, List.cons_append, List.append_assoc, List.nil_append, readValue,
      if_true, hsplit, Option.map_some]
  | number s =>
    obtain ⟨hne, hs⟩ := hv
    obtain ⟨htake, hdrop⟩ := takeWhile_append_stop (r := r) (c := c) hs (by simp [hc])
    obtain ⟨b, s, rfl⟩ := List.exists_cons_of_ne_nil hne
    have hb := hs b List.mem_cons_self
    rw [List.cons_append] at htake hdrop
    simp only [Value.write, List.cons_append, readValue, if_neg (isNumberByte_ne hb).1, if_pos hb,
      htake, hdrop]

theorem write_head (hv : v.Plain) : ∃ b s, v.write = b :: s ∧ b ≠ space := by
  cases v with
  | text s => exact ⟨quote, s ++ [quote], rfl, by decide⟩
  | number s =>
    obtain ⟨b, s, rfl⟩ := List.exists_cons_of_ne_nil hv.1
    exact ⟨b, s, rfl, (isNumberByte_ne (hv.2 b List.mem_cons_self)).2.2.1⟩

theorem readField_write (hf : f.Plain) {c : UInt8} (hc : isNumberByte c = false) :
    readField (writeField f ++ c :: r) = some (f, c :: r) := by
  obtain ⟨key, v⟩ := f
  obtain ⟨hkey, -, hv⟩ := hf
  have hsplit := splitOnce_append (y := colon :: space :: (v.write ++ c :: r)) hkey
  have hskip : skipSpace (space :: (v.write ++ c :: r)) = v.write ++ c :: r := by
    obtain ⟨b, s, hb, hne⟩ := write_head hv
    simp [skipSpace, hb, hne]
  simp only [writeField, List.cons_append, List.append_assoc, readField, if_true, hsplit, hskip,
    readValue_write hv hc, Option.map_some]

theorem skipSpace_writeFields (fs : List Field) : skipSpace (space :: writeFields (f :: fs)) =
    writeFields (f :: fs) := by
  have hhead : ∃ s, writeFields (f :: fs) = quote :: s := by
    cases fs with
    | nil => exact ⟨_, rfl⟩
    | cons f' fs => exact ⟨_, rfl⟩
  obtain ⟨s, hs⟩ := hhead
  rw [hs]
  rfl

theorem readFields_write (hf : f.Plain) (hfs : ∀ f ∈ fs, f.Plain) {fuel : ℕ}
    (hfuel : fs.length < fuel) : readFields fuel (writeFields (f :: fs)) = some (f :: fs) := by
  induction fs generalizing f fuel with
  | nil =>
    obtain ⟨fuel, rfl⟩ := Nat.exists_eq_succ_of_ne_zero (Nat.ne_of_gt hfuel)
    have hread := readField_write (r := []) hf (c := closeBrace) (by decide)
    simp only [writeFields, readFields, hread]
    rfl
  | cons f' fs ih =>
    obtain ⟨fuel, rfl⟩ := Nat.exists_eq_succ_of_ne_zero (Nat.ne_of_gt (Nat.zero_lt_of_lt hfuel))
    have hread := readField_write (r := space :: writeFields (f' :: fs)) hf (c := comma) (by decide)
    have hrest := ih (hfs f' List.mem_cons_self)
      (fun g hg => hfs g (List.mem_cons_of_mem f' hg)) (Nat.lt_of_succ_lt_succ hfuel)
    simp only [writeFields, readFields, hread, if_true, skipSpace_writeFields, hrest,
      Option.map_some]

theorem length_lt_writeFields (fs : List Field) : fs.length < (writeFields (f :: fs)).length := by
  induction fs generalizing f with
  | nil => simp [writeFields]
  | cons f' fs ih =>
    have hrest := @ih f'
    simp only [writeFields, List.length_append, List.length_cons] at hrest ⊢
    omega

theorem readObject_write (hne : fs ≠ []) (hfs : ∀ f ∈ fs, f.Plain) :
    readObject (writeObject fs) = some fs := by
  obtain ⟨f, fs, rfl⟩ := List.exists_cons_of_ne_nil hne
  simp only [writeObject, readObject, if_true]
  exact readFields_write (hfs f List.mem_cons_self) (fun g hg => hfs g (List.mem_cons_of_mem f hg))
    (length_lt_writeFields fs)

theorem newline_not_mem_write (hv : v.Plain) : newline ∉ v.write := by
  cases v with
  | text s =>
    have hq : newline ≠ quote := by decide
    simp [Value.write, hq, hv.2]
  | number s => exact fun hmem => (isNumberByte_ne (hv.2 _ hmem)).2.2.2.1 rfl

theorem newline_not_mem_writeFields (hfs : ∀ f ∈ fs, f.Plain) : newline ∉ writeFields fs := by
  have hfield (f : Field) (hf : f.Plain) : newline ∉ writeField f := by
    obtain ⟨-, hkey, hv⟩ := hf
    have hq : newline ≠ quote := by decide
    have hc : newline ≠ colon := by decide
    have hs : newline ≠ space := by decide
    simp [writeField, hq, hc, hs, hkey, newline_not_mem_write hv]
  have hb : newline ≠ closeBrace := by decide
  have hc : newline ≠ comma := by decide
  have hs : newline ≠ space := by decide
  induction fs with
  | nil => simp [writeFields, hb]
  | cons f fs ih =>
    have hrest := ih fun g hg => hfs g (List.mem_cons_of_mem f hg)
    have hf := hfield f (hfs f List.mem_cons_self)
    cases fs with
    | nil => simp [writeFields, hf, hb]
    | cons f' fs => simp [writeFields, hf, hc, hs, hrest]

def writeInt (n : ℤ) : List UInt8 :=
  if n < 0 then minus :: decimal n.natAbs else decimal n.natAbs

def readNat (l : List UInt8) : Option ℕ :=
  if l ≠ [] ∧ l.all isDigit then some (number l) else none

def readInt (l : List UInt8) : Option ℤ :=
  if l.head? = some minus then (readNat l.tail).map fun n : ℕ => -(n : ℤ)
  else (readNat l).map fun n : ℕ => (n : ℤ)

theorem readNat_decimal (n : ℕ) : readNat (decimal n) = some n := by
  rw [readNat, if_pos ⟨decimal_ne_nil n, isDigit_decimal n⟩, number_decimal]

theorem plain_decimal (n : ℕ) : (Value.number (decimal n)).Plain := by
  refine ⟨decimal_ne_nil n, fun b hb => ?_⟩
  rw [isNumberByte, List.all_eq_true.mp (isDigit_decimal n) b hb]
  rfl

theorem plain_writeInt (n : ℤ) : (Value.number (writeInt n)).Plain := by
  obtain ⟨hne, hbytes⟩ := plain_decimal n.natAbs
  rw [writeInt]
  split
  · refine ⟨List.cons_ne_nil _ _, fun b hb => ?_⟩
    rcases List.mem_cons.mp hb with rfl | hb
    · decide
    · exact hbytes b hb
  · exact ⟨hne, hbytes⟩

theorem readInt_writeInt (n : ℤ) : readInt (writeInt n) = some n := by
  rw [writeInt]
  split
  · rename_i hneg
    rw [readInt, List.head?_cons, if_pos rfl, List.tail_cons, readNat_decimal, Option.map_some,
      Option.some.injEq]
    omega
  · rename_i hpos
    have hhead : (decimal n.natAbs).head? ≠ some minus := by
      intro hminus
      have hdigit := List.all_eq_true.mp (isDigit_decimal n.natAbs) minus
        (List.mem_of_head? hminus)
      exact absurd hdigit (by decide)
    rw [readInt, if_neg hhead, readNat_decimal, Option.map_some, Option.some.injEq]
    omega

def getText (key : List UInt8) (fs : List Field) : Option (List UInt8) :=
  match fs.lookup key with
  | some (.text s) => some s
  | _ => none

def getNumber (key : List UInt8) (fs : List Field) : Option (List UInt8) :=
  match fs.lookup key with
  | some (.number s) => some s
  | _ => none

section Lookup

variable {key key' s : List UInt8} {v : Value} {fs : List Field}

theorem getText_self : getText key ((key, .text s) :: fs) = some s := by
  rw [getText, List.lookup_cons_self]

theorem getNumber_self : getNumber key ((key, .number s) :: fs) = some s := by
  rw [getNumber, List.lookup_cons_self]

theorem getNumber_of_ne (h : key ≠ key') :
    getNumber key ((key', v) :: fs) = getNumber key fs := by
  have hne : (key == key') = false := beq_eq_false_iff_ne.mpr h
  simp only [getNumber, List.lookup_cons, hne]

end Lookup

/-- Whole lines; what is written of the next one waits for its end. -/
def lines : Framing UInt8 (List UInt8) where
  next l := (splitOnce newline l).elim .more fun p => .item p.1 p.2
  next_nil := rfl
  item_append := by
    intro l line r m h
    cases hsplit : splitOnce newline l with
    | none =>
      rw [hsplit] at h
      cases h
    | some p =>
      rw [hsplit] at h
      cases h
      obtain ⟨rfl, hline⟩ := splitOnce_eq_some.mp hsplit
      rw [List.append_assoc, List.cons_append, splitOnce_append hline]
      rfl
  reject_append := by
    intro l m h
    cases hsplit : splitOnce newline l with
    | none =>
      rw [hsplit] at h
      cases h
    | some p =>
      rw [hsplit] at h
      cases h
  item_shorter := by
    intro l line r h
    cases hsplit : splitOnce newline l with
    | none =>
      rw [hsplit] at h
      cases h
    | some p =>
      rw [hsplit] at h
      cases h
      obtain ⟨rfl, -⟩ := splitOnce_eq_some.mp hsplit
      simp only [List.length_append, List.length_cons]
      omega

theorem parse_lines {ls : List (List UInt8)} (h : ∀ l ∈ ls, newline ∉ l) :
    (lines.parse (ls.flatMap fun l => l ++ [newline])).1 = ls := by
  induction ls with
  | nil =>
    rw [List.flatMap_nil, lines.parse_more lines.next_nil]
  | cons l ls ih =>
    have hnext : lines.next (l ++ newline :: ls.flatMap fun l => l ++ [newline]) =
        .item l (ls.flatMap fun l => l ++ [newline]) := by
      simp only [lines, splitOnce_append (h l List.mem_cons_self), Option.elim_some]
    rw [List.flatMap_cons, List.append_assoc, List.singleton_append, lines.parse_item hnext,
      ih fun l' hl' => h l' (List.mem_cons_of_mem l hl')]

end Velo.Json
