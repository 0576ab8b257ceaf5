import Mathlib.Data.List.Basic

/-! Valid UTF-8, read one byte at a time. -/
namespace Velo.Utf8

/-- A least and a greatest byte. -/
abbrev ByteRange := ℕ × ℕ

def tail : ByteRange := (0x80, 0xBF)

/-- What has to follow a first byte, if a character can begin with it. -/
def owed (b : UInt8) : Option (List ByteRange) :=
  let n := b.toNat
  if n < 0x80 then some []
  else if n < 0xC2 then none
  else if n < 0xE0 then some [tail]
  else if n = 0xE0 then some [(0xA0, 0xBF), tail]
  else if n = 0xED then some [(0x80, 0x9F), tail]
  else if n < 0xF0 then some [tail, tail]
  else if n = 0xF0 then some [(0x90, 0xBF), tail, tail]
  else if n < 0xF4 then some [tail, tail, tail]
  else if n = 0xF4 then some [(0x80, 0x8F), tail, tail]
  else none

/-- Whether the bytes pay what is owed and go on with whole characters. -/
def accepts : List ByteRange → List UInt8 → Bool
  | rs, [] => rs.isEmpty
  | [], b :: l =>
    match owed b with
    | some rs => accepts rs l
    | none => false
  | r :: rs, b :: l => decide (r.1 ≤ b.toNat ∧ b.toNat ≤ r.2) && accepts rs l

/-- `str::from_utf8` succeeds. -/
def isUtf8 (l : List UInt8) : Bool := accepts [] l

/-- The bytes of a character after its first. -/
def isContinuation (b : UInt8) : Bool := decide (0x80 ≤ b.toNat ∧ b.toNat < 0xC0)

/-- `str::is_char_boundary` -/
def isCharBoundary (l : List UInt8) (i : ℕ) : Bool :=
  match l.drop i with
  | [] => i == l.length
  | b :: _ => i == 0 || !isContinuation b

/-- The bytes of a text. -/
def encode (s : List Char) : List UInt8 := s.flatMap String.utf8EncodeChar

variable {rs : List ByteRange} {a b : UInt8} {l m : List UInt8}

def High (rs : List ByteRange) : Prop := ∀ r ∈ rs, 0x80 ≤ r.1

theorem owed_high (h : owed b = some rs) : High rs := by
  simp only [owed] at h
  repeat' split at h
  all_goals simp only [Option.some.injEq, reduceCtorEq] at h
  all_goals
    subst h
    unfold High
    decide

theorem owed_ascii (h : a.toNat < 0x80) : owed a = some [] := if_pos h

theorem owed_continuation (h : isContinuation b = true) : owed b = none := by
  simp only [isContinuation, decide_eq_true_eq] at h
  simp only [owed]
  rw [if_neg (by omega), if_pos (by omega)]

/-- A byte below 0x80 is a character, whatever is around it. -/
theorem accepts_ascii (hr : High rs) (ha : a.toNat < 0x80) :
    accepts rs (l ++ a :: m) = (accepts rs l && isUtf8 m) := by
  induction l generalizing rs with
  | nil =>
    cases rs with
    | nil => simp [accepts, owed_ascii ha, isUtf8]
    | cons r rs =>
      have hlow := hr r (by simp)
      simp [accepts]
      omega
  | cons b l ih =>
    cases rs with
    | nil =>
      cases ho : owed b with
      | none => simp [accepts, ho]
      | some rs => simp [accepts, ho, ih (owed_high ho)]
    | cons r rs =>
      have htail : High rs := fun r' hr' => hr r' (by simp [hr'])
      simp [accepts, ih htail, Bool.and_assoc]

theorem isUtf8_ascii (ha : a.toNat < 0x80) : isUtf8 (l ++ a :: m) = (isUtf8 l && isUtf8 m) :=
  accepts_ascii (by simp [High]) ha

theorem isUtf8_of_ascii (h : ∀ b ∈ l, b.toNat < 0x80) : isUtf8 l = true := by
  induction l with
  | nil => rfl
  | cons b l ih =>
    have hsplit := isUtf8_ascii (l := []) (m := l) (h b (by simp))
    rw [List.nil_append] at hsplit
    rw [hsplit, ih fun a ha => h a (by simp [ha])]
    rfl

theorem accepts_append (h : accepts rs l = true) : accepts rs (l ++ m) = isUtf8 m := by
  induction l generalizing rs with
  | nil =>
    cases rs with
    | nil => rfl
    | cons r rs => simp [accepts] at h
  | cons b l ih =>
    cases rs with
    | nil =>
      cases ho : owed b with
      | none => simp [accepts, ho] at h
      | some rs =>
        simp only [accepts, ho] at h
        simp [accepts, ho, ih h]
    | cons r rs =>
      simp only [accepts, Bool.and_eq_true] at h
      simp only [List.cons_append, accepts, h.1, Bool.true_and]
      exact ih h.2

theorem isUtf8_append (h : isUtf8 l = true) : isUtf8 (l ++ m) = isUtf8 m := accepts_append h

theorem isUtf8_singleton (h : isUtf8 [b] = true) : b.toNat < 0x80 := by
  cases ho : owed b with
  | none => simp [isUtf8, accepts, ho] at h
  | some rs =>
    simp only [isUtf8, accepts, ho, List.isEmpty_iff] at h
    subst h
    by_contra hb
    simp only [owed, if_neg hb] at ho
    repeat' split at ho
    all_goals simp at ho

theorem isUtf8_head (h : isUtf8 (b :: l) = true) : isContinuation b = false := by
  by_contra hb
  simp only [Bool.not_eq_false] at hb
  simp [isUtf8, accepts, owed_continuation hb] at h

theorem toNat_ofNat {n : ℕ} (h : n < 256) : (UInt8.ofNat n).toNat = n :=
  UInt8.toNat_ofNat_of_lt' h

theorem isUtf8_first (h : owed b = some rs) : isUtf8 (b :: l) = accepts rs l := by
  simp [isUtf8, accepts, h]

theorem accepts_next {n : ℕ} {r : ByteRange} (h : n < 256) (hlow : r.1 ≤ n) (hhigh : n ≤ r.2) :
    accepts (r :: rs) (UInt8.ofNat n :: l) = accepts rs l := by
  simp only [accepts, toNat_ofNat h]
  simp [hlow, hhigh]

/-- A tail byte carries six bits. -/
theorem accepts_tail (n : ℕ) :
    accepts (tail :: rs) (UInt8.ofNat (n % 64 + 0x80) :: l) = accepts rs l := by
  refine accepts_next (by omega) ?_ ?_
  · exact Nat.le_add_left 128 (n % 64)
  · show n % 64 + 0x80 ≤ 191
    omega

theorem owed_two {n : ℕ} (h : 2 ≤ n) (hn : n < 32) :
    owed (UInt8.ofNat (n + 0xC0)) = some [tail] := by
  simp only [owed, toNat_ofNat (show n + 0xC0 < 256 by omega)]
  grind

theorem owed_three {n : ℕ} (hn : n < 16) : owed (UInt8.ofNat (n + 0xE0)) =
    some [if n = 0 then (0xA0, 0xBF) else if n = 13 then (0x80, 0x9F) else tail, tail] := by
  revert n
  decide

theorem owed_four {n : ℕ} (hn : n < 5) : owed (UInt8.ofNat (n + 0xF0)) =
    some [if n = 0 then (0x90, 0xBF) else if n = 4 then (0x80, 0x8F) else tail, tail, tail] := by
  revert n
  decide

theorem isUtf8_utf8EncodeChar (c : Char) : isUtf8 (String.utf8EncodeChar c) = true := by
  have hv : c.val.toNat < 0xD800 ∨ 0xDFFF < c.val.toNat ∧ c.val.toNat < 0x110000 := c.valid
  simp only [String.utf8EncodeChar]
  generalize c.val.toNat = n at hv ⊢
  by_cases hone : n ≤ 0x7F
  · have howed : owed (UInt8.ofNat n) = some [] :=
      owed_ascii (by rw [toNat_ofNat] <;> omega)
    rw [if_pos hone, isUtf8_first howed]
    rfl
  rw [if_neg hone]
  by_cases htwo : n ≤ 0x7FF
  · rw [if_pos htwo, isUtf8_first (owed_two (by omega) (by omega)), accepts_tail]
    rfl
  rw [if_neg htwo]
  by_cases hthree : n ≤ 0xFFFF
  · -- neither overlong nor a surrogate
    rw [if_pos hthree, isUtf8_first (owed_three (by omega)), accepts_next (by omega), accepts_tail]
    · rfl
    · split_ifs <;> dsimp only [tail] <;> omega
    · split_ifs <;> dsimp only [tail] <;> omega
  · rw [if_neg hthree, isUtf8_first (owed_four (by omega)), accepts_next (by omega), accepts_tail,
      accepts_tail]
    · rfl
    · split_ifs <;> dsimp only [tail] <;> omega
    · split_ifs <;> dsimp only [tail] <;> omega

theorem isUtf8_encode (s : List Char) : isUtf8 (encode s) = true := by
  induction s with
  | nil => rfl
  | cons c s ih =>
    have hcons : encode (c :: s) = String.utf8EncodeChar c ++ encode s := rfl
    rw [hcons, isUtf8_append (isUtf8_utf8EncodeChar c), ih]

/-- A byte below 0x80 in a text is the character with this code. -/
theorem mem_utf8EncodeChar {c : Char} (ha : a.toNat < 0x80) (h : a ∈ String.utf8EncodeChar c) :
    c.val.toNat = a.toNat := by
  simp only [String.utf8EncodeChar] at h
  generalize c.val.toNat = n at h ⊢
  have hofNat : ∀ k < 256, a = UInt8.ofNat k → a.toNat = k := by
    rintro k hk rfl
    exact toNat_ofNat hk
  by_cases hone : n ≤ 0x7F
  · rw [if_pos hone, List.mem_singleton] at h
    exact (hofNat n (by omega) h).symm
  -- every byte of a longer character is from 0x80 on
  exfalso
  rw [if_neg hone] at h
  have hlong : ∀ k, 0x80 ≤ k → k < 256 → a ≠ UInt8.ofNat k := by
    intro k hk hsmall heq
    have hvalue := hofNat k hsmall heq
    omega
  split at h
  · simp only [List.mem_cons, List.not_mem_nil, or_false] at h
    rcases h with h | h <;> exact hlong _ (by omega) (by omega) h
  split at h
  · simp only [List.mem_cons, List.not_mem_nil, or_false] at h
    rcases h with h | h | h <;> exact hlong _ (by omega) (by omega) h
  · simp only [List.mem_cons, List.not_mem_nil, or_false] at h
    rcases h with h | h | h | h <;> exact hlong _ (by omega) (by omega) h

theorem mem_encode {s : List Char} {c : Char} (hc : c.val.toNat < 0x80) (hs : c ∉ s) :
    UInt8.ofNat c.val.toNat ∉ encode s := by
  intro h
  obtain ⟨d, hd, hmem⟩ := List.mem_flatMap.1 h
  have hcode := toNat_ofNat (show c.val.toNat < 256 by omega)
  have heq := mem_utf8EncodeChar (by omega) hmem
  rw [hcode] at heq
  have hval : d.val = c.val := UInt32.toNat_inj.1 heq
  exact hs (Char.ext hval ▸ hd)

end Velo.Utf8
