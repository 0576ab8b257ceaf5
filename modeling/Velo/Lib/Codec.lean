import Mathlib.Data.PNat.Basic
import Mathlib.Data.Set.Basic
import Mathlib.Tactic.Ring
import Velo.Lib.Bytes

/-! Bytes stored through a pointer that moves past each of them, and records of a fixed size that
are stored and read field by field. -/
namespace Velo

/-- A buffer with a pointer into it: the bytes behind the pointer and those from it on. -/
structure Cursor where
  behind : List UInt8
  ahead : List UInt8

/-- A store moves the pointer; past the end of the buffer there is nothing to store to. -/
abbrev Writer := StateT Cursor Option

namespace Writer
open Reader

def put (v : UInt8) : Writer Unit
  | ⟨_, []⟩ => none
  | ⟨behind, _ :: ahead⟩ => some ((), ⟨behind ++ [v], ahead⟩)

/-- `for (int i = start; i >= 0; i -= step)`. -/
def downFrom (start : ℤ) (step : ℕ+) (body : ℤ → Writer Unit) : Writer Unit :=
  if 0 ≤ start then do
    body start
    downFrom (start - step) step body
  else pure ()
termination_by (start + step).toNat
decreasing_by
  have hstep := step.pos
  omega

variable {α β : Type} {v w : Writer Unit} {l m : List UInt8} {n k : ℕ}

/-- The bytes are stored from the pointer on, which moves past them, and nothing else is changed;
a buffer that ends before them is overrun. -/
structure Writes (w : Writer Unit) (l : List UInt8) : Prop where
  short : ∀ c : Cursor, c.ahead.length < l.length → w c = none
  exact : ∀ c : Cursor, l.length ≤ c.ahead.length →
    w c = some ((), ⟨c.behind ++ l, c.ahead.drop l.length⟩)

theorem Writes.pure : Writes (Pure.pure ()) [] where
  short := by simp
  exact := by
    intro c _
    rw [List.append_nil]
    rfl

theorem Writes.bind (hv : Writes v l) (hw : Writes w m) :
    Writes (v >>= fun _ => w) (l ++ m) where
  short := by
    intro c hc
    rw [List.length_append] at hc
    by_cases hl : c.ahead.length < l.length
    · simp [Bind.bind, StateT.bind, hv.short c hl]
    · have hrest : (c.ahead.drop l.length).length < m.length := by
        rw [List.length_drop]
        omega
      simp [Bind.bind, StateT.bind, hv.exact c (Nat.le_of_not_lt hl), hw.short ⟨_, _⟩ hrest]
  exact := by
    intro c hc
    rw [List.length_append] at hc
    have hrest : m.length ≤ (c.ahead.drop l.length).length := by
      rw [List.length_drop]
      omega
    simp [Bind.bind, StateT.bind, hv.exact c (by omega), hw.exact ⟨_, _⟩ hrest]

theorem Writes.unique (hl : Writes w l) (hm : Writes w m) : l = m := by
  have hlen : l.length ≤ (l ++ m).length := by simp
  have hlen' : m.length ≤ (l ++ m).length := by simp
  have hsame := (hl.exact ⟨[], l ++ m⟩ hlen).symm.trans (hm.exact ⟨[], l ++ m⟩ hlen')
  simp only [Option.some.injEq, Prod.mk.injEq, Cursor.mk.injEq, List.nil_append] at hsame
  exact hsame.2.1

theorem put_writes (b : UInt8) : Writes (put b) [b] where
  short := by
    intro c hc
    obtain ⟨behind, ahead⟩ := c
    cases ahead with
    | nil => rfl
    | cons x ahead => simp at hc
  exact := by
    intro c hc
    obtain ⟨behind, ahead⟩ := c
    cases ahead with
    | nil => simp at hc
    | cons x ahead => rfl

/-- The loop stores a byte for each value of its counter, the last multiple of the step first. -/
theorem downFrom_writes (step : ℕ+) (f : ℤ → UInt8) (n : ℕ) :
    Writes (downFrom (step * n - step) step fun i => put (f i))
      ((List.range n).reverse.map fun j : ℕ => f (step * j)) := by
  have hstep := step.pos
  induction n with
  | zero =>
    rw [downFrom, if_neg (by push_cast; omega)]
    exact Writes.pure
  | succ n ih =>
    have hstart : (step : ℤ) * (n + 1 : ℕ) - step = step * n := by
      push_cast
      ring
    rw [hstart, downFrom, if_pos (Int.mul_nonneg (by omega) (by omega)), List.range_succ,
      List.reverse_append]
    exact (put_writes _).bind ih

end Writer

open Reader Writer

/-- The members of a set are stored in exactly `size` bytes and read back from exactly these, and
the bytes of every string of this size are one of them, which is stored as these bytes. -/
structure Codec {α : Type} (S : Set α) (encode : α → Writer Unit) (decode : Reader α)
    (size : ℕ) : Prop where
  takes : Takes decode size
  decode_encode : ∀ a ∈ S, ∃ l, l.length = size ∧ Writes (encode a) l ∧
    ∀ m, decode (l ++ m) = some (a, m)
  encode_decode : ∀ l : List UInt8, l.length = size →
    ∃ a ∈ S, (∀ m, decode (l ++ m) = some (a, m)) ∧ Writes (encode a) l

namespace Codec

section Fields

variable {α β : Type} {S : Set α} {put : β → Writer Unit} {get : Reader β} {n k : ℕ}

theorem of_bytes (bytes : β → List UInt8) (htakes : Takes get n)
    (hlen : ∀ b, (bytes b).length = n) (hbytes : ∀ l, l.length = n → ∃ b, l = bytes b)
    (hput : ∀ b, Writes (put b) (bytes b)) (hget : ∀ b m, get (bytes b ++ m) = some (b, m)) :
    Codec Set.univ put get n where
  takes := htakes
  decode_encode := fun b _ => ⟨bytes b, hlen b, hput b, hget b⟩
  encode_decode := by
    intro l hl
    obtain ⟨b, rfl⟩ := hbytes l hl
    exact ⟨b, trivial, hget b, hput b⟩

/-- The last field makes the record. -/
theorem last (hfield : Codec Set.univ put get n) (proj : α → β) {mk : β → α}
    (hS : ∀ a b, a ∈ S ∧ proj a = b ↔ a = mk b) :
    Codec S (fun a => put (proj a)) (get >>= fun b => pure (mk b)) n where
  takes := hfield.takes.bind fun b => Takes.pure (mk b)
  decode_encode := by
    intro a ha
    obtain ⟨l, hl, hput, hget⟩ := hfield.decode_encode (proj a) trivial
    refine ⟨l, hl, hput, fun m => ?_⟩
    rw [bind_apply (hget m), ← (hS a (proj a)).mp ⟨ha, rfl⟩]
    rfl
  encode_decode := by
    intro l hl
    obtain ⟨b, -, hget, hput⟩ := hfield.encode_decode l hl
    obtain ⟨ha, hproj⟩ := (hS (mk b) b).mpr rfl
    refine ⟨mk b, ha, fun m => ?_, ?_⟩
    · rw [bind_apply (hget m)]
      rfl
    · rw [hproj]
      exact hput

/-- A field, and the record with this field known. -/
theorem field (hfield : Codec Set.univ put get n) (proj : α → β) {encode : α → Writer Unit}
    {decode : β → Reader α} (hrest : ∀ b, Codec {a ∈ S | proj a = b} encode (decode b) k) :
    Codec S (fun a => put (proj a) >>= fun _ => encode a) (get >>= decode) (n + k) where
  takes := hfield.takes.bind fun b => (hrest b).takes
  decode_encode := by
    intro a ha
    obtain ⟨l, hl, hput, hget⟩ := hfield.decode_encode (proj a) trivial
    obtain ⟨l', hl', hencode, hdecode⟩ := (hrest (proj a)).decode_encode a ⟨ha, rfl⟩
    refine ⟨l ++ l', ?_, hput.bind hencode, ?_⟩
    · rw [List.length_append, hl, hl']
    · intro m
      rw [List.append_assoc, bind_apply (hget _), hdecode]
  encode_decode := by
    intro l hl
    have hfront : (l.take n).length = n := by
      rw [List.length_take]
      omega
    have hback : (l.drop n).length = k := by
      rw [List.length_drop]
      omega
    obtain ⟨b, -, hget, hput⟩ := hfield.encode_decode (l.take n) hfront
    obtain ⟨a, ⟨ha, rfl⟩, hdecode, hencode⟩ := (hrest b).encode_decode (l.drop n) hback
    have hwrites := hput.bind hencode
    rw [List.take_append_drop] at hwrites
    refine ⟨a, ha, ?_, hwrites⟩
    intro m
    rw [← List.take_append_drop n l, List.append_assoc, bind_apply (hget _), hdecode]

end Fields

variable {α : Type} {S : Set α} {encode : α → Writer Unit} {decode : Reader α} {n : ℕ}
  {bytes : α → List UInt8}

theorem decode_bytes (h : Codec S encode decode n) (hbytes : ∀ a, Writes (encode a) (bytes a))
    {a : α} (ha : a ∈ S) (m : List UInt8) : decode (bytes a ++ m) = some (a, m) := by
  obtain ⟨l, -, hl, hdecode⟩ := h.decode_encode a ha
  rw [(hbytes a).unique hl, hdecode]

theorem exists_bytes (h : Codec S encode decode n) (hbytes : ∀ a, Writes (encode a) (bytes a))
    {l : List UInt8} (hl : l.length = n) : ∃ a ∈ S, l = bytes a := by
  obtain ⟨a, ha, -, hencode⟩ := h.encode_decode l hl
  exact ⟨a, ha, hencode.unique (hbytes a)⟩

end Codec
end Velo
