import Mathlib.Algebra.Order.Group.Int
import Mathlib.Tactic.Ring
import Velo.Lib.BigEndian

/-! Python's `struct` with `!` formats: big-endian, no padding, and an error for a value that does
not fit its field. -/
namespace Velo.Struct
open BigEndian

inductive Code
  | B
  | I
  | Q
  | q
  deriving DecidableEq

def Code.size : Code → ℕ
  | .B => 1
  | .I => 4
  | .Q => 8
  | .q => 8

/-- The least value of a field, and the first one above its range. -/
def Code.low : Code → ℤ
  | .q => -2 ^ 63
  | _ => 0

def Code.high : Code → ℤ
  | .B => 2 ^ 8
  | .I => 2 ^ 32
  | .Q => 2 ^ 64
  | .q => 2 ^ 63

def Code.pack (c : Code) (x : ℤ) : Option (List UInt8) :=
  if c.low ≤ x ∧ x < c.high then some (toBytes c.size (x % 2 ^ (8 * c.size)).toNat) else none

def Code.unpack (c : Code) (l : List UInt8) : ℤ :=
  let n : ℤ := ofBytes l
  if n < c.high then n else n - 2 ^ (8 * c.size)

/-- A double is packed as the 64 bits that it is. -/
abbrev Code.d : Code := .Q

abbrev Format := List Code

def calcsize (fmt : Format) : ℕ := (fmt.map Code.size).sum

def pack : Format → List ℤ → Option (List UInt8)
  | [], [] => some []
  | c :: fmt, x :: xs => do
    let l ← c.pack x
    let m ← pack fmt xs
    return l ++ m
  | _, _ => none

def unpackFields : Format → List UInt8 → List ℤ
  | [], _ => []
  | c :: fmt, l => c.unpack (l.take c.size) :: unpackFields fmt (l.drop c.size)

/-- The buffer must have exactly the size of the format. -/
def unpack (fmt : Format) (l : List UInt8) : Option (List ℤ) :=
  if l.length = calcsize fmt then some (unpackFields fmt l) else none

variable {c : Code} {x : ℤ} {l : List UInt8}

theorem Code.length_pack (h : c.pack x = some l) : l.length = c.size := by
  simp only [pack] at h
  split at h
  · cases h
    exact length_toBytes _ _
  · cases h

theorem Code.unpack_pack (h : c.pack x = some l) : c.unpack l = x := by
  simp only [pack] at h
  split at h
  · rename_i hx
    cases h
    have hlt : (x % 2 ^ (8 * c.size)).toNat < 256 ^ c.size := by
      cases c <;> simp only [size] <;> omega
    simp only [unpack, ofBytes_toBytes hlt]
    by_cases hn : ((x % 2 ^ (8 * c.size)).toNat : ℤ) < c.high
    · rw [if_pos hn]
      cases c <;> simp only [low, high, size] at hx hn ⊢ <;> omega
    · rw [if_neg hn]
      cases c <;> simp only [low, high, size] at hx hn ⊢ <;> omega
  · cases h

theorem unpackFields_pack {fmt : Format} {xs : List ℤ} (h : pack fmt xs = some l) :
    l.length = calcsize fmt ∧ unpackFields fmt l = xs := by
  induction fmt generalizing xs l with
  | nil =>
    cases xs with
    | nil =>
      cases h
      exact ⟨rfl, rfl⟩
    | cons x xs => cases h
  | cons c fmt ih =>
    cases xs with
    | nil => cases h
    | cons x xs =>
      simp only [pack, Option.bind_eq_bind, Option.bind_eq_some_iff] at h
      obtain ⟨head, hhead, tail, htail, hl⟩ := h
      cases hl
      obtain ⟨hlen, hfields⟩ := ih htail
      have hsize := Code.length_pack hhead
      refine ⟨?_, ?_⟩
      · rw [List.length_append, hsize, hlen]
        rfl
      · rw [unpackFields, ← hsize, List.take_left, List.drop_left, Code.unpack_pack hhead, hfields]

theorem unpack_pack {fmt : Format} {xs : List ℤ} (h : pack fmt xs = some l) :
    unpack fmt l = some xs := by
  obtain ⟨hlen, hfields⟩ := unpackFields_pack h
  rw [unpack, if_pos hlen, hfields]

theorem Code.pack_natCast {n : ℕ} (h : (n : ℤ) < c.high) :
    c.pack n = some (toBytes c.size n) := by
  have hfits : c.low ≤ n ∧ (n : ℤ) < c.high := by
    refine ⟨?_, h⟩
    cases c <;> simp only [low] <;> omega
  have hmod : ((n : ℤ) % 2 ^ (8 * c.size)).toNat = n := by
    cases c <;> simp only [high, size] at h ⊢ <;> omega
  rw [pack, if_pos hfits, hmod]

/-! Words of the field's own width always fit. -/

theorem pack_B (v : UInt8) : Code.B.pack v.toNat = some [v] := by
  have hv := v.toNat_lt
  have hhigh : (v.toNat : ℤ) < Code.B.high := by
    simp only [Code.high]
    omega
  rw [Code.pack_natCast hhigh]
  simp [Code.size, toBytes]

theorem pack_I (v : UInt32) : Code.I.pack v.toNat = some (toBytes 4 v.toNat) := by
  have hv := v.toNat_lt
  refine Code.pack_natCast ?_
  simp only [Code.high]
  omega

theorem pack_Q (v : UInt64) : Code.Q.pack v.toNat = some (toBytes 8 v.toNat) := by
  have hv := v.toNat_lt
  refine Code.pack_natCast ?_
  simp only [Code.high]
  omega

theorem pack_d (x : Double) : Code.d.pack x.bits.toNat = some x.toBeBytes := pack_Q x.bits

theorem pack_q (v : Int64) : Code.q.pack v.toInt = some (toBytes 8 v.toUInt64.toNat) := by
  have hv := v.toUInt64.toNat_lt
  have htoInt : v.toInt = if 2 * v.toUInt64.toNat < 2 ^ 64 then (v.toUInt64.toNat : ℤ)
      else v.toUInt64.toNat - 2 ^ 64 := BitVec.toInt_eq_toNat_cond _
  have hfits : Code.q.low ≤ v.toInt ∧ v.toInt < Code.q.high := by
    simp only [Code.low, Code.high, htoInt]
    split <;> omega
  have hmod : (v.toInt % 2 ^ (8 * Code.q.size)).toNat = v.toUInt64.toNat := by
    simp only [Code.size, htoInt]
    split <;> omega
  rw [Code.pack, if_pos hfits, hmod]
  rfl

end Velo.Struct
