import Mathlib.Data.Nat.Notation
import Mathlib.Data.List.Induction
import Mathlib.Tactic.Ring

/-! Numbers as fixed-width byte strings, most significant byte first. -/
namespace Velo.BigEndian

variable {w n : ℕ} {l m : List UInt8} {b : UInt8}

/-- The last `w` bytes of `n`. -/
def toBytes : ℕ → ℕ → List UInt8
  | 0, _ => []
  | w + 1, n => toBytes w (n / 256) ++ [UInt8.ofNat n]

def ofBytes (l : List UInt8) : ℕ := l.foldl (fun v b => v * 256 + b.toNat) 0

/-- A double, of which only the bits are known. -/
structure Double where
  bits : UInt64
  deriving DecidableEq

def Double.toBeBytes (x : Double) : List UInt8 := toBytes 8 x.bits.toNat

def Double.ofBeBytes (l : List UInt8) : Double := ⟨UInt64.ofNat (ofBytes l)⟩

@[simp] theorem length_toBytes (w n : ℕ) : (toBytes w n).length = w := by
  induction w generalizing n with
  | zero => rfl
  | succ w ih => rw [toBytes, List.length_append, ih, List.length_singleton]

theorem ofBytes_concat (l : List UInt8) (b : UInt8) :
    ofBytes (l ++ [b]) = ofBytes l * 256 + b.toNat := by
  simp [ofBytes]

theorem ofBytes_toBytes (h : n < 256 ^ w) : ofBytes (toBytes w n) = n := by
  induction w generalizing n with
  | zero =>
    have hzero : n = 0 := by simpa using h
    rw [hzero]
    rfl
  | succ w ih =>
    have hdiv : n / 256 < 256 ^ w := by
      rw [pow_succ] at h
      omega
    rw [toBytes, ofBytes_concat, ih hdiv, UInt8.toNat_ofNat']
    omega

theorem Double.ofBeBytes_toBeBytes (x : Double) : ofBeBytes x.toBeBytes = x := by
  rw [ofBeBytes, toBeBytes, ofBytes_toBytes x.bits.toNat_lt, UInt64.ofNat_toNat]

theorem ofBytes_lt (l : List UInt8) : ofBytes l < 256 ^ l.length := by
  induction l using List.reverseRecOn with
  | nil => exact Nat.one_pos
  | append_singleton l b ih =>
    have hb := b.toNat_lt
    rw [ofBytes_concat, List.length_append, List.length_singleton, pow_succ]
    omega

theorem toBytes_ofBytes (l : List UInt8) : toBytes l.length (ofBytes l) = l := by
  induction l using List.reverseRecOn with
  | nil => rfl
  | append_singleton l b ih =>
    have hb := b.toNat_lt
    have hdiv : (ofBytes l * 256 + b.toNat) / 256 = ofBytes l := by omega
    have hlast : UInt8.ofNat (ofBytes l * 256 + b.toNat) = b := by
      rw [← UInt8.toNat_inj, UInt8.toNat_ofNat']
      omega
    rw [List.length_append, List.length_singleton, toBytes, ofBytes_concat, hdiv, ih, hlast]

theorem exists_u64 (h : l.length = 8) : ∃ v : UInt64, l = toBytes 8 v.toNat := by
  have hlt := ofBytes_lt l
  rw [h] at hlt
  refine ⟨UInt64.ofNat (ofBytes l), ?_⟩
  rw [UInt64.toNat_ofNat', Nat.mod_eq_of_lt (show _ < 2 ^ 64 from hlt), ← h,
    toBytes_ofBytes]

theorem exists_u32 (h : l.length = 4) : ∃ v : UInt32, l = toBytes 4 v.toNat := by
  have hlt := ofBytes_lt l
  rw [h] at hlt
  refine ⟨UInt32.ofNat (ofBytes l), ?_⟩
  rw [UInt32.toNat_ofNat', Nat.mod_eq_of_lt (show _ < 2 ^ 32 from hlt), ← h,
    toBytes_ofBytes]

/-- Shifting bytes in from the right builds the same number, up to the width of the word. -/
theorem shift_in_u64 (l : List UInt8) :
    l.foldl (fun (v : UInt64) b => (v <<< 8) ||| b.toUInt64) 0 = UInt64.ofNat (ofBytes l) := by
  induction l using List.reverseRecOn with
  | nil => rfl
  | append_singleton l b ih =>
    have hb := b.toNat_lt
    rw [List.foldl_append, ih, ofBytes_concat, List.foldl_cons, List.foldl_nil,
      ← UInt64.toNat_inj, UInt64.toNat_or, UInt64.toNat_shiftLeft, UInt64.toNat_ofNat',
      UInt64.toNat_ofNat', UInt8.toNat_toUInt64]
    have hshift : (ofBytes l % 2 ^ 64) <<< ((8 : UInt64).toNat % 64) % 2 ^ 64 =
        2 ^ 8 * (ofBytes l % 2 ^ 56) := by
      have hone : (8 : UInt64).toNat % 64 = 8 := rfl
      rw [hone, Nat.shiftLeft_eq]
      omega
    rw [hshift, ← Nat.two_pow_add_eq_or_of_lt hb]
    omega

theorem shift_in_u32 (l : List UInt8) :
    l.foldl (fun (v : UInt32) b => (v <<< 8) ||| b.toUInt32) 0 = UInt32.ofNat (ofBytes l) := by
  induction l using List.reverseRecOn with
  | nil => rfl
  | append_singleton l b ih =>
    have hb := b.toNat_lt
    rw [List.foldl_append, ih, ofBytes_concat, List.foldl_cons, List.foldl_nil,
      ← UInt32.toNat_inj, UInt32.toNat_or, UInt32.toNat_shiftLeft, UInt32.toNat_ofNat',
      UInt32.toNat_ofNat', UInt8.toNat_toUInt32]
    have hshift : (ofBytes l % 2 ^ 32) <<< ((8 : UInt32).toNat % 32) % 2 ^ 32 =
        2 ^ 8 * (ofBytes l % 2 ^ 24) := by
      have hone : (8 : UInt32).toNat % 32 = 8 := rfl
      rw [hone, Nat.shiftLeft_eq]
      omega
    rw [hshift, ← Nat.two_pow_add_eq_or_of_lt hb]
    omega

theorem shift_out_u64 (v : UInt64) :
    ([56, 48, 40, 32, 24, 16, 8, 0] : List UInt64).map (fun k => ((v >>> k) &&& 0xFF).toUInt8) =
      toBytes 8 v.toNat := by
  have hsmall : ∀ k ∈ ([56, 48, 40, 32, 24, 16, 8, 0] : List UInt64), k.toNat < 64 := by simp
  have hbyte : ∀ k ∈ ([56, 48, 40, 32, 24, 16, 8, 0] : List UInt64),
      ((v >>> k) &&& 0xFF).toUInt8 = UInt8.ofNat (v.toNat / 2 ^ k.toNat) := by
    intro k hk
    have hmask := Nat.and_two_pow_sub_one_eq_mod (v.toNat / 2 ^ k.toNat) 8
    rw [← UInt8.toNat_inj, UInt64.toNat_toUInt8, UInt64.toNat_and, UInt64.toNat_shiftRight,
      Nat.mod_eq_of_lt (hsmall k hk), Nat.shiftRight_eq_div_pow, UInt8.toNat_ofNat']
    change (v.toNat / 2 ^ k.toNat &&& 2 ^ 8 - 1) % 2 ^ 8 = _
    rw [hmask, Nat.mod_mod]
  rw [List.map_congr_left hbyte]
  simp [toBytes, Nat.div_div_eq_div_mul]

theorem shift_out_u32 (v : UInt32) :
    ([24, 16, 8, 0] : List UInt32).map (fun k => ((v >>> k) &&& 0xFF).toUInt8) =
      toBytes 4 v.toNat := by
  have hsmall : ∀ k ∈ ([24, 16, 8, 0] : List UInt32), k.toNat < 32 := by simp
  have hbyte : ∀ k ∈ ([24, 16, 8, 0] : List UInt32),
      ((v >>> k) &&& 0xFF).toUInt8 = UInt8.ofNat (v.toNat / 2 ^ k.toNat) := by
    intro k hk
    have hmask := Nat.and_two_pow_sub_one_eq_mod (v.toNat / 2 ^ k.toNat) 8
    rw [← UInt8.toNat_inj, UInt32.toNat_toUInt8, UInt32.toNat_and, UInt32.toNat_shiftRight,
      Nat.mod_eq_of_lt (hsmall k hk), Nat.shiftRight_eq_div_pow, UInt8.toNat_ofNat']
    change (v.toNat / 2 ^ k.toNat &&& 2 ^ 8 - 1) % 2 ^ 8 = _
    rw [hmask, Nat.mod_mod]
  rw [List.map_congr_left hbyte]
  simp [toBytes, Nat.div_div_eq_div_mul]

end Velo.BigEndian
