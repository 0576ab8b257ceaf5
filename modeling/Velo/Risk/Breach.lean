import Velo.Risk.MachineTracker

/-! `risk/src/limits.rs` on its own `i64`, at the positions that fills lead to in either build. -/
namespace Velo.Risk
open Overflow

structure MachineLimits where
  maxAbsPosition : Int64

/-- The absolute value of the least `i64` overflows, and the cast of the quantity to `u32` keeps its
low 32 bits. -/
def MachineLimits.checkBreach {m : Type → Type} [Monad m] (build : ℤ → m Int64)
    (limits : MachineLimits) (netPosition : Int64) : m (Option FlattenAction) := do
  let netAbs ← abs build netPosition
  if netAbs ≤ limits.maxAbsPosition then return none
  else
    let side := if netPosition > 0 then .sell else .buy
    return some ⟨side, (unsignedAbs netPosition).toUInt32⟩

/-- There is an action for the position: without overflow checks the least `i64`, whose absolute value
wraps, has none. -/
def MachineLimits.Beyond (limits : MachineLimits) (netPosition : Int64) : Prop :=
  limits.maxAbsPosition.toInt < |netPosition.toInt| ∧ |netPosition.toInt| < 2 ^ 63

instance (limits : MachineLimits) (netPosition : Int64) : Decidable (limits.Beyond netPosition) :=
  inferInstanceAs (Decidable (_ ∧ _))

/-- There is an action exactly beyond the limit; it is for the whole position, and a complete fill
of it at the price is taken and leaves no position. -/
def Flattens (build : Build) (limits : MachineLimits) (p : MachineTracker) (priceTicks : Int64) :
    Prop :=
  if |p.netPosition.toInt| ≤ limits.maxAbsPosition.toInt then
    limits.checkBreach build.toInt64 p.netPosition = some none
  else
    ∃ action, limits.checkBreach build.toInt64 p.netPosition = some (some action) ∧
      action.quantity.toNat = |p.netPosition.toInt| ∧
        ∃ flat, p.onFill build.toInt64 action.side action.quantity priceTicks = some flat ∧
          flat.netPosition = 0

/-- The fill that closes a position. -/
def MachineTracker.closingFill (p : MachineTracker) (priceTicks : Int64) : FillEvent :=
  ⟨0, 0, if p.netPosition.toInt > 0 then .buy else .sell, priceTicks,
    .ofNat p.netPosition.toInt.natAbs, 0⟩

variable {build : Build} {limits : MachineLimits} {net : Int64} {p : MachineTracker}

theorem toUInt32_unsignedAbs (net : Int64) :
    (unsignedAbs net).toUInt32 = .ofNat net.toInt.natAbs := by
  rw [← UInt32.toNat_inj, UInt64.toNat_toUInt32, unsignedAbs, UInt64.toNat_ofNat',
    UInt32.toNat_ofNat']
  omega

/-- Short of the least `i64`, this is the check on whole numbers. -/
theorem checkBreach_eq (build : Build) (limits : MachineLimits) (h : |net.toInt| < 2 ^ 63) :
    limits.checkBreach build.toInt64 net =
      some (Risk.checkBreach ⟨limits.maxAbsPosition.toInt⟩ net.toInt) := by
  have hfits := fits_abs h
  have hle : Int64.ofInt |net.toInt| ≤ limits.maxAbsPosition ↔
      |net.toInt| ≤ limits.maxAbsPosition.toInt := by
    rw [Int64.le_iff_toInt_le, toInt_ofInt hfits]
  have hpos : net > 0 ↔ net.toInt > 0 := Int64.lt_iff_toInt_lt
  rw [MachineLimits.checkBreach, Overflow.abs, build.keeps.bind hfits, Risk.checkBreach]
  by_cases hnet : |net.toInt| ≤ limits.maxAbsPosition.toInt
  · rw [if_pos hnet, if_pos (hle.mpr hnet)]
    rfl
  · rw [if_neg hnet, if_neg (mt hle.mp hnet), toUInt32_unsignedAbs]
    simp only [hpos]
    rfl

/-- All that the check can say. -/
theorem checkBreach_cases (build : Build) (limits : MachineLimits) (net : Int64) :
    (limits.checkBreach build.toInt64 net = none ∧ build = .debug ∧ |net.toInt| = 2 ^ 63) ∨
      (limits.checkBreach build.toInt64 net = some none ∧ ¬ limits.Beyond net) ∨
        (limits.checkBreach build.toInt64 net = some (some ⟨if net.toInt > 0 then .sell else .buy,
          .ofNat net.toInt.natAbs⟩) ∧ limits.Beyond net) := by
  by_cases hlt : |net.toInt| < 2 ^ 63
  · have hcheck := checkBreach_eq build limits hlt
    rw [Risk.checkBreach] at hcheck
    by_cases hle : |net.toInt| ≤ limits.maxAbsPosition.toInt
    · rw [if_pos hle] at hcheck
      exact Or.inr (Or.inl ⟨hcheck, fun hbeyond => absurd hle (not_le.mpr hbeyond.1)⟩)
    · rw [if_neg hle] at hcheck
      exact Or.inr (Or.inr ⟨hcheck, not_le.mp hle, hlt⟩)
  · have hleast : net = .minValue := by
      have hge := net.le_toInt
      have hlt' := net.toInt_lt
      rw [← Int64.toInt_inj, Int64.toInt_minValue]
      rw [abs_lt] at hlt
      omega
    rw [hleast]
    cases build with
    | debug => exact Or.inl ⟨rfl, rfl, by decide⟩
    | release =>
      refine Or.inr (Or.inl ⟨?_, fun hbeyond => absurd hbeyond.2 (by decide)⟩)
      have hle : Int64.minValue ≤ limits.maxAbsPosition := Int64.minValue_le _
      exact if_pos hle

namespace MachineTracker

theorem incomingSide_closingFill (p : MachineTracker) (priceTicks : Int64) :
    (p.closingFill priceTicks).incomingSide =
      if p.netPosition.toInt > 0 then .sell else .buy := by
  rw [closingFill, FillEvent.incomingSide]
  split <;> rfl

theorem toNat_quantity_closingFill (h : |p.netPosition.toInt| < 2 ^ 32) (priceTicks : Int64) :
    ((p.closingFill priceTicks).quantity.toNat : ℤ) = |p.netPosition.toInt| := by
  rw [Int.abs_eq_natAbs] at h ⊢
  rw [closingFill, UInt32.toNat_ofNat']
  omega

theorem signedQuantity_closingFill (h : |p.netPosition.toInt| < 2 ^ 32) (priceTicks : Int64) :
    (p.closingFill priceTicks).signedQuantity = -p.netPosition.toInt := by
  have hquantity := toNat_quantity_closingFill h priceTicks
  rw [FillEvent.signedQuantity, incomingSide_closingFill]
  by_cases hpos : p.netPosition.toInt > 0
  · rw [if_pos hpos, Risk.signedQty, hquantity, abs_of_pos hpos]
  · rw [if_neg hpos, Risk.signedQty, hquantity, abs_of_nonpos (not_lt.mp hpos)]

/-- Without overflow checks every fill is taken, and with them those that can be realized. -/
theorem onFill_closingFill_iff (build : Build) (h : |p.netPosition.toInt| < 2 ^ 32)
    (priceTicks : Int64) :
    (∃ flat, p.onFill build.toInt64 (p.closingFill priceTicks).incomingSide
        (p.closingFill priceTicks).quantity priceTicks = some flat ∧ flat.netPosition = 0) ↔
      (build = .debug → p.Realizes (p.closingFill priceTicks)) := by
  generalize hf : p.closingFill priceTicks = f
  have hprice : priceTicks = f.priceTicks := hf ▸ rfl
  have hsum : p.netPosition.toInt + f.signedQuantity = 0 := by
    rw [← hf, signedQuantity_closingFill h, Int.add_right_neg]
  have hflat {flat : MachineTracker} (hfill : p.onFill build.toInt64 f.incomingSide f.quantity
      f.priceTicks = some flat) : flat.netPosition = 0 := by
    rw [netPosition_of_onFill hfill, hsum]
    rfl
  rw [hprice]
  cases build with
  | debug =>
    have hroom : |p.netPosition.toInt| + 2 ^ 32 ≤ 2 ^ 63 := by omega
    constructor
    · rintro ⟨flat, hfill, -⟩ -
      by_contra hnot
      have hnone := onFill_debug_of_not hroom hnot
      exact Option.some_ne_none flat (hfill.symm.trans hnone)
    · intro hrealizes
      have hfill := onFill_keeps keeps_debug hroom (hrealizes rfl)
      exact ⟨_, hfill, hflat hfill⟩
  | release =>
    have hfill := p.onFill_release f
    exact iff_of_true ⟨_, hfill, hflat hfill⟩ (by simp)

/-- Of any position: within the limit there is nothing to do, and beyond it the action is for the
whole of a position that a quantity can hold. -/
theorem flattens_iff_netPosition (build : Build) (limits : MachineLimits) (p : MachineTracker)
    (priceTicks : Int64) : Flattens build limits p priceTicks ↔
      |p.netPosition.toInt| ≤ limits.maxAbsPosition.toInt ∨
        |p.netPosition.toInt| < 2 ^ 32 ∧
          (build = .debug → p.Realizes (p.closingFill priceTicks)) := by
  have hlimit := limits.maxAbsPosition.toInt_lt
  rw [Flattens]
  by_cases hle : |p.netPosition.toInt| ≤ limits.maxAbsPosition.toInt
  · have hcheck : limits.checkBreach build.toInt64 p.netPosition = _ :=
      checkBreach_eq build limits (by omega)
    rw [Risk.checkBreach, if_pos hle] at hcheck
    rw [if_pos hle]
    exact iff_of_true hcheck (Or.inl hle)
  · rw [if_neg hle, or_iff_right hle]
    by_cases hlt : |p.netPosition.toInt| < 2 ^ 32
    · have hquantity := toNat_quantity_closingFill hlt priceTicks
      rw [and_iff_right hlt, ← onFill_closingFill_iff build hlt, incomingSide_closingFill,
        checkBreach_eq build limits (by omega), Risk.checkBreach, if_neg hle]
      simp only [Option.some.injEq, exists_eq_left']
      exact and_iff_right hquantity
    · -- no quantity is as large as the position
      refine iff_of_false ?_ fun h => hlt h.1
      rintro ⟨action, -, hquantity, -⟩
      have hbound := action.quantity.toNat_lt
      omega

end MachineTracker

/-- For both builds, every limit, every sequence of fills that is taken and every price: the action
flattens exactly if the position is within the limit, or is small enough for the quantity of an
order and, with overflow checks, what the last fill realizes fits. -/
theorem flattens_iff (build : Build) (limits : MachineLimits) {fills : List FillEvent}
    (h : MachineTracker.run build.toInt64 fills = some p) (priceTicks : Int64) :
    let net := (fills.map FillEvent.signedQuantity).sum.bmod (2 ^ 64)
    Flattens build limits p priceTicks ↔
      |net| ≤ limits.maxAbsPosition.toInt ∨
        |net| < 2 ^ 32 ∧ (build = .debug → p.Realizes (p.closingFill priceTicks)) := by
  intro net
  have hnet : p.netPosition.toInt = net := MachineTracker.netPosition_run h
  rw [← hnet]
  exact MachineTracker.flattens_iff_netPosition build limits p priceTicks

/-- A hundred and five sold short, and bought back dearer. -/
theorem flattens_short_of_105 : ∃ p, MachineTracker.run Build.debug.toInt64
    [⟨1, 2, .sell, 100, 20, 0⟩, ⟨3, 4, .buy, 101, 125, 1⟩] = some p ∧
      Flattens .debug ⟨100⟩ p 103 := by
  obtain ⟨p, hp⟩ := Option.isSome_iff_exists.mp (show (MachineTracker.run Build.debug.toInt64
    [⟨1, 2, .sell, 100, 20, 0⟩, ⟨3, 4, .buy, 101, 125, 1⟩]).isSome by decide +kernel)
  refine ⟨p, hp, (flattens_iff .debug ⟨100⟩ hp 103).mpr (Or.inr ⟨by decide +kernel, ?_⟩)⟩
  have hrealizes : ∀ q ∈ MachineTracker.run Build.debug.toInt64
      [⟨1, 2, .sell, 100, 20, 0⟩, ⟨3, 4, .buy, 101, 125, 1⟩], q.Realizes (q.closingFill 103) := by
    decide +kernel
  exact fun _ => hrealizes p hp

/-- Bought once too often: the position is two to the 32, and the order sells nothing. -/
theorem not_flattens_two_pow_32 :
    (∃ p, MachineTracker.run Build.debug.toInt64
        [⟨1, 2, .sell, 100, 4294967295, 0⟩, ⟨3, 4, .sell, 100, 1, 1⟩] = some p ∧
          ¬ Flattens .debug ⟨100⟩ p 100) ∧
      ∃ p, MachineTracker.run Build.release.toInt64
        [⟨1, 2, .sell, 100, 4294967295, 0⟩, ⟨3, 4, .sell, 100, 1, 1⟩] = some p ∧
          ¬ Flattens .release ⟨100⟩ p 100 := by
  have hlarge (build : Build) {p : MachineTracker} (hnet : p.netPosition = 4294967296) :
      ¬ Flattens build ⟨100⟩ p 100 := by
    rw [MachineTracker.flattens_iff_netPosition, hnet]
    rintro (hlimit | ⟨hlt, -⟩)
    · revert hlimit
      decide
    · revert hlt
      decide
  constructor
  · obtain ⟨p, hp, hnet⟩ := Option.map_eq_some_iff.mp (show (MachineTracker.run
      Build.debug.toInt64 [⟨1, 2, .sell, 100, 4294967295, 0⟩, ⟨3, 4, .sell, 100, 1, 1⟩]).map
        MachineTracker.netPosition = some 4294967296 by decide +kernel)
    exact ⟨p, hp, hlarge .debug hnet⟩
  · obtain ⟨p, hp, hnet⟩ := Option.map_eq_some_iff.mp (show (MachineTracker.run
      Build.release.toInt64 [⟨1, 2, .sell, 100, 4294967295, 0⟩, ⟨3, 4, .sell, 100, 1, 1⟩]).map
        MachineTracker.netPosition = some 4294967296 by decide +kernel)
    exact ⟨p, hp, hlarge .release hnet⟩

end Velo.Risk
