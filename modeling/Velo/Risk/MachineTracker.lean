import Velo.Lib.Overflow
import Velo.Risk.Account
import Velo.Risk.Engine

/-! `risk/src/position.rs` on its own `i64` and `f64`, and the fills that the loop of
`risk/src/main.rs` gives it. -/
namespace Velo.Risk
open Overflow Fold

structure MachineTracker where
  netPosition : Int64
  realizedPnlTicks : Int64
  lastTradePriceTicks : Int64
  avgEntryPriceTicks : Float.Model
  deriving DecidableEq

/-- What is logged after a fill. -/
structure PositionUpdate where
  netPosition : Int64
  realizedPnl : Int64
  unrealizedPnl : Int64
  deriving DecidableEq

namespace MachineTracker

def new : MachineTracker := ⟨0, 0, 0, .ofInt64 0⟩

section
variable {m : Type → Type} [Monad m] (build : ℤ → m Int64)

def signedQty (incomingSide : Side) (quantity : UInt32) : m Int64 :=
  match incomingSide with
  | .buy => pure (widen quantity)
  | .sell => neg build (widen quantity)

def onFill (p : MachineTracker) (incomingSide : Side) (quantity : UInt32) (priceTicks : Int64) :
    m MachineTracker := do
  let qty ← signedQty build incomingSide quantity
  let p := { p with lastTradePriceTicks := priceTicks }
  if p.netPosition = 0 ∨ signum p.netPosition = signum qty then
    let oldAbs := Float.Model.ofUInt64 (unsignedAbs p.netPosition)
    let addAbs := Float.Model.ofUInt64 (unsignedAbs qty)
    let avg := (p.avgEntryPriceTicks * oldAbs + .ofInt64 priceTicks * addAbs) / (oldAbs + addAbs)
    let net ← add build p.netPosition qty
    return { p with avgEntryPriceTicks := avg, netPosition := net }
  else
    let direction := signum p.netPosition
    let qtyAbs ← abs build qty
    let netAbs ← abs build p.netPosition
    let closed ← mul build direction (min qtyAbs netAbs)
    let moved ← sub build priceTicks p.avgEntryPriceTicks.toInt64
    let gained ← mul build closed moved
    let realized ← add build p.realizedPnlTicks gained
    let net ← add build p.netPosition qty
    let p := { p with realizedPnlTicks := realized, netPosition := net }
    if p.netPosition ≠ 0 ∧ signum p.netPosition ≠ direction then
      return { p with avgEntryPriceTicks := .ofInt64 priceTicks }
    else return p

def unrealizedPnlTicks (p : MachineTracker) : m Int64 := do
  let moved ← sub build p.lastTradePriceTicks p.avgEntryPriceTicks.toInt64
  mul build p.netPosition moved

def run (fills : List FillEvent) : m MachineTracker :=
  fills.foldlM (fun p f => p.onFill build f.incomingSide f.quantity f.priceTicks) new

/-- What the loop logs of its fills. -/
def updates (p : MachineTracker) : List FillEvent → m (List PositionUpdate)
  | [] => pure []
  | f :: fills => do
    let p ← p.onFill build f.incomingSide f.quantity f.priceTicks
    let unrealized ← p.unrealizedPnlTicks build
    let rest ← updates p fills
    return ⟨p.netPosition, p.realizedPnlTicks, unrealized⟩ :: rest

end

/-- With overflow checks the loop does not stop, and without them it logs the same. -/
def NeverOverflows (fills : List FillEvent) : Prop :=
  updates debug new fills = some (updates release new fills).run

instance (fills : List FillEvent) : Decidable (NeverOverflows fills) :=
  inferInstanceAs (Decidable (_ = _))

def apply (p : MachineTracker) (f : FillEvent) : MachineTracker :=
  p.onFill release f.incomingSide f.quantity f.priceTicks

/-- How far the price is from the average. -/
def moved (p : MachineTracker) (priceTicks : Int64) : ℤ :=
  priceTicks.toInt - p.avgEntryPriceTicks.toInt64.toInt

/-- What a fill closes can be realized. -/
def Realizes (p : MachineTracker) (f : FillEvent) : Prop :=
  ¬ Adds p.netPosition.toInt f.signedQuantity →
    Fits (p.moved f.priceTicks) ∧
      Fits (closedQty p.netPosition.toInt f.signedQuantity * p.moved f.priceTicks) ∧
        Fits (p.realizedPnlTicks.toInt +
          closedQty p.netPosition.toInt f.signedQuantity * p.moved f.priceTicks)

instance (p : MachineTracker) (f : FillEvent) : Decidable (p.Realizes f) :=
  inferInstanceAs (Decidable (_ → _))

/-- The position can be marked to the last price. -/
def Marks (p : MachineTracker) : Prop :=
  Fits (p.moved p.lastTradePriceTicks) ∧
    Fits (p.netPosition.toInt * p.moved p.lastTradePriceTicks)

instance (p : MachineTracker) : Decidable p.Marks := inferInstanceAs (Decidable (_ ∧ _))

def InRange (p : MachineTracker) (f : FillEvent) : Prop := p.Realizes f ∧ (p.apply f).Marks

instance (p : MachineTracker) (f : FillEvent) : Decidable (p.InRange f) :=
  inferInstanceAs (Decidable (_ ∧ _))

/-- What is logged if the position can be marked. -/
def logged (p : MachineTracker) : PositionUpdate :=
  ⟨p.netPosition, p.realizedPnlTicks,
    .ofInt (p.netPosition.toInt * p.moved p.lastTradePriceTicks)⟩

/-- The tracker that a closing fill leaves. -/
def closing (p : MachineTracker) (priceTicks realized net : Int64) : MachineTracker :=
  if net ≠ 0 ∧ signum net ≠ signum p.netPosition then
    ⟨net, realized, priceTicks, .ofInt64 priceTicks⟩
  else ⟨net, realized, priceTicks, p.avgEntryPriceTicks⟩

/-- The tracker that a fill leaves if nothing overflows. -/
def after (p : MachineTracker) (f : FillEvent) : MachineTracker :=
  let net := .ofInt (p.netPosition.toInt + f.signedQuantity)
  if Adds p.netPosition.toInt f.signedQuantity then
    let oldAbs := Float.Model.ofUInt64 (unsignedAbs p.netPosition)
    let addAbs := Float.Model.ofUInt64 (unsignedAbs (.ofInt f.signedQuantity))
    ⟨net, p.realizedPnlTicks, f.priceTicks,
      (p.avgEntryPriceTicks * oldAbs + .ofInt64 f.priceTicks * addAbs) / (oldAbs + addAbs)⟩
  else
    p.closing f.priceTicks (.ofInt (p.realizedPnlTicks.toInt +
      closedQty p.netPosition.toInt f.signedQuantity * p.moved f.priceTicks)) net

/-- The sign of the quantity never overflows. -/
theorem signedQty_eq {m : Type → Type} [Monad m] {build : ℤ → m Int64} (hb : Keeps build)
    (side : Side) (quantity : UInt32) :
    signedQty build side quantity = pure (.ofInt (Risk.signedQty side quantity)) := by
  cases side with
  | buy => rfl
  | sell =>
    have hlt := quantity.toNat_lt
    have hfits : Fits (-(quantity.toNat : ℤ)) := by
      constructor <;> omega
    rw [signedQty, neg, toInt_widen]
    exact hb _ hfits

section
variable {m : Type → Type} [Monad m] [LawfulMonad m] {build : ℤ → m Int64} {α : Type}
  {p : MachineTracker} {f : FillEvent} {fills : List FillEvent} {side : Side} {quantity : UInt32}
  {c : ℤ} {x y r q : Int64}

theorem adds_iff :
    p.netPosition = 0 ∨ signum p.netPosition = signum q ↔ Adds p.netPosition.toInt q.toInt := by
  rw [eq_zero_iff, signum_eq_iff, Adds]

theorem onFill_of_adds (hq : signedQty build side quantity = pure q)
    (h : Adds p.netPosition.toInt q.toInt) (priceTicks : Int64) :
    p.onFill build side quantity priceTicks = (do
      let net ← add build p.netPosition q
      return ⟨net, p.realizedPnlTicks, priceTicks,
        (p.avgEntryPriceTicks * .ofUInt64 (unsignedAbs p.netPosition) +
          .ofInt64 priceTicks * .ofUInt64 (unsignedAbs q)) /
            (.ofUInt64 (unsignedAbs p.netPosition) + .ofUInt64 (unsignedAbs q))⟩) := by
  rw [onFill, hq, pure_bind]
  exact if_pos (adds_iff.mpr h)

/-- A fill that closes multiplies what it closes by the distance of its price. -/
theorem onFill_of_not_adds (hq : signedQty build side quantity = pure q)
    (h : ¬ Adds p.netPosition.toInt q.toInt) (priceTicks : Int64) :
    p.onFill build side quantity priceTicks = (do
      let qtyAbs ← abs build q
      let netAbs ← abs build p.netPosition
      let closed ← mul build (signum p.netPosition) (min qtyAbs netAbs)
      let moved ← sub build priceTicks p.avgEntryPriceTicks.toInt64
      let gained ← mul build closed moved
      let realized ← add build p.realizedPnlTicks gained
      let net ← add build p.netPosition q
      return p.closing priceTicks realized net) := by
  rw [onFill, hq, pure_bind]
  refine (if_neg fun hc => h (adds_iff.mp hc)).trans ?_
  simp only [← apply_ite (pure : MachineTracker → m MachineTracker)]
  rfl

theorem closedQty_le (net qty : ℤ) : |closedQty net qty| ≤ |net| := by
  rw [closedQty, abs_mul, abs_of_nonneg (le_min (abs_nonneg qty) (abs_nonneg net))]
  have hsign : |net.sign| ≤ 1 := by
    rw [Int.abs_eq_natAbs, Int.natAbs_sign]
    split <;> omega
  calc |net.sign| * min |qty| |net| ≤ 1 * |net| := by
        exact mul_le_mul hsign (min_le_right _ _) (le_min (abs_nonneg _) (abs_nonneg _)) zero_le_one
    _ = |net| := one_mul _

theorem closedQty_fits {net : ℤ} (h : |net| < 2 ^ 63) (qty : ℤ) : Fits (closedQty net qty) :=
  fits_of_abs_lt (lt_of_le_of_lt (closedQty_le net qty) h)

theorem closed_bind (hb : Keeps build) (hx : |x.toInt| < 2 ^ 63) (hq : |q.toInt| < 2 ^ 63)
    (k : Int64 → m α) :
    (do
      let qtyAbs ← abs build q
      let netAbs ← abs build x
      let closed ← mul build (signum x) (min qtyAbs netAbs)
      k closed) = k (.ofInt (closedQty x.toInt q.toInt)) := by
  have hclosed := closedQty_fits hx q.toInt
  rw [closedQty] at hclosed ⊢
  rw [Overflow.abs, hb.bind (fits_abs hq), Overflow.abs, hb.bind (fits_abs hx), mul,
    toInt_signum, toInt_min, toInt_ofInt (fits_abs hq), toInt_ofInt (fits_abs hx),
    hb.bind hclosed]

theorem realized_bind (hb : Keeps build) (hc : Fits c) (hmoved : Fits (x.toInt - y.toInt))
    (hgained : Fits (c * (x.toInt - y.toInt)))
    (hrealized : Fits (r.toInt + c * (x.toInt - y.toInt))) (k : Int64 → m α) :
    (do
      let moved ← sub build x y
      let gained ← mul build (.ofInt c) moved
      let realized ← add build r gained
      k realized) = k (.ofInt (r.toInt + c * (x.toInt - y.toInt))) := by
  rw [sub, hb.bind hmoved, mul, toInt_ofInt hmoved, toInt_ofInt hc, hb.bind hgained, add,
    toInt_ofInt hgained, hb.bind hrealized]

/-- What a fill realizes overflows in the distance, in the product or in the sum. -/
theorem realized_debug_of_not (hc : Fits c)
    (h : ¬ (Fits (x.toInt - y.toInt) ∧ Fits (c * (x.toInt - y.toInt)) ∧
      Fits (r.toInt + c * (x.toInt - y.toInt)))) (k : Int64 → Option α) :
    (do
      let moved ← sub debug x y
      let gained ← mul debug (.ofInt c) moved
      let realized ← add debug r gained
      k realized) = none := by
  by_cases hmoved : Fits (x.toInt - y.toInt)
  · rw [sub, keeps_debug.bind hmoved, mul, toInt_ofInt hmoved, toInt_ofInt hc]
    by_cases hgained : Fits (c * (x.toInt - y.toInt))
    · rw [keeps_debug.bind hgained, add, toInt_ofInt hgained]
      exact debug_bind_of_not (fun hrealized => h ⟨hmoved, hgained, hrealized⟩) _
    · exact debug_bind_of_not hgained _
  · exact debug_bind_of_not hmoved _

theorem abs_signedQuantity_lt (f : FillEvent) : |f.signedQuantity| < 2 ^ 32 := by
  have hlt := f.quantity.toNat_lt
  rw [FillEvent.signedQuantity, Int.abs_eq_natAbs]
  cases f.incomingSide <;> simp only [Risk.signedQty] <;> omega

theorem toInt_signedQuantity (f : FillEvent) :
    (Int64.ofInt f.signedQuantity).toInt = f.signedQuantity := by
  have hqty := abs_signedQuantity_lt f
  exact toInt_ofInt (fits_of_abs_lt (by omega))

theorem netPosition_fits (hnet : |p.netPosition.toInt| + 2 ^ 32 ≤ 2 ^ 63) (f : FillEvent) :
    Fits (p.netPosition.toInt + f.signedQuantity) := by
  have hqty := abs_signedQuantity_lt f
  have htri := abs_add_le p.netPosition.toInt f.signedQuantity
  exact fits_of_abs_lt (by omega)

theorem netPosition_after (hnet : |p.netPosition.toInt| + 2 ^ 32 ≤ 2 ^ 63) (f : FillEvent) :
    (p.after f).netPosition.toInt = p.netPosition.toInt + f.signedQuantity := by
  have hnext : (p.after f).netPosition = .ofInt (p.netPosition.toInt + f.signedQuantity) := by
    rw [after]
    split
    · rfl
    · rw [closing]
      split <;> rfl
  rw [hnext]
  exact toInt_ofInt (netPosition_fits hnet f)

/-- Short of the bound, a fill that can be realized overflows nowhere. -/
theorem onFill_keeps (hb : Keeps build) (hnet : |p.netPosition.toInt| + 2 ^ 32 ≤ 2 ^ 63)
    (hr : p.Realizes f) :
    p.onFill build f.incomingSide f.quantity f.priceTicks = pure (p.after f) := by
  have hqty := toInt_signedQuantity f
  have hsigned := signedQty_eq hb f.incomingSide f.quantity
  change _ = pure (Int64.ofInt f.signedQuantity) at hsigned
  by_cases h : Adds p.netPosition.toInt f.signedQuantity
  · rw [onFill_of_adds hsigned (by rwa [hqty]), add, hqty, hb.bind (netPosition_fits hnet f),
      after, if_pos h]
  · obtain ⟨hmoved, hgained, hrealized⟩ := hr h
    have hlt := abs_signedQuantity_lt f
    rw [onFill_of_not_adds hsigned (by rwa [hqty]),
      closed_bind hb (by omega) (by rw [hqty]; omega), hqty,
      realized_bind hb (closedQty_fits (by omega) _) hmoved hgained hrealized, add, hqty,
      hb.bind (netPosition_fits hnet f), after, if_neg h]
    rfl

theorem onFill_debug_of_not (hnet : |p.netPosition.toInt| + 2 ^ 32 ≤ 2 ^ 63)
    (hr : ¬ p.Realizes f) : p.onFill debug f.incomingSide f.quantity f.priceTicks = none := by
  have hqty := toInt_signedQuantity f
  have hsigned := signedQty_eq keeps_debug f.incomingSide f.quantity
  change _ = pure (Int64.ofInt f.signedQuantity) at hsigned
  rw [Realizes, Classical.not_imp] at hr
  obtain ⟨h, hr⟩ := hr
  have hlt := abs_signedQuantity_lt f
  rw [onFill_of_not_adds hsigned (by rwa [hqty]),
    closed_bind keeps_debug (by omega) (by rw [hqty]; omega), hqty]
  exact realized_debug_of_not (closedQty_fits (by omega) _) hr _

theorem apply_eq (hnet : |p.netPosition.toInt| + 2 ^ 32 ≤ 2 ^ 63) (hr : p.Realizes f) :
    p.apply f = p.after f := onFill_keeps keeps_release hnet hr

/-- Where a fill is taken at all, the position moves by its signed quantity, but for a wrap. -/
theorem netPosition_of_onFill {build : Build} {p' : MachineTracker}
    (h : p.onFill build.toInt64 f.incomingSide f.quantity f.priceTicks = some p') :
    p'.netPosition = .ofInt (p.netPosition.toInt + f.signedQuantity) := by
  have hqty := toInt_signedQuantity f
  have hsigned := signedQty_eq build.keeps f.incomingSide f.quantity
  change _ = pure (Int64.ofInt f.signedQuantity) at hsigned
  by_cases hadds : Adds p.netPosition.toInt f.signedQuantity
  · rw [onFill_of_adds hsigned (by rwa [hqty])] at h
    obtain ⟨net, hnet, hp'⟩ := Option.bind_eq_some_iff.mp h
    cases hp'
    rw [add, hqty] at hnet
    exact Build.eq_ofInt hnet
  · rw [onFill_of_not_adds hsigned (by rwa [hqty])] at h
    obtain ⟨_, -, h⟩ := Option.bind_eq_some_iff.mp h
    obtain ⟨_, -, h⟩ := Option.bind_eq_some_iff.mp h
    obtain ⟨_, -, h⟩ := Option.bind_eq_some_iff.mp h
    obtain ⟨_, -, h⟩ := Option.bind_eq_some_iff.mp h
    obtain ⟨_, -, h⟩ := Option.bind_eq_some_iff.mp h
    obtain ⟨realized, -, h⟩ := Option.bind_eq_some_iff.mp h
    obtain ⟨net, hnet, hp'⟩ := Option.bind_eq_some_iff.mp h
    cases hp'
    rw [add, hqty] at hnet
    have hclosing : (p.closing f.priceTicks realized net).netPosition = net := by
      rw [closing]
      split <;> rfl
    rw [hclosing]
    exact Build.eq_ofInt hnet

theorem onFill_release (p : MachineTracker) (f : FillEvent) :
    p.onFill Build.release.toInt64 f.incomingSide f.quantity f.priceTicks = some (p.apply f) := by
  have hqty := toInt_signedQuantity f
  have hsigned := signedQty_eq Build.release.keeps f.incomingSide f.quantity
  have hsigned' := signedQty_eq keeps_release f.incomingSide f.quantity
  change _ = pure (Int64.ofInt f.signedQuantity) at hsigned hsigned'
  rw [apply]
  by_cases hadds : Adds p.netPosition.toInt f.signedQuantity
  · rw [onFill_of_adds hsigned (by rwa [hqty]), onFill_of_adds hsigned' (by rwa [hqty])]
    rfl
  · rw [onFill_of_not_adds hsigned (by rwa [hqty]), onFill_of_not_adds hsigned' (by rwa [hqty])]
    rfl

/-- The position is the sum of the fills, in 64 bits. -/
theorem netPosition_run {build : Build} (h : run build.toInt64 fills = some p) :
    p.netPosition.toInt = (fills.map FillEvent.signedQuantity).sum.bmod (2 ^ 64) := by
  induction fills using List.reverseRecOn generalizing p with
  | nil =>
    cases h
    rfl
  | append_singleton fills f ih =>
    rw [run, List.foldlM_append] at h
    obtain ⟨q, hq, h⟩ := Option.bind_eq_some_iff.mp h
    rw [List.foldlM_cons] at h
    obtain ⟨p', hp', h⟩ := Option.bind_eq_some_iff.mp h
    cases h
    rw [netPosition_of_onFill hp', Int64.toInt_ofInt, ih hq, List.map_append, List.sum_append,
      List.map_singleton, List.sum_singleton]
    exact Int.bmod_add_bmod

/-- The updates for more fills come after those for the first. -/
theorem updates_append {build : Build} {us : List PositionUpdate} {q : MachineTracker}
    (h : updates build.toInt64 p fills = some us)
    (hq : fills.foldlM (fun p f => p.onFill build.toInt64 f.incomingSide f.quantity f.priceTicks)
      p = some q) (fills' : List FillEvent) :
    updates build.toInt64 p (fills ++ fills') =
      (updates build.toInt64 q fills').map (us ++ ·) := by
  induction fills generalizing p us with
  | nil =>
    cases h
    cases hq
    simp
  | cons f fills ih =>
    rw [List.foldlM_cons] at hq
    obtain ⟨p', hp', hq⟩ := Option.bind_eq_some_iff.mp hq
    rw [updates, hp', Option.bind_eq_bind, Option.bind_some] at h
    obtain ⟨unrealized, hunrealized, h⟩ := Option.bind_eq_some_iff.mp h
    obtain ⟨rest, hrest, h⟩ := Option.bind_eq_some_iff.mp h
    cases h
    rw [List.cons_append, updates, hp', Option.bind_eq_bind, Option.bind_some, hunrealized,
      Option.bind_eq_bind, Option.bind_some, ih hrest hq]
    cases updates build.toInt64 q fills' <;> rfl

theorem updates_release (p : MachineTracker) (fills : List FillEvent) :
    ∃ us, updates Build.release.toInt64 p fills = some us := by
  induction fills generalizing p with
  | nil => exact ⟨[], rfl⟩
  | cons f fills ih =>
    obtain ⟨us, hus⟩ := ih (p.apply f)
    rw [updates, onFill_release, Option.bind_eq_bind, Option.bind_some, hus]
    exact ⟨_, rfl⟩

theorem unrealizedPnlTicks_keeps (hb : Keeps build) (h : p.Marks) :
    p.unrealizedPnlTicks build = pure (.ofInt (p.netPosition.toInt *
      p.moved p.lastTradePriceTicks)) := by
  obtain ⟨hmoved, hmarked⟩ := h
  rw [moved] at hmoved hmarked ⊢
  rw [unrealizedPnlTicks, sub, hb.bind hmoved, mul, toInt_ofInt hmoved]
  exact hb _ hmarked

theorem unrealizedPnlTicks_debug_of_not (h : ¬ p.Marks) : p.unrealizedPnlTicks debug = none := by
  rw [unrealizedPnlTicks, sub]
  by_cases hmoved : Fits (p.lastTradePriceTicks.toInt - p.avgEntryPriceTicks.toInt64.toInt)
  · rw [keeps_debug.bind hmoved, mul, toInt_ofInt hmoved]
    exact if_neg fun hmarked => h ⟨hmoved, hmarked⟩
  · exact debug_bind_of_not hmoved _

theorem netPosition_room (h : |p.netPosition.toInt| + 2 ^ 32 * (f :: fills).length ≤ 2 ^ 63) :
    |p.netPosition.toInt| + 2 ^ 32 ≤ 2 ^ 63 ∧
      (p.Realizes f → |(p.apply f).netPosition.toInt| + 2 ^ 32 * fills.length ≤ 2 ^ 63) := by
  rw [List.length_cons] at h
  push_cast at h
  have hnow : |p.netPosition.toInt| + 2 ^ 32 ≤ 2 ^ 63 := by omega
  refine ⟨hnow, fun hrealizes => ?_⟩
  have htri := abs_add_le p.netPosition.toInt f.signedQuantity
  have hqty := abs_signedQuantity_lt f
  rw [apply_eq hnow hrealizes, netPosition_after hnow]
  omega

theorem updates_keeps (hb : Keeps build)
    (hnet : |p.netPosition.toInt| + 2 ^ 32 * fills.length ≤ 2 ^ 63)
    (hall : Throughout apply InRange p fills) :
    updates build p fills = pure (along apply (fun p f => (p.apply f).logged) p fills) := by
  induction fills generalizing p with
  | nil => rfl
  | cons f fills ih =>
    obtain ⟨⟨hrealizes, hmarks⟩, hrest⟩ := hall
    obtain ⟨hnow, hnext⟩ := netPosition_room hnet
    rw [updates, onFill_keeps hb hnow hrealizes, pure_bind, ← apply_eq hnow hrealizes,
      unrealizedPnlTicks_keeps hb hmarks, pure_bind, ih (hnext hrealizes) hrest, pure_bind]
    rfl

/-- A build with checks stops at the first fill that is out of range. -/
theorem updates_debug_of_not (hnet : |p.netPosition.toInt| + 2 ^ 32 * fills.length ≤ 2 ^ 63)
    (hall : ¬ Throughout apply InRange p fills) : updates debug p fills = none := by
  induction fills generalizing p with
  | nil => exact absurd trivial hall
  | cons f fills ih =>
    obtain ⟨hnow, hnext⟩ := netPosition_room hnet
    rw [updates]
    by_cases hrealizes : p.Realizes f
    · rw [onFill_keeps keeps_debug hnow hrealizes, pure_bind, ← apply_eq hnow hrealizes]
      by_cases hmarks : (p.apply f).Marks
      · rw [unrealizedPnlTicks_keeps keeps_debug hmarks, pure_bind,
          ih (hnext hrealizes) fun hrest => hall ⟨⟨hrealizes, hmarks⟩, hrest⟩]
        rfl
      · rw [unrealizedPnlTicks_debug_of_not hmarks]
        rfl
    · rw [onFill_debug_of_not hnow hrealizes]
      rfl

end

/-- For every sequence of fewer than two to the 31 fills: the P&L overflows nowhere exactly if each
fill can be realized and the position marked after it. -/
theorem never_overflows_iff (fills : List FillEvent) (h : fills.length < 2 ^ 31) :
    NeverOverflows fills ↔ Throughout apply InRange new fills := by
  have hnet : |new.netPosition.toInt| + 2 ^ 32 * fills.length ≤ 2 ^ 63 := by
    have hzero : |new.netPosition.toInt| = 0 := rfl
    rw [hzero]
    omega
  rw [NeverOverflows]
  by_cases hall : Throughout apply InRange new fills
  · rw [updates_keeps keeps_debug hnet hall, updates_keeps keeps_release hnet hall]
    exact iff_of_true rfl hall
  · rw [updates_debug_of_not hnet hall]
    exact iff_of_false (by simp) hall

/-- Ten bought, fifteen sold and five bought back. -/
theorem never_overflows_through_flat :
    NeverOverflows [⟨1, 2, .sell, 100, 10, 0⟩, ⟨3, 4, .buy, 110, 15, 1⟩,
      ⟨5, 6, .sell, 108, 5, 2⟩] :=
  (never_overflows_iff _ (by decide)).mpr (by decide +kernel)

/-- One bought at two to the 62 and sold just below its negation: a loss logged as a gain. -/
theorem not_never_overflows_of_far_prices :
    ¬ NeverOverflows [⟨1, 2, .sell, 4611686018427387904, 1, 0⟩,
      ⟨3, 4, .buy, -4611686018427387905, 1, 1⟩] := by
  decide +kernel

end MachineTracker
end Velo.Risk
