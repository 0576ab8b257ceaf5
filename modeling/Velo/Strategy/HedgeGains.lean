import Velo.Lib.Potential
import Velo.Strategy.HedgeSession

/-! What a hedge earns. Where the delta rises with the price the futures are sold after a rise and
bought back after a fall. -/
namespace Velo.Strategy
open Machine

theorem roundHalfEven_mono : Monotone roundHalfEven := fun x y =>
  (roundHalfEven_nearest x).mono (roundHalfEven_nearest y)

namespace HedgeSession

/-- The futures to hold at a price. -/
def target (delta : ℤ → ℚ) (priceTicks : ℤ) : ℤ := roundHalfEven (-delta priceTicks)

theorem target_antitone {delta : ℤ → ℚ} (h : Monotone delta) : Antitone (target delta) :=
  fun _ _ hpq => roundHalfEven_mono (neg_le_neg (h hpq))

theorem target_monotone {delta : ℤ → ℚ} (h : Antitone delta) : Monotone (target delta) :=
  fun _ _ hpq => roundHalfEven_mono (neg_le_neg (h hpq))

/-- The option book's delta is that of the price, and the fills of the round are those of the whole
order, if there is one. -/
def Prompt (delta : ℤ → ℚ) (s : HedgeSession) (t : HedgeTick) (l : List (ℤ × FillEvent)) : Prop :=
  t.aggregateDelta = delta t.priceTicks ∧
    (l.map fun p => p.2.signedQty).sum = if |s.gap t| ≤ s.hedger.hedgeBand then 0 else -s.gap t

instance (delta : ℤ → ℚ) (s : HedgeSession) (t : HedgeTick) (l : List (ℤ × FillEvent)) :
    Decidable (Prompt delta s t l) :=
  inferInstanceAs (Decidable (_ ∧ _))

variable {s u : HedgeSession} {t : HedgeTick} {l trades trades₀ : List (ℤ × FillEvent)} {band : ℤ}
  {delta : ℤ → ℚ} {V : ℤ → ℤ} {c p : ℤ}

/-- The position is the target of some earlier price, and the potential has risen by at most what
the futures have earned up to that price. -/
def Ahead (delta : ℤ → ℚ) (V : ℤ → ℤ) (c : ℤ) (trades₀ : List (ℤ × FillEvent)) (p : ℤ)
    (trades : List (ℤ × FillEvent)) (s : HedgeSession) : Prop :=
  ∃ q, s.hedger.currentFuturesPosition = target delta q ∧
    V q - V p ≤ c * (bookedPnl q trades - bookedPnl p trades₀)

theorem bookedPnl_zero_of_net (q : ℤ) {p : ℤ} (h : ∀ x ∈ l, x.1 = p)
    (hnet : (l.map fun x => x.2.signedQty).sum = 0) : bookedPnl q l = 0 := by
  rw [bookedPnl_move p, bookedPnl_own h, hnet, zero_mul, add_zero]

theorem position_of_order (hr : Round s t l u) (hprompt : Prompt delta s t l)
    (horder : ¬ |s.gap t| ≤ s.hedger.hedgeBand) :
    u.hedger.currentFuturesPosition = target delta t.priceTicks := by
  rw [hr.hedger, hprompt.2, if_neg horder]
  simp only [gap, target, hprompt.1]
  ring

theorem Ahead.step (hV : ∀ a b, V b - V a ≤ (b - a) * (c * target delta a))
    (h : Ahead delta V c trades₀ p trades s) (hattr : Attributed trades s)
    (hprompt : Prompt delta s t l) (hr : Round s t l u) :
    Ahead delta V c trades₀ p (trades ++ l) u := by
  obtain ⟨q, hposition, hle⟩ := h
  by_cases hquiet : |s.gap t| ≤ s.hedger.hedgeBand
  · have hnet : (l.map fun x => x.2.signedQty).sum = 0 := by rw [hprompt.2, if_pos hquiet]
    refine ⟨q, ?_, ?_⟩
    · rw [hr.hedger, hnet, add_zero, hposition]
    · rwa [bookedPnl_append, bookedPnl_zero_of_net q hr.price hnet, add_zero]
  · refine ⟨t.priceTicks, position_of_order hr hprompt hquiet, ?_⟩
    have htangent := hV q t.priceTicks
    rw [bookedPnl_append, bookedPnl_own hr.price, add_zero, bookedPnl_move q t.priceTicks,
      ← hattr.position, hposition]
    linarith

/-- Until the next order the position earns along a tangent, above the potential. -/
theorem Ahead.le (hV : ∀ a b, V b - V a ≤ (b - a) * (c * target delta a))
    (h : Ahead delta V c trades₀ p trades s) (hattr : Attributed trades s) (p' : ℤ) :
    (p' - p) * (c * target delta p') ≤ c * (bookedPnl p' trades - bookedPnl p trades₀) := by
  obtain ⟨q, hposition, hle⟩ := h
  have htangent := hV q p'
  have hback := hV p' p
  rw [bookedPnl_move q p', ← hattr.position, hposition]
  linarith

theorem ahead_run {s u : HedgeSession} {ticks : List HedgeTick} {l₀ l : List (ℤ × FillEvent)}
    (hV : ∀ a b, V b - V a ≤ (b - a) * (c * target delta a))
    (hprompt : Along HedgeSession.step (Prompt delta) s ticks)
    (hrun : Machine.run HedgeSession.step s ticks = some (l, u)) (hattr : Attributed l₀ s)
    (h : Ahead delta V c trades₀ p l₀ s) :
    Attributed (l₀ ++ l) u ∧ Ahead delta V c trades₀ p (l₀ ++ l) u := by
  refine Along.run_history (P := fun trades s => Attributed trades s ∧
    Ahead delta V c trades₀ p trades s) ?_ hprompt hrun l₀ ⟨hattr, h⟩
  rintro trades s t l u ⟨hattr, h⟩ hprompt hst
  exact ⟨hattr.step hst, h.step hV hattr hprompt (round_of_step hst)⟩

theorem futuresPnl_at (before : List HedgeTick) {after : List HedgeTick}
    (h : Machine.run HedgeSession.step (start band) (before ++ t :: after) = some (trades, u)) :
    ∃ trades₁ trades₂ s, Machine.run HedgeSession.step (start band) before = some (trades₁, s) ∧
      trades = trades₁ ++ trades₂ ∧
      u.futuresPnl[before.length]? = some ((bookedPnl t.priceTicks trades₁ : ℚ) * 0.25) := by
  obtain ⟨trades₁, trades₂, s, hbefore, htrades, hunhedged, hhedged⟩ := series_at before h
  refine ⟨trades₁, trades₂, s, hbefore, htrades, ?_⟩
  rw [futuresPnl, List.getElem?_zipWith, hunhedged, hhedged]
  simp

/-- Between an order and a later round the futures earn what any tangents allow. -/
theorem earned_of_tangents (before between : List HedgeTick) {t t' : HedgeTick}
    {after : List HedgeTick}
    (h : Machine.run HedgeSession.step (start band) (before ++ t :: (between ++ t' :: after)) =
      some (trades, u))
    (hprompt : Along HedgeSession.step (Prompt delta) (start band)
      (before ++ t :: (between ++ t' :: after))) {error : ℤ}
    (herror : u.hedger.hedgeErrorHistory[before.length]? = some error) (horder : band < |error|) :
    ∃ x x' : ℤ, u.futuresPnl[before.length]? = some ((x : ℚ) * 0.25) ∧
      u.futuresPnl[before.length + 1 + between.length]? = some ((x' : ℚ) * 0.25) ∧
      ∀ (V : ℤ → ℤ) (c : ℤ), (∀ a b, V b - V a ≤ (b - a) * (c * target delta a)) →
        (t'.priceTicks - t.priceTicks) * (c * target delta t'.priceTicks) ≤ c * (x' - x) := by
  obtain ⟨trades₁, l₁, s, hbefore, -, hx⟩ := futuresPnl_at before h
  have hlater := h
  rw [← List.cons_append, ← List.append_assoc] at hlater
  obtain ⟨trades₂, l₂, w, hbetween, -, hx'⟩ := futuresPnl_at (before ++ t :: between) hlater
  have hlen : (before ++ t :: between).length = before.length + 1 + between.length := by
    simp only [List.length_append, List.length_cons]
    omega
  rw [hlen] at hx'
  refine ⟨_, _, hx, hx', ?_⟩
  intro V c hV
  obtain ⟨m, s', m', hs', hrest, rfl⟩ := run_append.mp hbetween
  obtain ⟨rfl, rfl⟩ := Prod.mk.inj (Option.some.inj (hbefore.symm.trans hs'))
  obtain ⟨l, v, l', hst, hmid, rfl⟩ := run_cons.mp hrest
  have hfrom := (hprompt.of_append hbefore).2
  simp only [Along, hst] at hfrom
  have hr := round_of_step hst
  have hattr := Attributed.run hbefore
  have hgap : error = s.gap t := Option.some.inj (herror.symm.trans (error_at h hbefore))
  have hband : s.hedger.hedgeBand = band := (rows_run hbefore).1
  have hbeyond : ¬ |s.gap t| ≤ s.hedger.hedgeBand := by
    rw [hband, ← hgap]
    exact horder.not_ge
  -- the order takes the position to the target, before anything is earned on it
  have hahead : Ahead delta V c trades₁ t.priceTicks (trades₁ ++ l) v := by
    refine ⟨t.priceTicks, position_of_order hr hfrom.1 hbeyond, ?_⟩
    rw [bookedPnl_append, bookedPnl_own hr.price, add_zero, sub_self, sub_self, mul_zero]
  obtain ⟨hattr', hahead'⟩ := ahead_run hV (hfrom.2.of_append hmid).1 hmid (hattr.step hst) hahead
  have hle := hahead'.le hV hattr' t'.priceTicks
  rwa [List.append_assoc] at hle

/-- From an order of the hedger on, while every order is filled in its round: if the delta rises
with the price, as that of a long book does, the futures have earned by any later round at least
what the target of that round, held all along, would have earned, and at most that if the delta
falls. So where the price is back the one has gained and the other lost. -/
theorem hedging_earns (before between : List HedgeTick) {t t' : HedgeTick}
    {after : List HedgeTick}
    (h : Machine.run HedgeSession.step (start band) (before ++ t :: (between ++ t' :: after)) =
      some (trades, u))
    (hprompt : Along HedgeSession.step (Prompt delta) (start band)
      (before ++ t :: (between ++ t' :: after))) {error : ℤ}
    (herror : u.hedger.hedgeErrorHistory[before.length]? = some error) (horder : band < |error|) :
    ∃ pnl pnl', u.futuresPnl[before.length]? = some pnl ∧
      u.futuresPnl[before.length + 1 + between.length]? = some pnl' ∧
      let held : ℚ := (t'.priceTicks - t.priceTicks) * target delta t'.priceTicks * 0.25
      (Monotone delta → held ≤ pnl' - pnl) ∧ (Antitone delta → pnl' - pnl ≤ held) := by
  obtain ⟨x, x', hx, hx', htangents⟩ := earned_of_tangents before between h hprompt herror horder
  -- with either sign of the target that falls with the price, the potential has these tangents
  have hearned : ∀ c : ℤ, Antitone (fun a => c * target delta a) →
      (c * ((t'.priceTicks - t.priceTicks) * target delta t'.priceTicks) : ℚ) ≤ c * (x' - x) := by
    intro c hfalls
    have hle := htangents (potential fun a => c * target delta a) c (potential_sub_le hfalls)
    rw [mul_left_comm] at hle
    exact_mod_cast hle
  refine ⟨_, _, hx, hx', ?_, ?_⟩
  · intro hdelta
    have hle := hearned 1 (by simpa using target_antitone hdelta)
    rw [Int.cast_one, one_mul, one_mul] at hle
    linarith
  · intro hdelta
    have hle := hearned (-1) (by simpa using (target_monotone hdelta).neg)
    rw [Int.cast_neg, Int.cast_one, neg_one_mul, neg_one_mul, neg_le_neg_iff] at hle
    linarith

end HedgeSession
end Velo.Strategy
