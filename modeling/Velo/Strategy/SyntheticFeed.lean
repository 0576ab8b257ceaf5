import Velo.Strategy.Solo

/-! `strategy/orderbook_client/feed.py` and the session of `run_synthetic_session.py`, in which the
quoter trades with itself. -/
namespace Velo.Strategy
open Machine Reference

/-- `_STEPS`. -/
def steps : List ℤ := [-2, -1, 0, 1, 2]

/-- The random generator is the standard library's, here a state `rng` and what `choice` makes of
it. -/
structure SyntheticPriceFeed (ρ : Type*) where
  price : ℤ
  rng : ρ

namespace SyntheticPriceFeed

variable {ρ : Type*} (choice : ρ → List ℤ → ℤ × ρ)

def nextPrice (feed : SyntheticPriceFeed ρ) : ℤ × SyntheticPriceFeed ρ :=
  let (step, rng) := choice feed.rng steps
  (feed.price + step, ⟨feed.price + step, rng⟩)

/-- The prices of the first `n` ticks. -/
def take : SyntheticPriceFeed ρ → ℕ → List ℤ
  | _, 0 => []
  | feed, n + 1 => (feed.nextPrice choice).1 :: (feed.nextPrice choice).2.take n

variable {choice}

theorem abs_le_of_mem_steps {x : ℤ} (h : x ∈ steps) : |x| ≤ 2 := by
  simp only [steps, List.mem_cons, List.not_mem_nil, or_false] at h
  rcases h with rfl | rfl | rfl | rfl | rfl <;> decide

theorem nextPrice_near (hchoice : ∀ rng, (choice rng steps).1 ∈ steps)
    (feed : SyntheticPriceFeed ρ) : |(feed.nextPrice choice).1 - feed.price| ≤ 2 := by
  simp only [nextPrice, add_sub_cancel_left]
  exact abs_le_of_mem_steps (hchoice feed.rng)

/-- From tick to tick the price moves by two at most. -/
theorem take_near (hchoice : ∀ rng, (choice rng steps).1 ∈ steps) (feed : SyntheticPriceFeed ρ)
    (n : ℕ) : (feed.price :: feed.take choice n).IsChain fun p p' => |p' - p| ≤ 2 := by
  induction n generalizing feed with
  | zero => exact List.isChain_singleton _
  | succ n ih =>
    rw [take, List.isChain_cons_cons]
    exact ⟨feed.nextPrice_near hchoice, ih (feed.nextPrice choice).2⟩

theorem isChain_lt_iff {prices : List ℤ} (h : prices.IsChain fun p p' => |p' - p| ≤ 2) :
    (prices.IsChain fun p p' => |p' - p| < 2 * 1) ↔ prices.IsChain fun p p' => |p' - p| ≠ 2 := by
  induction h with
  | nil => simp
  | singleton p => simp
  | @cons_cons p p' prices hle _ ih =>
    have hmove : |p' - p| < 2 * 1 ↔ |p' - p| ≠ 2 := by omega
    rw [List.isChain_cons_cons, List.isChain_cons_cons, ih, hmove]

end SyntheticPriceFeed

namespace Standing

variable {q : Standing} {offset size : ℤ}

/-- While both quotes stand, it takes a move of two offsets to trade. -/
theorem requote_both {p : ℤ} (hp : q.price = some p) (hbid : q.bid) (hask : q.ask)
    (hoffset : 1 ≤ offset) (size p' : ℤ) :
    ((q.requote offset size p').1 = [] ↔ |p' - p| < 2 * offset) ∧
      ((q.requote offset size p').1 = [] → (q.requote offset size p').2.price = some p' ∧
        (q.requote offset size p').2.bid ∧ (q.requote offset size p').2.ask) := by
  rw [Standing.requote, hp]
  dsimp only
  by_cases hsame : p' = p
  · subst hsame
    simp [hp, hbid, hask]
    omega
  · rw [if_neg hsame, hbid, hask, abs_lt]
    by_cases hup : 2 * offset ≤ p' - p
    · simp [hup]
    · by_cases hdown : 2 * offset ≤ p - p'
      · simp [hup, hdown]
        omega
      · simp [hup, hdown]
        omega

theorem tape_both (hoffset : 1 ≤ offset) {p : ℤ} (hp : q.price = some p) (hbid : q.bid)
    (hask : q.ask) (prices : List ℤ) : (q.tape offset size prices).1 = [] ↔
      (p :: prices).IsChain fun p p' => |p' - p| < 2 * offset := by
  induction prices generalizing q p with
  | nil => simp [tape]
  | cons p' prices ih =>
    obtain ⟨hquiet, hboth⟩ := requote_both hp hbid hask hoffset size p'
    rw [tape, List.append_eq_nil_iff, List.isChain_cons_cons, hquiet]
    constructor
    · rintro ⟨hnear, hrest⟩
      obtain ⟨hp', hbid', hask'⟩ := hboth (hquiet.mpr hnear)
      exact ⟨hnear, (ih hp' hbid' hask').mp hrest⟩
    · rintro ⟨hnear, hrest⟩
      obtain ⟨hp', hbid', hask'⟩ := hboth (hquiet.mpr hnear)
      exact ⟨hnear, (ih hp' hbid' hask').mpr hrest⟩

/-- The quoter alone trades exactly where its prices move by two offsets at once. -/
theorem tape_eq_nil_iff (hoffset : 1 ≤ offset) (prices : List ℤ) :
    (start.tape offset size prices).1 = [] ↔
      prices.IsChain fun p p' => |p' - p| < 2 * offset := by
  cases prices with
  | nil => simp [tape]
  | cons p prices =>
    rw [tape, requote_of_none rfl, List.nil_append]
    exact tape_both hoffset rfl rfl rfl prices

end Standing

namespace Market

variable {ρ : Type*} {choice : ρ → List ℤ → ℤ × ρ} {offset size : ℤ} {log : List Dispatch}
  {t : Market}

/-- A session of the quoter alone over the synthetic feed, whatever its random numbers are and
however the session interleaves: with an offset of two or more it never trades, and with an offset
of one it trades if and only if the price moves by two ticks at once. -/
theorem synthetic_session_trades (hchoice : ∀ rng, (choice rng steps).1 ∈ steps)
    (feed : SyntheticPriceFeed ρ) (n : ℕ) {before : List Velo.Event} {log₀ : List Dispatch}
    {s₀ : Session} (h₀ : Machine.run Session.step .start before = some (log₀, s₀)) {fd : Fd}
    (hfd : s₀.holder fd = none) (hempty : s₀.server.book.resting = []) (hoffset : 1 ≤ offset)
    (hsize : 1 ≤ size) {es : List MarketEvent} (hidle : ∀ e ∈ es, e.LooksOn)
    (hprices : prices es = feed.take choice n)
    (hr : Machine.run step (Market.start s₀ fd offset size) es = some (log, t))
    (hrunning : t.client.running) :
    (2 ≤ offset → heard t.client.conn log = []) ∧
      (offset = 1 → t.client.requests = [] → (heard t.client.conn log = [] ↔
        (feed.take choice n).IsChain fun p p' => |p' - p| ≠ 2)) := by
  obtain ⟨hbook, hsolo⟩ := Solo.of_run h₀ hfd hempty hoffset hsize hidle hr hrunning
  obtain ⟨hfar, hall⟩ := hsolo.tape hbook hoffset hsize
  have hnear := (feed.take_near hchoice n).tail
  rw [List.tail_cons] at hnear
  rw [hprices] at hfar hall
  constructor
  · intro hwide
    have hnone : (Standing.start.tape offset size (feed.take choice n)).1 = [] := by
      rw [Standing.tape_eq_nil_iff hoffset]
      refine hnear.imp fun p p' hle => ?_
      omega
    rw [hnone] at hfar
    exact List.prefix_nil.mp hfar
  · rintro rfl hnone
    rw [(hall hnone).1, Standing.tape_eq_nil_iff hoffset]
    exact SyntheticPriceFeed.isChain_lt_iff hnear

/-- The numbers are drawn in turn. -/
theorem synthetic_session_trades_in_turn :
    ∃ log t, Machine.run step (start .start 3 1 10) [.tick 9998, .tick 9997, .execute, .execute,
        .execute, .execute, .execute, .execute, .handle] = some (log, t) ∧
      heard t.client.conn log = [] := by
  have hend : (Machine.run step (start .start 3 1 10) [.tick 9998, .tick 9997, .execute, .execute,
      .execute, .execute, .execute, .execute, .handle]).map
        (fun r => decide (r.2.client.requests = [] ∧ r.2.client.running)) = some true := by
    decide +kernel
  obtain ⟨⟨log, t⟩, hrun, ht⟩ := Option.map_eq_some_iff.mp hend
  obtain ⟨hnone, hrunning⟩ := of_decide_eq_true ht
  have hfresh : Machine.run Session.step .start [] = some ([], .start) := rfl
  let choice : ℕ → List ℤ → ℤ × ℕ := fun n l => (l.getD (n % 5) 0, n + 1)
  have hdrawn (n : ℕ) : (choice n steps).1 ∈ steps := by
    have hlt : n % 5 < 5 := Nat.mod_lt _ (by decide)
    simp only [choice]
    interval_cases n % 5 <;> decide
  exact ⟨log, t, hrun, ((synthetic_session_trades hdrawn ⟨10000, 0⟩ 2 hfresh rfl rfl (by decide)
    (by decide) (by decide) rfl hrun hrunning).2 rfl hnone).mpr (by decide)⟩

end Market
end Velo.Strategy
