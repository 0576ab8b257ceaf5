import Velo.Strategy.PricingClient

/-! `options.py`: books of options, priced leg by leg over a connection to the pricing server. -/
namespace Velo.Strategy
open BigEndian Socket

structure OptionLeg where
  strikeTicks : ℤ
  timeToExpiryYears : Double
  vol : Double
  isCall : Bool
  quantity : ℤ

structure OptionBook where
  legs : List OptionLeg
  rate : Double

/-- `price`: what it sends, what it returns, and what is left of the stream of answers. -/
def PricingClient.price (spotTicks strikeTicks : ℤ) (rate vol timeToExpiry : Double)
    (isCall : Bool) (s : List (List UInt8)) :
    Option (List UInt8 × Greeks × List (List UInt8)) := do
  let sent ← request spotTicks strikeTicks rate vol timeToExpiry isCall
  let (greeks, s) ← reply s
  return (sent, greeks, s)

namespace OptionLeg

/-- `delta` and `value` ask for all greeks and take one. -/
def ask (field : Greeks → Double) (leg : OptionLeg) (spotTicks : ℤ) (rate : Double)
    (s : List (List UInt8)) : Option (List UInt8 × Double × List (List UInt8)) := do
  let (sent, greeks, s) ← PricingClient.price spotTicks leg.strikeTicks rate leg.vol
    leg.timeToExpiryYears leg.isCall s
  return (sent, field greeks, s)

def delta : OptionLeg → ℤ → Double → List (List UInt8) →
    Option (List UInt8 × Double × List (List UInt8)) := ask Greeks.delta

def value : OptionLeg → ℤ → Double → List (List UInt8) →
    Option (List UInt8 × Double × List (List UInt8)) := ask Greeks.price

end OptionLeg

namespace OptionBook

section Arithmetic

-- products and sums of doubles are not known here
variable (times : Double → ℤ → Double) (sum : List Double → Double)

/-- What the generator yields for the legs, one after the other. -/
def products (number : OptionLeg → List (List UInt8) →
      Option (List UInt8 × Double × List (List UInt8))) :
    List OptionLeg → List (List UInt8) → Option (List UInt8 × List Double × List (List UInt8))
  | [], s => some ([], [], s)
  | leg :: legs, s => do
    let (sent, x, s) ← number leg s
    let (sent', xs, s) ← products number legs s
    return (sent ++ sent', times x leg.quantity :: xs, s)

def aggregateDelta (b : OptionBook) (spotTicks : ℤ) (s : List (List UInt8)) :
    Option (List UInt8 × Double × List (List UInt8)) :=
  (products times (fun leg => leg.delta spotTicks b.rate) b.legs s).map fun r =>
    (r.1, sum r.2.1, r.2.2)

def aggregateValue (b : OptionBook) (spotTicks : ℤ) (s : List (List UInt8)) :
    Option (List UInt8 × Double × List (List UInt8)) :=
  (products times (fun leg => leg.value spotTicks b.rate) b.legs s).map fun r =>
    (r.1, sum r.2.1, r.2.2)

/-- Either call. -/
inductive Call
  | delta (spotTicks : Int64)
  | value (spotTicks : Int64)

def Call.spotTicks : Call → Int64
  | .delta spotTicks | .value spotTicks => spotTicks

def call (b : OptionBook) : Call → List (List UInt8) →
    Option (List UInt8 × Double × List (List UInt8))
  | .delta spotTicks => b.aggregateDelta times sum spotTicks.toInt
  | .value spotTicks => b.aggregateValue times sum spotTicks.toInt

/-- Calls on one connection, one after the other. -/
def callAll (b : OptionBook) : List Call → List (List UInt8) →
    Option (List UInt8 × List Double × List (List UInt8))
  | [], s => some ([], [], s)
  | c :: cs, s => do
    let (sent, x, s) ← b.call times sum c s
    let (sent', xs, s) ← b.callAll cs s
    return (sent ++ sent', x :: xs, s)

end Arithmetic

/-- The request that a leg makes. -/
def request (b : OptionBook) (spotTicks : Int64) (leg : OptionLeg) : Risk.PriceRequest :=
  ⟨spotTicks, .ofInt leg.strikeTicks, b.rate, leg.vol, leg.timeToExpiryYears, leg.isCall⟩

/-- The requests of some calls: every call asks for every leg, in order. -/
def requests (b : OptionBook) (cs : List Call) : List Risk.PriceRequest :=
  cs.flatMap fun c => b.legs.map (b.request c.spotTicks)

variable {b : OptionBook}
  {tickPrice : Int64 → Double} {priceScalar : Risk.OptionParams Double → Risk.Greeks Double}
  {legs : List OptionLeg} {s t : List (List UInt8)} {cs : List Call}

/-- A leg can be asked for if its strike fits the request. -/
def Fits (legs : List OptionLeg) : Prop :=
  ∀ leg ∈ legs, -2 ^ 63 ≤ leg.strikeTicks ∧ leg.strikeTicks < 2 ^ 63

instance (legs : List OptionLeg) : Decidable (Fits legs) :=
  inferInstanceAs (Decidable (∀ leg ∈ legs, _))

theorem ask_eq (field : Greeks → Double) {leg : OptionLeg} (spotTicks : Int64)
    (hleg : -2 ^ 63 ≤ leg.strikeTicks ∧ leg.strikeTicks < 2 ^ 63) (rest : List UInt8)
    (ht : ∀ c ∈ t, c ≠ []) (hflat : t.flatten = Risk.encodeResponse
      (Risk.respond tickPrice priceScalar (b.request spotTicks leg)) ++ rest) :
    ∃ u, leg.ask field spotTicks.toInt b.rate t =
        some (Risk.encodeRequest (b.request spotTicks leg), field (PricingClient.ofResponse
          (Risk.respond tickPrice priceScalar (b.request spotTicks leg))), u) ∧
      u.flatten = rest ∧ ∀ c ∈ u, c ≠ [] := by
  obtain ⟨u, hu, huflat, hune⟩ := PricingClient.reply_encodeResponse rest ht hflat
  have hstrike : (Int64.ofInt leg.strikeTicks).toInt = leg.strikeTicks :=
    Int64.toInt_ofInt_of_le hleg.1 hleg.2
  have hsent := PricingClient.request_eq (b.request spotTicks leg)
  simp only [request, hstrike] at hsent
  refine ⟨u, ?_, huflat, hune⟩
  simp only [OptionLeg.ask, PricingClient.price, hsent, hu, request, Option.bind_eq_bind,
    Option.bind_some]
  rfl

/-- The legs are answered one after the other. -/
theorem products_eq (times : Double → ℤ → Double) (field : Greeks → Double)
    (spotTicks : Int64) (hlegs : Fits legs) (rest : List UInt8) (ht : ∀ c ∈ t, c ≠ [])
    (hflat : t.flatten = (legs.map (b.request spotTicks)).flatMap (fun req =>
      Risk.encodeResponse (Risk.respond tickPrice priceScalar req)) ++ rest) :
    ∃ u, products times (fun leg => leg.ask field spotTicks.toInt b.rate) legs t =
        some ((legs.map (b.request spotTicks)).flatMap Risk.encodeRequest,
          legs.map fun leg => times (field (PricingClient.ofResponse
            (Risk.respond tickPrice priceScalar (b.request spotTicks leg)))) leg.quantity, u) ∧
      u.flatten = rest ∧ ∀ c ∈ u, c ≠ [] := by
  induction legs generalizing t with
  | nil => exact ⟨t, rfl, hflat, ht⟩
  | cons leg legs ih =>
    rw [List.map_cons, List.flatMap_cons, List.append_assoc] at hflat
    have hrest : Fits legs := fun l hl => hlegs l (List.mem_cons_of_mem leg hl)
    obtain ⟨u, hu, huflat, hune⟩ := ask_eq field spotTicks (hlegs leg List.mem_cons_self) _ ht hflat
    obtain ⟨v, hv, hvflat, hvne⟩ := ih hrest hune huflat
    refine ⟨v, ?_, hvflat, hvne⟩
    simp only [products, hu, hv, Option.bind_eq_bind, Option.bind_some, List.map_cons,
      List.flatMap_cons]
    rfl

/-- The greek that a call is about. -/
def Call.field : Call → Greeks → Double
  | .delta _ => Greeks.delta
  | .value _ => Greeks.price

/-- The sum over the legs with the greeks of the pricer itself, no connection between. -/
def exact (times : Double → ℤ → Double) (sum : List Double → Double)
    (tickPrice : Int64 → Double) (priceScalar : Risk.OptionParams Double → Risk.Greeks Double)
    (b : OptionBook) (c : Call) : Double :=
  sum (b.legs.map fun leg => times (c.field (PricingClient.ofResponse
    (Risk.respond tickPrice priceScalar (b.request c.spotTicks leg)))) leg.quantity)

/-- What the server answers to these calls. -/
def answers (tickPrice : Int64 → Double)
    (priceScalar : Risk.OptionParams Double → Risk.Greeks Double) (b : OptionBook)
    (cs : List Call) : List UInt8 :=
  (b.requests cs).flatMap fun req => Risk.encodeResponse (Risk.respond tickPrice priceScalar req)

theorem call_eq (times : Double → ℤ → Double) (sum : List Double → Double) (c : Call)
    (hlegs : Fits b.legs) (rest : List UInt8) (ht : ∀ c ∈ t, c ≠ [])
    (hflat : t.flatten = answers tickPrice priceScalar b [c] ++ rest) :
    ∃ u, b.call times sum c t = some ((b.requests [c]).flatMap Risk.encodeRequest,
        exact times sum tickPrice priceScalar b c, u) ∧
      u.flatten = rest ∧ ∀ c ∈ u, c ≠ [] := by
  rw [answers, requests, List.flatMap_singleton] at hflat
  rw [requests, List.flatMap_singleton]
  obtain ⟨u, hu, huflat, hune⟩ := products_eq times c.field c.spotTicks hlegs rest ht hflat
  refine ⟨u, ?_, huflat, hune⟩
  cases c with
  | delta spotTicks => exact congrArg (Option.map fun r => (r.1, sum r.2.1, r.2.2)) hu
  | value spotTicks => exact congrArg (Option.map fun r => (r.1, sum r.2.1, r.2.2)) hu

theorem callAll_eq (times : Double → ℤ → Double) (sum : List Double → Double)
    (hlegs : Fits b.legs) (ht : ∀ c ∈ t, c ≠ [])
    (hflat : t.flatten = answers tickPrice priceScalar b cs) :
    ∃ u, callAll times sum b cs t = some ((b.requests cs).flatMap Risk.encodeRequest,
      cs.map (exact times sum tickPrice priceScalar b), u) ∧ u.flatten = [] := by
  induction cs generalizing t with
  | nil => exact ⟨t, rfl, hflat⟩
  | cons c cs ih =>
    have hcons : b.requests (c :: cs) = b.requests [c] ++ b.requests cs := by
      simp only [requests, List.flatMap_cons, List.flatMap_nil, List.append_nil]
    rw [answers, hcons, List.flatMap_append] at hflat
    obtain ⟨u, hu, huflat, hune⟩ := call_eq times sum c hlegs _ ht hflat
    obtain ⟨v, hv, hvflat⟩ := ih hune huflat
    refine ⟨v, ?_, hvflat⟩
    rw [hcons, List.flatMap_append]
    simp only [callAll, hu, hv, Option.bind_eq_bind, Option.bind_some, List.map_cons]
    rfl

/-- Any calls on one connection: each gives the sum that the pricer itself gives for its spot, leg
by leg, and no answer is left over, wherever the two streams are cut. -/
theorem aggregates_served (tickPrice : Int64 → Double)
    (priceScalar : Risk.OptionParams Double → Risk.Greeks Double)
    (times : Double → ℤ → Double) (sum : List Double → Double) (b : OptionBook) (cs : List Call)
    (hlegs : Fits b.legs) (hs : ∀ c ∈ s, c ≠ []) (ht : ∀ c ∈ t, c ≠ [])
    (hsent : s.flatten = (b.requests cs).flatMap Risk.encodeRequest)
    (hanswer : t.flatten = (Risk.handleConnection tickPrice priceScalar s).flatten) :
    ∃ u, callAll times sum b cs t =
        some (s.flatten, cs.map (exact times sum tickPrice priceScalar b), u) ∧
      u.flatten = [] := by
  have hread : s.flatten = ((b.requests cs).map Risk.encodeRequest).flatten := by
    rw [hsent, List.flatMap_def]
  rw [Risk.handleConnection_eq tickPrice priceScalar hs hread, ← List.flatMap_def] at hanswer
  rw [hsent]
  exact callAll_eq times sum hlegs ht hanswer

/-- The delta and then the value of a call and a short put, with made-up prices. -/
theorem aggregates_served_of_a_call_and_a_put :
    ∃ s t u : List (List UInt8), s.length = 2 ∧ t.length = 2 ∧
      callAll (fun x n => ⟨x.bits * UInt64.ofNat n.natAbs⟩) (fun xs => ⟨(xs.map Double.bits).sum⟩)
        ⟨[⟨400, ⟨1⟩, ⟨2⟩, true, 10⟩, ⟨-4, ⟨3⟩, ⟨4⟩, false, -5⟩], ⟨6⟩⟩ [.delta 7, .value 9] t =
          some (s.flatten, [⟨70⟩, ⟨135⟩], u) ∧ u.flatten = [] := by
  let book : OptionBook := ⟨[⟨400, ⟨1⟩, ⟨2⟩, true, 10⟩, ⟨-4, ⟨3⟩, ⟨4⟩, false, -5⟩], ⟨6⟩⟩
  let tick (x : Int64) : Double := ⟨x.toUInt64⟩
  let pricer (p : Risk.OptionParams Double) : Risk.Greeks Double :=
    ⟨p.spot, if p.isCall then p.spot else ⟨0⟩, p.vol, p.rate, p.strike, p.timeToExpiry⟩
  let sent := (book.requests [.delta 7, .value 9]).flatMap Risk.encodeRequest
  let answer := (Risk.handleConnection tick pricer [sent.take 20, sent.drop 20]).flatten
  let times (x : Double) (n : ℤ) : Double := ⟨x.bits * UInt64.ofNat n.natAbs⟩
  let sum (xs : List Double) : Double := ⟨(xs.map Double.bits).sum⟩
  have hexact : [Call.delta 7, .value 9].map (exact times sum tick pricer book) =
      [⟨70⟩, ⟨135⟩] := by decide +kernel
  obtain ⟨u, hu, hrest⟩ := aggregates_served tick pricer times sum book [.delta 7, .value 9]
    (s := [sent.take 20, sent.drop 20]) (t := [answer.take 60, answer.drop 60])
    (by decide) (by decide +kernel) (by decide +kernel) (by decide +kernel) (by decide +kernel)
  rw [hexact] at hu
  exact ⟨[sent.take 20, sent.drop 20], [answer.take 60, answer.drop 60], u, rfl, rfl, hu, hrest⟩

end OptionBook
end Velo.Strategy
