import Velo.Risk.PricingProtocol
import Velo.Lib.Struct

/-! `strategy/orderbook_client/pricing_client.py`, and what it makes of the answers of the pricing
server. Exceptions are `none`. -/
namespace Velo.Strategy
open BigEndian Socket Struct

def priceRequestTag : UInt8 := 0x20
def priceResponseTag : UInt8 := 0x21

def requestFmt : Format := [.q, .q, .d, .d, .d, .B]
def responseFmt : Format := [.d, .d, .d, .d, .d, .d]

def responseSize : ℕ := calcsize responseFmt

structure Greeks where
  price : Double
  delta : Double
  gamma : Double
  vega : Double
  theta : Double
  rho : Double
  deriving DecidableEq

/-- A field that `d` has unpacked. -/
def doubleOf (x : ℤ) : Double := ⟨UInt64.ofNat x.toNat⟩

namespace PricingClient

/-- What `price` sends. -/
def request (spotTicks strikeTicks : ℤ) (rate vol timeToExpiry : Double) (isCall : Bool) :
    Option (List UInt8) := do
  let body ← pack requestFmt [spotTicks, strikeTicks, rate.bits.toNat, vol.bits.toNat,
    timeToExpiry.bits.toNat, if isCall then 1 else 0]
  return priceRequestTag :: body

def greeks (payload : List UInt8) : Option Greeks := do
  match ← unpack responseFmt payload with
  | [price, delta, gamma, vega, theta, rho] =>
    return ⟨doubleOf price, doubleOf delta, doubleOf gamma, doubleOf vega, doubleOf theta,
      doubleOf rho⟩
  | _ => none

/-- What `price` then receives, and what is left of the stream. -/
def reply (s : List (List UInt8)) : Option (Greeks × List (List UInt8)) := do
  let (tag, s) ← recvExact 1 s
  if tag ≠ [priceResponseTag] then none
  else
    let (payload, s) ← recvExact responseSize s
    return (← greeks payload, s)

variable {s t : List (List UInt8)} {msg : Risk.PriceResponse}

theorem doubleOf_bits (x : Double) : doubleOf x.bits.toNat = x := by
  rw [doubleOf, Int.toNat_natCast, UInt64.ofNat_toNat]

theorem request_eq (msg : Risk.PriceRequest) :
    request msg.spotTicks.toInt msg.strikeTicks.toInt msg.rate msg.vol msg.timeToExpiry
      msg.isCall = some (Risk.encodeRequest msg) := by
  have hcall : Code.B.pack (if msg.isCall then 1 else 0) =
      some [if msg.isCall then 1 else 0] := by
    cases msg.isCall
    · exact pack_B 0
    · exact pack_B 1
  simp [request, requestFmt, pack, pack_q, pack_d, hcall, Risk.encodeRequest, priceRequestTag,
    Risk.priceRequestTag]

/-- The fields of the client's greeks are those of the response. -/
def ofResponse (msg : Risk.PriceResponse) : Greeks :=
  ⟨msg.price, msg.delta, msg.gamma, msg.vega, msg.theta, msg.rho⟩

theorem greeks_payload (msg : Risk.PriceResponse) :
    greeks (Risk.responsePayload msg) = some (ofResponse msg) := by
  have hpack : pack responseFmt [msg.price.bits.toNat, msg.delta.bits.toNat, msg.gamma.bits.toNat,
      msg.vega.bits.toNat, msg.theta.bits.toNat, msg.rho.bits.toNat] =
        some (Risk.responsePayload msg) := by
    simp [pack, responseFmt, pack_d, Risk.responsePayload, Risk.encodeResponse]
  simp [greeks, unpack_pack hpack, doubleOf_bits, ofResponse]

/-- The reply is read wherever the stream is cut. -/
theorem reply_encodeResponse (rest : List UInt8) (hs : ∀ c ∈ s, c ≠ [])
    (hflat : s.flatten = Risk.encodeResponse msg ++ rest) :
    ∃ t, reply s = some (ofResponse msg, t) ∧ t.flatten = rest ∧ ∀ c ∈ t, c ≠ [] := by
  have htag : Risk.encodeResponse msg = [priceResponseTag] ++ Risk.responsePayload msg :=
    Risk.encodeResponse_eq msg
  have hone : [priceResponseTag].length = 1 := rfl
  have hlen : (Risk.responsePayload msg).length = responseSize := Risk.length_responsePayload msg
  rw [htag, List.append_assoc] at hflat
  obtain ⟨t, ht, htflat, htne⟩ := recvExact_eq (n := 1) hs (by simp [hflat])
  rw [hflat, List.take_left' hone] at ht
  rw [hflat, List.drop_left' hone] at htflat
  obtain ⟨u, hu, huflat, hune⟩ := recvExact_eq (n := responseSize) htne (by simp [htflat, hlen])
  rw [htflat, List.take_left' hlen] at hu
  rw [htflat, List.drop_left' hlen] at huflat
  refine ⟨u, ?_, huflat, hune⟩
  simp [reply, ht, hu, greeks_payload]

/-- One call: what the client sends, the server answers, and the client reads the greeks that the
pricer has for its own arguments, wherever the two streams are cut. -/
theorem price_served (tickPrice : Int64 → Double)
    (priceScalar : Risk.OptionParams Double → Risk.Greeks Double) (msg : Risk.PriceRequest)
    (hs : ∀ c ∈ s, c ≠ []) (ht : ∀ c ∈ t, c ≠ [])
    (hsent : request msg.spotTicks.toInt msg.strikeTicks.toInt msg.rate msg.vol msg.timeToExpiry
      msg.isCall = some s.flatten)
    (hanswer : t.flatten = (Risk.handleConnection tickPrice priceScalar s).flatten) :
    ∃ u, reply t = some (ofResponse (Risk.respond tickPrice priceScalar msg), u) ∧
      u.flatten = [] := by
  rw [request_eq, Option.some.injEq] at hsent
  have hflat : s.flatten = ([msg].map Risk.encodeRequest).flatten := by
    rw [← hsent, List.map_singleton, List.flatten_singleton]
  rw [Risk.handleConnection_eq tickPrice priceScalar hs hflat] at hanswer
  obtain ⟨u, hu, huflat, -⟩ := reply_encodeResponse [] ht hanswer
  exact ⟨u, hu, huflat⟩

/-- For every request the client writes the bytes that the Rust encoder writes, and the Rust decoder
has every field from them; for every response the client has from the bytes of the Rust encoder,
wherever they are cut, each field under its own name. Doubles are the same to the bit. -/
theorem pricing_protocol_faithful (req : Risk.PriceRequest) (res : Risk.PriceResponse)
    (hs : ∀ c ∈ s, c ≠ []) (hflat : s.flatten = Risk.encodeResponse res) :
    (request req.spotTicks.toInt req.strikeTicks.toInt req.rate req.vol req.timeToExpiry
        req.isCall = some (Risk.encodeRequest req) ∧
      ∃ payload, Risk.encodeRequest req = Risk.priceRequestTag :: payload ∧
        payload.length = Risk.priceRequestSize ∧ Risk.decodeRequest payload = some req) ∧
      ∃ t, t.flatten = [] ∧ reply s =
        some (⟨res.price, res.delta, res.gamma, res.vega, res.theta, res.rho⟩, t) := by
  refine ⟨⟨request_eq req, Risk.requestPayload req, Risk.encodeRequest_eq req,
    Risk.length_requestPayload req, Risk.decodeRequest_payload req⟩, ?_⟩
  obtain ⟨t, ht, htflat, -⟩ := reply_encodeResponse [] hs (hflat.trans (List.append_nil _).symm)
  exact ⟨t, htflat, ht⟩

/-- A response that arrives in two chunks. -/
theorem pricing_protocol_faithful_in_two_chunks :
    ∃ t, t.flatten = [] ∧ reply [(Risk.encodeResponse ⟨⟨1⟩, ⟨2⟩, ⟨3⟩, ⟨4⟩, ⟨5⟩, ⟨6⟩⟩).take 20,
      (Risk.encodeResponse ⟨⟨1⟩, ⟨2⟩, ⟨3⟩, ⟨4⟩, ⟨5⟩, ⟨6⟩⟩).drop 20] =
        some (⟨⟨1⟩, ⟨2⟩, ⟨3⟩, ⟨4⟩, ⟨5⟩, ⟨6⟩⟩, t) :=
  (pricing_protocol_faithful ⟨400, -400, ⟨1⟩, ⟨2⟩, ⟨3⟩, true⟩ ⟨⟨1⟩, ⟨2⟩, ⟨3⟩, ⟨4⟩, ⟨5⟩, ⟨6⟩⟩
    (by decide) (by decide)).2

end PricingClient
end Velo.Strategy
