import Velo.Risk.Pricing
import Velo.Risk.Protocol

/-! `risk/src/pricing_protocol.rs` and the connections of `risk/src/bin/pricing_server.rs`. Slices
and indices past the end of a payload panic, which is `none` here. -/
namespace Velo.Risk
open BigEndian Protocol Socket

def priceRequestTag : UInt8 := 0x20
def priceResponseTag : UInt8 := 0x21

def priceRequestSize : ℕ := 8 + 8 + 8 + 8 + 8 + 1
def priceResponseSize : ℕ := 8 * 6

structure PriceRequest where
  spotTicks : Int64
  strikeTicks : Int64
  rate : Double
  vol : Double
  timeToExpiry : Double
  isCall : Bool
  deriving DecidableEq

structure PriceResponse where
  price : Double
  delta : Double
  gamma : Double
  vega : Double
  theta : Double
  rho : Double
  deriving DecidableEq

def encodeRequest (msg : PriceRequest) : List UInt8 :=
  priceRequestTag :: (toBytes 8 msg.spotTicks.toUInt64.toNat ++
    toBytes 8 msg.strikeTicks.toUInt64.toNat ++ msg.rate.toBeBytes ++ msg.vol.toBeBytes ++
    msg.timeToExpiry.toBeBytes ++ [if msg.isCall then 1 else 0])

def decodeRequest (payload : List UInt8) : Option PriceRequest := do
  let spotTicks := (u64FromBeBytes (← slice payload 0 8)).toInt64
  let strikeTicks := (u64FromBeBytes (← slice payload 8 16)).toInt64
  let rate := Double.ofBeBytes (← slice payload 16 24)
  let vol := Double.ofBeBytes (← slice payload 24 32)
  let timeToExpiry := Double.ofBeBytes (← slice payload 32 40)
  let isCall := (← payload[40]?) != 0
  return ⟨spotTicks, strikeTicks, rate, vol, timeToExpiry, isCall⟩

def encodeResponse (msg : PriceResponse) : List UInt8 :=
  priceResponseTag :: [msg.price, msg.delta, msg.gamma, msg.vega, msg.theta, msg.rho].flatMap
    Double.toBeBytes

def decodeResponse (payload : List UInt8) : Option PriceResponse := do
  let get i := (slice payload (i * 8) (i * 8 + 8)).map Double.ofBeBytes
  return ⟨← get 0, ← get 1, ← get 2, ← get 3, ← get 4, ← get 5⟩

section Server

-- the arithmetic of doubles is not known here: `tickPrice` is the price of a number of ticks
variable (tickPrice : Int64 → Double) (priceScalar : OptionParams Double → Greeks Double)

def respond (req : PriceRequest) : PriceResponse :=
  let greeks := priceScalar
    { spot := tickPrice req.spotTicks
      strike := tickPrice req.strikeTicks
      rate := req.rate
      vol := req.vol
      timeToExpiry := req.timeToExpiry
      isCall := req.isCall }
  { price := greeks.price
    delta := greeks.delta
    gamma := greeks.gamma
    vega := greeks.vega
    theta := greeks.theta
    rho := greeks.rho }

/-- Only requests are answered. -/
def requestSize? (tag : UInt8) : Option ℕ :=
  if tag = priceRequestTag then some priceRequestSize else none

/-- The requests that `handle_connection` reads, until the stream ends or a tag is unknown. -/
def readRequests (s : List (List UInt8)) : List PriceRequest :=
  readTagged requestSize? (fun _ payload => decodeRequest payload) (s.flatten.length + 1) s

/-- What `handle_connection` writes. -/
def handleConnection (s : List (List UInt8)) : List (List UInt8) :=
  (readRequests s).map fun req => encodeResponse (respond tickPrice priceScalar req)

end Server

variable {s : List (List UInt8)} {reqs : List PriceRequest}

theorem length_toBeBytes (x : Double) : x.toBeBytes.length = 8 := length_toBytes 8 _

/-- The payload after the tag. -/
def requestPayload (msg : PriceRequest) : List UInt8 := (encodeRequest msg).tail

def responsePayload (msg : PriceResponse) : List UInt8 := (encodeResponse msg).tail

theorem encodeRequest_eq (msg : PriceRequest) :
    encodeRequest msg = priceRequestTag :: requestPayload msg := rfl

theorem encodeResponse_eq (msg : PriceResponse) :
    encodeResponse msg = priceResponseTag :: responsePayload msg := rfl

theorem length_requestPayload (msg : PriceRequest) :
    (requestPayload msg).length = priceRequestSize := by
  simp [requestPayload, encodeRequest, length_toBeBytes, priceRequestSize]

theorem length_responsePayload (msg : PriceResponse) :
    (responsePayload msg).length = priceResponseSize := by
  simp [responsePayload, encodeResponse, length_toBeBytes, priceResponseSize]

theorem decodeRequest_payload (msg : PriceRequest) :
    decodeRequest (requestPayload msg) = some msg := by
  have hbytes : requestPayload msg = toBytes 8 msg.spotTicks.toUInt64.toNat ++
      (toBytes 8 msg.strikeTicks.toUInt64.toNat ++ (msg.rate.toBeBytes ++ (msg.vol.toBeBytes ++
        (msg.timeToExpiry.toBeBytes ++ [if msg.isCall then 1 else 0])))) := by
    simp [requestPayload, encodeRequest]
  have hcall : ((if msg.isCall then 1 else 0 : UInt8) != 0) = msg.isCall := by
    cases msg.isCall <;> rfl
  rw [hbytes]
  simp [decodeRequest, slice, List.take_append, List.drop_append, List.take_of_length_le,
    List.drop_eq_nil_of_le, length_toBeBytes, u64FromBeBytes_toBytes,
    Double.ofBeBytes_toBeBytes, hcall]

theorem decodeResponse_payload (msg : PriceResponse) :
    decodeResponse (responsePayload msg) = some msg := by
  simp [decodeResponse, responsePayload, encodeResponse, slice, List.take_append, List.drop_append,
    List.take_of_length_le, List.drop_eq_nil_of_le, length_toBeBytes,
    Double.ofBeBytes_toBeBytes]

theorem readRequests_eq (hs : ∀ c ∈ s, c ≠ [])
    (hflat : s.flatten = (reqs.map encodeRequest).flatten) : readRequests s = reqs := by
  have hread : readRequests s = reqs.map id :=
    readTagged_all (fun _ => priceRequestTag) requestPayload id
      (fun req _ => congrArg some (length_requestPayload req).symm)
      (fun req _ => decodeRequest_payload req) hs hflat
  rw [hread, List.map_id]

theorem handleConnection_eq (tickPrice : Int64 → Double)
    (priceScalar : OptionParams Double → Greeks Double) (hs : ∀ c ∈ s, c ≠ [])
    (hflat : s.flatten = (reqs.map encodeRequest).flatten) :
    handleConnection tickPrice priceScalar s =
      reqs.map fun req => encodeResponse (respond tickPrice priceScalar req) := by
  rw [handleConnection, readRequests_eq hs hflat]

end Velo.Risk
