import Mathlib

/-! The scalar pricer of `risk/src/pricing.rs`, in exact arithmetic over any ordered field. -/
namespace Velo.Risk

/-- The functions of the standard library that the pricer calls. -/
class Elementary (F : Type*) where
  exp : F → F
  ln : F → F
  sqrt : F → F

open Elementary

structure OptionParams (F : Type*) where
  spot : F
  strike : F
  rate : F
  vol : F
  timeToExpiry : F
  isCall : Bool

structure Greeks (F : Type*) where
  price : F
  delta : F
  gamma : F
  vega : F
  theta : F
  rho : F

variable {F : Type*} [Field F]

def sqrt2Pi : F := 2.5066282746310002

variable [Elementary F]

def normPdf (x : F) : F := exp (-0.5 * x * x) / sqrt2Pi

variable [LinearOrder F]

def normCdf (x : F) : F :=
  let sign := if x < 0 then -1 else 1
  let xAbs := |x|
  let t := 1 / (1 + 0.2316419 * xAbs)
  let poly := t * (0.319381530 + t * (-0.356563782 + t * (1.781477937 +
    t * (-1.821255978 + t * 1.330274429))))
  let cdfAbs := 1 - normPdf xAbs * poly
  0.5 + sign * (cdfAbs - 0.5)

def priceScalar (p : OptionParams F) : Greeks F :=
  let phi := if p.isCall then 1 else -1
  let sqrtT := sqrt p.timeToExpiry
  let volSqrtT := p.vol * sqrtT
  let d1 := (ln (p.spot / p.strike) + (p.rate + 0.5 * p.vol * p.vol) * p.timeToExpiry) / volSqrtT
  let d2 := d1 - volSqrtT
  let discount := exp (-p.rate * p.timeToExpiry)
  let nPhiD1 := normCdf (phi * d1)
  let nPhiD2 := normCdf (phi * d2)
  let pdfD1 := normPdf d1
  { price := phi * (p.spot * nPhiD1 - p.strike * discount * nPhiD2)
    delta := phi * nPhiD1
    gamma := pdfD1 / (p.spot * volSqrtT)
    vega := p.spot * pdfD1 * sqrtT
    theta := -(p.spot * pdfD1 * p.vol) / (2.0 * sqrtT) - phi * p.rate * p.strike * discount * nPhiD2
    rho := phi * p.strike * p.timeToExpiry * discount * nPhiD2 }

end Velo.Risk
