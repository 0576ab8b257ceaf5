import Velo.Lib.Vec
import Velo.Risk.Pricing

/-! The batch pricer of `risk/src/pricing.rs`. The vectors of `wide` are a parameter. -/
namespace Velo.Risk
open Elementary Vec

/-- `f64x4` and its masks. -/
class F64x4 (F M : outParam Type*) (V : Type*)
    extends Add V, Sub V, Mul V, Div V, Elementary V where
  splat : F → V
  abs : V → V
  simdLt : V → V → M
  blend : M → V → V → V
  new : (Fin 4 → F) → V
  toArray : V → Fin 4 → F

open F64x4

section Lanes

variable {F M V : Type*} [Field F] [F64x4 F M V]

def normPdfSimd (x : V) : V := exp (x * x * splat (-0.5)) * splat (1 / sqrt2Pi)

def normCdfSimd (x : V) : V :=
  let negMask := simdLt x (splat 0)
  let sign := blend negMask (splat (-1)) (splat 1 : V)
  let xAbs := abs x
  let p : V := splat 0.2316419
  let b1 : V := splat 0.319381530
  let b2 : V := splat (-0.356563782)
  let b3 : V := splat 1.781477937
  let b4 : V := splat (-1.821255978)
  let b5 : V := splat 1.330274429
  let t := splat 1 / (splat 1 + p * xAbs)
  let poly := t * (b1 + t * (b2 + t * (b3 + t * (b4 + t * b5))))
  let cdfAbs := splat 1 - normPdfSimd xAbs * poly
  splat 0.5 + sign * (cdfAbs - splat 0.5)

/-- The six vectors come back in the order of the fields of `Greeks`. -/
def priceLaneSimd (spot strike rate vol t phi : V) : Greeks V :=
  let sqrtT := sqrt t
  let volSqrtT := vol * sqrtT
  let d1 := (ln (spot / strike) + (rate + splat 0.5 * vol * vol) * t) / volSqrtT
  let d2 := d1 - volSqrtT
  let discount := exp (rate * t * splat (-1))
  let nPhiD1 := normCdfSimd (phi * d1)
  let nPhiD2 := normCdfSimd (phi * d2)
  let pdfD1 := normPdfSimd d1
  { price := phi * (spot * nPhiD1 - strike * discount * nPhiD2)
    delta := phi * nPhiD1
    gamma := pdfD1 / (spot * volSqrtT)
    vega := spot * pdfD1 * sqrtT
    theta := spot * pdfD1 * vol / (splat 2.0 * sqrtT) * splat (-1) -
      phi * rate * strike * discount * nPhiD2
    rho := phi * strike * t * discount * nPhiD2 }

end Lanes

/-- The columns of a batch, or one row of them. -/
structure Columns (α : Type*) where
  spot : α
  strike : α
  rate : α
  vol : α
  t : α
  phi : α

namespace Columns

variable {α : Type*}

def replicate (n : ℕ) (a : α) : Columns (List α) :=
  ⟨.replicate n a, .replicate n a, .replicate n a, .replicate n a, .replicate n a, .replicate n a⟩

def get? (c : Columns (List α)) (i : ℕ) : Option (Columns α) := do
  some ⟨← c.spot[i]?, ← c.strike[i]?, ← c.rate[i]?, ← c.vol[i]?, ← c.t[i]?, ← c.phi[i]?⟩

def set? (c : Columns (List α)) (i : ℕ) (row : Columns α) : Option (Columns (List α)) := do
  some ⟨← Vec.set? c.spot i row.spot, ← Vec.set? c.strike i row.strike,
    ← Vec.set? c.rate i row.rate, ← Vec.set? c.vol i row.vol, ← Vec.set? c.t i row.t,
    ← Vec.set? c.phi i row.phi⟩

def slice? (c : Columns (List α)) (i k : ℕ) : Option (Columns (Fin k → α)) := do
  some ⟨← Vec.slice? c.spot i k, ← Vec.slice? c.strike i k, ← Vec.slice? c.rate i k,
    ← Vec.slice? c.vol i k, ← Vec.slice? c.t i k, ← Vec.slice? c.phi i k⟩

/-- The columns of these rows. -/
def ofRows (rows : List (Columns α)) : Columns (List α) :=
  ⟨rows.map spot, rows.map strike, rows.map rate, rows.map vol, rows.map t, rows.map phi⟩

variable {rows : List (Columns α)} {i k : ℕ}

theorem replicate_eq (n : ℕ) (a : α) :
    replicate n a = ofRows (.replicate n ⟨a, a, a, a, a, a⟩) := by
  simp only [replicate, ofRows, List.map_replicate]

theorem get?_ofRows (h : i < rows.length) : (ofRows rows).get? i = some rows[i] := by
  simp only [get?, ofRows, List.getElem?_map, List.getElem?_eq_getElem h]
  rfl

theorem set?_ofRows (h : i < rows.length) (r : Columns α) :
    (ofRows rows).set? i r = some (ofRows (rows.set i r)) := by
  simp only [set?, ofRows, Vec.set?_map _ h]
  rfl

theorem slice?_ofRows (h : i + k ≤ rows.length) :
    (ofRows rows).slice? i k = some ⟨fun j => rows[i + j].spot, fun j => rows[i + j].strike,
      fun j => rows[i + j].rate, fun j => rows[i + j].vol, fun j => rows[i + j].t,
      fun j => rows[i + j].phi⟩ := by
  simp only [slice?, ofRows, Vec.slice?_map _ h]
  rfl

end Columns

namespace Greeks

variable {α : Type*}

def replicate (n : ℕ) (a : α) : Greeks (List α) :=
  ⟨.replicate n a, .replicate n a, .replicate n a, .replicate n a, .replicate n a, .replicate n a⟩

def get? (out : Greeks (List α)) (i : ℕ) : Option (Greeks α) := do
  some ⟨← out.price[i]?, ← out.delta[i]?, ← out.gamma[i]?, ← out.vega[i]?, ← out.theta[i]?,
    ← out.rho[i]?⟩

def copy? {k : ℕ} (out : Greeks (List α)) (i : ℕ) (g : Greeks (Fin k → α)) :
    Option (Greeks (List α)) := do
  some ⟨← Vec.copy? out.price i g.price, ← Vec.copy? out.delta i g.delta,
    ← Vec.copy? out.gamma i g.gamma, ← Vec.copy? out.vega i g.vega, ← Vec.copy? out.theta i g.theta,
    ← Vec.copy? out.rho i g.rho⟩

def ofRows (rows : List (Greeks α)) : Greeks (List α) :=
  ⟨rows.map price, rows.map delta, rows.map gamma, rows.map vega, rows.map theta, rows.map rho⟩

def lanes {k : ℕ} (rows : Fin k → Greeks α) : Greeks (Fin k → α) :=
  ⟨fun j => (rows j).price, fun j => (rows j).delta, fun j => (rows j).gamma,
    fun j => (rows j).vega, fun j => (rows j).theta, fun j => (rows j).rho⟩

variable {rows : List (Greeks α)} {i k : ℕ}

theorem replicate_eq (n : ℕ) (a : α) :
    replicate n a = ofRows (.replicate n ⟨a, a, a, a, a, a⟩) := by
  simp only [replicate, ofRows, List.map_replicate]

theorem get?_ofRows (h : i < rows.length) : (ofRows rows).get? i = some rows[i] := by
  simp only [get?, ofRows, List.getElem?_map, List.getElem?_eq_getElem h]
  rfl

theorem copy?_ofRows (h : i + k ≤ rows.length) (b : Fin k → Greeks α) :
    (ofRows rows).copy? i (lanes b) =
      some (ofRows (rows.take i ++ List.ofFn b ++ rows.drop (i + k))) := by
  simp only [copy?, ofRows, lanes, Vec.copy?_map _ h]
  rfl

end Greeks

section Batch

variable {F M V : Type*} [Field F] [F64x4 F M V]

def paddedLen (n : ℕ) : ℕ := (n + 3) / 4 * 4

/-- What a parameter set puts into the columns. -/
def row (p : OptionParams F) : Columns F :=
  ⟨p.spot, p.strike, p.rate, p.vol, p.timeToExpiry, if p.isCall then 1 else -1⟩

/-- The transposed batch, the last row repeated. -/
def transpose (params : List (OptionParams F)) : Option (Columns (List F)) := do
  let n := params.length
  let c ← params.zipIdx.foldlM (fun c (p, i) => c.set? i (row p)) (.replicate (paddedLen n) 0)
  (List.range' n (paddedLen n - n)).foldlM (fun c i => do c.set? i (← c.get? (n - 1))) c

end Batch

section Transpose

variable {F : Type*} [Field F]

theorem le_paddedLen (n : ℕ) : n ≤ paddedLen n := by
  rw [paddedLen]
  omega

/-- The first loop: the rows written so far are those of the batch. -/
theorem transpose_write (params : List (OptionParams F)) :
    ∃ c, params.zipIdx.foldlM (fun c (p, i) => Columns.set? c i (row p))
        (.replicate (paddedLen params.length) 0) = some c ∧
      ∃ rows, c = Columns.ofRows rows ∧ rows.length = paddedLen params.length ∧
        rows.take params.length = params.map row := by
  have hloop := foldlM_invariant (fun c (p, i) => Columns.set? c i (row p)) params.zipIdx
    (fun k c => ∃ rows, c = Columns.ofRows rows ∧ rows.length = paddedLen params.length ∧
      rows.take k = (params.take k).map row)
    ⟨_, Columns.replicate_eq (paddedLen params.length) 0, List.length_replicate, rfl⟩ ?_
  · rwa [List.length_zipIdx, List.take_length] at hloop
  rintro k hk c ⟨rows, rfl, hlen, htake⟩
  rw [List.length_zipIdx] at hk
  have hlt : k < rows.length := hlen ▸ hk.trans_le (le_paddedLen _)
  rw [List.getElem_zipIdx, Nat.zero_add]
  refine ⟨_, Columns.set?_ofRows hlt _, _, rfl, by rw [List.length_set, hlen], ?_⟩
  rw [List.take_add_one, List.take_add_one, List.getElem?_set_self hlt,
    List.getElem?_eq_getElem hk, List.take_set_of_le (Nat.le_refl k), htake, List.map_append]
  rfl

/-- The second loop leaves the rows of the batch alone. -/
theorem transpose_pad {params : List (OptionParams F)} {rows : List (Columns F)}
    (hlen : rows.length = paddedLen params.length)
    (htake : rows.take params.length = params.map row) :
    ∃ c, (List.range' params.length (paddedLen params.length - params.length)).foldlM
        (fun c i => do c.set? i (← c.get? (params.length - 1))) (Columns.ofRows rows) = some c ∧
      ∃ rows, c = Columns.ofRows rows ∧ rows.length = paddedLen params.length ∧
        rows.take params.length = params.map row := by
  refine foldlM_invariant _ _ (fun _ c => ∃ rows, c = Columns.ofRows rows ∧
    rows.length = paddedLen params.length ∧ rows.take params.length = params.map row)
    ⟨rows, rfl, hlen, htake⟩ ?_
  rintro k hk c ⟨rows, rfl, hlen, htake⟩
  have hle := le_paddedLen params.length
  rw [List.length_range'] at hk
  have hlast : params.length - 1 < rows.length := by omega
  have hlt : params.length + 1 * k < rows.length := by omega
  refine ⟨_, ?_, rows.set (params.length + 1 * k) rows[params.length - 1], rfl,
    by rw [List.length_set, hlen], ?_⟩
  · rw [List.getElem_range', Columns.get?_ofRows hlast]
    exact Columns.set?_ofRows hlt _
  · rw [List.take_set_of_le (by omega), htake]

theorem transpose_eq (params : List (OptionParams F)) :
    ∃ pad, transpose params = some (.ofRows (params.map row ++ pad)) ∧
      params.length + pad.length = paddedLen params.length := by
  obtain ⟨_, hwrite, rows, rfl, hlen, htake⟩ := transpose_write params
  obtain ⟨_, hpad, rows, rfl, hlen, htake⟩ := transpose_pad hlen htake
  refine ⟨rows.drop params.length, ?_, ?_⟩
  · rw [← htake, List.take_append_drop, transpose, hwrite]
    exact hpad
  · have hle := le_paddedLen params.length
    rw [List.length_drop, hlen]
    omega

end Transpose

section Batch

variable {F M V : Type*} [Field F] [F64x4 F M V]

/-- Four rows at a time from `i` on. -/
def priceBlock (V : Type*) [F64x4 F M V] (c : Columns (List F)) (out : Greeks (List F)) (i : ℕ) :
    Option (Greeks (List F)) := do
  let s ← c.slice? i 4
  let g := priceLaneSimd (new s.spot : V) (new s.strike) (new s.rate) (new s.vol) (new s.t)
    (new s.phi)
  out.copy? i ⟨toArray g.price, toArray g.delta, toArray g.gamma, toArray g.vega,
    toArray g.theta, toArray g.rho⟩

/-- The columns priced, and the first `n` rows read out. -/
def priceColumns (V : Type*) [F64x4 F M V] (n : ℕ) (c : Columns (List F)) :
    Option (List (Greeks F)) := do
  let out ← (List.range' 0 ((n + 3) / 4) 4).foldlM (priceBlock V c) (.replicate (paddedLen n) 0)
  (List.range n).mapM out.get?

/-- A panic is `none`. -/
def priceBatchSimd (V : Type*) [F64x4 F M V] (params : List (OptionParams F)) :
    Option (List (Greeks F)) :=
  if params.length = 0 then some []
  else do priceColumns V params.length (← transpose params)

end Batch

/-- The vectors of `wide` compute lane by lane. -/
structure LaneByLane (F M V : Type*) [Field F] [LinearOrder F] [Elementary F] [F64x4 F M V] :
    Prop where
  new : ∀ a i, toArray (new a : V) i = a i
  splat : ∀ a i, toArray (splat a : V) i = a
  add : ∀ (x y : V) i, toArray (x + y) i = toArray x i + toArray y i
  sub : ∀ (x y : V) i, toArray (x - y) i = toArray x i - toArray y i
  mul : ∀ (x y : V) i, toArray (x * y) i = toArray x i * toArray y i
  div : ∀ (x y : V) i, toArray (x / y) i = toArray x i / toArray y i
  exp : ∀ (x : V) i, toArray (exp x) i = Elementary.exp (toArray x i)
  ln : ∀ (x : V) i, toArray (ln x) i = Elementary.ln (toArray x i)
  sqrt : ∀ (x : V) i, toArray (sqrt x) i = Elementary.sqrt (toArray x i)
  abs : ∀ (x : V) i, toArray (abs x) i = |toArray x i|
  select : ∀ (x y a b : V) i, toArray (blend (simdLt x y) a b) i =
    if toArray x i < toArray y i then toArray a i else toArray b i

variable {F M V : Type*} [Field F] [LinearOrder F] [Elementary F] [F64x4 F M V] {i : Fin 4}

theorem normPdfSimd_lane (h : LaneByLane F M V) (x : V) :
    toArray (normPdfSimd x) i = normPdf (toArray x i) := by
  rw [normPdfSimd, normPdf, h.mul, h.exp, h.mul, h.mul, h.splat, h.splat, mul_one_div]
  congr 2
  ring

theorem normCdfSimd_lane (h : LaneByLane F M V) (x : V) :
    toArray (normCdfSimd x) i = normCdf (toArray x i) := by
  simp only [normCdfSimd, normCdf, h.add, h.sub, h.mul, h.div, h.splat, h.select, h.abs,
    normPdfSimd_lane h]

/-- What is in one lane of the results. -/
def Greeks.lane (g : Greeks V) (i : Fin 4) : Greeks F :=
  ⟨toArray g.price i, toArray g.delta i, toArray g.gamma i, toArray g.vega i, toArray g.theta i,
    toArray g.rho i⟩

theorem priceLaneSimd_lane (h : LaneByLane F M V) (p : OptionParams F)
    {spot strike rate vol t phi : V} (hspot : toArray spot i = p.spot)
    (hstrike : toArray strike i = p.strike) (hrate : toArray rate i = p.rate)
    (hvol : toArray vol i = p.vol) (ht : toArray t i = p.timeToExpiry)
    (hphi : toArray phi i = if p.isCall then 1 else -1) :
    (priceLaneSimd spot strike rate vol t phi).lane i = priceScalar p := by
  have hdiscount : p.rate * p.timeToExpiry * -1 = -p.rate * p.timeToExpiry := by
    ring
  simp only [Greeks.lane, priceLaneSimd, priceScalar, h.add, h.sub, h.mul, h.div, h.splat, h.exp,
    h.ln, h.sqrt, normPdfSimd_lane h, normCdfSimd_lane h, hspot, hstrike, hrate, hvol, ht, hphi,
    hdiscount, neg_div, mul_neg_one]

variable {rows : List (Columns F)} {gs : List (Greeks F)} {params : List (OptionParams F)} {k n : ℕ}

/-- A block writes the scalar prices of the rows in it that hold parameters. -/
theorem priceBlock_eq (h : LaneByLane F M V) (hk : k + 4 ≤ rows.length) (hgs : k + 4 ≤ gs.length) :
    ∃ b : Fin 4 → Greeks F, priceBlock V (.ofRows rows) (.ofRows gs) k =
        some (.ofRows (gs.take k ++ List.ofFn b ++ gs.drop (k + 4))) ∧
      ∀ (j : Fin 4) p, rows[k + j] = row p → b j = priceScalar p := by
  let g : Greeks V := priceLaneSimd (new fun j => rows[k + j].spot)
    (new fun j => rows[k + j].strike) (new fun j => rows[k + j].rate)
    (new fun j => rows[k + j].vol) (new fun j => rows[k + j].t) (new fun j => rows[k + j].phi)
  refine ⟨g.lane, ?_, ?_⟩
  · rw [priceBlock, Columns.slice?_ofRows hk]
    exact Greeks.copy?_ofRows hgs g.lane
  · intro j p hrow
    refine priceLaneSimd_lane h p ?_ ?_ ?_ ?_ ?_ ?_
    all_goals
      rw [h.new, hrow]
      rfl

/-- The third loop: what is priced so far of the batch is priced as the scalar pricer does. -/
theorem priceBlocks_eq (h : LaneByLane F M V) (params : List (OptionParams F))
    {pad : List (Columns F)} (hpad : params.length + pad.length = paddedLen params.length) :
    ∃ out, (List.range' 0 ((params.length + 3) / 4) 4).foldlM
        (priceBlock V (.ofRows (params.map row ++ pad)))
        (.replicate (paddedLen params.length) 0) = some out ∧
      ∃ gs, out = Greeks.ofRows gs ∧ gs.length = paddedLen params.length ∧
        ∀ j (hj : j < params.length), gs[j]? = some (priceScalar params[j]) := by
  have hrows : (params.map row ++ pad).length = paddedLen params.length := by
    rw [List.length_append, List.length_map, hpad]
  have hloop := foldlM_invariant
    (priceBlock V (.ofRows (params.map row ++ pad))) (List.range' 0 ((params.length + 3) / 4) 4)
    (fun k out => ∃ gs, out = Greeks.ofRows gs ∧ gs.length = paddedLen params.length ∧
      ∀ j (hj : j < params.length), j < 4 * k → gs[j]? = some (priceScalar params[j]))
    ⟨_, Greeks.replicate_eq (paddedLen params.length) 0, List.length_replicate, by
      intro j hj hlt
      omega⟩ ?_
  · obtain ⟨out, hout, gs, rfl, hgs, hprices⟩ := hloop
    refine ⟨_, hout, gs, rfl, hgs, fun j hj => hprices j hj ?_⟩
    rw [List.length_range']
    omega
  rintro k hk out ⟨gs, rfl, hgs, hprices⟩
  rw [List.length_range'] at hk
  have hle : 4 * k + 4 ≤ paddedLen params.length := by
    rw [paddedLen]
    omega
  obtain ⟨b, hblock, hb⟩ := priceBlock_eq h (hrows ▸ hle) (hgs ▸ hle)
  rw [List.getElem_range', Nat.zero_add]
  refine ⟨_, hblock, _, rfl, by rw [length_copy (hgs ▸ hle), hgs], ?_⟩
  intro j hj hlt
  rw [getElem?_copy (hgs ▸ hle)]
  by_cases hin : 4 * k ≤ j ∧ j < 4 * k + 4
  · rw [dif_pos hin, hb _ params[j]]
    simp only [Nat.add_sub_cancel' hin.1]
    rw [List.getElem_append_left (by rwa [List.length_map]), List.getElem_map]
  · rw [dif_neg hin]
    exact hprices j hj (by omega)

theorem priceColumns_eq (h : LaneByLane F M V) (params : List (OptionParams F))
    {pad : List (Columns F)} (hpad : params.length + pad.length = paddedLen params.length) :
    priceColumns V params.length (.ofRows (params.map row ++ pad)) =
      some (params.map priceScalar) := by
  obtain ⟨_, hout, gs, rfl, hgs, hprices⟩ := priceBlocks_eq h params hpad
  have hread : (List.range (params.map priceScalar).length).mapM (Greeks.ofRows gs).get? =
      some (params.map priceScalar) := by
    refine mapM_range_eq fun j hj => ?_
    rw [List.length_map] at hj
    obtain ⟨hlt, hprice⟩ := List.getElem?_eq_some_iff.mp (hprices j hj)
    rw [Greeks.get?_ofRows hlt, hprice, List.getElem_map]
  rw [priceColumns, hout]
  rwa [List.length_map] at hread

/-- For every batch of any length the vectorized pricer does not panic and gives what the scalar
one gives for each option, and other rows in the padding would change nothing. -/
theorem priceBatchSimd_eq (h : LaneByLane F M V) (params : List (OptionParams F)) :
    priceBatchSimd V params = some (params.map priceScalar) ∧
      ∀ pad : List (Columns F), params.length + pad.length = paddedLen params.length →
        priceColumns V params.length (.ofRows (params.map row ++ pad)) =
          priceBatchSimd V params := by
  have hbatch : priceBatchSimd V params = some (params.map priceScalar) := by
    rw [priceBatchSimd]
    split
    · rename_i hnil
      rw [List.length_eq_zero_iff.mp hnil]
      rfl
    · obtain ⟨pad, htranspose, hpad⟩ := transpose_eq params
      rw [htranspose]
      exact priceColumns_eq h params hpad
  exact ⟨hbatch, fun pad hpad => (priceColumns_eq h params hpad).trans hbatch.symm⟩

noncomputable instance elementaryReal : Elementary ℝ := ⟨Real.exp, Real.log, Real.sqrt⟩

/-- Four numbers, and a mask of four bits. -/
@[reducible] noncomputable def fourReals : F64x4 ℝ (Fin 4 → Bool) (Fin 4 → ℝ) where
  add x y i := x i + y i
  sub x y i := x i - y i
  mul x y i := x i * y i
  div x y i := x i / y i
  exp x i := exp (x i)
  ln x i := ln (x i)
  sqrt x i := sqrt (x i)
  splat a _ := a
  abs x i := |x i|
  simdLt x y i := decide (x i < y i)
  blend m x y i := if m i then x i else y i
  new a := a
  toArray x := x

theorem fourReals_laneByLane : @LaneByLane ℝ _ (Fin 4 → ℝ) _ _ _ fourReals := by
  let _ := fourReals
  refine ⟨?_, ?_, ?_, ?_, ?_, ?_, ?_, ?_, ?_, ?_, ?_⟩
  case refine_11 =>
    intro x y a b i
    change (if decide (x i < y i) = true then a i else b i) = if x i < y i then a i else b i
    simp only [decide_eq_true_eq]
  all_goals
    intros
    rfl

/-- Five options, calls and puts: a full block, and one padded with three copies. -/
theorem priceBatchSimd_eq_five :
    let _ := fourReals
    let params : List (OptionParams ℝ) := [⟨80, 100, 0.03, 0.25, 0.5, true⟩,
      ⟨83, 100, 0.03, 0.25, 0.6, false⟩, ⟨86, 100, 0.03, 0.25, 0.7, true⟩,
      ⟨89, 100, 0.03, 0.25, 0.8, false⟩, ⟨92, 100, 0.03, 0.25, 0.9, true⟩]
    priceBatchSimd (Fin 4 → ℝ) params = some (params.map priceScalar) := by
  intro _ params
  exact (priceBatchSimd_eq fourReals_laneByLane params).1

end Velo.Risk
