import FairCross.Engine.Batch

/-!
# The auction

`engine/auction.hpp` and `engine/auction.cpp`: demand and supply of a price, the sweep over the
order prices, and the clearing price.
-/

namespace FairCross

/-- Demand, supply and executable volume of one candidate price. -/
structure CandidateEvaluation where
  price : Price
  demand : Qty
  supply : Qty
  executableVolume : Qty
deriving DecidableEq

structure VolumeMaximizers where
  maxVolume : Qty
  evaluations : List CandidateEvaluation
  maximizingPrices : List Price
deriving DecidableEq

structure ClearingOutcome where
  clearingPrice : Option Price
  executableVolume : Qty
deriving DecidableEq

def demandFromOrders (orders : List Order) (price : Price) : Result Qty :=
  orders.foldlM (fun total order =>
    if order.side = .buy ∧ order.price.raw ≥ price.raw then total.checkedAdd order.qty
    else .ok total) Qty.zero

def supplyFromOrders (orders : List Order) (price : Price) : Result Qty :=
  orders.foldlM (fun total order =>
    if order.side = .sell ∧ order.price.raw ≤ price.raw then total.checkedAdd order.qty
    else .ok total) Qty.zero

/-- The distinct order prices, ascending. -/
def candidatePricesFromOrders [StdSort] (orders : List Order) : List Price :=
  StdAlgorithm.unique (StdSort.sort (fun a b => decide (a < b)) (orders.map (·.price)))

/-- The quantities at each candidate price, per side. -/
structure Buckets where
  buyQtyAtPrice : List Qty
  sellQtyAtPrice : List Qty

/-- Add one order to the bucket of its price. Everything that is not a buy counts as a sell. -/
def addToBucket (candidates : List Price) (b : Buckets) (order : Order) : Result Buckets :=
  let idx := StdAlgorithm.lowerBound candidates order.price
  if candidates[idx]? = some order.price then
    if order.side = .buy then do
      let qty ← ((b.buyQtyAtPrice.getD idx .zero).checkedAdd order.qty).convert
      pure { b with buyQtyAtPrice := b.buyQtyAtPrice.set idx qty }
    else do
      let qty ← ((b.sellQtyAtPrice.getD idx .zero).checkedAdd order.qty).convert
      pure { b with sellQtyAtPrice := b.sellQtyAtPrice.set idx qty }
  else .ok b

/-- The running totals of `qtys`, starting from `running`. -/
def runningTotals : Qty → List Qty → Result (List Qty)
  | _, [] => .ok []
  | running, q :: qs => do
    let running ← (running.checkedAdd q).convert
    let rest ← runningTotals running qs
    pure (running :: rest)

/-- The evaluation of one candidate from its entries in the demand and supply arrays. -/
def evaluateCandidate (price : Price) (d s : Qty) : CandidateEvaluation :=
  { price, demand := d, supply := s, executableVolume := if d.raw < s.raw then d else s }

/-- The sweep: supply accumulates from the lowest price up, demand from the highest price down. -/
def computeVolumeMaximizersFromOrders [StdSort] (orders : List Order) : Result VolumeMaximizers :=
  let candidates := candidatePricesFromOrders orders
  let numCandidates := candidates.length
  if numCandidates = 0 then .ok { maxVolume := .zero, evaluations := [], maximizingPrices := [] }
  else do
    let zeros := List.replicate numCandidates Qty.zero
    let buckets ← orders.foldlM (addToBucket candidates) ⟨zeros, zeros⟩
    let supplyAtCand ← runningTotals .zero buckets.sellQtyAtPrice
    let demandFromTop ← runningTotals .zero buckets.buyQtyAtPrice.reverse
    let demandAtCand := demandFromTop.reverse
    let evaluations := List.zipWith (fun price (q : Qty × Qty) => evaluateCandidate price q.1 q.2)
      candidates (demandAtCand.zip supplyAtCand)
    let maxVolume := evaluations.foldl
      (fun best e => if e.executableVolume.raw > best.raw then e.executableVolume else best) Qty.zero
    let maximizingPrices := (evaluations.filter (·.executableVolume = maxVolume)).map (·.price)
    pure { maxVolume, evaluations, maximizingPrices }

/-- The floor midpoint of the lowest and the highest maximizing price, in 64-bit arithmetic. -/
def midpoint (pMin pMax : U64) : U64 := pMin + (pMax - pMin) / 2

def resolveClearingPriceTie (m : VolumeMaximizers) : Option Price :=
  match m.maximizingPrices.head?, m.maximizingPrices.getLast? with
  | some pMin, some pMax =>
    if m.maxVolume.isZero then none
    else
      match Price.create (midpoint pMin.raw pMax.raw) with
      | .ok price => some price
      | .error _ => none
  | _, _ => none

def determineClearingOutcome [StdSort] (batch : Batch) : Result ClearingOutcome := do
  let maximizers ← (computeVolumeMaximizersFromOrders batch.orders).convert
  pure { clearingPrice := resolveClearingPriceTie maximizers
         executableVolume := maximizers.maxVolume }

end FairCross
