import FairCross.Domain.Order

/-!
# Market quality

`simulator/metrics.hpp` and `simulator/metrics.cpp`. Unsigned sums wrap around. A signed sum that leaves
64 bits has no result, and the report is `none` then.
-/

namespace FairCross

structure OrderExecutionMetric where
  orderId : U64
  side : Side
  submittedQty : Qty
  filledQty : Qty
  arrivalNanos : U64
  batchCutoffNanos : U64
  delayNanos : U64
  arrivalReferencePrice : Option Price
  clearingPrice : Option Price
  slippageTicks : Option I64
  implementationShortfall : Money
deriving DecidableEq

structure MarketQualityReport where
  totalBatches : U64
  totalSubmittedOrders : U64
  totalFills : U64
  totalSubmittedVolume : U64
  totalClearedVolume : U64
  fillRatePermille : U32
  meanTimeToFillNanos : U64
  maxTimeToFillNanos : U64
  meanSlippageTicks : I64
  totalImplementationShortfall : Money
  orderMetrics : List OrderExecutionMetric
deriving DecidableEq

namespace MarketQualityCalculator

/-- The accumulators of the loop over the filled orders. -/
structure Totals where
  fills : U64
  filledLots : U64
  delay : U64
  maxDelay : U64
  slippage : I64
  slippageCount : U64
  shortfallRaw : U128

def Totals.zero : Totals := ⟨0, 0, 0, 0, .zero, 0, 0⟩

/-- One round of the loop over the filled orders. -/
def addMetric (t : Totals) (m : OrderExecutionMetric) : Option Totals :=
  if m.filledQty.isZero then some t
  else
    let counted : Totals :=
      { t with
        fills := t.fills + 1
        filledLots := t.filledLots + m.filledQty.raw
        delay := t.delay + m.delayNanos
        maxDelay := max t.maxDelay m.delayNanos
        shortfallRaw := t.shortfallRaw + m.implementationShortfall.raw }
    match m.slippageTicks with
    | none => some counted
    | some ticks => (t.slippage.add ticks).map fun slippage =>
      { counted with slippage, slippageCount := t.slippageCount + 1 }

def submittedVolume (metrics : List OrderExecutionMetric) : U64 :=
  metrics.foldl (fun volume m => volume + m.submittedQty.raw) 0

def fillRatePermille (filledLots submittedVolume : U64) : U32 :=
  if submittedVolume > 0 then Fin.ofNat _ ((filledLots : ℕ) * 1000 / submittedVolume) else 0

def meanTimeToFillNanos (t : Totals) : U64 := if t.fills > 0 then t.delay / t.fills else 0

def meanSlippageTicks (t : Totals) : Option I64 :=
  if t.slippageCount > 0 then t.slippage.div (.ofU64 t.slippageCount) else some .zero

def calculate (totalBatches : U64) (orderMetrics : List OrderExecutionMetric) :
    Option MarketQualityReport := do
  let volume := submittedVolume orderMetrics
  let t ← orderMetrics.foldlM addMetric .zero
  let meanSlippageTicks ← meanSlippageTicks t
  pure
    { totalBatches
      totalSubmittedOrders := toU64 orderMetrics.length
      totalFills := t.fills
      totalSubmittedVolume := volume
      totalClearedVolume := t.filledLots / 2
      fillRatePermille := fillRatePermille t.filledLots volume
      meanTimeToFillNanos := meanTimeToFillNanos t
      maxTimeToFillNanos := t.maxDelay
      meanSlippageTicks
      totalImplementationShortfall := ⟨t.shortfallRaw⟩
      orderMetrics }

end MarketQualityCalculator

end FairCross
