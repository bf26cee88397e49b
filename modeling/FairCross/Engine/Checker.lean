import FairCross.Engine.Transition

/-!
# The transition checker

`engine/checker.cpp`. `verifyTransition` recomputes clearing, allocation and fills, and compares the
proposed post-state with the one the fills imply.
-/

namespace FairCross

def orderMap (orders : List Order) : SortedMap U64 Order :=
  orders.foldl (fun m o => m.insert o.id.raw o) .empty

/-- The total bought and the total sold quantity of the fills checked so far. -/
structure FillTotals where
  totalBuyQty : Qty
  totalSellQty : Qty

/-- The checks of one fill against its order. -/
def checkFill (orders : SortedMap U64 Order) (t : FillTotals) (fill : Fill) : Result FillTotals :=
  match orders.find fill.orderId.raw with
  | none => failure "AccountStateMismatch: fill references order not in batch"
  | some order =>
    if fill.fillQty.raw > order.qty.raw then failure "Overfill: fill_qty > order_qty"
    else do
      let t ←
        if fill.side = .buy then
          if fill.executionPrice.raw > order.price.raw then
            failure "LimitPriceViolation: buy fill above limit"
          else do
            let totalBuyQty ← (t.totalBuyQty.checkedAdd fill.fillQty).convert
            pure { t with totalBuyQty }
        else
          if fill.executionPrice.raw < order.price.raw then
            failure "LimitPriceViolation: sell fill below limit"
          else do
            let totalSellQty ← (t.totalSellQty.checkedAdd fill.fillQty).convert
            pure { t with totalSellQty }
      match Money.fromPriceQty fill.executionPrice fill.fillQty with
      | .error _ => failure "IncorrectConsideration"
      | .ok expected =>
        if fill.consideration ≠ expected then failure "IncorrectConsideration" else pure t

/-- The comparison of one reconstructed account with the proposed post-state. -/
def checkAccount (proposed : Ledger) (inst : InstrumentId) (accountId : AccountId)
    (expected : AccountState) : Result Unit :=
  let tag := "AccountStateMismatch: account " ++ toString (accountId.raw : ℕ)
  match proposed.getAccount accountId with
  | none => failure (tag ++ " missing from proposed post-state")
  | some actual =>
    if actual.cash ≠ expected.cash then
      failure (tag ++ " cash does not match pre-state updated by its fills")
    else if actual.inventoryOf inst ≠ expected.inventoryOf inst then
      failure (tag ++ " inventory does not match pre-state updated by its fills")
    else pure ()

/-- Steps 3 to 7: what is checked once clearing, allocation and fills are the canonical ones. -/
def verifySettlement (preState : Ledger) (batch : Batch) (proposed : BatchExecutionResult) :
    Result Unit := do
  let totals ← proposed.fills.foldlM (checkFill (orderMap batch.orders)) ⟨.zero, .zero⟩
  if totals.totalBuyQty ≠ totals.totalSellQty then failure "VolumeConservation: buy != sell"
  else if !sameTotal preState.totalCash proposed.postState.totalCash then
    failure "CashConservation: pre_cash != post_cash"
  else if !sameTotal (preState.totalInventoryOf batch.instrument)
      (proposed.postState.totalInventoryOf batch.instrument) then
    failure "AssetConservation: pre_inv != post_inv"
  else do
    let expectedPost ← (applyBatchTransition preState proposed.fills).orFail fun _ =>
      "AccountStateMismatch: proposed fills do not apply cleanly to the pre-state"
    if proposed.postState.accounts.size ≠ expectedPost.accounts.size then
      failure "AccountStateMismatch: post-state account set differs from the reconstruction"
    else expectedPost.accounts.entries.forM fun e =>
      checkAccount proposed.postState batch.instrument e.1 e.2

def verifyTransition [StdSort] (preState : Ledger) (batch : Batch)
    (proposed : BatchExecutionResult) : Result Unit := do
  let expectedOutcome ← (determineClearingOutcome batch).orFail fun _ =>
    "NonDeterministicClearing: failed to compute outcome"
  if expectedOutcome ≠ proposed.clearingOutcome then
    failure "NonDeterministicClearing: outcome mismatch"
  else do
    let expectedAlloc ← (allocateBatch batch expectedOutcome.clearingPrice
      expectedOutcome.executableVolume).orFail fun _ =>
        "AllocationRuleMismatch: failed to compute allocation"
    if expectedAlloc ≠ proposed.allocation then
      failure "AllocationRuleMismatch: canonical allocation mismatch"
    else do
      let expectedFills ← (generateCanonicalFills batch expectedAlloc).orFail fun _ =>
        "AllocationRuleMismatch: failed to generate canonical fills"
      if expectedFills ≠ proposed.fills then
        failure "AllocationRuleMismatch: canonical fills mismatch"
      else verifySettlement preState batch proposed

end FairCross
