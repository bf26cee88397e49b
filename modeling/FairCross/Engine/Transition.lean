import FairCross.Engine.Allocation

/-!
# Fills and settlement

`engine/fill.cpp` and `engine/transition.cpp`: the canonical fills of an allocation, their
application to a ledger, and the execution of a batch.
-/

namespace FairCross

/-- The loop state: the fills so far and the next fill id. -/
def fillStep (inst : InstrumentId) (cp : Price) (s : List Fill × U64) (alloc : OrderAllocation) :
    Result (List Fill × U64) :=
  if alloc.allocatedQty.isZero then .ok s
  else do
    let fill ← (Fill.create s.2 alloc.orderId alloc.account inst alloc.side cp
      alloc.allocatedQty).convert
    pure (s.1 ++ [fill], s.2 + 1)

def generateCanonicalFills (batch : Batch) (allocation : BatchAllocation) : Result (List Fill) :=
  match allocation.clearingPrice with
  | none => .ok []
  | some cp =>
    if allocation.targetVolume.isZero then .ok []
    else do
      let s ← allocation.allocations.foldlM (fillStep batch.instrument cp) ([], 0)
      pure s.1

/-- A buyer spends cash and receives inventory, a seller the other way round. -/
def settle (acc : AccountState) (fill : Fill) : Result AccountState :=
  if fill.side = .buy then do
    let acc ← (acc.debitCash fill.consideration).convert
    (acc.creditInventory fill.instrumentId fill.fillQty).convert
  else do
    let acc ← (acc.debitInventory fill.instrumentId fill.fillQty).convert
    (acc.creditCash fill.consideration).convert

def applyFill (postState : Ledger) (fill : Fill) : Result Ledger := do
  let (l, acc) := postState.getOrCreateAccount fill.accountId
  let acc ← settle acc fill
  pure (l.setAccount fill.accountId acc)

/-- Both totals exist and are equal. -/
def sameTotal {α : Type} [DecidableEq α] (pre post : Result α) : Bool :=
  match pre, post with
  | .ok a, .ok b => a = b
  | _, _ => false

/-- The instruments of the fills. -/
def touchedInstruments (fills : List Fill) : SortedMap InstrumentId Unit :=
  fills.foldl (fun s f => s.insert f.instrumentId ()) .empty

def applyBatchTransition (preState : Ledger) (fills : List Fill) : Result Ledger := do
  let postState ← fills.foldlM applyFill preState
  if !sameTotal preState.totalCash postState.totalCash then
    failure "InvariantViolation: cash_conservation"
  else if !(touchedInstruments fills).keys.all fun inst =>
      sameTotal (preState.totalInventoryOf inst) (postState.totalInventoryOf inst) then
    failure "InvariantViolation: asset_conservation"
  else pure postState

structure BatchExecutionResult where
  clearingOutcome : ClearingOutcome
  allocation : BatchAllocation
  fills : List Fill
  postState : Ledger
deriving DecidableEq

def executeBatch [StdSort] (preState : Ledger) (batch : Batch) : Result BatchExecutionResult := do
  let clearingOutcome ← (determineClearingOutcome batch).convert
  let allocation ←
    (allocateBatch batch clearingOutcome.clearingPrice clearingOutcome.executableVolume).convert
  let fills ← (generateCanonicalFills batch allocation).convert
  let postState ← (applyBatchTransition preState fills).convert
  pure { clearingOutcome, allocation, fills, postState }

end FairCross
