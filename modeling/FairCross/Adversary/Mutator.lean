import FairCross.Engine.Accounting
import FairCross.Proof.Constraints

/-!
# The adversarial operator

`adversary/mutator.hpp` and `adversary/mutator.cpp`: an operator that executes a batch like
`executeBatch`, except for one mutation of what it publishes.
-/

namespace FairCross

inductive MutationType where
  | none
  | manipulateClearingPrice
  | censorOrder
  | injectUnauthorizedOrder
  | manipulateAllocation
  | violateLimitPrice
  | freezePostState
  | inflatePostStateCash
  | inflatePostStateInventory
  | spoofCommitmentLeaf
  | replayBatchHeader
  | staleOracleSnapshot
deriving DecidableEq

/-- A mutation, with the parameters of every type of it. -/
structure AdversarialMutation (D : Type) where
  type : MutationType
  offsetTicks : I64
  leafIndex : ℕ
  injectedOrder : Order
  injectedSalt : Bytes32
  targetOrderId : OrderId
  forgedQty : Qty
  bogusPrice : Price
  beneficiaryAccount : AccountId
  extraCash : Money
  extraInstrument : InstrumentId
  extraQty : Qty
  fakeCommitment : D
  fakeBatchId : BatchId
  stalenessOffsetNanos : U64

/-- What the operator publishes. -/
structure AdversarialExecution (D : Type) where
  batch : Batch
  executionResult : BatchExecutionResult
  merkleTree : MerkleTree D
  accounting : CompleteInputAccounting D
  batchHeader : BatchHeader D
  batchCommitment : D
  oracleSnapshot : Option ReferencePriceSnapshot
  oraclePolicy : Option ReferencePricePolicy

/-- A failed operation whose error is discarded leaves the account as it was. -/
def AccountState.orKeep (acc : AccountState) (r : Result AccountState) : AccountState :=
  match r with
  | .ok acc' => acc'
  | .error _ => acc

namespace AdversarialOperator

/-- The price moved by `offset`, at least one tick. The sum is a signed 64-bit one. -/
def shiftPrice (price : Price) (offset : I64) : Option Price := do
  let newRaw ← (I64.ofU64 price.raw).add offset
  let newRaw : ℤ := if (newRaw : ℤ) < 1 then 1 else newRaw
  pure ⟨toU64 newRaw.toNat⟩

/-- The settlement of one fill, with every failure ignored. -/
def settleAnyway (acc : AccountState) (fill : Fill) : AccountState :=
  if fill.side = .buy then
    let acc := acc.orKeep (acc.debitCash fill.consideration)
    acc.orKeep (acc.creditInventory fill.instrumentId fill.fillQty)
  else
    let acc := acc.orKeep (acc.debitInventory fill.instrumentId fill.fillQty)
    acc.orKeep (acc.creditCash fill.consideration)

def publishFill (l : Ledger) (fill : Fill) : Ledger :=
  let (l, acc) := l.getOrCreateAccount fill.accountId
  l.setAccount fill.accountId (settleAnyway acc fill)

/-- Apply `op` to the account under `id`, with a failure ignored. -/
def updateAccount (l : Ledger) (id : AccountId) (op : AccountState → Result AccountState) : Ledger :=
  let (l, acc) := l.getOrCreateAccount id
  l.setAccount id (acc.orKeep (op acc))

variable {D : Type} (m : AdversarialMutation D)

/-- 1. The preimages the operator works with. -/
def mutatePreimages (preimages : List SaltedOrderPreimage) : List SaltedOrderPreimage :=
  match m.type with
  | .censorOrder =>
    if m.leafIndex < preimages.length then preimages.eraseIdx m.leafIndex else preimages
  | .injectUnauthorizedOrder => preimages ++ [⟨m.injectedOrder, m.injectedSalt⟩]
  | _ => preimages

/-- 2. The clearing outcome. -/
def mutateOutcome (outcome : ClearingOutcome) : Option ClearingOutcome :=
  match m.type, outcome.clearingPrice with
  | .manipulateClearingPrice, some price => do
    let price ← shiftPrice price m.offsetTicks
    pure { outcome with clearingPrice := some price }
  | _, _ => some outcome

/-- 3. The allocation. -/
def mutateAllocation (allocation : BatchAllocation) : BatchAllocation :=
  match m.type with
  | .manipulateAllocation =>
    { allocation with allocations := allocation.allocations.map fun a =>
        if a.orderId = m.targetOrderId then { a with allocatedQty := m.forgedQty } else a }
  | _ => allocation

/-- 4. The fills. -/
def mutateFill (fill : Fill) : Result Fill :=
  match m.type with
  | .violateLimitPrice =>
    if fill.orderId = m.targetOrderId then do
      let consideration ← Money.fromPriceQty m.bogusPrice fill.fillQty
      pure { fill with executionPrice := m.bogusPrice, consideration }
    else .ok fill
  | _ => .ok fill

/-- 5. The ledger after the fills, which started from `preState`. -/
def mutatePostState (preState postState : Ledger) : Ledger :=
  match m.type with
  | .freezePostState => preState
  | .inflatePostStateCash => updateAccount postState m.beneficiaryAccount (·.creditCash m.extraCash)
  | .inflatePostStateInventory =>
    updateAccount postState m.beneficiaryAccount (·.creditInventory m.extraInstrument m.extraQty)
  | _ => postState

/-- 7. The batch id of the header. -/
def mutateBatchId (batchId : BatchId) : BatchId :=
  match m.type with
  | .replayBatchHeader => m.fakeBatchId
  | _ => batchId

def cutoffNanos : U64 := 1700000000000000000

def maxStaleness : U64 := 1000000000

/-- 8. The time of the oracle snapshot. -/
def snapshotTime : U64 :=
  match m.type with
  | .staleOracleSnapshot => cutoffNanos - maxStaleness - m.stalenessOffsetNanos
  | _ => cutoffNanos - 500000000

variable [CommitmentScheme D]

/-- 6. The tree and the accounting. -/
def mutateAccounting (built : MerkleTree D × CompleteInputAccounting D) :
    MerkleTree D × CompleteInputAccounting D :=
  match m.type with
  | .spoofCommitmentLeaf =>
    if m.leafIndex < built.1.leaves.length then
      (.new (built.1.leaves.set m.leafIndex m.fakeCommitment),
        { built.2 with records := built.2.records.modify m.leafIndex fun r =>
            { r with commitment := m.fakeCommitment } })
    else built
  | _ => built

/-- 5. to 8. What is published once the outcome, the allocation and the fills are made up. -/
def publish (preState : Ledger) (workingBatch : Batch) (workingPreimages : List SaltedOrderPreimage)
    (outcome : ClearingOutcome) (allocation : BatchAllocation) (fills : List Fill) :
    AdversarialExecution D :=
  let postState := mutatePostState m preState (fills.foldl publishFill preState)
  let (merkleTree, accounting) := mutateAccounting m
    (buildCompleteInputAccounting workingBatch workingPreimages allocation)
  let batchHeader : BatchHeader D :=
    { semanticVersion := 1, batchId := mutateBatchId m workingBatch.batchId
      instrumentId := workingBatch.instrument, cutoffTimestamp := 1700000000
      orderCount := Fin.ofNat _ workingBatch.len, ordersMerkleRoot := merkleTree.root }
  let snapshot : ReferencePriceSnapshot :=
    { oracleId := 1, instrumentId := workingBatch.instrument
      referencePrice := outcome.clearingPrice.getD ⟨100⟩
      timestampNanos := snapshotTime m, sequence := 1 }
  { batch := workingBatch, executionResult := ⟨outcome, allocation, fills, postState⟩
    merkleTree, accounting, batchHeader, batchCommitment := computeBatchCommitment batchHeader
    oracleSnapshot := some snapshot, oraclePolicy := some ⟨maxStaleness, 10⟩ }

/-- The published execution. It takes the `value()` of every result, which throws on an error, and an
overflow of the moved price is undefined: there is no execution then. -/
def execute [StdSort] (preState : Ledger) (batch : Batch) (preimages : List SaltedOrderPreimage) :
    Option (AdversarialExecution D) := do
  let workingPreimages := mutatePreimages m preimages
  let workingBatch := Batch.new batch.batchId batch.instrument (workingPreimages.map (·.order))
  let outcome ← mutateOutcome m (← (determineClearingOutcome workingBatch).toOption)
  let allocation ← (allocateBatch workingBatch outcome.clearingPrice outcome.executableVolume).toOption
  let allocation := mutateAllocation m allocation
  let fills ← (generateCanonicalFills workingBatch allocation).toOption
  let fills ← (fills.mapM (mutateFill m)).toOption
  pure (publish m preState workingBatch workingPreimages outcome allocation fills)

end AdversarialOperator

end FairCross
