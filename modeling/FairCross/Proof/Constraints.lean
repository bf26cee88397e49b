import FairCross.Engine.Accounting
import FairCross.Proof.R1cs

/-!
# The constraint subrelations

`proof/constraints.hpp` and `proof/constraints/*.cpp`, with `engine/oracle_validation.hpp`. Every
subrelation checks its invariant on the plaintext, allocates its variables, pushes their scalars and
emits its constraints.
-/

namespace FairCross

open Synth LinearCombination

/-! ## Order validity -/

/-- The variables of one order. -/
structure AllocatedOrderVar where
  id : Variable
  account : Variable
  instrument : Variable
  side : Variable
  price : Variable
  qty : Variable
  sequence : Variable

def synthesizeOrder (batchInstrument : U64) (idx : ℕ) (order : Order) : Synth AllocatedOrderVar := do
  let sideVal : U64 := if order.side = .buy then 0 else 1
  let idVar ← allocWitness
  let accVar ← allocWitness
  let instVar ← allocWitness
  let sideVar ← allocWitness
  let priceVar ← allocWitness
  let qtyVar ← allocWitness
  let seqVar ← allocWitness
  push [order.id.raw, order.account.raw, order.instrument.raw, sideVal, order.price.raw,
    order.qty.raw, order.seq]
  let tag := "order_" ++ toString idx
  enforce (fromVar sideVar) ((fromConstant 1).addTerm sideVar (-1)) zero (tag ++ "_boolean_side")
  enforceEqual (fromVar instVar) (fromConstant (toScalar batchInstrument)) (tag ++ "_instrument_match")
  enforceEqual (fromVar seqVar) (fromConstant (BitVec.ofNat 128 idx)) (tag ++ "_sequence_match")
  let invPriceVar ← allocWitness
  let invQtyVar ← allocWitness
  push [if order.price.raw ≠ 0 then 1 else 0, if order.qty.raw ≠ 0 then 1 else 0]
  enforce (fromVar priceVar) (fromVar invPriceVar) (fromVar priceVar) (tag ++ "_price_nonzero")
  enforce (fromVar qtyVar) (fromVar invQtyVar) (fromVar qtyVar) (tag ++ "_qty_nonzero")
  pure { id := idVar, account := accVar, instrument := instVar, side := sideVar, price := priceVar,
         qty := qtyVar, sequence := seqVar }

/-- The loop over the orders, from position `idx`. -/
def synthesizeOrdersFrom (batchInstrument : U64) : ℕ → List Order → Synth (List AllocatedOrderVar)
  | _, [] => pure []
  | idx, order :: orders => do
    let allocated ← synthesizeOrder batchInstrument idx order
    let rest ← synthesizeOrdersFrom batchInstrument (idx + 1) orders
    pure (allocated :: rest)

def synthesizeOrderValidityConstraints (batchInstrument : U64) (orders : List Order) :
    Synth (List AllocatedOrderVar) :=
  synthesizeOrdersFrom batchInstrument 0 orders

/-! ## Complete-input accounting -/

/-- The disposition an allocation implies. -/
def expectedDisposition (alloc : OrderAllocation) : OrderDisposition :=
  if alloc.allocatedQty.raw = 0 then .unfilled
  else if alloc.allocatedQty = alloc.originalQty then .fullyExecuted alloc.allocatedQty
  else
    let original := alloc.originalQty.raw
    let allocated := alloc.allocatedQty.raw
    .partiallyExecuted alloc.allocatedQty ⟨if original > allocated then original - allocated else 0⟩

section Scheme

variable {D : Type} [CommitmentScheme D]

/-- The low 64 bits of a digest. -/
def rootScalar (root : D) : U64 :=
  (List.range 8).foldl (fun scalar i =>
    scalar ||| toU64 (((CommitmentScheme.bytes root).getD i 0).toNat <<< (i * 8))) 0

variable [DecidableEq D]

def synthesizeMerkleInclusionConstraintWithRootVar (rootPubVar : Variable) (expectedRoot leaf : D)
    (proof : MerkleProof D) : Synth Unit :=
  if !proof.verify expectedRoot leaf then
    fail ("MerkleProofInvalid: leaf_index " ++ toString proof.leafIndex)
  else do
    let rootWitVar ← allocWitness
    push [rootScalar (proof.fold leaf)]
    enforceEqual (fromVar rootWitVar) (fromVar rootPubVar)
      ("merkle_inclusion_root_leaf_" ++ toString proof.leafIndex)

/-- One record with the preimage at its position. `countLc` counts the records. -/
def synthesizeRecord (merkleTree : MerkleTree D) (allocation : BatchAllocation) (rootPubVar : Variable)
    (countLc : LinearCombination) (idx : ℕ) (record : OrderAccountingRecord D)
    (preimage : SaltedOrderPreimage) : Synth LinearCombination := do
  let leaf : D := commitOrder preimage
  let seqVar ← allocWitness
  push [record.leafIndex]
  enforceEqual (fromVar seqVar) (fromConstant (BitVec.ofNat 128 idx))
    ("record_" ++ toString idx ++ "_sequential_index")
  match merkleTree.generateProof idx with
  | none => fail ("MerkleProofInvalid: leaf_index " ++ toString idx)
  | some proof =>
    synthesizeMerkleInclusionConstraintWithRootVar rootPubVar merkleTree.root leaf proof
    match allocation.allocations.find? (·.orderId = record.orderId) with
    | none => fail "InvalidWitness: order not found in allocation"
    | some alloc =>
      if record.disposition ≠ expectedDisposition alloc then
        fail ("record_" ++ toString idx ++ "_disposition_match")
      else pure (countLc.addTerm .one 1)

/-- The loop over the records and their preimages, from position `idx`. -/
def synthesizeRecordsFrom (merkleTree : MerkleTree D) (allocation : BatchAllocation)
    (rootPubVar : Variable) : ℕ → LinearCombination →
    List (OrderAccountingRecord D × SaltedOrderPreimage) → Synth LinearCombination
  | _, countLc, [] => pure countLc
  | idx, countLc, (record, preimage) :: rest => do
    let countLc ← synthesizeRecord merkleTree allocation rootPubVar countLc idx record preimage
    synthesizeRecordsFrom merkleTree allocation rootPubVar (idx + 1) countLc rest

def synthesizeCompleteInputAccountingConstraints (batch : Batch)
    (preimages : List SaltedOrderPreimage) (merkleTree : MerkleTree D)
    (accounting : CompleteInputAccounting D) (allocation : BatchAllocation) : Synth Unit := do
  lift ((verifyCompleteInputAccounting batch merkleTree accounting allocation).orFail fun e =>
    "complete_input_accounting_invariant: " ++ e.message)
  if batch.len ≠ accounting.records.length then
    fail ("accounting_cardinality: expected batch_size == " ++ toString batch.len ++ ", got " ++
      toString accounting.records.length)
  else do
    let batchLenVar ← allocPublic
    let rootPubVar ← allocPublic
    let countLc ← synthesizeRecordsFrom merkleTree allocation rootPubVar 0 zero
      (accounting.records.zip preimages)
    enforceEqual countLc (fromVar batchLenVar) "total_accounting_cardinality_equality"

end Scheme

/-! ## Clearing optimality -/

structure ProofComplexityMetrics where
  numConstraints : ℕ
  numPublicVariables : ℕ
  numWitnessVariables : ℕ
  numCandidatePrices : ℕ

/-- The constraints of one candidate price. -/
def synthesizeCandidate (orders : List Order) (volPubVar : Variable) (volRaw : U64) (price : Price) :
    Synth Unit := do
  let demand ← lift ((demandFromOrders orders price).orFail fun _ =>
    "InvalidWitness: arithmetic overflow computing demand")
  let supply ← lift ((supplyFromOrders orders price).orFail fun _ =>
    "InvalidWitness: arithmetic overflow computing supply")
  let d := demand.raw
  let s := supply.raw
  let v := min d s
  let dVar ← allocWitness
  let sVar ← allocWitness
  let vVar ← allocWitness
  let slackVar ← allocWitness
  push [d, s, v, if volRaw > v then volRaw - v else 0]
  let priceTag := toString (price.raw : ℕ)
  enforceEqual ((fromVar volPubVar).addTerm vVar (-1)) (fromVar slackVar)
    ("optimality_slack_at_price_" ++ priceTag)
  enforce (fromVar dVar) (fromVar sVar) (fromConstant (wrappingMul (toScalar d) (toScalar s)))
    ("supply_demand_bound_" ++ priceTag)

def synthesizeClearingOptimalityConstraints [StdSort] (batch : Batch) (clearingPrice : Option Price)
    (clearedVolume : Qty) : Synth ProofComplexityMetrics := do
  let honest ← lift ((determineClearingOutcome batch).orFail fun _ =>
    "InvalidWitness: engine failed to determine clearing outcome")
  if clearingPrice ≠ honest.clearingPrice then fail "clearing_price_optimality_and_tie_break"
  else if clearedVolume ≠ honest.executableVolume then fail "cleared_volume_maximality"
  else do
    let cpPubVar ← allocPublic
    let volPubVar ← allocPublic
    let cpRaw : U64 := (clearingPrice.map (·.raw)).getD 0
    let volRaw := clearedVolume.raw
    let prices := candidatePricesFromOrders batch.orders
    prices.forM (synthesizeCandidate batch.orders volPubVar volRaw)
    let cpWitVar ← allocWitness
    let volWitVar ← allocWitness
    push [cpRaw, volRaw]
    enforceEqual (fromVar cpWitVar) (fromVar cpPubVar) "clearing_price_equality"
    enforceEqual (fromVar volWitVar) (fromVar volPubVar) "cleared_volume_equality"
    let s ← get
    pure { numConstraints := s.cs.constraints.length, numPublicVariables := s.cs.numPublic,
           numWitnessVariables := s.cs.numWitness, numCandidatePrices := prices.length }

/-! ## Allocation -/

/-- The sums of the allocated quantities, per side. -/
structure AllocationTotals where
  totalBuyLc : LinearCombination
  totalSellLc : LinearCombination

def synthesizeOrderAllocation (orders : List Order) (clearingPrice : Price) (totals : AllocationTotals)
    (orderAlloc : OrderAllocation) : Synth AllocationTotals :=
  match orders.find? (·.id = orderAlloc.orderId) with
  | none => fail "InvalidWitness: order not in batch"
  | some order => do
    let allocQtyVal := orderAlloc.allocatedQty.raw
    let orderQtyVal := order.qty.raw
    let allocQtyVar ← allocWitness
    let orderQtyVar ← allocWitness
    push [allocQtyVal, orderQtyVal]
    let totals : AllocationTotals :=
      if order.side = .buy then { totals with totalBuyLc := totals.totalBuyLc.addTerm allocQtyVar 1 }
      else { totals with totalSellLc := totals.totalSellLc.addTerm allocQtyVar 1 }
    let idTag := toString (order.id.raw : ℕ)
    match classifyOrder order clearingPrice with
    | .inTheMoney | .atTheMoney => do
      let remVar ← allocWitness
      push [if orderQtyVal > allocQtyVal then orderQtyVal - allocQtyVal else 0]
      enforceEqual ((fromVar orderQtyVar).addTerm allocQtyVar (-1)) (fromVar remVar)
        ("order_" ++ idTag ++ "_fill_bound")
      pure totals
    | .outOfTheMoney => do
      enforceEqual (fromVar allocQtyVar) zero ("otm_order_" ++ idTag ++ "_zero_fill")
      pure totals

def synthesizeAllocationConstraints [StdSort] (batch : Batch) (clearingPrice : Price)
    (clearedVolume : Qty) (allocation : BatchAllocation) : Synth Unit := do
  let honest ← lift ((allocateBatch batch (some clearingPrice) clearedVolume).orFail fun _ =>
    "InvalidWitness: engine failed to allocate batch")
  if allocation ≠ honest then fail "deterministic_allocation_rule_match"
  else do
    let volPubVar ← allocPublic
    let totals ← allocation.allocations.foldlM
      (synthesizeOrderAllocation batch.orders clearingPrice) ⟨zero, zero⟩
    enforceEqual totals.totalBuyLc (fromVar volPubVar) "total_buy_allocation_conservation"
    enforceEqual totals.totalSellLc (fromVar volPubVar) "total_sell_allocation_conservation"

/-! ## Fill bounds -/

/-- The limit of a fill's order as a slack. -/
def synthesizeLimit (cpVar : Variable) (cpVal fillQtyVal : U64) (order : Order) : Synth Unit := do
  let idTag := toString (order.id.raw : ℕ)
  let limitVal := order.price.raw
  let limitVar ← allocWitness
  push [limitVal]
  if order.side = .buy then
    if cpVal > limitVal ∧ fillQtyVal > 0 then fail ("buy_order_" ++ idTag ++ "_limit_price")
    else do
      let slackVar ← allocWitness
      push [if limitVal > cpVal then limitVal - cpVal else 0]
      enforceEqual ((fromVar limitVar).addTerm cpVar (-1)) (fromVar slackVar)
        ("buy_order_" ++ idTag ++ "_limit_slack")
  else
    if cpVal < limitVal ∧ fillQtyVal > 0 then fail ("sell_order_" ++ idTag ++ "_limit_price")
    else do
      let slackVar ← allocWitness
      push [if cpVal > limitVal then cpVal - limitVal else 0]
      enforceEqual ((fromVar cpVar).addTerm limitVar (-1)) (fromVar slackVar)
        ("sell_order_" ++ idTag ++ "_limit_slack")

/-- The constraints of one fill. The consideration enters with its low 64 bits. -/
def synthesizeFill (orders : List Order) (cpVar : Variable) (cpVal : U64) (fill : Fill) :
    Synth Unit :=
  match orders.find? (·.id = fill.orderId) with
  | none => fail "InvalidWitness: fill refers to unknown order id"
  | some order => do
    let fillQtyVal := fill.fillQty.raw
    let orderQtyVal := order.qty.raw
    let considerationVal := toU64 fill.consideration.raw
    let idTag := toString (order.id.raw : ℕ)
    if fillQtyVal > orderQtyVal then fail ("order_" ++ idTag ++ "_no_overfill")
    else do
      let fillQtyVar ← allocWitness
      let orderQtyVar ← allocWitness
      let remQtyVar ← allocWitness
      let considerationVar ← allocWitness
      push [fillQtyVal, orderQtyVal, orderQtyVal - fillQtyVal, considerationVal]
      enforceEqual ((fromVar orderQtyVar).addTerm fillQtyVar (-1)) (fromVar remQtyVar)
        ("order_" ++ idTag ++ "_remaining_qty_bound")
      enforce (fromVar cpVar) (fromVar fillQtyVar) (fromVar considerationVar)
        ("fill_" ++ toString (fill.fillId : ℕ) ++ "_consideration_product")
      synthesizeLimit cpVar cpVal fillQtyVal order

def synthesizeFillBoundsConstraints (clearingPrice : Price) (orders : List Order)
    (fills : List Fill) : Synth Unit := do
  let cpVal := clearingPrice.raw
  let cpVar ← allocWitness
  push [cpVal]
  fills.forM (synthesizeFill orders cpVar cpVal)

/-! ## Conservation -/

/-- The sums of cash and inventory, before and after. -/
structure ConservationTotals where
  totalPreCashLc : LinearCombination
  totalPostCashLc : LinearCombination
  totalPreInvLc : LinearCombination
  totalPostInvLc : LinearCombination

/-- What an account is expected to hold. -/
structure ExpectedPost where
  cashLc : LinearCombination
  invLc : LinearCombination

/-- One fill of the account `accId`; the fills of other accounts are skipped. -/
def synthesizeAccountFill (accId : AccountId) (expected : ExpectedPost) (fill : Fill) :
    Synth ExpectedPost :=
  if fill.accountId ≠ accId then pure expected
  else do
    let considerationVar ← allocWitness
    let fillQtyVar ← allocWitness
    push [toU64 fill.consideration.raw, fill.fillQty.raw]
    if fill.side = .buy then
      pure { cashLc := expected.cashLc.addTerm considerationVar (-1)
             invLc := expected.invLc.addTerm fillQtyVar 1 }
    else
      pure { cashLc := expected.cashLc.addTerm considerationVar 1
             invLc := expected.invLc.addTerm fillQtyVar (-1) }

/-- The transition of one account. Cash enters with its low 64 bits. -/
def synthesizeAccount (postState : Ledger) (fills : List Fill) (instrument : InstrumentId)
    (totals : ConservationTotals) (e : AccountId × AccountState) : Synth ConservationTotals := do
  let preCash := toU64 e.2.cash.raw
  let preInv := (e.2.inventoryOf instrument).raw
  let postCash := ((postState.getAccount e.1).map fun acc => toU64 acc.cash.raw).getD 0
  let postInv := ((postState.getAccount e.1).map fun acc => (acc.inventoryOf instrument).raw).getD 0
  let preCashVar ← allocWitness
  let postCashVar ← allocWitness
  let preInvVar ← allocWitness
  let postInvVar ← allocWitness
  push [preCash, postCash, preInv, postInv]
  let expected ← fills.foldlM (synthesizeAccountFill e.1) ⟨fromVar preCashVar, fromVar preInvVar⟩
  let accTag := toString (e.1.raw : ℕ)
  enforceEqual (fromVar postCashVar) expected.cashLc ("account_" ++ accTag ++ "_cash_transition")
  enforceEqual (fromVar postInvVar) expected.invLc ("account_" ++ accTag ++ "_inv_transition")
  pure { totalPreCashLc := totals.totalPreCashLc.addTerm preCashVar 1
         totalPostCashLc := totals.totalPostCashLc.addTerm postCashVar 1
         totalPreInvLc := totals.totalPreInvLc.addTerm preInvVar 1
         totalPostInvLc := totals.totalPostInvLc.addTerm postInvVar 1 }

def synthesizeConservationConstraints (preState postState : Ledger) (fills : List Fill)
    (instrument : InstrumentId) : Synth Unit := do
  let totals ← preState.accounts.entries.foldlM (synthesizeAccount postState fills instrument)
    ⟨zero, zero, zero, zero⟩
  enforceEqual totals.totalPreCashLc totals.totalPostCashLc "global_cash_conservation"
  enforceEqual totals.totalPreInvLc totals.totalPostInvLc "global_asset_conservation"

/-! ## Oracle freshness -/

def validateReferencePriceSnapshot (policy : ReferencePricePolicy) (snapshot : ReferencePriceSnapshot)
    (expectedInstrument : InstrumentId) (batchCutoffNanos : U64) (clearingPrice : Option Price) :
    Result Unit :=
  if snapshot.instrumentId ≠ expectedInstrument then
    .error (.domain .instrumentMismatch
      "OracleValidationError: snapshot instrument does not match batch")
  else do
    policy.validateFreshness snapshot batchCutoffNanos
    match clearingPrice with
    | none => pure ()
    | some price => policy.validateCollar price snapshot

def synthesizeOracleFreshnessConstraints (instrument : InstrumentId) (batchTimestampNanos : U64)
    (clearingPrice : Price) (policy : ReferencePricePolicy)
    (snapshot : Option ReferencePriceSnapshot) : Synth Unit :=
  match snapshot with
  | none => pure ()
  | some snap => do
    lift ((validateReferencePriceSnapshot policy snap instrument batchTimestampNanos
      (some clearingPrice)).orFail fun e => "oracle_policy_validation: " ++ e.message)
    let tBatchVar ← allocWitness
    let tOracleVar ← allocWitness
    let _cpVar ← allocWitness
    let _pOracleVar ← allocWitness
    let cpVal := clearingPrice.raw
    let pOracleVal := snap.referencePrice.raw
    push [batchTimestampNanos, snap.timestampNanos, cpVal, pOracleVal]
    let age := if batchTimestampNanos > snap.timestampNanos
      then batchTimestampNanos - snap.timestampNanos else 0
    let ageVar ← allocWitness
    push [age]
    enforceEqual ((fromVar tBatchVar).addTerm tOracleVar (-1)) (fromVar ageVar)
      "oracle_timestamp_delta"
    let maxStaleness := policy.maxStalenessNanos
    let freshSlackVar ← allocWitness
    push [if maxStaleness > age then maxStaleness - age else 0]
    enforceEqual ((fromConstant (toScalar maxStaleness)).addTerm ageVar (-1)) (fromVar freshSlackVar)
      "oracle_freshness_slack"
    let diff := if cpVal > pOracleVal then cpVal - pOracleVal else pOracleVal - cpVal
    let diffVar ← allocWitness
    push [diff]
    let maxCollar := policy.maxDeviationTicks
    let collarSlackVar ← allocWitness
    push [if maxCollar > diff then maxCollar - diff else 0]
    enforceEqual ((fromConstant (toScalar maxCollar)).addTerm diffVar (-1)) (fromVar collarSlackVar)
      "oracle_collar_slack"

end FairCross
