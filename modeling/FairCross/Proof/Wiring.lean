import FairCross.Proof.Prover

/-!
# The wiring of the constraint system

What every variable stands for. The subrelations are written once more, here with the scalar of a
variable at the variable's own allocation instead of in a vector beside it, and without the checks on
the plaintext. A constraint may name only variables that have a scalar.
-/

namespace FairCross

open LinearCombination

def LinearCombination.vars (lc : LinearCombination) : List Variable := lc.terms.map (·.1)

def R1CSConstraint.vars (c : R1CSConstraint) : List Variable :=
  c.a.vars ++ c.b.vars ++ c.c.vars

/-- The scalar of a variable; a variable that was not allocated has none. -/
def Variable.scalar (publics witnesses : List U64) : Variable → Option U64
  | .one => some 1
  | .publicVar index => publics[index]?
  | .witnessVar index => witnesses[index]?

/-- A constraint system with the scalars of its variables. -/
structure Wiring where
  cs : ConstraintSystem
  publics : List U64
  witnesses : List U64
  length_publics : publics.length = cs.numPublic
  length_witnesses : witnesses.length = cs.numWitness
  allAssigned : ∀ c ∈ cs.constraints, ∀ v ∈ c.vars, (v.scalar publics witnesses).isSome

namespace Wiring

def new : Wiring := ⟨.new, [], [], rfl, rfl, fun _ hc => absurd hc List.not_mem_nil⟩

def scalarOf (w : Wiring) (v : Variable) : Option U64 := v.scalar w.publics w.witnesses

end Wiring

/-- A variable keeps its scalar when further variables are allocated. -/
theorem Variable.isSome_scalar_append {publics witnesses : List U64} {v : Variable}
    (h : (v.scalar publics witnesses).isSome) (publics' witnesses' : List U64) :
    (v.scalar (publics ++ publics') (witnesses ++ witnesses')).isSome := by
  cases v with
  | one => rfl
  | publicVar i =>
    obtain ⟨hi, -⟩ := List.getElem?_eq_some_iff.mp (Option.eq_some_of_isSome h)
    show ((publics ++ publics')[i]?).isSome
    rwa [List.getElem?_append_left hi]
  | witnessVar i =>
    obtain ⟨hi, -⟩ := List.getElem?_eq_some_iff.mp (Option.eq_some_of_isSome h)
    show ((witnesses ++ witnesses')[i]?).isSome
    rwa [List.getElem?_append_left hi]

/-- A subrelation that says what its variables stand for. -/
abbrev Wire (α : Type) := StateT Wiring Option α

namespace Wire

/-- A public variable that stands for `value`. -/
def allocPublic (value : U64) : Wire Variable := fun w =>
  some (.publicVar w.cs.numPublic,
    { cs := { w.cs with numPublic := w.cs.numPublic + 1 }
      publics := w.publics ++ [value]
      witnesses := w.witnesses
      length_publics := by rw [List.length_append, w.length_publics, List.length_singleton]
      length_witnesses := w.length_witnesses
      allAssigned := fun c hc v hv => by
        simpa using Variable.isSome_scalar_append (w.allAssigned c hc v hv) [value] [] })

/-- A witness variable that stands for `value`. -/
def allocWitness (value : U64) : Wire Variable := fun w =>
  some (.witnessVar w.cs.numWitness,
    { cs := { w.cs with numWitness := w.cs.numWitness + 1 }
      publics := w.publics
      witnesses := w.witnesses ++ [value]
      length_publics := w.length_publics
      length_witnesses := by rw [List.length_append, w.length_witnesses, List.length_singleton]
      allAssigned := fun c hc v hv => by
        simpa using Variable.isSome_scalar_append (w.allAssigned c hc v hv) [] [value] })

/-- A constraint. One that names a variable without a scalar is refused. -/
def addConstraint (constraint : R1CSConstraint) : Wire Unit := fun w =>
  if h : ∀ v ∈ constraint.vars, (w.scalarOf v).isSome then
    some ((),
      { cs := { w.cs with constraints := w.cs.constraints ++ [constraint] }
        publics := w.publics
        witnesses := w.witnesses
        length_publics := w.length_publics
        length_witnesses := w.length_witnesses
        allAssigned := fun c hc => by
          rcases List.mem_append.mp hc with hc | hc
          · exact w.allAssigned c hc
          · rw [List.mem_singleton.mp hc]
            exact h })
  else none

def enforce (a b c : LinearCombination) (label : String) : Wire Unit :=
  addConstraint ⟨a, b, c, label⟩

/-- `lc1 = lc2`, as `(lc1 - lc2) * 1 = 0`. -/
def enforceEqual (lc1 lc2 : LinearCombination) (label : String) : Wire Unit :=
  enforce (lc2.terms.foldl (fun lc t => lc.addTerm t.1 (-t.2)) lc1) (fromVar .one) zero label

/-- A value from outside the constraint system. -/
def lift {α : Type} (o : Option α) : Wire α := fun w => o.map (·, w)

end Wire

open Wire

/-! ## Order validity -/

def wireOrder (batchInstrument : U64) (idx : ℕ) (order : Order) : Wire AllocatedOrderVar := do
  let idVar ← allocWitness order.id.raw
  let accVar ← allocWitness order.account.raw
  let instVar ← allocWitness order.instrument.raw
  let sideVar ← allocWitness (if order.side = .buy then 0 else 1)
  let priceVar ← allocWitness order.price.raw
  let qtyVar ← allocWitness order.qty.raw
  let seqVar ← allocWitness order.seq
  let tag := "order_" ++ toString idx
  enforce (fromVar sideVar) ((fromConstant 1).addTerm sideVar (-1)) zero (tag ++ "_boolean_side")
  enforceEqual (fromVar instVar) (fromConstant (toScalar batchInstrument)) (tag ++ "_instrument_match")
  enforceEqual (fromVar seqVar) (fromConstant (BitVec.ofNat 128 idx)) (tag ++ "_sequence_match")
  let invPriceVar ← allocWitness (if order.price.raw ≠ 0 then 1 else 0)
  let invQtyVar ← allocWitness (if order.qty.raw ≠ 0 then 1 else 0)
  enforce (fromVar priceVar) (fromVar invPriceVar) (fromVar priceVar) (tag ++ "_price_nonzero")
  enforce (fromVar qtyVar) (fromVar invQtyVar) (fromVar qtyVar) (tag ++ "_qty_nonzero")
  pure { id := idVar, account := accVar, instrument := instVar, side := sideVar, price := priceVar,
         qty := qtyVar, sequence := seqVar }

def wireOrdersFrom (batchInstrument : U64) : ℕ → List Order → Wire (List AllocatedOrderVar)
  | _, [] => pure []
  | idx, order :: orders => do
    let allocated ← wireOrder batchInstrument idx order
    let rest ← wireOrdersFrom batchInstrument (idx + 1) orders
    pure (allocated :: rest)

/-! ## Complete-input accounting -/

section Scheme

variable {D : Type} [CommitmentScheme D]

def wireMerkleInclusion (rootPubVar : Variable) (leaf : D) (proof : MerkleProof D) : Wire Unit := do
  let rootWitVar ← allocWitness (rootScalar (proof.fold leaf))
  enforceEqual (fromVar rootWitVar) (fromVar rootPubVar)
    ("merkle_inclusion_root_leaf_" ++ toString proof.leafIndex)

variable [DecidableEq D]

def wireRecord (merkleTree : MerkleTree D) (rootPubVar : Variable) (countLc : LinearCombination)
    (idx : ℕ) (record : OrderAccountingRecord D) (preimage : SaltedOrderPreimage) :
    Wire LinearCombination := do
  let seqVar ← allocWitness record.leafIndex
  enforceEqual (fromVar seqVar) (fromConstant (BitVec.ofNat 128 idx))
    ("record_" ++ toString idx ++ "_sequential_index")
  let proof ← lift (merkleTree.generateProof idx)
  wireMerkleInclusion rootPubVar (commitOrder preimage) proof
  pure (countLc.addTerm .one 1)

def wireRecordsFrom (merkleTree : MerkleTree D) (rootPubVar : Variable) : ℕ → LinearCombination →
    List (OrderAccountingRecord D × SaltedOrderPreimage) → Wire LinearCombination
  | _, countLc, [] => pure countLc
  | idx, countLc, (record, preimage) :: rest => do
    let countLc ← wireRecord merkleTree rootPubVar countLc idx record preimage
    wireRecordsFrom merkleTree rootPubVar (idx + 1) countLc rest

/-- The public variables stand for the batch length and the root. -/
def wireAccounting (batch : Batch) (preimages : List SaltedOrderPreimage) (merkleTree : MerkleTree D)
    (accounting : CompleteInputAccounting D) : Wire Unit := do
  let batchLenVar ← allocPublic (toU64 batch.len)
  let rootPubVar ← allocPublic (rootScalar merkleTree.root)
  let countLc ← wireRecordsFrom merkleTree rootPubVar 0 zero (accounting.records.zip preimages)
  enforceEqual countLc (fromVar batchLenVar) "total_accounting_cardinality_equality"

end Scheme

/-! ## Clearing optimality -/

/-- The candidate price is bound through its demand, its supply, their minimum, and the distance of
that from the cleared volume. -/
def wireCandidate (orders : List Order) (volPubVar : Variable) (volRaw : U64) (price : Price) :
    Wire Unit := do
  let demand ← lift (demandFromOrders orders price).toOption
  let supply ← lift (supplyFromOrders orders price).toOption
  let v := min demand.raw supply.raw
  let dVar ← allocWitness demand.raw
  let sVar ← allocWitness supply.raw
  let vVar ← allocWitness v
  let slackVar ← allocWitness (if volRaw > v then volRaw - v else 0)
  enforceEqual ((fromVar volPubVar).addTerm vVar (-1)) (fromVar slackVar)
    ("optimality_slack_at_price_" ++ toString (price.raw : ℕ))
  enforce (fromVar dVar) (fromVar sVar)
    (fromConstant (wrappingMul (toScalar demand.raw) (toScalar supply.raw)))
    ("supply_demand_bound_" ++ toString (price.raw : ℕ))

/-- The public variables stand for the clearing price, zero without one, and the cleared volume. -/
def wireClearing [StdSort] (batch : Batch) (clearingPrice : Option Price) (clearedVolume : Qty) :
    Wire ProofComplexityMetrics := do
  let cpRaw : U64 := (clearingPrice.map (·.raw)).getD 0
  let cpPubVar ← allocPublic cpRaw
  let volPubVar ← allocPublic clearedVolume.raw
  let prices := candidatePricesFromOrders batch.orders
  prices.forM (wireCandidate batch.orders volPubVar clearedVolume.raw)
  let cpWitVar ← allocWitness cpRaw
  let volWitVar ← allocWitness clearedVolume.raw
  enforceEqual (fromVar cpWitVar) (fromVar cpPubVar) "clearing_price_equality"
  enforceEqual (fromVar volWitVar) (fromVar volPubVar) "cleared_volume_equality"
  let w ← get
  pure { numConstraints := w.cs.constraints.length, numPublicVariables := w.cs.numPublic,
         numWitnessVariables := w.cs.numWitness, numCandidatePrices := prices.length }

/-! ## Allocation -/

def wireOrderAllocation (orders : List Order) (clearingPrice : Price) (totals : AllocationTotals)
    (orderAlloc : OrderAllocation) : Wire AllocationTotals := do
  let order ← lift (orders.find? (·.id = orderAlloc.orderId))
  let allocQtyVal := orderAlloc.allocatedQty.raw
  let orderQtyVal := order.qty.raw
  let allocQtyVar ← allocWitness allocQtyVal
  let orderQtyVar ← allocWitness orderQtyVal
  let totals : AllocationTotals :=
    if order.side = .buy then { totals with totalBuyLc := totals.totalBuyLc.addTerm allocQtyVar 1 }
    else { totals with totalSellLc := totals.totalSellLc.addTerm allocQtyVar 1 }
  let idTag := toString (order.id.raw : ℕ)
  match classifyOrder order clearingPrice with
  | .inTheMoney | .atTheMoney => do
    let remVar ← allocWitness (if orderQtyVal > allocQtyVal then orderQtyVal - allocQtyVal else 0)
    enforceEqual ((fromVar orderQtyVar).addTerm allocQtyVar (-1)) (fromVar remVar)
      ("order_" ++ idTag ++ "_fill_bound")
    pure totals
  | .outOfTheMoney => do
    enforceEqual (fromVar allocQtyVar) zero ("otm_order_" ++ idTag ++ "_zero_fill")
    pure totals

/-- The public variable stands for the cleared volume. -/
def wireAllocation (batch : Batch) (clearingPrice : Price) (clearedVolume : Qty)
    (allocation : BatchAllocation) : Wire Unit := do
  let volPubVar ← allocPublic clearedVolume.raw
  let totals ← allocation.allocations.foldlM (wireOrderAllocation batch.orders clearingPrice)
    ⟨zero, zero⟩
  enforceEqual totals.totalBuyLc (fromVar volPubVar) "total_buy_allocation_conservation"
  enforceEqual totals.totalSellLc (fromVar volPubVar) "total_sell_allocation_conservation"

/-! ## Fill bounds -/

def wireLimit (cpVar : Variable) (cpVal : U64) (order : Order) : Wire Unit := do
  let idTag := toString (order.id.raw : ℕ)
  let limitVal := order.price.raw
  let limitVar ← allocWitness limitVal
  if order.side = .buy then do
    let slackVar ← allocWitness (if limitVal > cpVal then limitVal - cpVal else 0)
    enforceEqual ((fromVar limitVar).addTerm cpVar (-1)) (fromVar slackVar)
      ("buy_order_" ++ idTag ++ "_limit_slack")
  else do
    let slackVar ← allocWitness (if cpVal > limitVal then cpVal - limitVal else 0)
    enforceEqual ((fromVar cpVar).addTerm limitVar (-1)) (fromVar slackVar)
      ("sell_order_" ++ idTag ++ "_limit_slack")

def wireFill (orders : List Order) (cpVar : Variable) (cpVal : U64) (fill : Fill) : Wire Unit := do
  let order ← lift (orders.find? (·.id = fill.orderId))
  let fillQtyVar ← allocWitness fill.fillQty.raw
  let orderQtyVar ← allocWitness order.qty.raw
  let remQtyVar ← allocWitness (order.qty.raw - fill.fillQty.raw)
  let considerationVar ← allocWitness (toU64 fill.consideration.raw)
  enforceEqual ((fromVar orderQtyVar).addTerm fillQtyVar (-1)) (fromVar remQtyVar)
    ("order_" ++ toString (order.id.raw : ℕ) ++ "_remaining_qty_bound")
  enforce (fromVar cpVar) (fromVar fillQtyVar) (fromVar considerationVar)
    ("fill_" ++ toString (fill.fillId : ℕ) ++ "_consideration_product")
  wireLimit cpVar cpVal order

def wireFillBounds (clearingPrice : Price) (orders : List Order) (fills : List Fill) : Wire Unit := do
  let cpVar ← allocWitness clearingPrice.raw
  fills.forM (wireFill orders cpVar clearingPrice.raw)

/-! ## Conservation -/

def wireAccountFill (accId : AccountId) (expected : ExpectedPost) (fill : Fill) :
    Wire ExpectedPost :=
  if fill.accountId ≠ accId then pure expected
  else do
    let considerationVar ← allocWitness (toU64 fill.consideration.raw)
    let fillQtyVar ← allocWitness fill.fillQty.raw
    if fill.side = .buy then
      pure { cashLc := expected.cashLc.addTerm considerationVar (-1)
             invLc := expected.invLc.addTerm fillQtyVar 1 }
    else
      pure { cashLc := expected.cashLc.addTerm considerationVar 1
             invLc := expected.invLc.addTerm fillQtyVar (-1) }

/-- An account without an entry in the post-state stands there with zeros. -/
def wireAccount (postState : Ledger) (fills : List Fill) (instrument : InstrumentId)
    (totals : ConservationTotals) (e : AccountId × AccountState) : Wire ConservationTotals := do
  let preCashVar ← allocWitness (toU64 e.2.cash.raw)
  let postCashVar ← allocWitness
    (((postState.getAccount e.1).map fun acc => toU64 acc.cash.raw).getD 0)
  let preInvVar ← allocWitness (e.2.inventoryOf instrument).raw
  let postInvVar ← allocWitness
    (((postState.getAccount e.1).map fun acc => (acc.inventoryOf instrument).raw).getD 0)
  let expected ← fills.foldlM (wireAccountFill e.1) ⟨fromVar preCashVar, fromVar preInvVar⟩
  let accTag := toString (e.1.raw : ℕ)
  enforceEqual (fromVar postCashVar) expected.cashLc ("account_" ++ accTag ++ "_cash_transition")
  enforceEqual (fromVar postInvVar) expected.invLc ("account_" ++ accTag ++ "_inv_transition")
  pure { totalPreCashLc := totals.totalPreCashLc.addTerm preCashVar 1
         totalPostCashLc := totals.totalPostCashLc.addTerm postCashVar 1
         totalPreInvLc := totals.totalPreInvLc.addTerm preInvVar 1
         totalPostInvLc := totals.totalPostInvLc.addTerm postInvVar 1 }

def wireConservation (preState postState : Ledger) (fills : List Fill) (instrument : InstrumentId) :
    Wire Unit := do
  let totals ← preState.accounts.entries.foldlM (wireAccount postState fills instrument)
    ⟨zero, zero, zero, zero⟩
  enforceEqual totals.totalPreCashLc totals.totalPostCashLc "global_cash_conservation"
  enforceEqual totals.totalPreInvLc totals.totalPostInvLc "global_asset_conservation"

/-! ## Oracle freshness -/

def wireOracleFreshness (batchTimestampNanos : U64) (clearingPrice : Price)
    (policy : ReferencePricePolicy) (snap : ReferencePriceSnapshot) : Wire Unit := do
  let cpVal := clearingPrice.raw
  let pOracleVal := snap.referencePrice.raw
  let tBatchVar ← allocWitness batchTimestampNanos
  let tOracleVar ← allocWitness snap.timestampNanos
  let _cpVar ← allocWitness cpVal
  let _pOracleVar ← allocWitness pOracleVal
  let age := if batchTimestampNanos > snap.timestampNanos
    then batchTimestampNanos - snap.timestampNanos else 0
  let ageVar ← allocWitness age
  enforceEqual ((fromVar tBatchVar).addTerm tOracleVar (-1)) (fromVar ageVar)
    "oracle_timestamp_delta"
  let maxStaleness := policy.maxStalenessNanos
  let freshSlackVar ← allocWitness (if maxStaleness > age then maxStaleness - age else 0)
  enforceEqual ((fromConstant (toScalar maxStaleness)).addTerm ageVar (-1)) (fromVar freshSlackVar)
    "oracle_freshness_slack"
  let diff := if cpVal > pOracleVal then cpVal - pOracleVal else pOracleVal - cpVal
  let diffVar ← allocWitness diff
  let maxCollar := policy.maxDeviationTicks
  let collarSlackVar ← allocWitness (if maxCollar > diff then maxCollar - diff else 0)
  enforceEqual ((fromConstant (toScalar maxCollar)).addTerm diffVar (-1)) (fromVar collarSlackVar)
    "oracle_collar_slack"

/-! ## A batch -/

namespace SingleBatchProver

variable {D : Type} [DecidableEq D] [CommitmentScheme D]

/-- The wiring of the subrelations in synthesis order. -/
def wires [StdSort] (publicInputs : BatchProofPublicInputs D) (witness : BatchProofWitness D)
    (merkleTree : MerkleTree D) (accounting : CompleteInputAccounting D) : List (Wire Unit) :=
  let clearedVol : Qty := ⟨publicInputs.clearedVolume⟩
  let instrument := witness.batch.instrument
  [ do let _ ← wireOrdersFrom instrument.raw 0 witness.batch.orders,
    wireAccounting witness.batch witness.preimages merkleTree accounting,
    do let _ ← wireClearing witness.batch (clearingPriceOf publicInputs) clearedVol,
    match clearingPriceOf publicInputs with
    | some cp => wireAllocation witness.batch cp clearedVol witness.allocation
    | none => pure (),
    match clearingPriceOf publicInputs with
    | some cp => wireFillBounds cp witness.batch.orders witness.fills
    | none => pure (),
    wireConservation witness.preState witness.postState witness.fills instrument,
    match witness.oracleSnapshot, witness.oraclePolicy, clearingPriceOf publicInputs with
    | some snapshot, some policy, some cp =>
      wireOracleFreshness witness.batchCutoffNanos cp policy snapshot
    | _, _, _ => pure () ]

/-- The wiring of a whole constraint system. -/
def wireAll : List (Wire Unit) → Wire Unit
  | [] => pure ()
  | w :: ws => do
    w
    wireAll ws

end SingleBatchProver

end FairCross
