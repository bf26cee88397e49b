import FairCross.Proof.Constraints

/-!
# The single-batch prover

`proof/statement.hpp` and `proof/prover.cpp`. `prove` binds the witness to the batch, checks the
transition on the plaintext, binds the published roots, and checks the constraint system of all
subrelations on the concatenation of their scalars.
-/

namespace FairCross

/-- The published statement of one batch. -/
structure BatchProofPublicInputs (D : Type) where
  preStateRoot : D
  postStateRoot : D
  batchHeaderHash : D
  oracleSnapshotHash : D
  clearingPrice : U64
  clearedVolume : U64
deriving DecidableEq

/-- The private data behind a statement. -/
structure BatchProofWitness (D : Type) where
  preState : Ledger
  postState : Ledger
  batch : Batch
  preimages : List SaltedOrderPreimage
  allocation : BatchAllocation
  fills : List Fill
  accounting : CompleteInputAccounting D
  oracleSnapshot : Option ReferencePriceSnapshot
  oraclePolicy : Option ReferencePricePolicy
  batchCutoffNanos : U64

structure BatchProof (D : Type) where
  proofVersion : UInt8
  publicInputs : BatchProofPublicInputs D
  proofBytes : List UInt8

namespace SingleBatchProver

variable {D : Type} [DecidableEq D] [CommitmentScheme D]

/-! ## Binding the inputs -/

/-- The leaves of the committed orders, which have to be the batch's. -/
def bindLeaves (witness : BatchProofWitness D) : Result (List D) :=
  let batchLen := witness.batch.len
  if witness.preimages.length ≠ batchLen then
    failure "InputBindingFailed: preimage count does not match batch length"
  else if batchLen > 2 ^ 32 - 1 then
    failure "InputBindingFailed: batch length exceeds uint32 order count"
  else do
    (witness.preimages.zip witness.batch.orders).forM fun p =>
      if p.1.order ≠ p.2 then failure "InputBindingFailed: preimage order does not match batch leaf"
      else pure ()
    pure (witness.preimages.map commitOrder)

/-- The header hash of the batch with the given Merkle root. -/
def headerHash (batch : Batch) (cutoff : U64) (root : D) : D :=
  computeBatchCommitment
    { semanticVersion := 1, batchId := batch.batchId, instrumentId := batch.instrument,
      cutoffTimestamp := cutoff, orderCount := Fin.ofNat _ batch.len, ordersMerkleRoot := root }

/-- Put a record into the slot of its leaf index. -/
def placeRecord (batchLen : ℕ) (slots : List (Option (OrderAccountingRecord D)))
    (record : OrderAccountingRecord D) : Result (List (Option (OrderAccountingRecord D))) :=
  if (record.leafIndex : ℕ) ≥ batchLen ∨ ((slots[(record.leafIndex : ℕ)]?).getD none).isSome then
    failure "InputBindingFailed: invalid accounting leaf index"
  else .ok (slots.set record.leafIndex (some record))

/-- The record in a slot, which has to be the one of the order and the leaf there. -/
def checkSlot (slot : Option (OrderAccountingRecord D)) (order : Order) (leaf : D) :
    Result (OrderAccountingRecord D) :=
  match slot with
  | none => failure "InputBindingFailed: omitted accounting leaf"
  | some record =>
    if record.orderId ≠ order.id then
      failure "InputBindingFailed: accounting order does not match batch leaf"
    else if record.commitment ≠ leaf then
      failure "InputBindingFailed: accounting commitment does not match preimage"
    else pure record

/-- The records in the slots, in order. -/
def checkSlots : List (Option (OrderAccountingRecord D)) → List Order → List D →
    Result (List (OrderAccountingRecord D))
  | slot :: slots, order :: orders, leaf :: leaves => do
    let record ← checkSlot slot order leaf
    let records ← checkSlots slots orders leaves
    pure (record :: records)
  | _, _, _ => pure []

/-- The manifest with its records in the order of the leaves. -/
def bindAccounting (witness : BatchProofWitness D) (leaves : List D) :
    Result (CompleteInputAccounting D) :=
  let batchLen := witness.batch.len
  if witness.accounting.records.length ≠ batchLen then
    failure "InputBindingFailed: accounting count does not match batch length"
  else do
    let slots ← witness.accounting.records.foldlM (placeRecord batchLen)
      (List.replicate batchLen none)
    let records ← checkSlots slots witness.batch.orders leaves
    pure { witness.accounting with records }

/-! ## The plaintext checks -/

/-- A published clearing price of zero stands for no price. -/
def clearingPriceOf (publicInputs : BatchProofPublicInputs D) : Option Price :=
  if publicInputs.clearingPrice > 0 then some ⟨publicInputs.clearingPrice⟩ else none

def executionOf (publicInputs : BatchProofPublicInputs D) (witness : BatchProofWitness D) :
    BatchExecutionResult where
  clearingOutcome := { clearingPrice := clearingPriceOf publicInputs
                       executableVolume := ⟨publicInputs.clearedVolume⟩ }
  allocation := witness.allocation
  fills := witness.fills
  postState := witness.postState

/-- The transition, the accounting, and the published roots and oracle hash. -/
def checkPlaintext [StdSort] (publicInputs : BatchProofPublicInputs D)
    (witness : BatchProofWitness D) (merkleTree : MerkleTree D)
    (accounting : CompleteInputAccounting D) : Result Unit := do
  (verifyTransition witness.preState witness.batch (executionOf publicInputs witness)).orFail fun e =>
    "StateTransitionInvariantFailed: " ++ e.message
  (verifyCompleteInputAccounting witness.batch merkleTree accounting witness.allocation).orFail
    fun e => "CompleteInputAccountingFailed: " ++ e.message
  let instrument := witness.batch.instrument
  if publicInputs.preStateRoot ≠ computeLedgerRoot witness.preState instrument then
    failure "PublicInputMismatch: pre_state_root"
  else if publicInputs.postStateRoot ≠ computeLedgerRoot witness.postState instrument then
    failure "PublicInputMismatch: post_state_root"
  else if publicInputs.oracleSnapshotHash ≠
      computeOracleSnapshotCommitment witness.oracleSnapshot witness.oraclePolicy then
    failure "PublicInputMismatch: oracle_snapshot_hash"
  else pure ()

/-! ## The constraint system -/

/-- The subrelations in synthesis order. Those after clearing need a clearing price, the last one
also a snapshot and a policy; a subrelation that is left out allocates nothing. -/
def subrelations [StdSort] (publicInputs : BatchProofPublicInputs D)
    (witness : BatchProofWitness D) (merkleTree : MerkleTree D)
    (accounting : CompleteInputAccounting D) : List (Synth Unit) :=
  let clearedVol : Qty := ⟨publicInputs.clearedVolume⟩
  let instrument := witness.batch.instrument
  [ do let _ ← synthesizeOrderValidityConstraints instrument.raw witness.batch.orders,
    synthesizeCompleteInputAccountingConstraints witness.batch witness.preimages merkleTree
      accounting witness.allocation,
    do let _ ← synthesizeClearingOptimalityConstraints witness.batch (clearingPriceOf publicInputs)
        clearedVol,
    match clearingPriceOf publicInputs with
    | some cp => synthesizeAllocationConstraints witness.batch cp clearedVol witness.allocation
    | none => pure (),
    match clearingPriceOf publicInputs with
    | some cp => synthesizeFillBoundsConstraints cp witness.batch.orders witness.fills
    | none => pure (),
    synthesizeConservationConstraints witness.preState witness.postState witness.fills instrument,
    match witness.oracleSnapshot, witness.oraclePolicy, clearingPriceOf publicInputs with
    | some snapshot, some policy, some cp =>
      synthesizeOracleFreshnessConstraints instrument witness.batchCutoffNanos cp policy snapshot
    | _, _, _ => pure () ]

/-- Synthesize one subrelation after another, and concatenate their scalars. -/
def synthesizeAll : List (Synth Unit) → ConstraintSystem → Result (ConstraintSystem × List U64)
  | [], cs => pure (cs, [])
  | m :: ms, cs => do
    let s ← (m.into cs).convert
    let (cs, rest) ← synthesizeAll ms s.cs
    pure (cs, s.scalars ++ rest)

/-- The public vector: batch length, Merkle root, clearing price, and the cleared volume twice. -/
def publicScalars (publicInputs : BatchProofPublicInputs D) (witness : BatchProofWitness D)
    (merkleTree : MerkleTree D) : List U64 :=
  [toU64 witness.batch.len, rootScalar merkleTree.root, publicInputs.clearingPrice,
    publicInputs.clearedVolume, publicInputs.clearedVolume]

/-- The certificate text of a satisfied constraint system. -/
def certificate (numConstraints publicLen : ℕ) : List UInt8 :=
  ascii "FC-R1CS-V1:constraints=".toList ++ ascii (Nat.toDigits 10 numConstraints) ++
    ascii ":public_inputs_len=".toList ++ ascii (Nat.toDigits 10 publicLen) ++
    ascii ":status=SAT".toList

/-- The proof, once the inputs are bound. -/
def proveBound [StdSort] (publicInputs : BatchProofPublicInputs D) (witness : BatchProofWitness D)
    (merkleTree : MerkleTree D) (accounting : CompleteInputAccounting D) : Result (BatchProof D) := do
  checkPlaintext publicInputs witness merkleTree accounting
  let (cs, fullWitness) ←
    synthesizeAll (subrelations publicInputs witness merkleTree accounting) .new
  let scalars := publicScalars publicInputs witness merkleTree
  (cs.isSatisfied scalars fullWitness).orFail fun e => "R1CSUnsatisfied: " ++ e.message
  pure { proofVersion := 1, publicInputs,
         proofBytes := certificate cs.constraints.length scalars.length }

def prove [StdSort] (publicInputs : BatchProofPublicInputs D) (witness : BatchProofWitness D) :
    Result (BatchProof D) := do
  let leaves ← bindLeaves witness
  let merkleTree : MerkleTree D := .new leaves
  if headerHash witness.batch witness.batchCutoffNanos merkleTree.root ≠
      publicInputs.batchHeaderHash then
    failure "PublicInputMismatch: batch_header_hash"
  else do
    let accounting ← bindAccounting witness leaves
    proveBound publicInputs witness merkleTree accounting

end SingleBatchProver

end FairCross
