import FairCross.Proof.Recursive

/-!
# The honest prover

What `cmd_prove` of `cli/main.cpp` hands to the prover: the execution of the batch, the accounting
built from it, and the statement recomputed from both.
-/

namespace FairCross

namespace Cli

/-- One preimage per canonical order, with the nonce chosen for its position. -/
def preimagesWith (nonce : ℕ → Bytes32) (batch : Batch) : List SaltedOrderPreimage :=
  batch.orders.zipIdx.map fun p => { order := p.1, nonce := nonce p.2 }

/-- The fixed nonces of a fixture run. -/
def derivePreimages (batch : Batch) (batchIndex : ℕ) : List SaltedOrderPreimage :=
  preimagesWith (fun i => .fill (UInt8.ofNat (batchIndex * 10 + i) + 1)) batch

section Scheme

variable {D : Type} [CommitmentScheme D]

/-- The statement of an execution without an oracle. -/
def publicInputs (preState : Ledger) (batch : Batch) (preimages : List SaltedOrderPreimage)
    (cutoff : U64) (exec : BatchExecutionResult) : BatchProofPublicInputs D :=
  let (merkleTree, _) :=
    buildCompleteInputAccounting (D := D) batch preimages exec.allocation
  let inst := batch.instrument
  { preStateRoot := computeLedgerRoot preState inst
    postStateRoot := computeLedgerRoot exec.postState inst
    batchHeaderHash := computeBatchCommitment
      { semanticVersion := 1, batchId := batch.batchId, instrumentId := inst,
        cutoffTimestamp := cutoff, orderCount := Fin.ofNat _ batch.len,
        ordersMerkleRoot := merkleTree.root }
    oracleSnapshotHash := computeOracleSnapshotCommitment none none
    clearingPrice := (exec.clearingOutcome.clearingPrice.map (·.raw)).getD 0
    clearedVolume := exec.clearingOutcome.executableVolume.raw }

/-- The witness of an execution without an oracle. -/
def witness (preState : Ledger) (batch : Batch) (preimages : List SaltedOrderPreimage)
    (cutoff : U64) (exec : BatchExecutionResult) : BatchProofWitness D where
  preState := preState
  postState := exec.postState
  batch := batch
  preimages := preimages
  allocation := exec.allocation
  fills := exec.fills
  accounting := (buildCompleteInputAccounting batch preimages exec.allocation).2
  oracleSnapshot := none
  oraclePolicy := none
  batchCutoffNanos := cutoff

end Scheme

end Cli

end FairCross
