import FairCross.Proof.Prover

/-!
# Sessions

`proof/recursive/state.hpp`, `statement.hpp`, `state.cpp` and `prover.cpp`: batch transitions folded
one after another into a running state.
-/

namespace FairCross

/-- What a session carries from batch to batch. -/
structure RunningState (D : Type) where
  ledgerRoot : D
  historyAccumulator : D
  batchId : BatchId
  timestampNanos : U64
  instrumentId : InstrumentId
deriving DecidableEq

/-- One batch transition of a session. -/
structure RecursiveStep (D : Type) where
  publicInputs : BatchProofPublicInputs D
  witness : BatchProofWitness D
  timestampNanos : U64

structure SessionProofPublicInputs (D : Type) where
  initialState : RunningState D
  finalState : RunningState D
deriving DecidableEq

structure SessionProof (D : Type) where
  sessionVersion : U32
  numBatches : ℕ
  publicInputs : SessionProofPublicInputs D
  stepProofs : List (BatchProof D)
  proofCertificate : List UInt8

variable {D : Type} [DecidableEq D] [CommitmentScheme D]

namespace RunningState

omit [DecidableEq D] in
def genesis (initialLedgerRoot : D) (instrumentId : InstrumentId) : RunningState D where
  ledgerRoot := initialLedgerRoot
  historyAccumulator := CommitmentScheme.zero
  batchId := ⟨0⟩
  timestampNanos := 0
  instrumentId := instrumentId

omit [DecidableEq D] in
/-- The accumulator after a step: `H_k = Hash(H_{k-1} || header_hash || cp || vol)`. -/
def accumulate (history : D) (publicInputs : BatchProofPublicInputs D) : D :=
  CommitmentScheme.commitRawBytes (CommitmentScheme.bytes history ++
    CommitmentScheme.bytes publicInputs.batchHeaderHash ++
    LittleEndian.leBytes 8 publicInputs.clearingPrice ++
    LittleEndian.leBytes 8 publicInputs.clearedVolume)

def foldStep [StdSort] (state : RunningState D) (publicInputs : BatchProofPublicInputs D)
    (witness : BatchProofWitness D) (stepTimestampNanos : U64) : Result (RunningState D) :=
  let expectedBatchId := state.batchId.raw + 1
  if witness.batch.batchId.raw ≠ expectedBatchId then failure "BatchSequenceContinuityFailed"
  else if witness.batch.instrument ≠ state.instrumentId then
    .error (.domain .instrumentMismatch "InstrumentContinuityFailed")
  else if stepTimestampNanos < state.timestampNanos then failure "TimestampMonotonicityFailed"
  else if publicInputs.preStateRoot ≠ state.ledgerRoot then failure "pre_state_root_continuity"
  else do
    let _ ← (SingleBatchProver.prove publicInputs witness).convert
    pure { ledgerRoot := publicInputs.postStateRoot
           historyAccumulator := accumulate state.historyAccumulator publicInputs
           batchId := witness.batch.batchId
           timestampNanos := stepTimestampNanos
           instrumentId := state.instrumentId }

end RunningState

namespace RecursiveSessionProver

/-- The loop over the steps, from step `idx`: the state after them, and their proofs. -/
def proveSteps [StdSort] : ℕ → RunningState D → List (RecursiveStep D) →
    Result (RunningState D × List (BatchProof D))
  | _, state, [] => pure (state, [])
  | idx, state, step :: steps => do
    let folded ← (state.foldStep step.publicInputs step.witness step.timestampNanos).orFail fun e =>
      "step_" ++ toString idx ++ "_fold: " ++ e.message
    let proof ← (SingleBatchProver.prove step.publicInputs step.witness).orFail fun e =>
      "step_" ++ toString idx ++ "_prove: " ++ e.message
    let (final, proofs) ← proveSteps (idx + 1) folded steps
    pure (final, proof :: proofs)

/-- Two lowercase hexadecimal digits. -/
def hexByte (b : UInt8) : List Char :=
  [Nat.digitChar (b.toNat / 16), Nat.digitChar (b.toNat % 16)]

omit [DecidableEq D] in
/-- The certificate text of a session. -/
def certificate (numBatches : ℕ) (final : RunningState D) : List UInt8 :=
  ascii "FC-SESSION-PROOF-V1:batches=".toList ++ ascii (Nat.toDigits 10 numBatches) ++
    ascii ":history_acc=".toList ++
    ascii ((CommitmentScheme.bytes final.historyAccumulator).flatMap hexByte) ++
    ascii ":final_batch=".toList ++ ascii (Nat.toDigits 10 final.batchId.raw)

def proveSession [StdSort] (initialState : RunningState D) (steps : List (RecursiveStep D)) :
    Result (SessionProof D) :=
  if steps = [] then failure "InvalidWitness: cannot prove empty session"
  else do
    let (final, stepProofs) ← proveSteps 0 initialState steps
    pure { sessionVersion := 1
           numBatches := steps.length
           publicInputs := { initialState, finalState := final }
           stepProofs
           proofCertificate := certificate steps.length final }

end RecursiveSessionProver

end FairCross
