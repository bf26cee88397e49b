import FairCross.Cli.Prove
import FairCross.Commitments.Encoding
import FairCross.Proof.Verifier

/-!
# The session command

`cmd_prove_session` of `cli/main.cpp`: the batches of a manifest are executed one after another, and
the executions are proved as a session.
-/

namespace FairCross

/-- `SessionManifest` of `cli/fixtures.hpp`. -/
structure SessionManifest where
  genesisLedger : Ledger
  batches : List Batch

namespace Cli

/-- The fixed secret fixture runs are blinded with. -/
def kDemoVenueSecret : Bytes32 where
  bytes := ascii "FairCross-demo-venue-secret-0001".toList
  size := by decide

section Scheme

variable {D : Type} [CommitmentScheme D]

/-- The cutoff of batch `idx`. -/
def stepTimestamp (idx : ℕ) : U64 := 1700000000 + toU64 idx * 10

/-- The step of batch `idx`, executed on `ledger`. Its pre-state root is the one before it. -/
def sessionStep (currentRoot : D) (idx : ℕ) (ledger : Ledger) (batch : Batch)
    (exec : BatchExecutionResult) : RecursiveStep D :=
  let preimages := derivePreimages batch idx
  let timestamp := stepTimestamp idx
  { publicInputs :=
      { publicInputs ledger batch preimages timestamp exec with preStateRoot := currentRoot }
    witness := witness ledger batch preimages timestamp exec
    timestampNanos := timestamp }

/-- The loop over the batches, from batch `idx`. -/
def buildSteps [StdSort] : ℕ → D → Ledger → List Batch → Result (List (RecursiveStep D))
  | _, _, _, [] => pure []
  | idx, currentRoot, ledger, batch :: batches => do
    let exec ← (executeBatch ledger batch).orFail fun e =>
      "Batch " ++ toString (idx + 1) ++ " execution error: " ++ e.message
    let step := sessionStep currentRoot idx ledger batch exec
    let steps ← buildSteps (idx + 1) step.publicInputs.postStateRoot exec.postState batches
    pure (step :: steps)

variable [DecidableEq D] [StdSort]

/-- The session of a manifest whose genesis ledger is blinded. -/
def proveManifest (manifest : SessionManifest) : Result (SessionProof D) := do
  let ledger := blindLedger kDemoVenueSecret manifest.genesisLedger
  match manifest.batches with
  | [] => failure "Session manifest contains zero batches"
  | first :: _ =>
    let inst := first.instrument
    let genesisRoot : D := computeLedgerRoot ledger inst
    let steps ← buildSteps 0 genesisRoot ledger manifest.batches
    (RecursiveSessionProver.proveSession (.genesis genesisRoot inst) steps).orFail fun e =>
      "Session prove error: " ++ e.message

/-- The command with `--verify`. -/
def proveAndVerifyManifest (manifest : SessionManifest) : Result (SessionProof D) := do
  let session ← proveManifest manifest
  (RecursiveSessionVerifier.verifySession session.publicInputs session).orFail fun e =>
    "Session verify error: " ++ e.message
  pure session

end Scheme

end Cli

end FairCross
