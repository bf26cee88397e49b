import FairCross.Proof.Recursive

/-!
# The verifiers

`proof/verifier.cpp` and `proof/recursive/verifier.cpp`. A batch proof is checked for its format only;
a session is replayed from the statements of its steps.
-/

namespace FairCross

variable {D : Type} [DecidableEq D] [CommitmentScheme D]

namespace SingleBatchVerifier

def certificatePrefix : List UInt8 := ascii "FC-R1CS-V1:constraints=".toList

def certificateSuffix : List UInt8 := ascii ":public_inputs_len=5:status=SAT".toList

/-- An ASCII digit. -/
def isDigit (b : UInt8) : Bool := (Char.ofNat b.toNat).isDigit

/-- The number that digits stand for in base ten. -/
def digitsValue (digits : List UInt8) : ℕ :=
  Nat.ofDigitChars 10 (digits.map fun b => Char.ofNat b.toNat) 0

/-- `std::from_chars` into a `size_t`: the number in the digits at the front and the text after them.
Nothing is read if there are no digits, or if the number is out of range. -/
def fromChars (text : List UInt8) : Option (U64 × List UInt8) :=
  let digits := text.takeWhile isDigit
  if digits = [] then none
  else if digitsValue digits ≥ 2 ^ 64 then none
  else some (toU64 (digitsValue digits), text.dropWhile isDigit)

omit [CommitmentScheme D] in
def verify (expectedPublicInputs : BatchProofPublicInputs D) (proof : BatchProof D) : Result Unit :=
  if proof.proofVersion ≠ 1 then failure "Unsupported proof version"
  else if expectedPublicInputs.preStateRoot ≠ proof.publicInputs.preStateRoot ∨
      expectedPublicInputs.postStateRoot ≠ proof.publicInputs.postStateRoot ∨
      expectedPublicInputs.batchHeaderHash ≠ proof.publicInputs.batchHeaderHash ∨
      expectedPublicInputs.oracleSnapshotHash ≠ proof.publicInputs.oracleSnapshotHash ∨
      expectedPublicInputs.clearingPrice ≠ proof.publicInputs.clearingPrice ∨
      expectedPublicInputs.clearedVolume ≠ proof.publicInputs.clearedVolume then
    failure "PublicInputMismatch"
  else
    let proofSv := proof.proofBytes
    if !certificatePrefix.isPrefixOf proofSv ∨ !certificateSuffix.isSuffixOf proofSv ∨
        proofSv.length ≤ certificatePrefix.length + certificateSuffix.length then
      failure "InvalidTransparentCertificate"
    else
      let countText := (proofSv.drop certificatePrefix.length).take
        (proofSv.length - certificatePrefix.length - certificateSuffix.length)
      match fromChars countText with
      | none => failure "InvalidTransparentCertificate"
      | some (constraintCount, rest) =>
        if rest ≠ [] ∨ constraintCount = 0 then failure "InvalidTransparentCertificate" else pure ()

end SingleBatchVerifier

namespace RecursiveSessionVerifier

omit [DecidableEq D] in
/-- The accumulator payload as the verifier lays it out. -/
def accumPayload (rollingHistory : D) (publicInputs : BatchProofPublicInputs D) : List UInt8 :=
  CommitmentScheme.bytes rollingHistory ++ CommitmentScheme.bytes publicInputs.batchHeaderHash ++
    LittleEndian.leBytes 8 publicInputs.clearingPrice ++
    LittleEndian.leBytes 8 publicInputs.clearedVolume

/-- The loop over the step proofs, from step `idx`: the history and the ledger root after them. -/
def replaySteps : ℕ → D → D → List (BatchProof D) → Result (D × D)
  | _, rollingHistory, lastLedgerRoot, [] => pure (rollingHistory, lastLedgerRoot)
  | idx, rollingHistory, lastLedgerRoot, stepProof :: stepProofs => do
    (SingleBatchVerifier.verify stepProof.publicInputs stepProof).orFail fun e =>
      "step_" ++ toString idx ++ "_verify: " ++ e.message
    if stepProof.publicInputs.preStateRoot ≠ lastLedgerRoot then
      failure ("step_" ++ toString idx ++ "_pre_state_continuity")
    else
      replaySteps (idx + 1)
        (CommitmentScheme.commitRawBytes (accumPayload rollingHistory stepProof.publicInputs))
        stepProof.publicInputs.postStateRoot stepProofs

def verifySession (expectedPublicInputs : SessionProofPublicInputs D) (proof : SessionProof D) :
    Result Unit :=
  if proof.sessionVersion ≠ 1 then
    failure ("UnsupportedProofVersion: " ++ toString (proof.sessionVersion : ℕ))
  else if proof.publicInputs ≠ expectedPublicInputs then
    failure "PublicInputMismatch: session_public_inputs"
  else if proof.stepProofs.length ≠ proof.numBatches ∨ proof.stepProofs.isEmpty then
    failure "InvalidProofArtifact: step proofs count mismatch"
  else do
    let (rollingHistory, lastLedgerRoot) ← replaySteps 0
      expectedPublicInputs.initialState.historyAccumulator
      expectedPublicInputs.initialState.ledgerRoot proof.stepProofs
    if lastLedgerRoot ≠ expectedPublicInputs.finalState.ledgerRoot then
      failure "PublicInputMismatch: final_ledger_root"
    else if rollingHistory ≠ expectedPublicInputs.finalState.historyAccumulator then
      failure "PublicInputMismatch: final_history_accumulator"
    else pure ()

end RecursiveSessionVerifier

end FairCross
