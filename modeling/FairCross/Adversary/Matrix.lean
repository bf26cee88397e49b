import FairCross.Adversary.Mutator

/-!
# The attack matrix

`adversary/matrix.hpp` and `adversary/matrix.cpp`: the honest operator and eleven adversarial ones,
each put before the three audits.
-/

namespace FairCross

structure AttackEvaluationResult where
  attackName : String
  description : String
  isHonestControl : Bool
  passedVerification : Bool
  rejectionReason : Option String
  expectedBehaviorMet : Bool
deriving DecidableEq

structure AttackMatrixReport where
  batchId : U64
  instrumentId : U64
  totalEvaluated : ℕ
  totalAttacksRejected : ℕ
  allInvariantsHeld : Bool
  results : List AttackEvaluationResult
deriving DecidableEq

/-- `validate_oracle_reference`: the snapshot is held against its own instrument. -/
def validateOracleReference (snapshot : ReferencePriceSnapshot) (policy : ReferencePricePolicy)
    (batchCutoffNanos : U64) (clearingPrice : Option Price) : Result Unit :=
  validateReferencePriceSnapshot policy snapshot snapshot.instrumentId batchCutoffNanos clearingPrice

namespace AttackMatrix

structure TestCase (D : Type) where
  name : String
  desc : String
  mutation : AdversarialMutation D
  expectPass : Bool

/-- What the three audits of a published execution say. -/
structure AuditResults where
  transition : Result Unit
  accounting : Result Unit
  oracle : Result Unit

namespace AuditResults

def passed (a : AuditResults) : Bool := a.transition.isOk && a.accounting.isOk && a.oracle.isOk

/-- The first audit that fails gives the reason. -/
def rejectionReason (a : AuditResults) : Option String :=
  match a.transition, a.accounting, a.oracle with
  | .error e, _, _ => some ("InvariantViolation: " ++ e.message)
  | _, .error e, _ => some ("AccountingError: " ++ e.message)
  | _, _, .error e => some ("OracleValidationError: " ++ e.message)
  | _, _, _ => none

end AuditResults

section Scheme

variable {D : Type} [CommitmentScheme D]

/-- A mutation of type `t` with the default parameters. -/
def makeMut (t : MutationType) : AdversarialMutation D where
  type := t
  offsetTicks := .zero
  leafIndex := 0
  injectedOrder := ⟨⟨0⟩, ⟨0⟩, ⟨0⟩, .buy, ⟨1⟩, ⟨0⟩, 0⟩
  injectedSalt := .fill 0
  targetOrderId := ⟨0⟩
  forgedQty := ⟨0⟩
  bogusPrice := ⟨1⟩
  beneficiaryAccount := ⟨0⟩
  extraCash := ⟨0⟩
  extraInstrument := ⟨0⟩
  extraQty := ⟨0⟩
  fakeCommitment := CommitmentScheme.zero
  fakeBatchId := ⟨0⟩
  stalenessOffsetNanos := 0

/-- The first order is the target, order 1 in an empty batch. -/
def targetOrderId (batch : Batch) : OrderId := (batch.orders.head?.map (·.id)).getD ⟨1⟩

def targetAccountId (batch : Batch) : AccountId := (batch.orders.head?.map (·.account)).getD ⟨1⟩

/-- The matrix. `fake` is the digest of one byte `0xEE` and 31 zeros. -/
def testCases (fake : D) (batch : Batch) : List (TestCase D) :=
  [{ name := "honest_baseline"
     desc := "Honest operator execution following published deterministic rules"
     mutation := makeMut .none
     expectPass := true },
   { name := "omitted_order_censorship"
     desc := "Operator silently drops eligible Order 0 from batch clearing"
     mutation := { makeMut .censorOrder with leafIndex := 0 }
     expectPass := false },
   { name := "clearing_price_inflation"
     desc := "Operator artificially shifts clearing price by +5 ticks"
     mutation := { makeMut .manipulateClearingPrice with offsetTicks := ⟨5, by decide⟩ }
     expectPass := false },
   { name := "clearing_price_deflation"
     desc := "Operator artificially shifts clearing price by -5 ticks"
     mutation := { makeMut .manipulateClearingPrice with offsetTicks := ⟨-5, by decide⟩ }
     expectPass := false },
   { name := "overfill_attack"
     desc := "Operator allocates 99,999 lots to target order"
     mutation := { makeMut .manipulateAllocation with
       targetOrderId := targetOrderId batch, forgedQty := ⟨99999⟩ }
     expectPass := false },
   { name := "preferential_allocation"
     desc := "Operator manipulates allocation distribution to favor cartel member"
     mutation := { makeMut .manipulateAllocation with
       targetOrderId := targetOrderId batch, forgedQty := ⟨1⟩ }
     expectPass := false },
   { name := "limit_price_violation"
     desc := "Operator executes order at non-compliant price"
     mutation := { makeMut .violateLimitPrice with
       targetOrderId := targetOrderId batch, bogusPrice := ⟨99999⟩ }
     expectPass := false },
   { name := "frozen_post_state_attack"
     desc := "Operator publishes real fills but reports a post-state in which no balance moved"
     mutation := makeMut .freezePostState
     expectPass := false },
   { name := "cash_creation_attack"
     desc := "Operator mints $10,000 cash out of thin air"
     mutation := { makeMut .inflatePostStateCash with
       beneficiaryAccount := targetAccountId batch, extraCash := ⟨10000⟩ }
     expectPass := false },
   { name := "inventory_creation_attack"
     desc := "Operator mints 50 asset lots out of thin air"
     mutation := { makeMut .inflatePostStateInventory with
       beneficiaryAccount := targetAccountId batch, extraInstrument := batch.instrument
       extraQty := ⟨50⟩ }
     expectPass := false },
   { name := "commitment_leaf_spoofing"
     desc := "Operator replaces Merkle leaf with spoofed digest"
     mutation := { (makeMut .spoofCommitmentLeaf : AdversarialMutation D) with
       leafIndex := 0, fakeCommitment := fake }
     expectPass := false },
   { name := "stale_oracle_reference"
     desc := "Operator clears batch with stale reference snapshot"
     mutation := { makeMut .staleOracleSnapshot with stalenessOffsetNanos := 1 }
     expectPass := false }]

variable [DecidableEq D] [StdSort]

/-- The audits: the transition from `preState`, the accounting against the tree of the original
preimages, and the oracle reference. -/
def audit (preState : Ledger) (batch : Batch) (preimages : List SaltedOrderPreimage)
    (exec : AdversarialExecution D) : AuditResults where
  transition := verifyTransition preState exec.batch exec.executionResult
  accounting := verifyCompleteInputAccounting batch (.new (preimages.map commitOrder))
    exec.accounting exec.executionResult.allocation
  oracle :=
    match exec.oraclePolicy, exec.oracleSnapshot with
    | some policy, some snapshot =>
      validateOracleReference snapshot policy AdversarialOperator.cutoffNanos
        exec.executionResult.clearingOutcome.clearingPrice
    | _, _ => .ok ()

/-- The loop body of `run_attack_matrix`. -/
def evaluate (preState : Ledger) (batch : Batch) (preimages : List SaltedOrderPreimage)
    (tc : TestCase D) : Option AttackEvaluationResult := do
  let exec ← AdversarialOperator.execute tc.mutation preState batch preimages
  let audits := audit preState batch preimages exec
  pure { attackName := tc.name, description := tc.desc, isHonestControl := tc.expectPass
         passedVerification := audits.passed, rejectionReason := audits.rejectionReason
         expectedBehaviorMet := audits.passed == tc.expectPass }

end Scheme

end AttackMatrix

open AttackMatrix

def runAttackMatrix {D : Type} [CommitmentScheme D] [DecidableEq D] [StdSort] (fake : D)
    (preState : Ledger) (batch : Batch) (preimages : List SaltedOrderPreimage) :
    Option AttackMatrixReport := do
  let results ← (testCases fake batch).mapM (evaluate preState batch preimages)
  pure { batchId := batch.batchId.raw, instrumentId := batch.instrument.raw
         totalEvaluated := results.length
         totalAttacksRejected := results.countP fun r => !r.passedVerification
         allInvariantsHeld := results.all (·.expectedBehaviorMet), results }

end FairCross
