import FairCross.Cli.Prove
import FairCross.Engine.Proofs.ConservationProofs
import FairCross.Proof.Proofs.ProverProofs

/-!
# Sessions conserve

Each step of a session brings its own ledgers, linked to the next step's by a root alone. Under an
ideal hash the root binds the balances, so the steps chain on the ledgers themselves, and what the
checker conserves over one batch is conserved over the session.
-/

namespace FairCross

/-- Ledgers that commit to the same preimages have the same totals. -/
theorem sameTotals_of_preimages {inst : InstrumentId} {l l' : Ledger}
    (h : ledgerPreimages inst l = ledgerPreimages inst l') : l.SameTotals inst l' := by
  have hcash : ∀ m : Ledger, m.cashSum =
      ((ledgerPreimages inst m).map fun p => (p.cash.raw : ℕ)).sum := by
    intro m
    rw [ledgerPreimages, List.map_map]
    rfl
  have hlots : ∀ m : Ledger, m.lotsSum inst =
      ((ledgerPreimages inst m).map fun p => (p.inventory.raw : ℕ)).sum := by
    intro m
    rw [ledgerPreimages, List.map_map]
    rfl
  refine ⟨(sameCommitted_of_preimages h).isSome, ?_, ?_⟩
  · rw [hcash, hcash, h]
  · rw [hlots, hlots, h]

section Session

variable {D : Type} [DecidableEq D] [CommitmentScheme D] [StdSort]

/-! ## One fold and a whole session -/

/-- What one fold checks, and the running state it leads to. -/
structure Folds (state : RunningState D) (step : RecursiveStep D) (state' : RunningState D) : Prop where
  batchId : step.witness.batch.batchId.raw = state.batchId.raw + 1
  instrument : step.witness.batch.instrument = state.instrumentId
  timestamp : state.timestampNanos ≤ step.timestampNanos
  preRoot : step.publicInputs.preStateRoot = state.ledgerRoot
  proved : ∃ proof, SingleBatchProver.prove step.publicInputs step.witness = .ok proof
  next : state' = { ledgerRoot := step.publicInputs.postStateRoot
                    historyAccumulator :=
                      RunningState.accumulate state.historyAccumulator step.publicInputs
                    batchId := step.witness.batch.batchId
                    timestampNanos := step.timestampNanos
                    instrumentId := state.instrumentId }

theorem foldStep_eq_ok {state state' : RunningState D} {step : RecursiveStep D} :
    state.foldStep step.publicInputs step.witness step.timestampNanos = .ok state' ↔
      Folds state step state' := by
  simp only [RunningState.foldStep, Result.ite_failure_eq_ok, Result.ite_error_eq_ok, ne_eq, not_not,
    not_lt, Result.bind_eq_ok, Result.convert_eq_ok, Result.pure_eq_ok]
  constructor
  · rintro ⟨hid, hinst, htime, hroot, proof, hproof, rfl⟩
    exact ⟨hid, hinst, htime, hroot, ⟨proof, hproof⟩, rfl⟩
  · rintro ⟨hid, hinst, htime, hroot, ⟨proof, hproof⟩, rfl⟩
    exact ⟨hid, hinst, htime, hroot, proof, hproof, rfl⟩

theorem proveSteps_cons {idx : ℕ} {state final : RunningState D} {step : RecursiveStep D}
    {steps : List (RecursiveStep D)} {proofs : List (BatchProof D)} :
    RecursiveSessionProver.proveSteps idx state (step :: steps) = .ok (final, proofs) ↔
      ∃ state' proof proofs', Folds state step state' ∧
        SingleBatchProver.prove step.publicInputs step.witness = .ok proof ∧
        RecursiveSessionProver.proveSteps (idx + 1) state' steps = .ok (final, proofs') ∧
        proofs = proof :: proofs' := by
  simp only [RecursiveSessionProver.proveSteps, Result.bind_eq_ok, Result.orFail_eq_ok,
    Result.pure_eq_ok, foldStep_eq_ok]
  constructor
  · rintro ⟨state', hfold, proof, hproof, ⟨final', proofs'⟩, hrest, he⟩
    obtain ⟨rfl, rfl⟩ := Prod.mk.inj he
    exact ⟨state', proof, proofs', hfold, hproof, hrest, rfl⟩
  · rintro ⟨state', proof, proofs', hfold, hproof, hrest, rfl⟩
    exact ⟨state', hfold, proof, hproof, (final, proofs'), hrest, rfl⟩

/-- A session is its initial state and its steps, folded from there. -/
theorem proveSession_eq_ok {initialState : RunningState D} {steps : List (RecursiveStep D)}
    {proof : SessionProof D} :
    RecursiveSessionProver.proveSession initialState steps = .ok proof ↔
      steps ≠ [] ∧ ∃ final proofs,
        RecursiveSessionProver.proveSteps 0 initialState steps = .ok (final, proofs) ∧
        proof = ⟨1, steps.length, ⟨initialState, final⟩, proofs,
          RecursiveSessionProver.certificate steps.length final⟩ := by
  simp only [RecursiveSessionProver.proveSession, Result.ite_failure_eq_ok, Result.bind_eq_ok,
    Result.pure_eq_ok]
  constructor
  · rintro ⟨hne, ⟨final, proofs⟩, hsteps, rfl⟩
    exact ⟨hne, final, proofs, hsteps, rfl⟩
  · rintro ⟨hne, final, proofs, hsteps, rfl⟩
    exact ⟨hne, (final, proofs), hsteps, rfl⟩

/-! ## Conservation -/

/-- A step that went from the running state `state` to `state'`. -/
structure StepFrom (state : RunningState D) (step : RecursiveStep D) (state' : RunningState D) :
    Prop where
  instrument : state'.instrumentId = state.instrumentId
  preRoot : state.ledgerRoot = computeLedgerRoot step.witness.preState state.instrumentId
  postRoot : state'.ledgerRoot = computeLedgerRoot step.witness.postState state.instrumentId
  totals : step.witness.preState.SameTotals state.instrumentId step.witness.postState

theorem Folds.stepFrom {state state' : RunningState D} {step : RecursiveStep D}
    (h : Folds state step state') : StepFrom state step state' := by
  obtain ⟨proof, hproof⟩ := h.proved
  obtain ⟨_, _, hp⟩ := SingleBatchProver.prove_plaintext hproof
  obtain rfl := h.next
  refine ⟨rfl, ?_, ?_, ?_⟩
  · rw [← h.preRoot, hp.preRoot, h.instrument]
  · rw [← h.instrument]
    exact hp.postRoot
  · rw [← h.instrument]
    exact verifyTransition_sameTotals hp.transition

/-- What holds of the steps a session takes from a running state with ledger root `root`. -/
structure Conserved (inst : InstrumentId) (root : D) (steps : List (RecursiveStep D)) : Prop where
  chain : steps.IsChain fun s t => s.witness.postState.SameCommitted inst t.witness.preState
  head : ∀ first ∈ steps.head?, root = computeLedgerRoot first.witness.preState inst
  totals : ∀ first ∈ steps.head?, ∀ last ∈ steps.getLast?,
    first.witness.preState.SameTotals inst last.witness.postState

omit [DecidableEq D] [StdSort] in
/-- One more step at the front. -/
theorem Conserved.cons (ideal : IdealHash D) {state state' : RunningState D} {step : RecursiveStep D}
    {steps : List (RecursiveStep D)} (hstep : StepFrom state step state')
    (h : Conserved state.instrumentId state'.ledgerRoot steps) :
    Conserved state.instrumentId state.ledgerRoot (step :: steps) := by
  cases steps with
  | nil =>
    refine ⟨List.isChain_singleton _, ?_, ?_⟩
    · intro first hfirst
      obtain rfl := Option.some.inj hfirst
      exact hstep.preRoot
    · intro first hfirst last hlast
      obtain rfl := Option.some.inj hfirst
      obtain rfl := Option.some.inj hlast
      exact hstep.totals
  | cons next rest =>
    -- the root between the two steps binds the ledgers on both sides of it
    have hbind := computeLedgerRoot_inj ideal (hstep.postRoot.symm.trans (h.head next rfl))
    refine ⟨?_, ?_, ?_⟩
    · exact List.isChain_cons_cons.mpr ⟨sameCommitted_of_preimages hbind, h.chain⟩
    · intro first hfirst
      obtain rfl := Option.some.inj hfirst
      exact hstep.preRoot
    · intro first hfirst last hlast
      obtain rfl := Option.some.inj hfirst
      rw [List.getLast?_cons_cons] at hlast
      have hrest := h.totals next rfl last hlast
      exact (hstep.totals.trans (sameTotals_of_preimages hbind)).trans hrest

theorem proveSteps_conserved (ideal : IdealHash D) {idx : ℕ} {state final : RunningState D}
    {steps : List (RecursiveStep D)} {proofs : List (BatchProof D)}
    (h : RecursiveSessionProver.proveSteps idx state steps = .ok (final, proofs)) :
    Conserved state.instrumentId state.ledgerRoot steps := by
  induction steps generalizing idx state proofs with
  | nil => exact ⟨List.isChain_nil, by simp, by simp⟩
  | cons step steps ih =>
    obtain ⟨state', proof, proofs', hfold, -, hrest, -⟩ := proveSteps_cons.mp h
    have hcons := ih hrest
    rw [hfold.stepFrom.instrument] at hcons
    exact hcons.cons ideal hfold.stepFrom

/-- **Session-wide conservation.** Every step starts from the balances the step before ended with,
and the session as a whole keeps the accounts, the total cash and the total inventory. -/
theorem proveSession_conserves (ideal : IdealHash D) {initialState : RunningState D}
    {steps : List (RecursiveStep D)} {proof : SessionProof D}
    (h : RecursiveSessionProver.proveSession initialState steps = .ok proof) :
    (steps.IsChain fun s t =>
      s.witness.postState.SameCommitted initialState.instrumentId t.witness.preState) ∧
    ∀ first ∈ steps.head?, ∀ last ∈ steps.getLast?,
      first.witness.preState.SameTotals initialState.instrumentId last.witness.postState := by
  obtain ⟨-, final, proofs, hsteps, -⟩ := proveSession_eq_ok.mp h
  have hcons := proveSteps_conserved ideal hsteps
  exact ⟨hcons.chain, hcons.totals⟩

end Session

/-- The honest step of a batch. -/
def honestStep (D : Type) [CommitmentScheme D] (preState : Ledger) (batch : Batch)
    (exec : BatchExecutionResult) (timestampNanos : U64) : RecursiveStep D where
  publicInputs := Cli.publicInputs preState batch (Cli.derivePreimages batch 0) 1700000000 exec
  witness := Cli.witness preState batch (Cli.derivePreimages batch 0) 1700000000 exec
  timestampNanos := timestampNanos

/-- A second round in which nobody submits an order. -/
def secondBatch : Batch := { quietBatch with batchId := ⟨2⟩ }

/-- The example batch, and a round without orders after it. -/
def exampleSession (D : Type) [CommitmentScheme D] : List (RecursiveStep D) :=
  [honestStep D exampleLedger exampleBatch exampleResult 1700000000,
    honestStep D exampleSettled secondBatch
      ⟨⟨none, .zero⟩, zeroAllocation secondBatch, [], exampleSettled⟩ 1700000001]

/-- The running state before the example session. -/
def exampleGenesis (D : Type) [CommitmentScheme D] : RunningState D :=
  .genesis (computeLedgerRoot exampleLedger ⟨7⟩) ⟨7⟩

theorem exampleSession_proved : ∃ proof, @RecursiveSessionProver.proveSession TermDigest _ _ .stable
    (exampleGenesis _) (exampleSession _) = .ok proof :=
  Result.isOk_iff.mp (by decide +kernel)

theorem proveSession_conserves_example : exampleLedger.SameTotals ⟨7⟩ exampleSettled := by
  obtain ⟨proof, hproof⟩ := exampleSession_proved
  have h := (@proveSession_conserves TermDigest _ _ .stable TermDigest.idealHash _ _ _ hproof).2
  exact h _ rfl _ rfl

end FairCross
