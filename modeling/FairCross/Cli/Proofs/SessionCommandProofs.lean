import FairCross.Cli.Session
import FairCross.Engine.Proofs.BlindingProofs
import FairCross.Proof.Proofs.CompletenessProofs
import FairCross.Proof.Proofs.VerifierProofs

/-!
# The session command

The command proves a manifest exactly when its batches execute one after another on the genesis ledger,
are numbered from one for one instrument, and every execution is one the circuit can express
(`Rounds`). What it then publishes is the root of the executed ledger, and the verifier accepts it.
-/

namespace FairCross

section Session

variable {D : Type} [DecidableEq D] [CommitmentScheme D] [StdSort]

/-! ## One batch -/

/-- The checker accepts an execution whose instrument sums. -/
theorem Batch.Accepted.verifyTransition_execution {batch : Batch} (hb : batch.Accepted)
    {pre : Ledger} {r : BatchExecutionResult} (h : executeBatch pre batch = .ok r) :
    verifyTransition pre batch r = .ok () ↔ pre.lotsSum batch.instrument < 2 ^ 64 := by
  obtain ⟨outcome, post, ho, hrun, hcash, -, rfl⟩ := hb.executeBatch_eq_ok.mp h
  obtain ⟨h1, h2⟩ := hb.sums_eq ho hrun
  rw [hb.verifyTransition_eq_ok]
  constructor
  · rintro ⟨-, -, -, -, -, -, -, -, ⟨-, hlots⟩, -⟩
    exact hlots
  · intro hlots
    exact ⟨outcome, post, ho, hrun, rfl, rfl, rfl, ⟨h1, hcash⟩, ⟨h2 _, hlots⟩,
      ⟨rfl, fun a x hx => ⟨x, hx, rfl, rfl⟩⟩⟩

/-- An execution the circuit can express: the order count fits 32 bits, the orders are numbered by their
positions, the instrument sums, and the amounts fit the gadgets. -/
structure BatchExecutionResult.Provable (pre : Ledger) (batch : Batch) (r : BatchExecutionResult) :
    Prop where
  len : batch.len < 2 ^ 32
  seq : ∀ k o, batch.orders[k]? = some o → (o.seq : ℕ) = k
  lots : pre.lotsSum batch.instrument < 2 ^ 64
  fits : r.FitsCircuit pre

namespace SingleBatchProver

/-- The execution of an accepted batch is proved exactly when the circuit can express it. -/
theorem prove_execution_iff {pre : Ledger} {batch : Batch} (hb : batch.Accepted)
    {r : BatchExecutionResult} (h : executeBatch pre batch = .ok r) (nonce : ℕ → Bytes32)
    (cutoff : U64) :
    (∃ proof, prove (Cli.publicInputs (D := D) pre batch (Cli.preimagesWith nonce batch) cutoff r)
      (Cli.witness pre batch (Cli.preimagesWith nonce batch) cutoff r) = .ok proof) ↔
    r.Provable pre batch := by
  constructor
  · intro hproof
    obtain ⟨leaves, accounting, hleaves, -, -, hplain, -, hasserts⟩ := prove_isOk_iff.mp hproof
    obtain ⟨-, hlen, -⟩ := bindLeaves_eq_ok.mp hleaves
    have hseq : ∀ k o, batch.orders[k]? = some o → (o.seq : ℕ) = k := by
      intro k o ho
      have hk : k < batch.len := (List.getElem?_eq_some_iff.mp ho).1
      have hscalar : toScalar o.seq = (k : Scalar) :=
        (hasserts.orders (o, k) (List.mem_zipIdx_iff_getElem?.mpr ho)).2
      have hlt : k < 2 ^ 128 := hk.trans (hlen.trans (by decide))
      rw [toScalar_eq_cast, scalar_natCast_inj (o.seq.isLt.trans (by decide)) hlt] at hscalar
      exact hscalar
    have hver : verifyTransition pre batch r = .ok () := by
      have htrans := hplain.transition
      obtain ⟨outcome, post, ho, -, -, -, rfl⟩ := hb.executeBatch_eq_ok.mp h
      rwa [executionOf_cli ho] at htrans
    exact ⟨hlen, hseq, (hb.verifyTransition_execution h).mp hver,
      (prove_cli_iff hb hlen hseq h hver nonce cutoff).mp hproof⟩
  · intro hp
    have hver := (hb.verifyTransition_execution h).mpr hp.lots
    exact (prove_cli_iff hb hp.len hp.seq h hver nonce cutoff).mpr hp.fits

end SingleBatchProver

/-! ## Rounds -/

/-- The batches, numbered on from `idx`, go through one after another: the ledger before, and the one
after the last of them. -/
inductive Rounds (inst : InstrumentId) : ℕ → Ledger → List Batch → Ledger → Prop
  | nil (idx : ℕ) (l : Ledger) : Rounds inst idx l [] l
  | cons {idx : ℕ} {l final : Ledger} {batch : Batch} {batches : List Batch}
      {r : BatchExecutionResult} (number : (batch.batchId.raw : ℕ) = idx + 1)
      (instrument : batch.instrument = inst) (executes : executeBatch l batch = .ok r)
      (provable : r.Provable l batch) (rest : Rounds inst (idx + 1) r.postState batches final) :
      Rounds inst idx l (batch :: batches) final

/-- Rounds keep the accounts, and the sums of cash and of every instrument. -/
theorem Rounds.conserves {inst : InstrumentId} {idx : ℕ} {l final : Ledger} {batches : List Batch}
    (h : Rounds inst idx l batches final) (hb : ∀ b ∈ batches, b.Accepted) :
    (∀ a, (final.getAccount a).isSome = (l.getAccount a).isSome) ∧ final.cashSum = l.cashSum ∧
      ∀ i, final.lotsSum i = l.lotsSum i := by
  induction h with
  | nil => exact ⟨fun _ => rfl, rfl, fun _ => rfl⟩
  | cons number instrument executes provable rest ih =>
    obtain ⟨hhd, htl⟩ := List.forall_mem_cons.mp hb
    obtain ⟨hsome, hcash, hlots⟩ := ih htl
    have hsame := hhd.executeBatch_sameAccounts executes
    obtain ⟨outcome, post, ho, hrun, -, -, rfl⟩ := hhd.executeBatch_eq_ok.mp executes
    obtain ⟨hcash', hlots'⟩ := hhd.sums_eq ho hrun
    exact ⟨fun a => (hsome a).trans (hsame.isSome a), hcash.trans hcash',
      fun i => (hlots i).trans (hlots' i)⟩

section Blinding

variable (s : Bytes32)

omit [StdSort] in
theorem Ledger.cashOf_blindLedger (l : Ledger) (a : AccountId) :
    (blindLedger s l).cashOf a = l.cashOf a := by
  unfold cashOf
  rw [getAccount_blindLedger, Option.map_map]
  rfl

omit [StdSort] in
theorem Ledger.lotsSum_blindLedger (l : Ledger) (i : InstrumentId) :
    (blindLedger s l).lotsSum i = l.lotsSum i := by
  unfold lotsSum SortedMap.sum blindLedger SortedMap.mapVal
  rw [List.map_map]
  rfl

omit [StdSort] in
theorem provable_blind {l : Ledger} {batch : Batch} {r : BatchExecutionResult} :
    (r.blind s).Provable (blindLedger s l) batch ↔ r.Provable l batch := by
  have hfits : (r.blind s).FitsCircuit (blindLedger s l) ↔ r.FitsCircuit l := by
    constructor
    · rintro ⟨hcons, hcash⟩
      refine ⟨hcons, fun a => ?_⟩
      have := hcash a
      rwa [BatchExecutionResult.blind, Ledger.cashOf_blindLedger, Ledger.cashOf_blindLedger] at this
    · rintro ⟨hcons, hcash⟩
      refine ⟨hcons, fun a => ?_⟩
      rw [BatchExecutionResult.blind, Ledger.cashOf_blindLedger, Ledger.cashOf_blindLedger]
      exact hcash a
  constructor
  · rintro ⟨hlen, hseq, hlots, h⟩
    exact ⟨hlen, hseq, (Ledger.lotsSum_blindLedger s l _).symm ▸ hlots, hfits.mp h⟩
  · rintro ⟨hlen, hseq, hlots, h⟩
    exact ⟨hlen, hseq, (Ledger.lotsSum_blindLedger s l _) ▸ hlots, hfits.mpr h⟩

/-- Rounds do not depend on the secret the ledger is blinded with. -/
theorem rounds_blindLedger {inst : InstrumentId} {idx : ℕ} {l blinded : Ledger} {batches : List Batch}
    (hb : ∀ b ∈ batches, b.Accepted) : Rounds inst idx (blindLedger s l) batches blinded ↔
      ∃ final, Rounds inst idx l batches final ∧ blinded = blindLedger s final := by
  induction batches generalizing idx l with
  | nil =>
    constructor
    · rintro ⟨⟩
      exact ⟨l, .nil idx l, rfl⟩
    · rintro ⟨_, ⟨⟩, rfl⟩
      exact .nil idx _
  | cons batch batches ih =>
    obtain ⟨hhd, htl⟩ := List.forall_mem_cons.mp hb
    constructor
    · rintro (_ | ⟨number, instrument, executes, provable, rest⟩)
      rw [hhd.executeBatch_blindLedger] at executes
      cases hr : executeBatch l batch with
      | error e =>
        rw [hr] at executes
        cases executes
      | ok r =>
        rw [hr] at executes
        obtain rfl := Except.ok.inj executes
        obtain ⟨final, hfinal, rfl⟩ := (ih htl).mp rest
        exact ⟨final, .cons number instrument hr ((provable_blind s).mp provable) hfinal, rfl⟩
    · rintro ⟨final, _ | ⟨number, instrument, executes, provable, rest⟩, rfl⟩
      refine .cons number instrument ?_ ((provable_blind s).mpr provable)
        ((ih htl).mpr ⟨final, rest, rfl⟩)
      rw [hhd.executeBatch_blindLedger, executes]
      rfl

end Blinding

/-! ## The steps of a run -/

omit [StdSort] in
theorem toU64_of_lt {n : ℕ} (h : n < 2 ^ 64) : (toU64 n : ℕ) = n := by
  rw [toU64_val, Nat.mod_eq_of_lt h]

omit [StdSort] in
theorem Cli.stepTimestamp_val {idx : ℕ} (h : idx ≤ 2 ^ 60) :
    (Cli.stepTimestamp idx : ℕ) = 1700000000 + idx * 10 := by
  unfold stepTimestamp
  rw [Fin.val_add, Fin.val_mul, toU64_of_lt (by omega)]
  show (1700000000 + idx * 10 % 2 ^ 64) % 2 ^ 64 = _
  omega

/-- The running state before batch `idx`, which runs on `l`. -/
structure RunningState.At (state : RunningState D) (inst : InstrumentId) (idx : ℕ) (l : Ledger) :
    Prop where
  root : state.ledgerRoot = computeLedgerRoot l inst
  number : (state.batchId.raw : ℕ) = idx
  instrument : state.instrumentId = inst
  timestamp : state.timestampNanos ≤ Cli.stepTimestamp idx

omit [DecidableEq D] [StdSort] in
/-- The running state after it. -/
theorem RunningState.At.next {state : RunningState D} {inst : InstrumentId} {idx : ℕ} {l : Ledger}
    (hat : state.At inst idx l) (hidx : idx + 1 ≤ 2 ^ 60) {batch : Batch} {r : BatchExecutionResult}
    (number : (batch.batchId.raw : ℕ) = idx + 1) (instrument : batch.instrument = inst) (history : D) :
    RunningState.At ⟨(Cli.sessionStep state.ledgerRoot idx l batch r).publicInputs.postStateRoot,
      history, batch.batchId, Cli.stepTimestamp idx, state.instrumentId⟩ inst (idx + 1)
      r.postState := by
  refine ⟨?_, number, hat.instrument, ?_⟩
  · rw [← instrument]
    rfl
  · rw [Fin.le_def, Cli.stepTimestamp_val (by omega), Cli.stepTimestamp_val hidx]
    omega

/-- The step of a batch folds when the batch is the next one, and provable. -/
theorem folds_sessionStep_iff {state : RunningState D} {inst : InstrumentId} {idx : ℕ} {l : Ledger}
    (hat : state.At inst idx l) (hidx : idx + 1 ≤ 2 ^ 60) {batch : Batch} (hb : batch.Accepted)
    {r : BatchExecutionResult} (hr : executeBatch l batch = .ok r) :
    (∃ state', Folds state (Cli.sessionStep state.ledgerRoot idx l batch r) state') ↔
      (batch.batchId.raw : ℕ) = idx + 1 ∧ batch.instrument = inst ∧ r.Provable l batch := by
  have hnumber : batch.batchId.raw = state.batchId.raw + 1 ↔ (batch.batchId.raw : ℕ) = idx + 1 := by
    have hsum : ((state.batchId.raw + 1 : U64) : ℕ) = idx + 1 := by
      rw [Fin.val_add, hat.number]
      show (idx + 1) % 2 ^ 64 = _
      omega
    rw [← hsum, Fin.val_inj]
  -- the statement is the one of a single batch, once its root is the ledger's
  have hproof : batch.instrument = inst →
      ((∃ proof, SingleBatchProver.prove (Cli.sessionStep state.ledgerRoot idx l batch r).publicInputs
        (Cli.sessionStep state.ledgerRoot idx l batch r).witness = .ok proof) ↔
          r.Provable l batch) := by
    intro hinst
    rw [← SingleBatchProver.prove_execution_iff (D := D) hb hr
      (fun i => .fill (UInt8.ofNat (idx * 10 + i) + 1)) (Cli.stepTimestamp idx)]
    have hroot : state.ledgerRoot = computeLedgerRoot l batch.instrument := by rw [hat.root, hinst]
    have hinputs : (Cli.sessionStep state.ledgerRoot idx l batch r).publicInputs =
        Cli.publicInputs l batch (Cli.derivePreimages batch idx) (Cli.stepTimestamp idx) r := by
      rw [hroot]
      rfl
    rw [hinputs]
    rfl
  constructor
  · rintro ⟨state', hfold⟩
    have hinst : batch.instrument = inst := hfold.instrument.trans hat.instrument
    exact ⟨hnumber.mp hfold.batchId, hinst, (hproof hinst).mp hfold.proved⟩
  · rintro ⟨hnum, hinst, hprov⟩
    exact ⟨_, hnumber.mpr hnum, hinst.trans hat.instrument.symm, hat.timestamp, rfl,
      (hproof hinst).mpr hprov, rfl⟩

namespace Cli

omit [DecidableEq D] in
theorem buildSteps_cons {idx : ℕ} {root : D} {l : Ledger} {batch : Batch} {batches : List Batch}
    {steps : List (RecursiveStep D)} : buildSteps idx root l (batch :: batches) = .ok steps ↔
      ∃ r rest, executeBatch l batch = .ok r ∧
        buildSteps (idx + 1) (sessionStep root idx l batch r).publicInputs.postStateRoot r.postState
          batches = .ok rest ∧
        steps = sessionStep root idx l batch r :: rest := by
  simp only [buildSteps, Result.bind_eq_ok, Result.orFail_eq_ok, Result.pure_eq_ok]
  constructor
  · rintro ⟨r, hr, rest, hrest, rfl⟩
    exact ⟨r, rest, hr, hrest, rfl⟩
  · rintro ⟨r, rest, hr, hrest, rfl⟩
    exact ⟨r, hr, rest, hrest, rfl⟩

/-- Steps that are proved come from rounds. The running state follows the executed ledger, and every
step starts from the accounts of the first. -/
theorem rounds_of_proveSteps {inst : InstrumentId} {idx k : ℕ} {l : Ledger}
    {state final : RunningState D} {batches : List Batch} {steps : List (RecursiveStep D)}
    {proofs : List (BatchProof D)} (hat : state.At inst idx l)
    (hidx : idx + batches.length ≤ 2 ^ 60) (hb : ∀ b ∈ batches, b.Accepted)
    (hsteps : buildSteps idx state.ledgerRoot l batches = .ok steps)
    (hproofs : RecursiveSessionProver.proveSteps k state steps = .ok (final, proofs)) :
    steps.length = batches.length ∧
      (∀ step ∈ steps, step.witness.preState.accounts.size = l.accounts.size) ∧
      ∃ last, Rounds inst idx l batches last ∧ final.ledgerRoot = computeLedgerRoot last inst := by
  induction batches generalizing idx k l state steps proofs with
  | nil =>
    obtain rfl : [] = steps := Except.ok.inj hsteps
    obtain ⟨rfl, -⟩ := Prod.mk.inj (Except.ok.inj hproofs)
    exact ⟨rfl, by simp, l, .nil idx l, hat.root⟩
  | cons batch batches ih =>
    obtain ⟨hhd, htl⟩ := List.forall_mem_cons.mp hb
    rw [List.length_cons] at hidx
    obtain ⟨r, rest, hr, hrest, rfl⟩ := buildSteps_cons.mp hsteps
    obtain ⟨state', proof, proofs', hfold, -, hproofs', rfl⟩ := proveSteps_cons.mp hproofs
    obtain ⟨number, instrument, provable⟩ :=
      (folds_sessionStep_iff hat (by omega) hhd hr).mp ⟨state', hfold⟩
    have hat' : state'.At inst (idx + 1) r.postState := by
      rw [hfold.next]
      exact hat.next (by omega) number instrument _
    rw [show (sessionStep state.ledgerRoot idx l batch r).publicInputs.postStateRoot =
      state'.ledgerRoot by rw [hfold.next]] at hrest
    obtain ⟨hlen, hsize, last, hrounds, hroot⟩ := ih hat' (by omega) htl hrest hproofs'
    refine ⟨by rw [List.length_cons, List.length_cons, hlen], ?_, last,
      .cons number instrument hr provable hrounds, hroot⟩
    rintro step (_ | ⟨_, hstep⟩)
    · rfl
    · rw [hsize step hstep]
      exact SortedMap.size_eq_of_isSome (hhd.executeBatch_sameAccounts hr).isSome

/-- Rounds are proved, step by step. -/
theorem proveSteps_of_rounds {inst : InstrumentId} {idx k : ℕ} {l last : Ledger}
    {state : RunningState D} {batches : List Batch} (hat : state.At inst idx l)
    (hidx : idx + batches.length ≤ 2 ^ 60) (hb : ∀ b ∈ batches, b.Accepted)
    (hrounds : Rounds inst idx l batches last) :
    ∃ steps final proofs, buildSteps idx state.ledgerRoot l batches = .ok steps ∧
      RecursiveSessionProver.proveSteps k state steps = .ok (final, proofs) := by
  induction hrounds generalizing k state with
  | nil idx l => exact ⟨[], state, [], rfl, rfl⟩
  | @cons idx l last batch batches r number instrument executes provable rest ih =>
    obtain ⟨hhd, htl⟩ := List.forall_mem_cons.mp hb
    rw [List.length_cons] at hidx
    obtain ⟨state', hfold⟩ := (folds_sessionStep_iff hat (by omega) hhd executes).mpr
      ⟨number, instrument, provable⟩
    have hat' : state'.At inst (idx + 1) r.postState := by
      rw [hfold.next]
      exact hat.next (by omega) number instrument _
    obtain ⟨steps, final, proofs, hsteps, hproofs⟩ := ih (k := k + 1) hat' (by omega) htl
    obtain ⟨proof, hproof⟩ := hfold.proved
    refine ⟨sessionStep state.ledgerRoot idx l batch r :: steps, final, proof :: proofs,
      buildSteps_cons.mpr ⟨r, steps, executes, ?_, rfl⟩,
      proveSteps_cons.mpr ⟨state', proof, proofs, hfold, hproof, hproofs, rfl⟩⟩
    rwa [hfold.next] at hsteps

/-! ## The command -/

theorem proveManifest_eq_ok {manifest : SessionManifest} {session : SessionProof D} :
    proveManifest manifest = .ok session ↔ ∃ first rest steps, manifest.batches = first :: rest ∧
      buildSteps 0 (computeLedgerRoot (blindLedger kDemoVenueSecret manifest.genesisLedger)
        first.instrument) (blindLedger kDemoVenueSecret manifest.genesisLedger)
        manifest.batches = .ok steps ∧
      RecursiveSessionProver.proveSession (.genesis
        (computeLedgerRoot (blindLedger kDemoVenueSecret manifest.genesisLedger) first.instrument)
        first.instrument) steps = .ok session := by
  unfold proveManifest
  cases manifest.batches with
  | nil => simp
  | cons first rest =>
    simp only [Result.bind_eq_ok, Result.orFail_eq_ok, List.cons.injEq]
    constructor
    · rintro ⟨steps, hsteps, hsession⟩
      exact ⟨first, rest, steps, ⟨rfl, rfl⟩, hsteps, hsession⟩
    · rintro ⟨_, _, steps, ⟨rfl, rfl⟩, hsteps, hsession⟩
      exact ⟨steps, hsteps, hsession⟩

omit [DecidableEq D] [StdSort] in
theorem genesis_at (l : Ledger) (inst : InstrumentId) :
    RunningState.At (.genesis (computeLedgerRoot (D := D) l inst) inst) inst 0 l :=
  ⟨rfl, rfl, rfl, Fin.zero_le _⟩

section Manifest

variable {manifest : SessionManifest}

/-- **Which manifests are proved.** Those whose batches go through as rounds on the genesis ledger: the
secret has no part in it. -/
theorem proveManifest_isOk_iff
    (hb : ∀ b ∈ manifest.batches, ∃ orders, Batch.create b.batchId b.instrument orders = .ok b)
    (hlen : manifest.batches.length ≤ 2 ^ 60) :
    (∃ session : SessionProof D, proveManifest manifest = .ok session) ↔
      ∃ first rest final, manifest.batches = first :: rest ∧
        Rounds first.instrument 0 manifest.genesisLedger manifest.batches final := by
  have hacc : ∀ b ∈ manifest.batches, b.Accepted := by
    intro b hmem
    obtain ⟨orders, h⟩ := hb b hmem
    exact Batch.accepted_of_create h
  constructor
  · rintro ⟨session, h⟩
    obtain ⟨first, rest, steps, hbatches, hsteps, hsession⟩ := proveManifest_eq_ok.mp h
    obtain ⟨-, final, proofs, hproofs, -⟩ := proveSession_eq_ok.mp hsession
    obtain ⟨-, -, last, hrounds, -⟩ :=
      rounds_of_proveSteps (genesis_at _ _) (by rwa [Nat.zero_add]) hacc hsteps hproofs
    obtain ⟨final', hfinal, -⟩ := (rounds_blindLedger kDemoVenueSecret hacc).mp hrounds
    exact ⟨first, rest, final', hbatches, hfinal⟩
  · rintro ⟨first, rest, final, hbatches, hrounds⟩
    obtain ⟨steps, last, proofs, hsteps, hproofs⟩ := proveSteps_of_rounds (D := D) (k := 0)
      (genesis_at _ _) (by rwa [Nat.zero_add]) hacc
      ((rounds_blindLedger kDemoVenueSecret hacc).mpr ⟨final, hrounds, rfl⟩)
    have hne : steps ≠ [] := by
      rintro rfl
      rw [hbatches] at hsteps
      obtain ⟨r, tail, -, -, hcons⟩ := buildSteps_cons.mp hsteps
      exact absurd hcons.symm (List.cons_ne_nil _ _)
    exact ⟨_, proveManifest_eq_ok.mpr ⟨first, rest, steps, hbatches, hsteps,
      proveSession_eq_ok.mpr ⟨hne, last, proofs, hproofs, rfl⟩⟩⟩

/-- **What is published.** A proved session runs from the root of the genesis ledger to the root of the
executed one, blinded alike, with the same accounts and totals. The verifier accepts it. -/
theorem proveManifest_publishes
    (hb : ∀ b ∈ manifest.batches, ∃ orders, Batch.create b.batchId b.instrument orders = .ok b)
    (hlen : manifest.batches.length ≤ 2 ^ 60) (hsize : manifest.genesisLedger.accounts.size ≤ 2 ^ 62)
    {session : SessionProof D} (h : proveManifest manifest = .ok session) :
    proveAndVerifyManifest manifest = .ok session ∧
      session.numBatches = manifest.batches.length ∧
      ∃ first rest final, manifest.batches = first :: rest ∧
        Rounds first.instrument 0 manifest.genesisLedger manifest.batches final ∧
        session.publicInputs.initialState = .genesis (computeLedgerRoot
          (blindLedger kDemoVenueSecret manifest.genesisLedger) first.instrument) first.instrument ∧
        session.publicInputs.finalState.ledgerRoot =
          computeLedgerRoot (blindLedger kDemoVenueSecret final) first.instrument ∧
        (∀ a, (final.getAccount a).isSome = (manifest.genesisLedger.getAccount a).isSome) ∧
        final.cashSum = manifest.genesisLedger.cashSum ∧
        ∀ i, final.lotsSum i = manifest.genesisLedger.lotsSum i := by
  have hacc : ∀ b ∈ manifest.batches, b.Accepted := by
    intro b hmem
    obtain ⟨orders, h⟩ := hb b hmem
    exact Batch.accepted_of_create h
  obtain ⟨first, rest, steps, hbatches, hsteps, hsession⟩ := proveManifest_eq_ok.mp h
  obtain ⟨hne, last, proofs, hproofs, rfl⟩ := proveSession_eq_ok.mp hsession
  obtain ⟨hcount, hsizes, blinded, hrounds, hroot⟩ :=
    rounds_of_proveSteps (genesis_at _ _) (by rwa [Nat.zero_add]) hacc hsteps hproofs
  obtain ⟨final, hfinal, rfl⟩ := (rounds_blindLedger kDemoVenueSecret hacc).mp hrounds
  have hsmall : ∀ step ∈ steps, step.witness.preState.accounts.size ≤ 2 ^ 62 := by
    intro step hstep
    rw [hsizes step hstep]
    simpa [blindLedger, SortedMap.mapVal, SortedMap.size] using hsize
  obtain ⟨hproofsLen, hreplays⟩ := proveSteps_replays hsmall hproofs
  have hproofsNe : proofs ≠ [] := by
    rintro rfl
    exact hne (List.length_eq_zero_iff.mp hproofsLen.symm)
  refine ⟨?_, hcount, first, rest, final, hbatches, hfinal, rfl, hroot, hfinal.conserves hacc⟩
  simp only [proveAndVerifyManifest, Result.bind_eq_ok, Result.orFail_eq_ok]
  exact ⟨_, h, (), RecursiveSessionVerifier.verifySession_eq_ok.mpr
    ⟨rfl, rfl, hproofsLen, hproofsNe, hreplays⟩, rfl⟩

end Manifest

end Cli

end Session

namespace Cli

/-- The example batch, and a round without orders after it. -/
def exampleManifest : SessionManifest where
  genesisLedger := exampleLedger
  batches := [exampleBatch, secondBatch]

theorem exampleManifest_created : ∀ b ∈ exampleManifest.batches,
    ∃ orders, @Batch.create .stable b.batchId b.instrument orders = .ok b := by
  rintro b (_ | ⟨_, _ | ⟨_, ⟨⟩⟩⟩)
  · exact ⟨exampleBatch.orders, by decide +kernel⟩
  · exact ⟨[], by decide +kernel⟩

theorem exampleManifest_rounds :
    @Rounds .stable ⟨7⟩ 0 exampleManifest.genesisLedger exampleManifest.batches exampleSettled := by
  refine @Rounds.cons .stable _ _ _ _ _ _ exampleResult rfl rfl (by decide +kernel)
    ⟨by decide, seq_of_positions (by decide), by decide +kernel, exampleResult_fitsCircuit⟩ ?_
  refine @Rounds.cons .stable _ _ _ _ _ _ ⟨⟨none, .zero⟩, zeroAllocation secondBatch, [],
    exampleSettled⟩ rfl rfl (by decide +kernel) ⟨by decide, seq_of_positions (by decide),
    by decide +kernel, ⟨by simp, fun _ => rfl⟩⟩ ?_
  exact @Rounds.nil .stable _ _ _

theorem proveManifest_isOk_example : ∃ session : SessionProof Commitment,
    @proveManifest Commitment _ _ .stable exampleManifest = .ok session :=
  (@proveManifest_isOk_iff Commitment _ _ .stable _ exampleManifest_created (by decide)).mpr
    ⟨_, _, _, rfl, exampleManifest_rounds⟩

theorem proveManifest_publishes_example : ∃ session : SessionProof TermDigest,
    @proveAndVerifyManifest TermDigest _ _ .stable exampleManifest = .ok session ∧
      session.numBatches = 2 := by
  obtain ⟨session, h⟩ : ∃ session : SessionProof TermDigest,
      @proveManifest TermDigest _ _ .stable exampleManifest = .ok session :=
    Result.isOk_iff.mp (by decide +kernel)
  obtain ⟨hverify, hcount, -⟩ := @proveManifest_publishes TermDigest _ _ .stable _
    exampleManifest_created (by decide) (by decide +kernel) _ h
  exact ⟨session, hverify, hcount⟩

end Cli

end FairCross
