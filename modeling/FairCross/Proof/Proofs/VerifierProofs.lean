import FairCross.Library.HashTree
import FairCross.Proof.Proofs.CertificateProofs
import FairCross.Proof.Proofs.SessionProofs
import FairCross.Proof.Proofs.SynthesisProofs

/-!
# What the verifiers accept

Every certificate the prover prints is read back by the verifier, and the verifier's replay of a session
follows the prover's folds. In the other direction, the history accumulator binds the header hash, the
price and the volume of every step of an accepted session.
-/

namespace FairCross

namespace SingleBatchVerifier

/-! ## The size of a constraint system -/

section Size

variable {D : Type} [DecidableEq D] [CommitmentScheme D] [StdSort]
  {publicInputs : BatchProofPublicInputs D} {witness : BatchProofWitness D}

/-- Orders are counted in 32 bits, so only the accounts could make a constraint system large. -/
theorem synthesisSize_lt {leaves : List D} {accounting : CompleteInputAccounting D}
    (hleaves : SingleBatchProver.bindLeaves witness = .ok leaves)
    (hplain : SingleBatchProver.Plaintext publicInputs witness (.new leaves) accounting)
    (hsize : witness.preState.accounts.size ≤ 2 ^ 62) :
    SingleBatchProver.synthesisSize witness accounting < 2 ^ 64 := by
  obtain ⟨horders, hlen, -⟩ := SingleBatchProver.bindLeaves_eq_ok.mp hleaves
  obtain ⟨-, halloc, hfills, -⟩ := verifyTransition_iff.mp hplain.transition
  have hpreimages : witness.preimages.length = witness.batch.orders.length := by
    rw [← horders, List.length_map]
  have hrecords : (accounting.records.zip witness.preimages).length ≤ witness.batch.orders.length := by
    rw [List.length_zip, ← hpreimages]
    exact min_le_right ..
  have hcandidates := length_candidatePrices witness.batch.orders
  have hallocations : witness.allocation.allocations.length ≤ witness.batch.orders.length := by
    have := (allocateBatch_sublist halloc).length_le
    rwa [List.length_map, List.length_map] at this
  have hfills' : witness.fills.length ≤ witness.allocation.allocations.length :=
    length_generateCanonicalFills hfills
  have hlen' : witness.batch.orders.length < 2 ^ 32 := hlen
  have haccounts : witness.preState.accounts.entries.length ≤ 2 ^ 62 := hsize
  unfold SingleBatchProver.synthesisSize
  omega

/-- **Proofs are accepted.** The verifier accepts what the prover emits. -/
theorem verify_prove {proof : BatchProof D} (h : SingleBatchProver.prove publicInputs witness = .ok proof)
    (hsize : witness.preState.accounts.size ≤ 2 ^ 62) :
    proof.publicInputs = publicInputs ∧ verify proof.publicInputs proof = .ok () := by
  obtain ⟨leaves, accounting, cs, fullWitness, hleaves, -, -, hplain, hall, -, rfl⟩ :=
    SingleBatchProver.prove_eq_ok.mp h
  have hbound := SingleBatchProver.synthesizeAll_size hall
  have hlt := synthesisSize_lt hleaves hplain hsize
  exact ⟨rfl, verify_certificate (SingleBatchProver.synthesizeAll_pos hall) (by omega)⟩

end Size

end SingleBatchVerifier

/-! ## Replaying a session -/

namespace RecursiveSessionVerifier

section Replay

variable {D : Type} [DecidableEq D] [CommitmentScheme D]

omit [DecidableEq D] [CommitmentScheme D] in
/-- Every step starts from the root the step before ended with; the chain leads from `root` to `last`. -/
def RootsChain : D → List (BatchProof D) → D → Prop
  | root, [], last => root = last
  | root, p :: ps, last =>
    p.publicInputs.preStateRoot = root ∧ RootsChain p.publicInputs.postStateRoot ps last

omit [DecidableEq D] in
/-- The history after one more step. -/
def absorb (history : D) (p : BatchProof D) : D :=
  CommitmentScheme.commitRawBytes (accumPayload history p.publicInputs)

/-- The replay of `proofs` from a history and a root, with where it ends. -/
structure Replays (history root : D) (proofs : List (BatchProof D)) (history' root' : D) : Prop where
  verified : ∀ p ∈ proofs, SingleBatchVerifier.verify p.publicInputs p = .ok ()
  roots : RootsChain root proofs root'
  history : proofs.foldl absorb history = history'

theorem replays_nil {history root history' root' : D} :
    Replays history root [] history' root' ↔ history = history' ∧ root = root' :=
  ⟨fun h => ⟨h.history, h.roots⟩, fun h => ⟨by simp, h.2, h.1⟩⟩

/-- One more step at the front. -/
theorem replays_cons {history root history' root' : D} {p : BatchProof D} {ps : List (BatchProof D)} :
    Replays history root (p :: ps) history' root' ↔
      SingleBatchVerifier.verify p.publicInputs p = .ok () ∧ p.publicInputs.preStateRoot = root ∧
        Replays (absorb history p) p.publicInputs.postStateRoot ps history' root' := by
  constructor
  · rintro ⟨hverified, ⟨hroot, hroots⟩, hhistory⟩
    obtain ⟨hp, hps⟩ := List.forall_mem_cons.mp hverified
    exact ⟨hp, hroot, hps, hroots, hhistory⟩
  · rintro ⟨hp, hroot, hps, hroots, hhistory⟩
    exact ⟨List.forall_mem_cons.mpr ⟨hp, hps⟩, ⟨hroot, hroots⟩, hhistory⟩

theorem replaySteps_eq_ok {idx : ℕ} {history root history' root' : D} {proofs : List (BatchProof D)} :
    replaySteps idx history root proofs = .ok (history', root') ↔
      Replays history root proofs history' root' := by
  induction proofs generalizing idx history root with
  | nil =>
    rw [replays_nil, replaySteps, Result.pure_eq_ok, Prod.mk.injEq]
  | cons p ps ih =>
    simp only [replaySteps, Result.bind_eq_ok, Result.orFail_eq_ok, Result.ite_failure_eq_ok, ne_eq,
      not_not, ih, replays_cons]
    constructor
    · rintro ⟨⟨⟩, hp, hroot, hrest⟩
      exact ⟨hp, hroot, hrest⟩
    · rintro ⟨hp, hroot, hrest⟩
      exact ⟨(), hp, hroot, hrest⟩

/-- **What an accepted session satisfies.** -/
theorem verifySession_eq_ok {expected : SessionProofPublicInputs D} {proof : SessionProof D} :
    verifySession expected proof = .ok () ↔ proof.sessionVersion = 1 ∧ proof.publicInputs = expected ∧
      proof.stepProofs.length = proof.numBatches ∧ proof.stepProofs ≠ [] ∧
      Replays expected.initialState.historyAccumulator expected.initialState.ledgerRoot
        proof.stepProofs expected.finalState.historyAccumulator expected.finalState.ledgerRoot := by
  simp only [verifySession, Result.ite_failure_eq_ok, Result.bind_eq_ok, Result.pure_eq_ok, ne_eq,
    not_not, not_or, List.isEmpty_iff, and_true, Prod.exists, replaySteps_eq_ok]
  constructor
  · rintro ⟨hversion, hinputs, ⟨hcount, hne⟩, history, root, hreplay, rfl, rfl⟩
    exact ⟨hversion, hinputs, hcount, hne, hreplay⟩
  · rintro ⟨hversion, hinputs, hcount, hne, hreplay⟩
    exact ⟨hversion, hinputs, ⟨hcount, hne⟩, _, _, hreplay, rfl, rfl⟩

end Replay

end RecursiveSessionVerifier

/-! ## The prover's sessions -/

section Emitted

variable {D : Type} [DecidableEq D] [CommitmentScheme D] [StdSort] {idx : ℕ}
  {state final : RunningState D} {steps : List (RecursiveStep D)} {proofs : List (BatchProof D)}

open RecursiveSessionVerifier

/-- The replay follows the folds: both accumulators and both root chains go the same way. -/
theorem proveSteps_replays (hsize : ∀ step ∈ steps, step.witness.preState.accounts.size ≤ 2 ^ 62)
    (h : RecursiveSessionProver.proveSteps idx state steps = .ok (final, proofs)) :
    proofs.length = steps.length ∧
      Replays state.historyAccumulator state.ledgerRoot proofs final.historyAccumulator
        final.ledgerRoot := by
  induction steps generalizing idx state proofs with
  | nil =>
    obtain ⟨rfl, rfl⟩ := Prod.mk.inj (Except.ok.inj h)
    exact ⟨rfl, replays_nil.mpr ⟨rfl, rfl⟩⟩
  | cons step steps ih =>
    obtain ⟨state', proof, proofs', hfold, hproof, hrest, rfl⟩ := proveSteps_cons.mp h
    obtain ⟨hstep, hsteps⟩ := List.forall_mem_cons.mp hsize
    obtain ⟨hlen, hreplay⟩ := ih hsteps hrest
    obtain ⟨hinputs, hverify⟩ := SingleBatchVerifier.verify_prove hproof hstep
    refine ⟨congrArg Nat.succ hlen, replays_cons.mpr ⟨hverify, ?_, ?_⟩⟩
    · rw [hinputs]
      exact hfold.preRoot
    · obtain rfl := hfold.next
      rw [absorb, hinputs]
      exact hreplay

/-- The batch id grows by one with every step, as long as it fits its 64 bits. -/
theorem proveSteps_batchId (hid : (state.batchId.raw : ℕ) + steps.length < 2 ^ 64)
    (h : RecursiveSessionProver.proveSteps idx state steps = .ok (final, proofs)) :
    (final.batchId.raw : ℕ) = state.batchId.raw + steps.length := by
  induction steps generalizing idx state proofs with
  | nil =>
    obtain ⟨rfl, -⟩ := Prod.mk.inj (Except.ok.inj h)
    rfl
  | cons step steps ih =>
    obtain ⟨state', proof, proofs', hfold, -, hrest, -⟩ := proveSteps_cons.mp h
    rw [List.length_cons] at hid ⊢
    have hone : (state'.batchId.raw : ℕ) = state.batchId.raw + 1 := by
      obtain rfl := hfold.next
      show (step.witness.batch.batchId.raw : ℕ) = _
      rw [hfold.batchId, Fin.val_add_one_of_lt' (by omega)]
    have hfinal := ih (by omega) hrest
    omega

/-- The instrument stays, and no step is later than the state after it. -/
theorem proveSteps_timestamps
    (h : RecursiveSessionProver.proveSteps idx state steps = .ok (final, proofs)) :
    final.instrumentId = state.instrumentId ∧ state.timestampNanos ≤ final.timestampNanos ∧
      ∀ step ∈ steps, step.timestampNanos ≤ final.timestampNanos := by
  induction steps generalizing idx state proofs with
  | nil =>
    obtain ⟨rfl, -⟩ := Prod.mk.inj (Except.ok.inj h)
    exact ⟨rfl, le_rfl, by simp⟩
  | cons step steps ih =>
    obtain ⟨state', proof, proofs', hfold, -, hrest, -⟩ := proveSteps_cons.mp h
    obtain ⟨hinst, htime, hsteps⟩ := ih hrest
    obtain rfl := hfold.next
    exact ⟨hinst, hfold.timestamp.trans htime, List.forall_mem_cons.mpr ⟨htime, hsteps⟩⟩

/-- **Sessions are accepted.** The verifier accepts every session the prover emits; no `std::map` holds
more accounts than `hsize` allows. From genesis on, the final state counts the batches, keeps the
instrument, and is not earlier than any step. -/
theorem proveSession_verified {initialState : RunningState D} {proof : SessionProof D}
    (hsize : ∀ step ∈ steps, step.witness.preState.accounts.size ≤ 2 ^ 62)
    (h : RecursiveSessionProver.proveSession initialState steps = .ok proof) :
    verifySession proof.publicInputs proof = .ok () ∧
    ∀ root inst, initialState = .genesis root inst → steps.length < 2 ^ 64 →
      (proof.publicInputs.finalState.batchId.raw : ℕ) = steps.length ∧
      proof.publicInputs.finalState.instrumentId = inst ∧
      ∀ step ∈ steps, step.timestampNanos ≤ proof.publicInputs.finalState.timestampNanos := by
  obtain ⟨hne, final, proofs, hsteps, rfl⟩ := proveSession_eq_ok.mp h
  obtain ⟨hlen, hreplay⟩ := proveSteps_replays hsize hsteps
  refine ⟨verifySession_eq_ok.mpr ⟨rfl, rfl, hlen, ?_, hreplay⟩, ?_⟩
  · intro hnil
    have hzero : steps.length = 0 := hlen.symm.trans (congrArg List.length hnil)
    exact hne (List.length_eq_zero_iff.mp hzero)
  · rintro root inst rfl hcount
    obtain ⟨hinst, -, htimes⟩ := proveSteps_timestamps hsteps
    have hid := proveSteps_batchId (by simpa [RunningState.genesis] using hcount) hsteps
    exact ⟨by simpa [RunningState.genesis] using hid, hinst, htimes⟩

end Emitted

theorem proveSession_verified_example : ∃ proof,
    @RecursiveSessionProver.proveSession TermDigest _ _ .stable (exampleGenesis _)
      (exampleSession _) = .ok proof ∧
    RecursiveSessionVerifier.verifySession proof.publicInputs proof = .ok () ∧
    (proof.publicInputs.finalState.batchId.raw : ℕ) = 2 := by
  obtain ⟨proof, hproof⟩ := exampleSession_proved
  obtain ⟨hverify, hgenesis⟩ :=
    @proveSession_verified TermDigest _ _ .stable _ _ _ (by decide) hproof
  exact ⟨proof, hproof, hverify, (hgenesis _ _ rfl (by decide)).1⟩

/-! ## What the history binds -/

/-- A SHA-256 digest at the front of a payload is told from what follows it by its width. -/
theorem Bytes32.append_inj {a b : Bytes32} {s t : List UInt8} (h : a.bytes ++ s = b.bytes ++ t) :
    a = b ∧ s = t := by
  obtain ⟨hab, hst⟩ := List.append_inj h (a.size.trans b.size.symm)
  exact ⟨Bytes32.ext_bytes hab, hst⟩

namespace RecursiveSessionVerifier

section History

variable {D : Type} [CommitmentScheme D]

/-- What a step puts into the history. -/
structure StepStatement (D : Type) where
  batchHeaderHash : D
  clearingPrice : U64
  clearedVolume : U64

omit [CommitmentScheme D] in
def statementOf (p : BatchProof D) : StepStatement D :=
  ⟨p.publicInputs.batchHeaderHash, p.publicInputs.clearingPrice, p.publicInputs.clearedVolume⟩

/-- The history after one more statement. -/
def absorbStatement (history : D) (s : StepStatement D) : D :=
  CommitmentScheme.commitRawBytes (CommitmentScheme.bytes history ++
    CommitmentScheme.bytes s.batchHeaderHash ++ LittleEndian.leBytes 8 s.clearingPrice ++
    LittleEndian.leBytes 8 s.clearedVolume)

/-- The payload has a fixed layout, so a step of the history loses nothing. -/
theorem absorbStatement_binding (hash : ChainHash D) :
    HashChain.Binding (absorbStatement (D := D)) CommitmentScheme.zero := by
  refine ⟨fun {h h' s s'} heq => ?_, fun h s => hash.commit_ne_zero _⟩
  have hpayload := hash.commit_inj heq
  simp only [List.append_assoc] at hpayload
  obtain ⟨hhistory, hrest⟩ := hash.bytes_append_inj hpayload
  obtain ⟨hheader, hrest⟩ := hash.bytes_append_inj hrest
  obtain ⟨hprice, hvolume⟩ :=
    LittleEndian.leBytes_append_inj s.clearingPrice.isLt s'.clearingPrice.isLt hrest
  have hvolume := LittleEndian.leBytes_inj s.clearedVolume.isLt s'.clearedVolume.isLt hvolume
  cases s
  cases s'
  exact ⟨hhistory, (StepStatement.mk.injEq ..).mpr ⟨hheader, Fin.ext hprice, Fin.ext hvolume⟩⟩

theorem foldl_absorb (history : D) (proofs : List (BatchProof D)) :
    proofs.foldl absorb history = (proofs.map statementOf).foldl absorbStatement history := by
  rw [List.foldl_map]
  rfl

variable [DecidableEq D] {expected : SessionProofPublicInputs D} {proof proof' : SessionProof D}

/-- Two histories from genesis to the same accumulator are made of the same statements. -/
theorem statements_eq (hash : ChainHash D)
    (hgenesis : expected.initialState.historyAccumulator = CommitmentScheme.zero)
    (h : verifySession expected proof = .ok ()) (h' : verifySession expected proof' = .ok ()) :
    proof.stepProofs.map statementOf = proof'.stepProofs.map statementOf := by
  obtain ⟨-, -, -, -, hreplay⟩ := verifySession_eq_ok.mp h
  obtain ⟨-, -, -, -, hreplay'⟩ := verifySession_eq_ok.mp h'
  have hhistory := hreplay.history.trans hreplay'.history.symm
  rw [foldl_absorb, foldl_absorb, hgenesis] at hhistory
  exact (absorbStatement_binding hash).foldl_inj hhistory

/-- **The history binds the statements.** Two sessions accepted for the same boundary from genesis have
the same number of steps, and step by step the same header hash, price and volume. -/
theorem verifySession_binds_statements (hash : ChainHash D)
    (hgenesis : expected.initialState.historyAccumulator = CommitmentScheme.zero)
    (h : verifySession expected proof = .ok ()) (h' : verifySession expected proof' = .ok ()) :
    List.Forall₂ (fun p p' : BatchProof D =>
      p.publicInputs.batchHeaderHash = p'.publicInputs.batchHeaderHash ∧
      p.publicInputs.clearingPrice = p'.publicInputs.clearingPrice ∧
      p.publicInputs.clearedVolume = p'.publicInputs.clearedVolume)
      proof.stepProofs proof'.stepProofs := by
  have heq := statements_eq hash hgenesis h h'
  rw [← List.forall₂_eq_eq_eq, List.forall₂_map_left_iff, List.forall₂_map_right_iff] at heq
  exact heq.imp fun p p' hpp => (StepStatement.mk.injEq ..).mp hpp

/-! ## What the history leaves open -/

omit [CommitmentScheme D] in
/-- A certificate says nothing about the statement it comes with. -/
theorem verify_relabel (publicInputs : BatchProofPublicInputs D) (p : BatchProof D) :
    SingleBatchVerifier.verify publicInputs { p with publicInputs } =
      SingleBatchVerifier.verify p.publicInputs p := by
  unfold SingleBatchVerifier.verify
  simp only [ne_eq, not_true_eq_false, or_self, if_false]

omit [CommitmentScheme D] [DecidableEq D] in
/-- The step with another root at its end. -/
def movePost (p : BatchProof D) (root : D) : BatchProof D :=
  { p with publicInputs := { p.publicInputs with postStateRoot := root } }

omit [CommitmentScheme D] [DecidableEq D] in
/-- The step with another root at its start. -/
def movePre (p : BatchProof D) (root : D) : BatchProof D :=
  { p with publicInputs := { p.publicInputs with preStateRoot := root } }

/-- The root between the first two steps can be replaced on both sides of it. -/
theorem verifySession_splice {p q : BatchProof D} {rest : List (BatchProof D)} (root : D)
    (hsteps : proof.stepProofs = p :: q :: rest) (h : verifySession expected proof = .ok ()) :
    verifySession expected
      { proof with stepProofs := movePost p root :: movePre q root :: rest } = .ok () := by
  obtain ⟨hversion, hinputs, hcount, -, hreplay⟩ := verifySession_eq_ok.mp h
  rw [hsteps] at hcount hreplay
  obtain ⟨hp, hroot, hreplay⟩ := replays_cons.mp hreplay
  obtain ⟨hq, -, hreplay⟩ := replays_cons.mp hreplay
  refine verifySession_eq_ok.mpr ⟨hversion, hinputs, hcount, List.cons_ne_nil _ _, ?_⟩
  refine replays_cons.mpr ⟨?_, hroot, replays_cons.mpr ⟨?_, rfl, hreplay⟩⟩
  · rw [← hp]
    exact verify_relabel _ p
  · rw [← hq]
    exact verify_relabel _ q

omit [DecidableEq D] in
/-- There is more than one digest. -/
theorem exists_ne_digest (hash : ChainHash D) (root : D) : ∃ root', root ≠ root' := by
  by_cases hzero : root = CommitmentScheme.zero
  · exact ⟨CommitmentScheme.commitRawBytes [], fun h => hash.commit_ne_zero [] (h.symm.trans hzero)⟩
  · exact ⟨CommitmentScheme.zero, hzero⟩

/-- **The history does not bind the ledgers.** From genesis, an accepted session determines the root
after every step exactly if it has one step: a root between two steps is in no payload. -/
theorem verifySession_binds_roots_iff (hash : ChainHash D)
    (hgenesis : expected.initialState.historyAccumulator = CommitmentScheme.zero)
    (h : verifySession expected proof = .ok ()) :
    (∀ proof', verifySession expected proof' = .ok () →
      List.Forall₂ (fun p p' : BatchProof D =>
        p.publicInputs.postStateRoot = p'.publicInputs.postStateRoot)
        proof.stepProofs proof'.stepProofs) ↔
    proof.stepProofs.length = 1 := by
  obtain ⟨-, -, -, hne, hreplay⟩ := verifySession_eq_ok.mp h
  constructor
  · intro hbinds
    rcases hsteps : proof.stepProofs with _ | ⟨p, _ | ⟨q, rest⟩⟩
    · exact absurd hsteps hne
    · rfl
    · obtain ⟨root, hroot⟩ := exists_ne_digest hash p.publicInputs.postStateRoot
      have hroots := hbinds _ (verifySession_splice root hsteps h)
      rw [hsteps] at hroots
      exact absurd (List.forall₂_cons.mp hroots).1 hroot
  · intro hone proof' h'
    obtain ⟨-, -, -, -, hreplay'⟩ := verifySession_eq_ok.mp h'
    have hone' : proof'.stepProofs.length = 1 := by
      have := congrArg List.length (statements_eq hash hgenesis h h')
      rw [List.length_map, List.length_map] at this
      omega
    obtain ⟨p, hp⟩ := List.length_eq_one_iff.mp hone
    obtain ⟨p', hp'⟩ := List.length_eq_one_iff.mp hone'
    rw [hp] at hreplay ⊢
    rw [hp'] at hreplay' ⊢
    -- the only step ends at the final root
    exact List.forall₂_cons.mpr ⟨hreplay.roots.2.trans hreplay'.roots.2.symm, .nil⟩

end History

end RecursiveSessionVerifier

/-! ## Sessions of two steps -/

/-- Sessions of a batch at 105 and a batch without trades, with the ledger root `root` in between. -/
def twoSteps (root : TermDigest) : List (BatchProof TermDigest) :=
  [⟨1, ⟨.commit [0], root, .commit [1], .commit [9], 105, 10⟩, SingleBatchProver.certificate 37 5⟩,
    ⟨1, ⟨root, .commit [3], .commit [2], .commit [9], 0, 0⟩, SingleBatchProver.certificate 12 5⟩]

/-- The boundary of a session whose steps are `proofs`, from the root `.commit [0]`. -/
def boundary (proofs : List (BatchProof TermDigest)) (last : TermDigest) (batches : U64) :
    SessionProofPublicInputs TermDigest where
  initialState := .genesis (.commit [0]) ⟨7⟩
  finalState := ⟨last, proofs.foldl RecursiveSessionVerifier.absorb .zero, ⟨batches⟩, 1700000001, ⟨7⟩⟩

def twoStepSession (root : TermDigest) : SessionProof TermDigest :=
  ⟨1, 2, boundary (twoSteps (.commit [5])) (.commit [3]) 2, twoSteps root, []⟩

/-- A session of the first step alone, whose certificate counts `constraints` constraints. -/
def oneStepSession (constraints : ℕ) : SessionProof TermDigest :=
  let step : BatchProof TermDigest := ⟨1, ⟨.commit [0], .commit [5], .commit [1], .commit [9], 105, 10⟩,
    SingleBatchProver.certificate constraints 5⟩
  ⟨1, 1, boundary [step] (.commit [5]) 1, [step], []⟩

/-- The session is accepted whatever the root between its steps is. -/
theorem twoStepSession_verified (root : TermDigest) :
    RecursiveSessionVerifier.verifySession (boundary (twoSteps (.commit [5])) (.commit [3]) 2)
      (twoStepSession root) = .ok () := by
  have h : RecursiveSessionVerifier.verifySession
      (boundary (twoSteps (.commit [5])) (.commit [3]) 2) (twoStepSession (.commit [5])) = .ok () := by
    decide +kernel
  exact RecursiveSessionVerifier.verifySession_splice root rfl h

theorem verifySession_binds_statements_example : List.Forall₂ (fun p p' : BatchProof TermDigest =>
    p.publicInputs.batchHeaderHash = p'.publicInputs.batchHeaderHash ∧
    p.publicInputs.clearingPrice = p'.publicInputs.clearingPrice ∧
    p.publicInputs.clearedVolume = p'.publicInputs.clearedVolume)
    (twoSteps (.commit [5])) (twoSteps (.commit [6])) :=
  RecursiveSessionVerifier.verifySession_binds_statements TermDigest.chainHash rfl
    (twoStepSession_verified (.commit [5])) (twoStepSession_verified (.commit [6]))

theorem verifySession_binds_roots_example : List.Forall₂ (fun p p' : BatchProof TermDigest =>
    p.publicInputs.postStateRoot = p'.publicInputs.postStateRoot)
    (oneStepSession 37).stepProofs (oneStepSession 38).stepProofs := by
  have h : RecursiveSessionVerifier.verifySession (oneStepSession 37).publicInputs
      (oneStepSession 37) = .ok () := by decide +kernel
  have h' : RecursiveSessionVerifier.verifySession (oneStepSession 37).publicInputs
      (oneStepSession 38) = .ok () := by decide +kernel
  exact (RecursiveSessionVerifier.verifySession_binds_roots_iff TermDigest.chainHash rfl h).mpr rfl _ h'

/-- **Two histories for one boundary.** The roots after the first step differ. -/
theorem verifySession_leaves_roots_open :
    ChainHash TermDigest ∧
    RecursiveSessionVerifier.verifySession (boundary (twoSteps (.commit [5])) (.commit [3]) 2)
      (twoStepSession (.commit [5])) = .ok () ∧
    RecursiveSessionVerifier.verifySession (boundary (twoSteps (.commit [5])) (.commit [3]) 2)
      (twoStepSession (.commit [6])) = .ok () ∧
    (boundary (twoSteps (.commit [5])) (.commit [3]) 2).initialState.historyAccumulator =
      CommitmentScheme.zero ∧
    ¬ List.Forall₂ (fun p p' : BatchProof TermDigest =>
      p.publicInputs.postStateRoot = p'.publicInputs.postStateRoot)
      (twoStepSession (.commit [5])).stepProofs (twoStepSession (.commit [6])).stepProofs := by
  refine ⟨TermDigest.chainHash, twoStepSession_verified _, twoStepSession_verified _, rfl, ?_⟩
  intro h
  have hroot : (TermDigest.commit [5]) = .commit [6] := (List.forall₂_cons.mp h).1
  revert hroot
  decide

end FairCross
