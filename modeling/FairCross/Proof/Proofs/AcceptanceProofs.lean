import FairCross.Commitments.Sha256
import FairCross.Proof.Proofs.HonestProofs

/-!
# What a proof guarantees

What follows for the witness from a successful `prove`: the batch is one `create` accepts up to zero
prices and invalid sides, an oracle statement is admissible up to batches that do not cross, and the
statement is determined by the inputs up to the salts of the post-state.
-/

namespace FairCross

/-! ## Salts -/

/-- The accounts that both ledgers have carry the same salt in both. -/
def Ledger.SameSalts (l l' : Ledger) : Prop :=
  ∀ a x y, l.getAccount a = some x → l'.getAccount a = some y → y.commitmentSalt = x.commitmentSalt

/-- The salts are all the checker leaves open of what a ledger commits to. -/
theorem Ledger.Matches.sameCommitted {inst : InstrumentId} {l l' : Ledger} (h : l.Matches inst l')
    (hs : l.SameSalts l') : l.SameCommitted inst l' := by
  refine ⟨h.isSome, fun a x y hx hy => ?_⟩
  obtain ⟨z, hz, hcash, hinv⟩ := h.account a x hx
  obtain rfl := Option.some.inj (hy.symm.trans hz)
  exact ⟨hcash, hinv, hs a x y hx hy⟩

namespace SingleBatchProver

variable {D : Type} [DecidableEq D] [CommitmentScheme D] [StdSort]
  {publicInputs : BatchProofPublicInputs D} {witness : BatchProofWitness D} {proof : BatchProof D}

/-! ## The batch -/

/-- The orders of a proved batch have distinct ids. -/
theorem ids_nodup_of_bound {leaves : List D} {accounting : CompleteInputAccounting D}
    (hleaves : bindLeaves witness = .ok leaves) (hbind : bindAccounting witness leaves = .ok accounting)
    (hplain : Plaintext publicInputs witness (.new leaves) accounting) :
    (witness.batch.orders.map (·.id)).Nodup := by
  obtain ⟨horders, -, rfl⟩ := bindLeaves_eq_ok.mp hleaves
  have hlen : (witness.preimages.map (commitOrder (D := D))).length = witness.batch.len := by
    rw [List.length_map, Batch.len, ← horders, List.length_map]
  rw [← (bindAccounting_eq_ok hlen hbind).1]
  exact (verifyCompleteInputAccounting_eq_ok.mp hplain.accounting).ids_nodup

/-- The orders of a proved batch have quantities, since the two disposition rules agree on them. -/
theorem qty_pos_of_bound {leaves : List D} {accounting : CompleteInputAccounting D}
    (hleaves : bindLeaves witness = .ok leaves) (hbind : bindAccounting witness leaves = .ok accounting)
    (hplain : Plaintext publicInputs witness (.new leaves) accounting)
    (hchecked : SynthesisChecked publicInputs witness (.new leaves) accounting) :
    ∀ o ∈ witness.batch.orders, 0 < (o.qty.raw : ℕ) := by
  have hnd := ids_nodup_of_bound hleaves hbind hplain
  obtain ⟨horders, -, rfl⟩ := bindLeaves_eq_ok.mp hleaves
  have hlen : witness.preimages.length = witness.batch.orders.length := by
    rw [← horders, List.length_map]
  obtain ⟨hids, -⟩ := bindAccounting_eq_ok (by rw [List.length_map, Batch.len, hlen]) hbind
  have haccepted := verifyCompleteInputAccounting_eq_ok.mp hplain.accounting
  intro o ho
  obtain ⟨idx, hidx, rfl⟩ := List.getElem_of_mem ho
  have hrec : idx < accounting.records.length := by
    have := congrArg List.length hids
    rw [List.length_map, List.length_map] at this
    omega
  -- the record at the order's position is about the order
  have hid : accounting.records[idx].orderId = witness.batch.orders[idx].id := by
    have := congrArg (fun l => l[idx]?) hids
    simpa [hidx, hrec] using this
  obtain ⟨-, alloc, -, -, halloc, hdisp⟩ := hchecked.accounting.2.2
    ((accounting.records[idx], witness.preimages[idx]), idx)
    (List.mem_zipIdx_iff_getElem?.mpr (by simp [hrec, hlen, hidx]))
  obtain ⟨o', ho', hdisp'⟩ := (haccepted.valid _ (List.getElem_mem hrec)).disposition
  rw [hid, find_orderMap hnd ho] at ho'
  obtain rfl := Option.some.inj ho'
  have halloc' : witness.allocation.allocations.map (·.orderId) |>.Nodup :=
    hnd.sublist (allocateBatch_sublist (verifyTransition_iff.mp hplain.transition).2.1)
  rw [allocatedTo_eq halloc' halloc, hdisp] at hdisp'
  exact qty_ne_zero_of_disposition hdisp'.symm

omit [DecidableEq D] in
/-- The instrument is the only field of an order the constraints compare with the batch. -/
theorem instrument_of_asserts {scalars : List U64} {merkleTree : MerkleTree D}
    {accounting : CompleteInputAccounting D}
    (h : SynthesisAsserts scalars publicInputs witness merkleTree accounting) :
    ∀ o ∈ witness.batch.orders, o.instrument = witness.batch.instrument := by
  intro o ho
  obtain ⟨idx, hidx, rfl⟩ := List.getElem_of_mem ho
  have := (h.orders (witness.batch.orders[idx], idx)
    (List.mem_zipIdx_iff_getElem?.mpr (List.getElem?_eq_getElem hidx))).1
  exact InstrumentId.ext this

/-- **Proved batches.** A proved batch is one that `create` accepts exactly when all its prices are
positive and all its sides are valid; everything else `create` checks follows from the proof. -/
theorem prove_create_iff (h : prove publicInputs witness = .ok proof) :
    (∃ batch, Batch.create witness.batch.batchId witness.batch.instrument witness.batch.orders =
      .ok batch) ↔
    ∀ o ∈ witness.batch.orders, o.price.raw ≠ 0 ∧ (o.side = .buy ∨ o.side = .sell) := by
  obtain ⟨leaves, accounting, hleaves, -, hbind, hplain, hchecked, hasserts⟩ :=
    prove_isOk_iff.mp ⟨proof, h⟩
  constructor
  · rintro ⟨batch, hb⟩ o ho
    have ha := (Batch.create_eq_ok.mp hb).1.order o ho
    refine ⟨fun hz => ?_, ha.side⟩
    have := ha.price_pos
    rw [hz] at this
    exact absurd this (lt_irrefl 0)
  · intro hall
    refine ⟨_, Batch.create_eq_ok.mpr ⟨⟨fun o ho => ?_, ids_nodup_of_bound hleaves hbind hplain⟩, rfl⟩⟩
    obtain ⟨hprice, hside⟩ := hall o ho
    exact ⟨instrument_of_asserts hasserts o ho, hside, Nat.pos_of_ne_zero fun hz => hprice (Fin.ext hz),
      qty_pos_of_bound hleaves hbind hplain hchecked o ho⟩

/-! ## The oracle statement -/

/-- **Oracle statements.** A snapshot and a policy that are proved are admissible exactly when the batch
crossed, or the validator admits the snapshot for a batch without a price; without a price no check of
the prover reads them. -/
theorem prove_oracle_iff (h : prove publicInputs witness = .ok proof)
    {snapshot : ReferencePriceSnapshot} {policy : ReferencePricePolicy}
    (hs : witness.oracleSnapshot = some snapshot) (hp : witness.oraclePolicy = some policy) :
    (∃ outcome, determineClearingOutcome witness.batch = .ok outcome ∧
      SnapshotAdmissible policy snapshot witness.batch.instrument witness.batchCutoffNanos
        outcome.clearingPrice) ↔
    0 < publicInputs.clearingPrice ∨
      validateReferencePriceSnapshot policy snapshot witness.batch.instrument
        witness.batchCutoffNanos none = .ok () := by
  obtain ⟨leaves, accounting, -, -, -, hplain, hchecked, -⟩ := prove_isOk_iff.mp ⟨proof, h⟩
  have houtcome : determineClearingOutcome witness.batch =
      .ok ⟨clearingPriceOf publicInputs, ⟨publicInputs.clearedVolume⟩⟩ :=
    (verifyTransition_iff.mp hplain.transition).1
  rw [houtcome]
  by_cases hpos : 0 < publicInputs.clearingPrice
  · have hprice : clearingPriceOf publicInputs = some ⟨publicInputs.clearingPrice⟩ := if_pos hpos
    refine iff_of_true ⟨_, rfl, ?_⟩ (.inl hpos)
    show SnapshotAdmissible _ _ _ _ (clearingPriceOf publicInputs)
    rw [hprice]
    exact hchecked.oracle snapshot policy _ hs hp hprice
  · have hprice : clearingPriceOf publicInputs = none := if_neg hpos
    rw [or_iff_right hpos, validateReferencePriceSnapshot_eq_ok, hprice]
    constructor
    · rintro ⟨outcome, ho, hadm⟩
      obtain rfl := Except.ok.inj ho
      exact hadm
    · intro hadm
      exact ⟨_, rfl, hadm⟩

/-! ## The published statement -/

/-- Witnesses of the same inputs; what the operator computes from them may differ. -/
structure SameInputs (witness witness' : BatchProofWitness D) : Prop where
  preState : witness'.preState = witness.preState
  batch : witness'.batch = witness.batch
  preimages : witness'.preimages = witness.preimages
  batchCutoffNanos : witness'.batchCutoffNanos = witness.batchCutoffNanos
  oracleSnapshot : witness'.oracleSnapshot = witness.oracleSnapshot
  oraclePolicy : witness'.oraclePolicy = witness.oraclePolicy

section TwoRuns

variable {publicInputs' : BatchProofPublicInputs D} {witness' : BatchProofWitness D}
  {proof' : BatchProof D}

/-- Two proofs of the same inputs publish the same statement up to the root of the post-state, and
their post-states agree in what the checker compares. -/
theorem prove_agree (h : prove publicInputs witness = .ok proof)
    (h' : prove publicInputs' witness' = .ok proof') (hi : SameInputs witness witness') :
    publicInputs' = { publicInputs with postStateRoot := publicInputs'.postStateRoot } ∧
      witness.postState.Matches witness.batch.instrument witness'.postState := by
  obtain ⟨leaves, accounting, hleaves, hheader, -, hplain, -⟩ := prove_isOk_iff.mp ⟨proof, h⟩
  obtain ⟨leaves', accounting', hleaves', hheader', -, hplain', -⟩ := prove_isOk_iff.mp ⟨proof', h'⟩
  obtain ⟨-, -, rfl⟩ := bindLeaves_eq_ok.mp hleaves
  obtain ⟨-, -, rfl⟩ := bindLeaves_eq_ok.mp hleaves'
  have htrans := hplain'.transition
  rw [hi.preState, hi.batch] at htrans
  obtain ⟨houtcome, hmatches⟩ := verifyTransition_agree hplain.transition htrans
  refine ⟨?_, hmatches⟩
  obtain ⟨hprice, hvolume⟩ := ClearingOutcome.mk.inj houtcome
  have hprice' : publicInputs'.clearingPrice = publicInputs.clearingPrice := by
    rw [← clearingPriceOf_getD publicInputs', ← clearingPriceOf_getD publicInputs, hprice]
  have hheader'' : publicInputs'.batchHeaderHash = publicInputs.batchHeaderHash := by
    rw [← hheader, ← hheader', hi.batch, hi.preimages, hi.batchCutoffNanos]
  have hpre : publicInputs'.preStateRoot = publicInputs.preStateRoot := by
    rw [hplain'.preRoot, hplain.preRoot, hi.preState, hi.batch]
  have horacle : publicInputs'.oracleSnapshotHash = publicInputs.oracleSnapshotHash := by
    rw [hplain'.oracle, hplain.oracle, hi.oracleSnapshot, hi.oraclePolicy]
  cases publicInputs
  cases publicInputs'
  simp only [BatchProofPublicInputs.mk.injEq]
  exact ⟨hpre, trivial, hheader'', horacle, hprice', congrArg Qty.raw hvolume⟩

/-- **One statement per input.** Two proofs of the same inputs publish the same statement if their
post-states have the same salts; under an ideal hash, only then. -/
theorem prove_unique_iff (h : prove publicInputs witness = .ok proof)
    (h' : prove publicInputs' witness' = .ok proof') (hi : SameInputs witness witness') :
    (witness.postState.SameSalts witness'.postState → publicInputs' = publicInputs) ∧
    (IdealHash D →
      (publicInputs' = publicInputs ↔ witness.postState.SameSalts witness'.postState)) := by
  obtain ⟨heq, hmatches⟩ := prove_agree h h' hi
  obtain ⟨_, _, hplain⟩ := prove_plaintext h
  obtain ⟨_, _, hplain'⟩ := prove_plaintext h'
  have hroot' := hplain'.postRoot
  rw [hi.batch] at hroot'
  have hsalts : witness.postState.SameSalts witness'.postState → publicInputs' = publicInputs := by
    intro hsalts
    have hroot : publicInputs'.postStateRoot = publicInputs.postStateRoot := by
      rw [hroot', hplain.postRoot, computeLedgerRoot_eq, computeLedgerRoot_eq, ledgerLeaves,
        ledgerLeaves, preimages_of_sameCommitted (hmatches.sameCommitted hsalts)]
    rw [heq, hroot]
  refine ⟨hsalts, fun hash => ⟨?_, hsalts⟩⟩
  rintro rfl
  have hroots := hplain.postRoot.symm.trans hroot'
  have hsame := sameCommitted_of_preimages (computeLedgerRoot_inj hash hroots)
  exact fun a x y hx hy => (hsame.balances a x y hx hy).2.2

end TwoRuns

end SingleBatchProver

/-- The result of a batch in which nothing trades. -/
def restingResult (batch : Batch) (post : Ledger) : BatchExecutionResult :=
  ⟨⟨none, .zero⟩, zeroAllocation batch, [], post⟩

/-- The statement with an oracle published. -/
def BatchProofPublicInputs.withOracle {D : Type} [CommitmentScheme D]
    (publicInputs : BatchProofPublicInputs D) (snapshot : Option ReferencePriceSnapshot)
    (policy : Option ReferencePricePolicy) : BatchProofPublicInputs D :=
  { publicInputs with oracleSnapshotHash := computeOracleSnapshotCommitment snapshot policy }

/-- The witness with an oracle. -/
def BatchProofWitness.withOracle {D : Type} (witness : BatchProofWitness D)
    (snapshot : Option ReferencePriceSnapshot) (policy : Option ReferencePricePolicy) :
    BatchProofWitness D :=
  { witness with oracleSnapshot := snapshot, oraclePolicy := policy }

/-- A batch in which nothing trades is proved, whatever the scheme and the oracle are. -/
theorem prove_resting (D : Type) [DecidableEq D] [CommitmentScheme D] [StdSort] {batch : Batch}
    {ledger post : Ledger} (nonce : ℕ → Bytes32) (cutoff : U64) (snapshot : Option ReferencePriceSnapshot)
    (policy : Option ReferencePricePolicy) (hlen : batch.len < 2 ^ 32)
    (hnd : (batch.orders.map (·.id)).Nodup) (hqty : ∀ o ∈ batch.orders, 0 < (o.qty.raw : ℕ))
    (hver : verifyTransition ledger batch (restingResult batch post) = .ok ())
    (horders : ∀ p ∈ batch.orders.zipIdx, OrderAsserts batch.instrument.raw p.2 p.1)
    (hcandidates : ∀ price ∈ candidatePricesFromOrders batch.orders, ∃ d s,
      demandFromOrders batch.orders price = .ok d ∧ supplyFromOrders batch.orders price = .ok s ∧
        min d.raw s.raw ≤ 0) :
    ∃ proof, SingleBatchProver.prove
      ((Cli.publicInputs (D := D) ledger batch (Cli.preimagesWith nonce batch) cutoff
        (restingResult batch post)).withOracle snapshot policy)
      ((Cli.witness ledger batch (Cli.preimagesWith nonce batch) cutoff
        (restingResult batch post)).withOracle snapshot policy) = .ok proof := by
  have hpre : (Cli.preimagesWith nonce batch).map (·.order) = batch.orders := by
    rw [Cli.preimagesWith, List.map_map]
    exact List.zipIdx_map_fst 0 batch.orders
  have hentries : ∀ o ∈ batch.orders, ∃ a : Qty, (a.raw : ℕ) ≤ o.qty.raw ∧
      (zeroAllocation batch).allocations.find? (·.orderId = o.id) = some (.of o a) := fun o ho =>
    ⟨.zero, Nat.zero_le _, find?_orderId hnd (fun _ => .zero) ho⟩
  have hcli : SingleBatchProver.Built
      (Cli.publicInputs (D := D) ledger batch (Cli.preimagesWith nonce batch) cutoff
        (restingResult batch post))
      (Cli.witness ledger batch (Cli.preimagesWith nonce batch) cutoff
        (restingResult batch post)) :=
    SingleBatchProver.built_cli hpre hlen hnd hqty hentries hver
  have hbuilt : SingleBatchProver.Built
      ((Cli.publicInputs (D := D) ledger batch (Cli.preimagesWith nonce batch) cutoff
        (restingResult batch post)).withOracle snapshot policy)
      ((Cli.witness ledger batch (Cli.preimagesWith nonce batch) cutoff
        (restingResult batch post)).withOracle snapshot policy) := { hcli with oracle := rfl }
  refine hbuilt.prove_iff.mpr
    (SingleBatchProver.marketHolds_resting rfl rfl horders hcandidates fun e he => ?_)
  obtain ⟨post', hrun, -, -, hm⟩ := verifySettlement_ok (verifyTransition_iff.mp hver).2.2.2
  obtain rfl := Except.ok.inj hrun
  exact hm.account e.1 e.2 (SortedMap.mem_entries.mp he)

/-- Two resting buys are proved with any oracle. -/
theorem prove_restingBatch (snapshot : Option ReferencePriceSnapshot)
    (policy : Option ReferencePricePolicy) :
    ∃ proof, @SingleBatchProver.prove Commitment _ _ .stable
      ((Cli.publicInputs exampleLedger restingBatch (Cli.derivePreimages restingBatch 0) 1700000000
        (restingResult restingBatch exampleLedger)).withOracle snapshot policy)
      ((Cli.witness exampleLedger restingBatch (Cli.derivePreimages restingBatch 0) 1700000000
        (restingResult restingBatch exampleLedger)).withOracle snapshot policy) = .ok proof := by
  have hcandidates : ∀ price ∈ @candidatePricesFromOrders .stable restingBatch.orders, ∃ d s,
      demandFromOrders restingBatch.orders price = .ok d ∧
        supplyFromOrders restingBatch.orders price = .ok s ∧ min d.raw s.raw ≤ 0 := by
    have hprices : @candidatePricesFromOrders .stable restingBatch.orders = [⟨90⟩] := by decide +kernel
    intro price hprice
    rw [hprices, List.mem_singleton] at hprice
    subst hprice
    exact ⟨⟨20⟩, ⟨0⟩, by decide +kernel, by decide +kernel, le_rfl⟩
  exact @prove_resting Commitment _ _ .stable restingBatch exampleLedger exampleLedger _ 1700000000
    snapshot policy
    (by decide) (by decide) (by decide) (by decide +kernel) (by decide +kernel) hcandidates

theorem prove_create_example : ∃ batch, @Batch.create .stable ⟨1⟩ ⟨7⟩ restingBatch.orders = .ok batch := by
  obtain ⟨proof, hproof⟩ := prove_restingBatch none none
  exact (@SingleBatchProver.prove_create_iff Commitment _ _ .stable _ _ _ hproof).mpr (by decide)

/-- A single sell at price zero. -/
def zeroPriceBatch : Batch where
  batchId := ⟨1⟩
  instrument := ⟨7⟩
  orders := [exampleOrder 1 1 .sell 0 10 0]

/-- **A zero price is proved.** The positivity gadget accepts the value zero. -/
theorem prove_accepts_zero_price :
    (∃ proof, @SingleBatchProver.prove Commitment _ _ .stable
      (Cli.publicInputs exampleLedger zeroPriceBatch (Cli.derivePreimages zeroPriceBatch 0) 1700000000
        (restingResult zeroPriceBatch exampleLedger))
      (Cli.witness exampleLedger zeroPriceBatch (Cli.derivePreimages zeroPriceBatch 0) 1700000000
        (restingResult zeroPriceBatch exampleLedger)) = .ok proof) ∧
    @Batch.create .stable ⟨1⟩ ⟨7⟩ zeroPriceBatch.orders =
      .error (.primitive .zeroValue "Price") := by
  have hcandidates : ∀ price ∈ @candidatePricesFromOrders .stable zeroPriceBatch.orders, ∃ d s,
      demandFromOrders zeroPriceBatch.orders price = .ok d ∧
        supplyFromOrders zeroPriceBatch.orders price = .ok s ∧ min d.raw s.raw ≤ 0 := by
    have hprices : @candidatePricesFromOrders .stable zeroPriceBatch.orders = [⟨0⟩] := by decide +kernel
    intro price hprice
    rw [hprices, List.mem_singleton] at hprice
    subst hprice
    exact ⟨⟨0⟩, ⟨10⟩, by decide +kernel, by decide +kernel, le_rfl⟩
  refine ⟨?_, by decide +kernel⟩
  exact @prove_resting Commitment _ _ .stable zeroPriceBatch exampleLedger exampleLedger _ 1700000000 none
    none (by decide)
    (by decide) (by decide) (by decide +kernel) (by decide +kernel) hcandidates

/-! ## Oracles of batches that do not cross -/

/-- A reference price of 100 for instrument 7, published at `timestamp`. -/
def exampleSnapshot (timestamp : U64) : ReferencePriceSnapshot := ⟨7, ⟨7⟩, ⟨100⟩, timestamp, 1⟩

/-- At most 1000 nanoseconds old, and at most 10 ticks away. -/
def examplePolicy : ReferencePricePolicy := ⟨1000, 10⟩

theorem prove_oracle_example : ∃ outcome,
    @determineClearingOutcome .stable restingBatch = .ok outcome ∧
      SnapshotAdmissible examplePolicy (exampleSnapshot 1699999500) ⟨7⟩ 1700000000
        outcome.clearingPrice := by
  obtain ⟨proof, hproof⟩ := prove_restingBatch (some (exampleSnapshot 1699999500)) (some examplePolicy)
  exact (@SingleBatchProver.prove_oracle_iff Commitment _ _ .stable _ _ _ hproof _ _ rfl rfl).mpr
    (.inr (by decide))

/-- **A stale snapshot is proved.** It is a second older than the policy allows, and nothing trades. -/
theorem prove_accepts_stale_snapshot :
    (∃ proof, @SingleBatchProver.prove Commitment _ _ .stable
      ((Cli.publicInputs exampleLedger restingBatch (Cli.derivePreimages restingBatch 0) 1700000000
        (restingResult restingBatch exampleLedger)).withOracle (some (exampleSnapshot 699999000))
        (some examplePolicy))
      ((Cli.witness exampleLedger restingBatch (Cli.derivePreimages restingBatch 0) 1700000000
        (restingResult restingBatch exampleLedger)).withOracle (some (exampleSnapshot 699999000))
        (some examplePolicy)) = .ok proof) ∧
    ¬ ∃ outcome, @determineClearingOutcome .stable restingBatch = .ok outcome ∧
      SnapshotAdmissible examplePolicy (exampleSnapshot 699999000) ⟨7⟩ 1700000000
        outcome.clearingPrice := by
  refine ⟨prove_restingBatch _ _, ?_⟩
  rintro ⟨outcome, -, hadm⟩
  have hfresh := hadm.fresh
  revert hfresh
  decide

/-! ## Post-states with other salts -/

/-- An account with cash and the given salt. -/
def saltedLedger (salt : UInt8) : Ledger :=
  Ledger.empty.insertAccount { exampleAccount 1 2000 [] with commitmentSalt := .fill salt }

/-- A batch without orders is proved with any salt the checker lets through. -/
theorem prove_quietBatch (D : Type) [DecidableEq D] [CommitmentScheme D] {salt : UInt8}
    (hver : @verifyTransition .stable (saltedLedger 1) quietBatch
      (restingResult quietBatch (saltedLedger salt)) = .ok ()) :
    ∃ proof, @SingleBatchProver.prove D _ _ .stable
      (Cli.publicInputs (saltedLedger 1) quietBatch (Cli.derivePreimages quietBatch 0) 1700000000
        (restingResult quietBatch (saltedLedger salt)))
      (Cli.witness (saltedLedger 1) quietBatch (Cli.derivePreimages quietBatch 0) 1700000000
        (restingResult quietBatch (saltedLedger salt))) = .ok proof := by
  have hnone : ∀ price, price ∉ @candidatePricesFromOrders .stable quietBatch.orders := by
    intro price hprice
    rw [show @candidatePricesFromOrders .stable quietBatch.orders = [] from rfl] at hprice
    cases hprice
  exact @prove_resting D _ _ .stable quietBatch (saltedLedger 1) (saltedLedger salt) _ 1700000000 none
    none (by decide) (by decide) (by decide) hver (by decide) fun price hprice =>
      absurd hprice (hnone price)

theorem prove_unique_example :
    (Cli.publicInputs (saltedLedger 1) quietBatch (Cli.derivePreimages quietBatch 0) 1700000000
        (restingResult quietBatch (saltedLedger 2)) : BatchProofPublicInputs TermDigest) ≠
      Cli.publicInputs (saltedLedger 1) quietBatch (Cli.derivePreimages quietBatch 0) 1700000000
        (restingResult quietBatch (saltedLedger 1)) := by
  obtain ⟨proof, h⟩ := @prove_quietBatch TermDigest _ _ 1 (by decide +kernel)
  obtain ⟨proof', h'⟩ := @prove_quietBatch TermDigest _ _ 2 (by decide +kernel)
  intro heq
  have hsalts := ((@SingleBatchProver.prove_unique_iff TermDigest _ _ .stable _ _ _ _ _ _ h h'
    ⟨rfl, rfl, rfl, rfl, rfl, rfl⟩).2 TermDigest.idealHash).mp heq
  have hfill := hsalts ⟨1⟩ _ _ rfl rfl
  revert hfill
  decide

/-- **Two statements for one input.** The salt of the post-state is the operator's choice. -/
theorem prove_publishes_two_roots :
    (∃ proof, @SingleBatchProver.prove Commitment _ _ .stable
      (Cli.publicInputs (saltedLedger 1) quietBatch (Cli.derivePreimages quietBatch 0) 1700000000
        (restingResult quietBatch (saltedLedger 1)))
      (Cli.witness (saltedLedger 1) quietBatch (Cli.derivePreimages quietBatch 0) 1700000000
        (restingResult quietBatch (saltedLedger 1))) = .ok proof) ∧
    (∃ proof, @SingleBatchProver.prove Commitment _ _ .stable
      (Cli.publicInputs (saltedLedger 1) quietBatch (Cli.derivePreimages quietBatch 0) 1700000000
        (restingResult quietBatch (saltedLedger 2)))
      (Cli.witness (saltedLedger 1) quietBatch (Cli.derivePreimages quietBatch 0) 1700000000
        (restingResult quietBatch (saltedLedger 2))) = .ok proof) ∧
    (computeLedgerRoot (saltedLedger 2) ⟨7⟩ : Commitment) ≠ computeLedgerRoot (saltedLedger 1) ⟨7⟩ :=
  ⟨prove_quietBatch Commitment (by decide +kernel), prove_quietBatch Commitment (by decide +kernel),
    by decide +kernel⟩

end FairCross
