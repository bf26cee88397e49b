import FairCross.Proof.Prover

/-!
# What the prover accepts

`prove_eq_ok` lists the checks a successful proof has passed, one by one.
-/

namespace FairCross

namespace SingleBatchProver

variable {D : Type} [DecidableEq D] [CommitmentScheme D] [StdSort]
  {publicInputs : BatchProofPublicInputs D} {witness : BatchProofWitness D}

/-! ## Binding -/

omit [DecidableEq D] [StdSort] in
theorem bindLeaves_eq_ok {leaves : List D} : bindLeaves witness = .ok leaves ↔
    witness.preimages.map (·.order) = witness.batch.orders ∧ witness.batch.len < 2 ^ 32 ∧
      leaves = witness.preimages.map commitOrder := by
  have hzip : ∀ (ps : List SaltedOrderPreimage) (os : List Order), ps.length = os.length →
      ((∀ p ∈ ps.zip os, p.1.order = p.2) ↔ ps.map (·.order) = os) := by
    intro ps
    induction ps with
    | nil =>
      intro os hlen
      simp [List.eq_nil_of_length_eq_zero hlen.symm]
    | cons p ps ih =>
      rintro (_ | ⟨o, os⟩) hlen
      · cases hlen
      · have := ih os (Nat.succ.inj hlen)
        rw [List.zip_cons_cons, List.forall_mem_cons, this, List.map_cons, List.cons.injEq]
  have hloop : (witness.preimages.zip witness.batch.orders).forM (fun p =>
      if p.1.order ≠ p.2 then failure "InputBindingFailed: preimage order does not match batch leaf"
      else pure ()) = .ok () ↔
        ∀ p ∈ witness.preimages.zip witness.batch.orders, p.1.order = p.2 := by
    rw [Result.forM_eq_ok]
    refine forall₂_congr fun p _ => ?_
    rw [Result.ite_failure_eq_ok, not_not, Result.pure_eq_ok, and_iff_left rfl]
  unfold bindLeaves
  rw [Result.ite_failure_eq_ok, Result.ite_failure_eq_ok, Result.bind_eq_ok, not_not, not_lt]
  constructor
  · rintro ⟨hlen, hlt, ⟨⟩, hall, he⟩
    exact ⟨(hzip _ _ hlen).mp (hloop.mp hall), by omega, (Result.pure_eq_ok.mp he).symm⟩
  · rintro ⟨horders, hlt, rfl⟩
    have hlen : witness.preimages.length = witness.batch.len := by
      rw [Batch.len, ← horders, List.length_map]
    exact ⟨hlen, by omega, (), hloop.mpr ((hzip _ _ hlen).mpr horders), rfl⟩

omit [DecidableEq D] [CommitmentScheme D] [StdSort] in
theorem length_placeRecord {n : ℕ} {records : List (OrderAccountingRecord D)}
    {slots slots' : List (Option (OrderAccountingRecord D))}
    (h : records.foldlM (placeRecord n) slots = .ok slots') : slots'.length = slots.length := by
  induction records generalizing slots with
  | nil => exact congrArg List.length (Except.ok.inj h).symm
  | cons r records ih =>
    rw [List.foldlM_cons, Result.bind_eq_ok] at h
    obtain ⟨s, hs, hrest⟩ := h
    simp only [placeRecord, Result.ite_failure_eq_ok, Except.ok.injEq] at hs
    rw [ih hrest, ← hs.2, List.length_set]

omit [CommitmentScheme D] [StdSort] in
/-- The records in the slots carry the ids of the orders there, and the leaves. -/
theorem checkSlots_eq_ok {slots : List (Option (OrderAccountingRecord D))} {orders : List Order}
    {leaves : List D} {records : List (OrderAccountingRecord D)}
    (h1 : slots.length = orders.length) (h2 : leaves.length = orders.length) :
    checkSlots slots orders leaves = .ok records ↔ slots = records.map some ∧
      records.map (·.orderId) = orders.map (·.id) ∧ records.map (·.commitment) = leaves := by
  induction slots generalizing orders leaves records with
  | nil =>
    obtain rfl := List.eq_nil_of_length_eq_zero h1.symm
    obtain rfl := List.eq_nil_of_length_eq_zero h2
    cases records <;> simp [checkSlots, pure, Except.pure]
  | cons slot slots ih =>
    rcases orders with _ | ⟨order, orders⟩
    · cases h1
    rcases leaves with _ | ⟨leaf, leaves⟩
    · cases h2
    have hslot : ∀ r, checkSlot slot order leaf = .ok r ↔
        slot = some r ∧ r.orderId = order.id ∧ r.commitment = leaf := by
      intro r
      cases slot with
      | none => simp [checkSlot]
      | some record =>
        simp only [checkSlot, Result.ite_failure_eq_ok, Result.pure_eq_ok, ne_eq, not_not,
          Option.some.injEq]
        constructor
        · rintro ⟨h3, h4, rfl⟩
          exact ⟨rfl, h3, h4⟩
        · rintro ⟨rfl, h3, h4⟩
          exact ⟨h3, h4, rfl⟩
    have hrest : ∀ rs, checkSlots slots orders leaves = .ok rs ↔ slots = rs.map some ∧
        rs.map (·.orderId) = orders.map (·.id) ∧ rs.map (·.commitment) = leaves :=
      fun rs => ih (Nat.succ.inj h1) (Nat.succ.inj h2)
    simp only [checkSlots, Result.bind_eq_ok, Result.pure_eq_ok, hslot, hrest]
    constructor
    · rintro ⟨r, ⟨rfl, h3, h4⟩, rs, ⟨rfl, h5, h6⟩, rfl⟩
      simp [h3, h4, h5, h6]
    · rcases records with _ | ⟨r, rs⟩
      · simp
      · rintro ⟨h3, h4, h5⟩
        simp only [List.map_cons, List.cons.injEq] at h3 h4 h5
        exact ⟨r, ⟨h3.1, h4.1, h5.1⟩, rs, ⟨h3.2, h4.2, h5.2⟩, rfl⟩

omit [CommitmentScheme D] [StdSort] in
/-- What a bound manifest looks like: one record per order, in order. -/
theorem bindAccounting_eq_ok {leaves : List D} {accounting : CompleteInputAccounting D}
    (hlen : leaves.length = witness.batch.len)
    (h : bindAccounting witness leaves = .ok accounting) :
    accounting.records.map (·.orderId) = witness.batch.orders.map (·.id) ∧
      accounting.records.map (·.commitment) = leaves := by
  simp only [bindAccounting, Result.ite_failure_eq_ok, Result.bind_eq_ok, Result.pure_eq_ok] at h
  obtain ⟨-, slots, hslots, records, hrecords, rfl⟩ := h
  have hslotsLen := length_placeRecord hslots
  rw [List.length_replicate] at hslotsLen
  exact ((checkSlots_eq_ok hslotsLen hlen).mp hrecords).2

/-! ## Acceptance -/

/-- The plaintext checks that pass. -/
structure Plaintext (publicInputs : BatchProofPublicInputs D) (witness : BatchProofWitness D)
    (merkleTree : MerkleTree D) (accounting : CompleteInputAccounting D) : Prop where
  transition : verifyTransition witness.preState witness.batch (executionOf publicInputs witness) =
    .ok ()
  accounting : verifyCompleteInputAccounting witness.batch merkleTree accounting witness.allocation =
    .ok ()
  preRoot : publicInputs.preStateRoot = computeLedgerRoot witness.preState witness.batch.instrument
  postRoot : publicInputs.postStateRoot =
    computeLedgerRoot witness.postState witness.batch.instrument
  oracle : publicInputs.oracleSnapshotHash =
    computeOracleSnapshotCommitment witness.oracleSnapshot witness.oraclePolicy

theorem checkPlaintext_eq_ok {merkleTree : MerkleTree D} {accounting : CompleteInputAccounting D} :
    checkPlaintext publicInputs witness merkleTree accounting = .ok () ↔
      Plaintext publicInputs witness merkleTree accounting := by
  simp only [checkPlaintext, Result.bind_eq_ok, Result.orFail_eq_ok, Result.ite_failure_eq_ok,
    ne_eq, not_not, Result.pure_eq_ok, and_true]
  constructor
  · rintro ⟨⟨⟩, h1, ⟨⟩, h2, h3, h4, h5⟩
    exact ⟨h1, h2, h3, h4, h5⟩
  · intro h
    exact ⟨(), h.transition, (), h.accounting, h.preRoot, h.postRoot, h.oracle⟩

/-- **Acceptance.** The inputs are bound, the plaintext checks pass, and the constraint system of all
subrelations is satisfied by their scalars. -/
theorem prove_eq_ok {proof : BatchProof D} : prove publicInputs witness = .ok proof ↔
    ∃ leaves accounting cs fullWitness,
      bindLeaves witness = .ok leaves ∧
      headerHash witness.batch witness.batchCutoffNanos (MerkleTree.new leaves).root =
        publicInputs.batchHeaderHash ∧
      bindAccounting witness leaves = .ok accounting ∧
      Plaintext publicInputs witness (.new leaves) accounting ∧
      synthesizeAll (subrelations publicInputs witness (.new leaves) accounting) .new =
        .ok (cs, fullWitness) ∧
      cs.isSatisfied (publicScalars publicInputs witness (.new leaves)) fullWitness = .ok () ∧
      { proofVersion := 1, publicInputs,
        proofBytes := certificate cs.constraints.length 5 : BatchProof D } = proof := by
  simp only [prove, proveBound, Result.bind_eq_ok, Result.ite_failure_eq_ok, Result.orFail_eq_ok,
    ne_eq, not_not, Result.pure_eq_ok]
  constructor
  · rintro ⟨leaves, h1, h2, accounting, h3, ⟨⟩, h4, ⟨cs, w⟩, h5, ⟨⟩, h6, h7⟩
    exact ⟨leaves, accounting, cs, w, h1, h2, h3, checkPlaintext_eq_ok.mp h4, h5, h6, h7⟩
  · rintro ⟨leaves, accounting, cs, w, h1, h2, h3, h4, h5, h6, h7⟩
    exact ⟨leaves, h1, h2, accounting, h3, (), checkPlaintext_eq_ok.mpr h4, (cs, w), h5, (), h6, h7⟩

/-- The transition a proof is about was accepted by the checker, between the published roots. -/
theorem prove_plaintext {proof : BatchProof D} (h : prove publicInputs witness = .ok proof) :
    ∃ merkleTree accounting, Plaintext publicInputs witness merkleTree accounting := by
  obtain ⟨leaves, accounting, -, -, -, -, -, h, -⟩ := prove_eq_ok.mp h
  exact ⟨_, _, h⟩

end SingleBatchProver

end FairCross
