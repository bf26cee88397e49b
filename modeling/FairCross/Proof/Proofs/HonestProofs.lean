import FairCross.Cli.Prove
import FairCross.Engine.Proofs.AccountingProofs
import FairCross.Engine.Proofs.ConservationProofs
import FairCross.Proof.Proofs.SynthesisProofs

/-!
# Inputs built from a batch

A witness whose preimages stand in batch order and whose manifest is the builder's, with the statement
recomputed from it. Binding and accounting succeed on it whatever the scheme is, so whether it is
proved depends on the market alone.
-/

namespace FairCross

/-! ## The two disposition rules -/

/-- The map has the quantity of the only allocation of an order. -/
theorem allocatedTo_eq {allocation : BatchAllocation} {id : OrderId} {alloc : OrderAllocation}
    (hnd : (allocation.allocations.map (·.orderId)).Nodup)
    (h : allocation.allocations.find? (·.orderId = id) = some alloc) :
    allocatedTo (allocMap allocation) id = alloc.allocatedQty := by
  have hid : alloc.orderId = id := by simpa using List.find?_some h
  have hraw : (allocation.allocations.map fun a => a.orderId.raw).Nodup := by
    have := List.Nodup.map (fun _ _ h => OrderId.ext h) hnd (f := OrderId.raw)
    rwa [List.map_map] at this
  have hfind := SortedMap.find_foldl_insert (fun a : OrderAllocation => a.orderId.raw)
    (fun a => a.allocatedQty) .empty hraw (List.mem_of_find?_eq_some h)
  rw [hid] at hfind
  unfold allocatedTo allocMap
  rw [hfind]
  rfl

/-- The two rules contradict each other on an order without quantity. -/
theorem qty_ne_zero_of_disposition {qty : Qty} {alloc : OrderAllocation}
    (h : OrderDisposition.ofAllocated qty alloc.allocatedQty = expectedDisposition alloc) :
    0 < (qty.raw : ℕ) := by
  by_contra hq
  have hz : qty.raw = 0 := Fin.ext (by simpa using hq)
  unfold OrderDisposition.ofAllocated expectedDisposition at h
  by_cases ha : alloc.allocatedQty.raw = 0
  · have he : alloc.allocatedQty = qty := Qty.ext_val (by rw [ha, hz])
    rw [if_pos he, if_pos ha] at h
    cases h
  · have hne : alloc.allocatedQty ≠ qty := by
      rintro rfl
      exact ha hz
    have hlt : ¬ (!alloc.allocatedQty.isZero ∧ alloc.allocatedQty.raw < qty.raw) := by
      rintro ⟨-, hlt⟩
      rw [hz] at hlt
      exact absurd hlt (Fin.not_lt_zero _)
    rw [if_neg hne, if_neg hlt, if_neg ha] at h
    split_ifs at h
    · cases h
    · cases h

/-- They agree on an order with a quantity that receives no more than it. -/
theorem ofAllocated_eq_expected {o : Order} {a : Qty} (hpos : 0 < (o.qty.raw : ℕ))
    (hle : (a.raw : ℕ) ≤ o.qty.raw) :
    OrderDisposition.ofAllocated o.qty a = expectedDisposition (.of o a) := by
  unfold OrderDisposition.ofAllocated expectedDisposition
  show _ = if a.raw = 0 then _ else if a = o.qty then _ else _
  by_cases ha : a.raw = 0
  · have hne : a ≠ o.qty := by
      rintro rfl
      rw [ha] at hpos
      exact absurd hpos (lt_irrefl 0)
    have hz : a.isZero = true := by
      rw [Qty.isZero_iff, ha]
      rfl
    simp [hne, hz, ha]
  · by_cases he : a = o.qty
    · simp [he, he ▸ ha]
      rfl
    · have hz : a.isZero = false := by
        rw [Bool.eq_false_iff, ne_eq, Qty.isZero_iff]
        exact fun h0 => ha (Fin.ext h0)
      have hlt : a.raw < o.qty.raw := by
        refine lt_of_le_of_ne hle fun h => he (Qty.ext_val (congrArg Fin.val h))
      rw [if_neg he, if_pos (by simp [hz, hlt]), if_neg ha, if_neg he]
      show _ = OrderDisposition.partiallyExecuted a ⟨if o.qty.raw > a.raw then _ else 0⟩
      rw [if_pos hlt]
      rfl

namespace SingleBatchProver

variable {D : Type} [DecidableEq D] [CommitmentScheme D] [StdSort]
  {publicInputs : BatchProofPublicInputs D} {witness : BatchProofWitness D}

/-! ## Binding the builder's manifest -/

omit [CommitmentScheme D] [DecidableEq D] [StdSort] in
/-- Records that stand at their leaf indices go into the slots one after another. -/
theorem foldlM_placeRecord {n : ℕ} (rest before : List (OrderAccountingRecord D))
    (hlen : before.length + rest.length = n)
    (hindex : ∀ i r, rest[i]? = some r → (r.leafIndex : ℕ) = before.length + i) :
    rest.foldlM (placeRecord n) (before.map some ++ List.replicate rest.length none) =
      .ok ((before ++ rest).map some) := by
  induction rest generalizing before with
  | nil => simp [pure, Except.pure]
  | cons r rest ih =>
    have hr : (r.leafIndex : ℕ) = before.length := hindex 0 r rfl
    have hstep : placeRecord n (before.map some ++ List.replicate (r :: rest).length none) r =
        .ok ((before ++ [r]).map some ++ List.replicate rest.length none) := by
      unfold placeRecord
      rw [Result.ite_failure_eq_ok]
      constructor
      · rw [hr]
        simp at hlen ⊢
        omega
      · rw [hr]
        simp [List.replicate_succ]
    have hrest := ih (before ++ [r]) (by simp at hlen ⊢; omega) fun i x hx => by
      have := hindex (i + 1) x (by simpa using hx)
      simp only [List.length_append, List.length_singleton]
      omega
    rw [List.foldlM_cons, hstep]
    show rest.foldlM (placeRecord n) _ = _
    rw [hrest]
    simp

/-- A witness that is built from its batch, and the statement recomputed from it. -/
structure Built (publicInputs : BatchProofPublicInputs D) (witness : BatchProofWitness D) : Prop where
  preimages : witness.preimages.map (·.order) = witness.batch.orders
  len_lt : witness.batch.len < 2 ^ 32
  ids_nodup : (witness.batch.orders.map (·.id)).Nodup
  qty_pos : ∀ o ∈ witness.batch.orders, 0 < (o.qty.raw : ℕ)
  entries : ∀ o ∈ witness.batch.orders, ∃ a : Qty, (a.raw : ℕ) ≤ o.qty.raw ∧
    witness.allocation.allocations.find? (·.orderId = o.id) = some (.of o a)
  accounting : witness.accounting =
    (buildCompleteInputAccounting witness.batch witness.preimages witness.allocation).2
  transition : verifyTransition witness.preState witness.batch (executionOf publicInputs witness) =
    .ok ()
  preRoot : publicInputs.preStateRoot = computeLedgerRoot witness.preState witness.batch.instrument
  postRoot : publicInputs.postStateRoot =
    computeLedgerRoot witness.postState witness.batch.instrument
  header : headerHash witness.batch witness.batchCutoffNanos
    (MerkleTree.new (witness.preimages.map commitOrder)).root = publicInputs.batchHeaderHash
  oracle : publicInputs.oracleSnapshotHash =
    computeOracleSnapshotCommitment witness.oracleSnapshot witness.oraclePolicy

namespace Built

variable (h : Built publicInputs witness)
include h

omit [DecidableEq D] in
theorem perm : (witness.preimages.map (·.order)).Perm witness.batch.orders :=
  h.preimages ▸ List.Perm.refl _

omit [DecidableEq D] in
theorem length_eq : witness.preimages.length = witness.batch.len := length_preimages h.perm

omit [DecidableEq D] in
theorem accepted : witness.accounting.Accepted witness.batch
    (.new (witness.preimages.map commitOrder)) witness.allocation := by
  rw [h.accounting]
  exact buildCompleteInputAccounting_accepted h.ids_nodup h.perm

omit [DecidableEq D] in
/-- The record and the preimage at a position. -/
theorem record_at {p : (OrderAccountingRecord D × SaltedOrderPreimage) × ℕ}
    (hp : p ∈ (witness.accounting.records.zip witness.preimages).zipIdx) :
    witness.preimages[p.2]? = some p.1.2 ∧
      p.1.1 = recordOf (allocMap witness.allocation) p.2 p.1.2 := by
  have hzip := List.mem_zipIdx_iff_getElem?.mp hp
  obtain ⟨hrec, hpre⟩ := List.getElem?_zip_eq_some.mp hzip
  refine ⟨hpre, ?_⟩
  rw [h.accounting] at hrec
  have hmap : (witness.preimages.zipIdx.map fun q =>
      recordOf (D := D) (allocMap witness.allocation) q.2 q.1)[p.2]? = some p.1.1 := hrec
  rw [List.getElem?_map, List.getElem?_zipIdx, hpre] at hmap
  simpa using hmap.symm

/-- The slots take the builder's records as they are. -/
theorem bindAccounting_eq :
    bindAccounting witness (witness.preimages.map commitOrder) = .ok witness.accounting := by
  have hlen : witness.accounting.records.length = witness.batch.len := h.accepted.length
  have hindex : ∀ i r, witness.accounting.records[i]? = some r → (r.leafIndex : ℕ) = i := by
    intro i r hr
    have hi := (List.getElem?_eq_some_iff.mp hr).1
    have hmap : (witness.accounting.records.map (·.leafIndex))[i]? = some r.leafIndex := by
      rw [List.getElem?_map, hr]
      rfl
    rw [h.accounting, records_leafIndex, List.getElem?_map,
      List.getElem?_range (by rw [h.length_eq]; omega)] at hmap
    have hidx : toU64 i = r.leafIndex := Option.some.inj hmap
    rw [← hidx]
    exact toU64_position h.ids_nodup h.perm (by rw [h.length_eq]; omega)
  have hslots : witness.accounting.records.foldlM (placeRecord witness.batch.len)
      (List.replicate witness.batch.len none) = .ok (witness.accounting.records.map some) := by
    have := foldlM_placeRecord witness.accounting.records [] (by simpa using hlen)
      (by simpa using hindex)
    rwa [hlen] at this
  have hcheck : checkSlots (witness.accounting.records.map some) witness.batch.orders
      (witness.preimages.map commitOrder) = .ok witness.accounting.records := by
    refine (checkSlots_eq_ok ?_ ?_).mpr ⟨rfl, ?_, ?_⟩
    · rw [List.length_map]
      exact hlen
    · rw [List.length_map]
      exact h.length_eq
    · rw [h.accounting, records_orderId, h.preimages]
    · rw [h.accounting]
      show (witness.preimages.zipIdx.map _).map _ = _
      rw [List.map_map, ← List.zipIdx_map_fst 0 witness.preimages, List.map_map,
        List.zipIdx_map_fst]
      rfl
  unfold bindAccounting
  rw [Result.ite_failure_eq_ok, Result.bind_eq_ok, not_not]
  refine ⟨hlen, _, hslots, ?_⟩
  rw [Result.bind_eq_ok]
  exact ⟨_, hcheck, rfl⟩

/-- The accounting subrelation accepts the builder's manifest. -/
theorem accountingChecked : AccountingChecked witness.batch witness.preimages
    (.new (witness.preimages.map commitOrder)) witness.accounting witness.allocation := by
  refine ⟨verifyCompleteInputAccounting_eq_ok.mpr h.accepted, h.accepted.length.symm, fun p hp => ?_⟩
  obtain ⟨hpre, hrec⟩ := h.record_at hp
  have hmem : p.1.2.order ∈ witness.batch.orders := List.mem_of_getElem? (order_at h.preimages hpre)
  obtain ⟨a, hle, hfind⟩ := h.entries _ hmem
  have hnd : (witness.allocation.allocations.map (·.orderId)).Nodup :=
    h.ids_nodup.sublist (allocateBatch_sublist (verifyTransition_iff.mp h.transition).2.1)
  have hsome := (MerkleTree.generateProof_isSome (D := D) (witness.preimages.map commitOrder) p.2).mpr
    (by rw [List.length_map]; exact (List.getElem?_eq_some_iff.mp hpre).1)
  obtain ⟨proof, hproof⟩ := Option.isSome_iff_exists.mp hsome
  have hleaf : (witness.preimages.map (commitOrder (D := D)))[p.2]? = some (commitOrder p.1.2) := by
    rw [List.getElem?_map, hpre]
    rfl
  refine ⟨proof, .of p.1.2.order a, hproof, (MerkleTree.fold_generateProof hleaf hproof).1, ?_, ?_⟩
  · rw [hrec]
    exact hfind
  · rw [hrec]
    show OrderDisposition.ofAllocated p.1.2.order.qty _ = _
    rw [allocatedTo_eq hnd hfind]
    exact ofAllocated_eq_expected (h.qty_pos _ hmem) hle

omit [DecidableEq D] in
theorem accountingAsserts (publicInputs : BatchProofPublicInputs D) : AccountingAsserts
    witness.preimages (.new (witness.preimages.map commitOrder)) witness.accounting
    (publicValue (publicScalars publicInputs witness (.new (witness.preimages.map commitOrder))) 0)
    (publicValue (publicScalars publicInputs witness (.new (witness.preimages.map commitOrder))) 1) := by
  have hlen := h.len_lt
  constructor
  · intro p hp
    obtain ⟨hpre, hrec⟩ := h.record_at hp
    refine ⟨?_, rfl⟩
    rw [hrec]
    show toScalar (toU64 p.2) = _
    rw [toScalar_eq_cast, BitVec.natCast_eq_ofNat,
      toU64_position h.ids_nodup h.perm (List.getElem?_eq_some_iff.mp hpre).1]
  · have hcount : (witness.accounting.records.zip witness.preimages).length = witness.batch.len := by
      rw [List.length_zip, h.accepted.length, h.length_eq, min_self]
    show _ = toScalar (toU64 witness.batch.len)
    rw [hcount, toScalar_eq_cast, toU64_val, Nat.mod_eq_of_lt (by omega)]

end Built

/-! ## What the market has to satisfy -/

/-- The checks and the constraints that are left for a built input. -/
structure MarketHolds (publicInputs : BatchProofPublicInputs D) (witness : BatchProofWitness D) :
    Prop where
  orders : ∀ p ∈ witness.batch.orders.zipIdx,
    OrderAsserts witness.batch.instrument.raw p.2 p.1
  candidates : ∀ price ∈ candidatePricesFromOrders witness.batch.orders, ∃ d s,
    demandFromOrders witness.batch.orders price = .ok d ∧
      supplyFromOrders witness.batch.orders price = .ok s ∧
      min d.raw s.raw ≤ publicInputs.clearedVolume
  allocation : ∀ cp, clearingPriceOf publicInputs = some cp →
    (∀ a ∈ witness.allocation.allocations,
      (witness.batch.orders.find? (·.id = a.orderId)).isSome) ∧
    AllocationAsserts witness.batch cp witness.allocation (toScalar publicInputs.clearedVolume)
  fills : ∀ cp, clearingPriceOf publicInputs = some cp → ∀ f ∈ witness.fills,
    FillChecked witness.batch.orders cp.raw f ∧ FillAsserts witness.batch.orders cp.raw f
  conservation : ConservationAsserts witness.preState witness.postState witness.fills
    witness.batch.instrument
  oracle : ∀ snapshot policy cp, witness.oracleSnapshot = some snapshot →
    witness.oraclePolicy = some policy → clearingPriceOf publicInputs = some cp →
    SnapshotAdmissible policy snapshot witness.batch.instrument witness.batchCutoffNanos (some cp)

omit [DecidableEq D] [CommitmentScheme D] [StdSort] in
theorem clearingPriceOf_getD (publicInputs : BatchProofPublicInputs D) :
    ((clearingPriceOf publicInputs).map (·.raw)).getD 0 = publicInputs.clearingPrice := by
  unfold clearingPriceOf
  split_ifs with h
  · rfl
  · exact (Fin.le_zero_iff.mp (not_lt.mp h)).symm

/-- **Built inputs.** They are proved exactly when the market conditions hold. -/
theorem Built.prove_iff (h : Built publicInputs witness) :
    (∃ proof, prove publicInputs witness = .ok proof) ↔ MarketHolds publicInputs witness := by
  rw [prove_isOk_iff]
  constructor
  · rintro ⟨leaves, accounting, hleaves, -, -, -, hchecked, hasserts⟩
    obtain ⟨-, -, rfl⟩ := bindLeaves_eq_ok.mp hleaves
    refine ⟨hasserts.orders, fun price hprice => ?_, fun cp hcp =>
      ⟨(hchecked.allocation cp hcp).2, hasserts.allocation cp hcp⟩, fun cp hcp f hf =>
      ⟨hchecked.fills cp hcp f hf, hasserts.fills cp hcp f hf⟩, hasserts.conservation,
      hchecked.oracle⟩
    obtain ⟨⟨d, hd⟩, s, hs⟩ := hchecked.clearing.2 price hprice
    exact ⟨d, s, hd, hs, toScalar_slack.mp (hasserts.clearing.1 price hprice d s hd hs)⟩
  · intro hm
    obtain ⟨hclearing, halloc, -⟩ := verifyTransition_iff.mp h.transition
    refine ⟨_, _, bindLeaves_eq_ok.mpr ⟨h.preimages, h.len_lt, rfl⟩, h.header, h.bindAccounting_eq,
      ⟨h.transition, verifyCompleteInputAccounting_eq_ok.mpr h.accepted, h.preRoot, h.postRoot,
        h.oracle⟩, ?_, ?_⟩
    · refine ⟨h.accountingChecked, ⟨hclearing, fun price hprice => ?_⟩, fun cp hcp => ⟨?_,
        (hm.allocation cp hcp).1⟩, fun cp hcp f hf => (hm.fills cp hcp f hf).1, hm.oracle⟩
      · obtain ⟨d, s, hd, hs, -⟩ := hm.candidates price hprice
        exact ⟨⟨d, hd⟩, s, hs⟩
      · rw [← hcp]
        exact halloc
    · refine ⟨hm.orders, h.accountingAsserts publicInputs, ⟨fun price hprice d s hd hs => ?_, ?_, rfl⟩,
        fun cp hcp => (hm.allocation cp hcp).2, fun cp hcp f hf => (hm.fills cp hcp f hf).2,
        hm.conservation⟩
      · obtain ⟨d', s', hd', hs', hle⟩ := hm.candidates price hprice
        rw [hd] at hd'
        rw [hs] at hs'
        obtain rfl := Except.ok.inj hd'
        obtain rfl := Except.ok.inj hs'
        exact toScalar_slack.mpr hle
      · rw [clearingPriceOf_getD]
        rfl

/-! ## Batches that do not cross -/

omit [StdSort] in
/-- Balances that stay as they are satisfy the conservation subrelation without fills. -/
theorem conservationAsserts_nil {preState postState : Ledger} {instrument : InstrumentId}
    (h : ∀ e ∈ preState.accounts.entries, ∃ acc, postState.getAccount e.1 = some acc ∧
      acc.cash = e.2.cash ∧ acc.inventoryOf instrument = e.2.inventoryOf instrument) :
    ConservationAsserts preState postState [] instrument := by
  have hsame : ∀ e ∈ preState.accounts.entries,
      (accountScalars postState instrument e).postCash =
          (accountScalars postState instrument e).preCash ∧
        (accountScalars postState instrument e).postInv =
          (accountScalars postState instrument e).preInv := by
    intro e he
    obtain ⟨acc, hacc, hcash, hinv⟩ := h e he
    simp only [accountScalars, hacc, Option.map_some, Option.getD_some, hcash, hinv, and_self]
  have hsums : ∀ (l : List (AccountId × AccountState)) (t : AccountScalars),
      (∀ e ∈ l, e ∈ preState.accounts.entries) → t.preCash = t.postCash → t.preInv = t.postInv →
      (l.foldl (addAccount postState instrument) t).preCash =
          (l.foldl (addAccount postState instrument) t).postCash ∧
        (l.foldl (addAccount postState instrument) t).preInv =
          (l.foldl (addAccount postState instrument) t).postInv := by
    intro l
    induction l with
    | nil => exact fun t _ hc hi => ⟨hc, hi⟩
    | cons e l ih =>
      intro t hl hc hi
      obtain ⟨h1, h2⟩ := hsame e (hl e (List.mem_cons_self ..))
      refine ih _ (fun e' he' => hl e' (List.mem_cons_of_mem _ he')) ?_ ?_
      · simp only [addAccount, hc, h1]
      · simp only [addAccount, hi, h2]
  exact ⟨hsame, hsums _ _ (fun _ he => he) rfl rfl⟩

omit [DecidableEq D] [CommitmentScheme D] in
/-- Without a price and fills, little is left of the market conditions. -/
theorem marketHolds_resting (hprice : clearingPriceOf publicInputs = none) (hfills : witness.fills = [])
    (horders : ∀ p ∈ witness.batch.orders.zipIdx,
      OrderAsserts witness.batch.instrument.raw p.2 p.1)
    (hcandidates : ∀ price ∈ candidatePricesFromOrders witness.batch.orders, ∃ d s,
      demandFromOrders witness.batch.orders price = .ok d ∧
        supplyFromOrders witness.batch.orders price = .ok s ∧
        min d.raw s.raw ≤ publicInputs.clearedVolume)
    (hsame : ∀ e ∈ witness.preState.accounts.entries, ∃ acc,
      witness.postState.getAccount e.1 = some acc ∧ acc.cash = e.2.cash ∧
        acc.inventoryOf witness.batch.instrument = e.2.inventoryOf witness.batch.instrument) :
    MarketHolds publicInputs witness := by
  have hno : ∀ cp, clearingPriceOf publicInputs ≠ some cp := by
    intro cp hcp
    rw [hprice] at hcp
    cases hcp
  refine ⟨horders, hcandidates, fun cp hcp => absurd hcp (hno cp), fun cp hcp => absurd hcp (hno cp),
    ?_, fun _ _ cp _ _ hcp => absurd hcp (hno cp)⟩
  rw [hfills]
  exact conservationAsserts_nil hsame

/-! ## The honest prover -/

section Cli

variable {preState : Ledger} {batch : Batch} {cutoff : U64} {exec : BatchExecutionResult}
  {preimages : List SaltedOrderPreimage}

omit [DecidableEq D] in
/-- The statement of an execution has its clearing outcome. -/
theorem executionOf_cli (h : determineClearingOutcome batch = .ok exec.clearingOutcome) :
    executionOf (Cli.publicInputs (D := D) preState batch preimages cutoff exec)
      (Cli.witness preState batch preimages cutoff exec) = exec := by
  obtain ⟨⟨price, volume⟩, allocation, fills, postState⟩ := exec
  have hprice : clearingPriceOf (Cli.publicInputs (D := D) preState batch preimages cutoff
      ⟨⟨price, volume⟩, allocation, fills, postState⟩) = price := by
    unfold clearingPriceOf
    cases price with
    | none => rfl
    | some p =>
      have hpos := determineClearingOutcome_price_pos h rfl
      exact if_pos (Fin.lt_def.mpr hpos)
  unfold executionOf
  rw [hprice]
  rfl

omit [DecidableEq D] in
/-- What `cmd_prove` assembles is built from the batch. -/
theorem built_cli (horders : preimages.map (·.order) = batch.orders) (hlen : batch.len < 2 ^ 32)
    (hnd : (batch.orders.map (·.id)).Nodup) (hqty : ∀ o ∈ batch.orders, 0 < (o.qty.raw : ℕ))
    (hentries : ∀ o ∈ batch.orders, ∃ a : Qty, (a.raw : ℕ) ≤ o.qty.raw ∧
      exec.allocation.allocations.find? (·.orderId = o.id) = some (.of o a))
    (hver : verifyTransition preState batch exec = .ok ()) :
    Built (Cli.publicInputs (D := D) preState batch preimages cutoff exec)
      (Cli.witness preState batch preimages cutoff exec) := by
  refine ⟨horders, hlen, hnd, hqty, hentries, rfl, ?_, rfl, rfl, rfl, rfl⟩
  show verifyTransition preState batch (executionOf _ _) = _
  rw [executionOf_cli (verifyTransition_iff.mp hver).1]
  exact hver

end Cli

end SingleBatchProver

end FairCross
