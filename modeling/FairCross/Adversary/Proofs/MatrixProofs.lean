import FairCross.Adversary.Proofs.MutatorProofs

/-!
# The audits and the attack matrix

`audits_pass_iff` says what an audit lets through, `runAttackMatrix_held_iff` for which inputs the
matrix reports that every attack is rejected.
-/

namespace FairCross

open AttackMatrix AdversarialOperator

section Scheme

variable {D : Type} {m : AdversarialMutation D} {preimages : List SaltedOrderPreimage}

/-! ## One execution -/

/-- An operator that drops or adds no order works on the original preimages. -/
theorem mutatePreimages_eq (hcensor : m.type = .censorOrder → preimages.length ≤ m.leafIndex)
    (hinject : m.type ≠ .injectUnauthorizedOrder) : mutatePreimages m preimages = preimages := by
  unfold mutatePreimages
  split
  · next h => exact if_neg (not_lt.mpr (hcensor h))
  · next h => exact absurd h hinject
  · rfl

/-- An operator that drops or adds an order publishes too few or too many records. -/
theorem length_mutatePreimages (h : ¬ ((m.type = .censorOrder → preimages.length ≤ m.leafIndex) ∧
    m.type ≠ .injectUnauthorizedOrder)) : (mutatePreimages m preimages).length ≠ preimages.length := by
  by_cases hinject : m.type = .injectUnauthorizedOrder
  · simp [mutatePreimages, hinject]
  · have hcensor : m.type = .censorOrder ∧ m.leafIndex < preimages.length := by
      by_contra hno
      exact h ⟨fun ht => not_lt.mp fun hi => hno ⟨ht, hi⟩, hinject⟩
    simp only [mutatePreimages, hcensor.1, hcensor.2, if_true]
    rw [List.length_eraseIdx_of_lt hcensor.2]
    have := hcensor.2
    omega

variable [StdSort] {pre : Ledger} {batch : Batch}

/-- Sorting the orders of an accepted batch gives the batch back. -/
theorem Batch.Accepted.new_eq (hb : batch.Accepted) {l : List Order} (hp : l.Perm batch.orders) :
    .new batch.batchId batch.instrument l = batch := by
  unfold Batch.new
  rw [StdSort.sort_eq canonicalKey canonicalLess_iff (canonicalKey_inj ?_) hp.symm hb.sorted]
  exact (hp.map _).nodup_iff.mpr hb.orders.ids_nodup

/-- The consideration of a canonical fill is its price times its quantity. -/
theorem canonicalFills_consideration (outcome : ClearingOutcome) :
    ∀ f ∈ canonicalFills outcome batch,
      (f.consideration.raw : ℕ) = f.executionPrice.raw * f.fillQty.raw := by
  intro f hf
  unfold canonicalFills at hf
  split at hf
  · cases hf
  · obtain ⟨id, a, -, -, rfl⟩ := mem_fillsFrom hf
    exact fillOf_consideration ..

/-- The checker on an execution that keeps the batch: the outcome, the allocation and the fills have
to be the canonical ones, and the published ledger has to match the execution. -/
theorem verifyTransition_publish (hb : batch.Accepted) {outcome outcome' : ClearingOutcome}
    {allocation : BatchAllocation} {fills fills' : List Fill}
    (ho : determineClearingOutcome batch = .ok outcome)
    (ho' : mutateOutcome m outcome = some outcome')
    (ha : allocateBatch batch outcome'.clearingPrice outcome'.executableVolume = .ok allocation)
    (hf : generateCanonicalFills batch (mutateAllocation m allocation) = .ok fills)
    (hf' : fills.mapM (mutateFill m) = .ok fills') :
    verifyTransition pre batch ⟨outcome', mutateAllocation m allocation, fills',
        mutatePostState m pre (fills'.foldl publishFill pre)⟩ = .ok () ↔
      (mutateOutcome m outcome = some outcome ∧
        mutateAllocation m (canonicalAllocation outcome batch) = canonicalAllocation outcome batch ∧
        (canonicalFills outcome batch).mapM (mutateFill m) = .ok (canonicalFills outcome batch)) ∧
      ∃ r, executeBatch pre batch = .ok r ∧ pre.lotsSum batch.instrument < 2 ^ 64 ∧
        r.postState.Matches batch.instrument (mutatePostState m pre r.postState) := by
  have hcanon : outcome' = outcome →
      mutateAllocation m (canonicalAllocation outcome batch) = canonicalAllocation outcome batch →
      allocation = canonicalAllocation outcome batch ∧ fills = canonicalFills outcome batch := by
    intro h1 h2
    rw [h1, hb.allocateBatch_eq ho] at ha
    obtain rfl := Except.ok.inj ha
    rw [h2, hb.generateCanonicalFills_eq ho] at hf
    exact ⟨rfl, (Except.ok.inj hf).symm⟩
  have hpost : ∀ r, executeBatch pre batch = .ok r →
      (canonicalFills outcome batch).foldl publishFill pre = r.postState := by
    intro r hr
    obtain ⟨outcome'', post, hout, hrun, -, -, rfl⟩ := hb.executeBatch_eq_ok.mp hr
    obtain rfl := Except.ok.inj (ho.symm.trans hout)
    exact foldl_publishFill hrun
  constructor
  · intro h
    obtain ⟨outcome'', -, hout, -, h1, h2, h3, -⟩ := hb.verifyTransition_eq_ok.mp h
    obtain rfl := Except.ok.inj (ho.symm.trans hout)
    dsimp only at h1 h2 h3
    rw [h1, hb.allocateBatch_eq ho] at ha
    obtain rfl := Except.ok.inj ha
    obtain ⟨-, hfills⟩ := hcanon h1 h2
    rw [h1, h2, h3, hb.verifyTransition_posted ho] at h
    obtain ⟨r, hr, hlots, hm⟩ := h
    rw [hpost r hr] at hm
    rw [hfills, h3] at hf'
    exact ⟨⟨by rw [ho', h1], h2, hf'⟩, r, hr, hlots, hm⟩
  · rintro ⟨⟨h1, h2, h3⟩, r, hr, hlots, hm⟩
    obtain rfl := Option.some.inj (ho'.symm.trans h1)
    obtain ⟨rfl, rfl⟩ := hcanon rfl h2
    obtain rfl := Except.ok.inj (h3.symm.trans hf')
    rw [h2, hb.verifyTransition_posted ho]
    exact ⟨r, hr, hlots, by rwa [hpost r hr]⟩

variable [CommitmentScheme D]

omit [StdSort] in
/-- The records of an accounting are as many as the preimages it is built from. -/
theorem length_mutateAccounting (working : List SaltedOrderPreimage) (wb : Batch)
    (allocation : BatchAllocation) :
    (mutateAccounting m (buildCompleteInputAccounting wb working allocation)).2.records.length =
      working.length := by
  have hbuilt : (buildCompleteInputAccounting (D := D) wb working allocation).2.records.length =
      working.length := by
    show (working.zipIdx.map _).length = _
    rw [List.length_map, List.length_zipIdx]
  unfold mutateAccounting
  split
  · split_ifs
    · rw [← hbuilt]
      exact List.length_modify ..
    · exact hbuilt
  · exact hbuilt

variable {exec : AdversarialExecution D}

theorem execute_eq_some : execute m pre batch preimages = some exec ↔
    ∃ outcome outcome' allocation fills fills',
      determineClearingOutcome (.new batch.batchId batch.instrument
        ((mutatePreimages m preimages).map (·.order))) = .ok outcome ∧
      mutateOutcome m outcome = some outcome' ∧
      allocateBatch (.new batch.batchId batch.instrument
          ((mutatePreimages m preimages).map (·.order)))
        outcome'.clearingPrice outcome'.executableVolume = .ok allocation ∧
      generateCanonicalFills (.new batch.batchId batch.instrument
          ((mutatePreimages m preimages).map (·.order))) (mutateAllocation m allocation) = .ok fills ∧
      fills.mapM (mutateFill m) = .ok fills' ∧
      publish m pre (.new batch.batchId batch.instrument
          ((mutatePreimages m preimages).map (·.order))) (mutatePreimages m preimages)
        outcome' (mutateAllocation m allocation) fills' = exec := by
  simp only [execute, Option.bind_eq_bind, Option.bind_eq_some_iff, Result.toOption_eq_some,
    Option.pure_def, Option.some.injEq]
  constructor
  · rintro ⟨outcome, h1, outcome', h2, allocation, h3, fills, h4, fills', h5, h6⟩
    exact ⟨outcome, outcome', allocation, fills, fills', h1, h2, h3, h4, h5, h6⟩
  · rintro ⟨outcome, outcome', allocation, fills, fills', h1, h2, h3, h4, h5, h6⟩
    exact ⟨outcome, h1, outcome', h2, allocation, h3, fills, h4, fills', h5, h6⟩

variable [DecidableEq D]

/-- The three audits of a published execution. -/
theorem passed_publish_iff {wb : Batch} {working : List SaltedOrderPreimage}
    {outcome : ClearingOutcome} {allocation : BatchAllocation} {fills : List Fill} :
    (audit pre batch preimages (publish m pre wb working outcome allocation fills)).passed = true ↔
      verifyTransition pre wb ⟨outcome, allocation, fills,
        mutatePostState m pre (fills.foldl publishFill pre)⟩ = .ok () ∧
      (mutateAccounting m (buildCompleteInputAccounting wb working allocation)).2.Accepted batch
        (.new (preimages.map commitOrder)) allocation ∧
      (m.type = .staleOracleSnapshot →
        (m.stalenessOffsetNanos : ℕ) = 0 ∨ 2 ^ 64 - 1000000000 ≤ (m.stalenessOffsetNanos : ℕ)) := by
  have hunit : ∀ r : Result Unit, r.isOk = true ↔ r = .ok () := fun r =>
    Result.isOk_iff.trans ⟨fun ⟨_, h⟩ => h, fun h => ⟨(), h⟩⟩
  simp only [AuditResults.passed, Bool.and_eq_true, hunit, and_assoc]
  refine and_congr Iff.rfl (and_congr verifyCompleteInputAccounting_eq_ok ?_)
  rw [← snapshotTime_fresh]
  refine validateReferencePriceSnapshot_eq_ok.trans ⟨fun h => ⟨h.not_future, h.fresh⟩, ?_⟩
  rintro ⟨h1, h2⟩
  refine ⟨rfl, h1, h2, fun cp hcp => ?_⟩
  -- the snapshot shows the published clearing price itself
  have hcp' : outcome.clearingPrice = some cp := hcp
  show (cp.raw : ℕ) ≤ (outcome.clearingPrice.getD ⟨100⟩).raw + _ ∧ _
  rw [hcp', Option.getD_some]
  exact ⟨Nat.le_add_right .., Nat.le_add_right ..⟩

/-- What passes the audits comes from an operator that works on the batch itself. -/
theorem mutatePreimages_of_passed (hp : (preimages.map (·.order)).Perm batch.orders)
    {wb : Batch} {outcome : ClearingOutcome} {allocation : BatchAllocation} {fills : List Fill}
    (h : (audit pre batch preimages (publish m pre wb (mutatePreimages m preimages) outcome allocation
      fills)).passed = true) :
    (m.type = .censorOrder → preimages.length ≤ m.leafIndex) ∧
      m.type ≠ .injectUnauthorizedOrder := by
  by_contra hno
  apply length_mutatePreimages hno
  have hlen := (passed_publish_iff.mp h).2.1.length
  rwa [length_mutateAccounting, ← length_preimages hp] at hlen

/-- An execution passes the audits when the honest one does and the mutation is harmless to it. -/
theorem Batch.Accepted.passed_iff (hb : batch.Accepted) (ideal : IdealHash D)
    (hp : (preimages.map (·.order)).Perm batch.orders)
    (h : execute m pre batch preimages = some exec) :
    (audit pre batch preimages exec).passed = true ↔
      ∃ r, executeBatch pre batch = .ok r ∧ pre.lotsSum batch.instrument < 2 ^ 64 ∧
        m.Harmless batch preimages r := by
  obtain ⟨outcome, outcome', allocation, fills, fills', ho, ho', ha, hf, hf', rfl⟩ := execute_eq_some.mp h
  by_cases hsame : (m.type = .censorOrder → preimages.length ≤ m.leafIndex) ∧
    m.type ≠ .injectUnauthorizedOrder
  swap
  · refine ⟨fun hpass => absurd (mutatePreimages_of_passed hp hpass) hsame, ?_⟩
    rintro ⟨r, -, -, hm⟩
    exact absurd ⟨hm.no_order_censored, hm.no_order_injected⟩ hsame
  rw [mutatePreimages_eq hsame.1 hsame.2, hb.new_eq hp] at ho ha hf ⊢
  rw [passed_publish_iff, verifyTransition_publish hb ho ho' ha hf hf',
    mutateAccounting_accepted ideal hb.orders.ids_nodup hp, mutateOutcome_eq, mutateAllocation_eq,
    mutateFill_eq (canonicalFills_consideration outcome)]
  constructor
  · rintro ⟨⟨⟨hprice, halloc, hfills⟩, r, hr, hlots, hm⟩, hleaf, hsnap⟩
    obtain ⟨hfreeze, hcash, hinv⟩ := (matches_mutatePostState hb hr).mp hm
    obtain ⟨outcome'', post, hout, -, -, -, rfl⟩ := hb.executeBatch_eq_ok.mp hr
    obtain rfl := Except.ok.inj (ho.symm.trans hout)
    exact ⟨_, hr, hlots, hprice, hsame.1, hsame.2, halloc, hfills, hfreeze, hcash, hinv, hleaf, hsnap⟩
  · rintro ⟨r, hr, hlots, hm⟩
    obtain ⟨outcome'', post, hout, -, -, -, rfl⟩ := hb.executeBatch_eq_ok.mp hr
    obtain rfl := Except.ok.inj (ho.symm.trans hout)
    exact ⟨⟨⟨hm.price, hm.allocation, hm.fills⟩, _, hr, hlots, (matches_mutatePostState hb hr).mpr
      ⟨hm.no_balance_moved, hm.cash, hm.inventory⟩⟩, hm.leaf, hm.snapshot⟩

/-- **What the audits let through.** Whatever one mutation an operator applies, its execution passes
the audits exactly when the honest execution passes and the mutation is harmless to it. -/
theorem audits_pass_iff (ideal : IdealHash D) {batchId : BatchId} {instrument : InstrumentId}
    {orders : List Order} (hb : Batch.create batchId instrument orders = .ok batch)
    (hp : (preimages.map (·.order)).Perm batch.orders)
    (h : execute m pre batch preimages = some exec) :
    (audit pre batch preimages exec).passed = true ↔
      ∃ r, executeBatch pre batch = .ok r ∧ pre.lotsSum batch.instrument < 2 ^ 64 ∧
        m.Harmless batch preimages r :=
  (Batch.accepted_of_create hb).passed_iff ideal hp h

/-- **No tampering passes.** What passes the audits is what the honest operator publishes: the batch,
its outcome, allocation, fills and records, and every balance in cash and in its instrument. -/
theorem audits_pass_publishes {batchId : BatchId} {instrument : InstrumentId} {orders : List Order}
    (ideal : IdealHash D) (hb : Batch.create batchId instrument orders = .ok batch)
    (hp : (preimages.map (·.order)).Perm batch.orders)
    (h : execute m pre batch preimages = some exec)
    (hpass : (audit pre batch preimages exec).passed = true) :
    ∃ r, executeBatch pre batch = .ok r ∧ exec.batch = batch ∧
      exec.executionResult.clearingOutcome = r.clearingOutcome ∧
      exec.executionResult.allocation = r.allocation ∧ exec.executionResult.fills = r.fills ∧
      exec.accounting = (buildCompleteInputAccounting batch preimages r.allocation).2 ∧
      r.postState.Matches batch.instrument exec.executionResult.postState := by
  have hacc := Batch.accepted_of_create hb
  obtain ⟨outcome, outcome', allocation, fills, fills', ho, ho', ha, hf, hf', rfl⟩ := execute_eq_some.mp h
  obtain ⟨hcensor, hinject⟩ := mutatePreimages_of_passed hp hpass
  rw [mutatePreimages_eq hcensor hinject, hacc.new_eq hp] at hpass ⊢
  obtain ⟨htrans, haccounting, -⟩ := passed_publish_iff.mp hpass
  have hleaf := (mutateAccounting_accepted ideal hacc.orders.ids_nodup hp).mp haccounting
  obtain ⟨r, hr, h1, h2, h3, hm, -⟩ := hacc.sound htrans
  refine ⟨r, hr, rfl, h1, h2, h3, ?_, hm⟩
  have h2 : mutateAllocation m allocation = r.allocation := h2
  rw [← h2]
  exact mutateAccounting_eq hleaf

end Scheme

/-! ## The matrix -/

/-- Five ticks up always change the price. -/
theorem shiftPrice_up (p : Price) : shiftPrice p ⟨5, by decide⟩ ≠ some p := by
  intro h
  have h := (shiftPrice_eq_some.mp h).2
  have hlt := p.raw.isLt
  rw [I64.ofU64_val] at h
  dsimp only at h
  split_ifs at h <;> omega

/-- Five ticks down change every price but the lowest. -/
theorem shiftPrice_down (p : Price) : shiftPrice p ⟨-5, by decide⟩ = some p ↔ (p.raw : ℕ) = 1 := by
  have hlt := p.raw.isLt
  rw [shiftPrice_eq_some, I64.ofU64_val]
  dsimp only [InI64]
  split_ifs <;> omega

section Returns

variable [StdSort]

/-- An accepted batch whose sides fit 64 bits clears. -/
theorem Batch.Accepted.exists_outcome {batch : Batch} (hb : batch.Accepted)
    (hbuy : totalLots (sideOrders .buy batch.orders) < 2 ^ 64)
    (hsell : totalLots (sideOrders .sell batch.orders) < 2 ^ 64) :
    ∃ outcome, determineClearingOutcome batch = .ok outcome := by
  obtain ⟨v, hv⟩ := (computeVolumeMaximizers_isOk hb.side).mpr ⟨hbuy, hsell⟩
  exact ⟨_, determineClearingOutcome_eq_ok.mpr ⟨v, hv, rfl⟩⟩

/-- A batch that clears can be allocated at any price, and any volume. -/
theorem Batch.Accepted.allocateBatch_isOk {batch : Batch} (hb : batch.Accepted)
    {outcome : ClearingOutcome} (ho : determineClearingOutcome batch = .ok outcome)
    (cp : Option Price) (v : Qty) : ∃ a, allocateBatch batch cp v = .ok a := by
  unfold allocateBatch
  cases cp with
  | none => exact ⟨_, rfl⟩
  | some cp =>
    by_cases hz : v.isZero = true
    · exact ⟨_, if_pos hz⟩
    · simp only [hz, Bool.false_eq_true, if_false, allocateAt, Result.bind_eq_ok,
        Result.convert_eq_ok, Result.pure_eq_ok]
      exact ⟨_, _, allocateSide_eq hb.orders.ids_nodup (hb.marketableLots_lt ho cp (Or.inl rfl)),
        _, allocateSide_eq hb.orders.ids_nodup (hb.marketableLots_lt ho cp (Or.inr rfl)), rfl⟩

omit [StdSort] in
/-- Fills are generated from any allocation. -/
theorem generateCanonicalFills_isOk (batch : Batch) (a : BatchAllocation) :
    ∃ fills, generateCanonicalFills batch a = .ok fills := by
  unfold generateCanonicalFills
  cases a.clearingPrice with
  | none => exact ⟨_, rfl⟩
  | some cp =>
    by_cases hz : a.targetVolume.isZero = true
    · exact ⟨_, if_pos hz⟩
    · obtain ⟨id, hfold⟩ := foldlM_fillStep batch.instrument cp a.allocations [] 0
      simp only [hz, Bool.false_eq_true, if_false, hfold]
      exact ⟨_, rfl⟩

omit [StdSort] in
theorem mutateFill_isOk {D : Type} (m : AdversarialMutation D) (fills : List Fill) :
    ∃ fills', fills.mapM (mutateFill m) = .ok fills' := by
  have hone : ∀ f, ∃ f', mutateFill m f = .ok f' := by
    intro f
    unfold mutateFill
    split
    · split_ifs
      · have hlt := Money.price_qty_lt m.bogusPrice f.fillQty
        have hc := Money.fromPriceQty_eq_ok (p := m.bogusPrice) (q := f.fillQty)
          (m := ⟨⟨m.bogusPrice.raw * f.fillQty.raw, hlt⟩⟩)
        simp only [hc.mpr rfl]
        exact ⟨_, rfl⟩
      · exact ⟨_, rfl⟩
    · exact ⟨_, rfl⟩
  induction fills with
  | nil => exact ⟨_, rfl⟩
  | cons f fills ih =>
    obtain ⟨f', hf⟩ := hone f
    obtain ⟨rest, hrest⟩ := ih
    exact ⟨f' :: rest, by simp only [List.mapM_cons, hf, hrest]; rfl⟩

/-- The batch an operator works on clears as the one it was given does, unless it injects an order. -/
theorem working_accepted {D : Type} {m : AdversarialMutation D} {batch : Batch}
    {preimages : List SaltedOrderPreimage} (hb : batch.Accepted)
    (hp : (preimages.map (·.order)).Perm batch.orders) {outcome : ClearingOutcome}
    (ho : determineClearingOutcome batch = .ok outcome) (hm : m.type ≠ .injectUnauthorizedOrder)
    {wb : Batch} (hwb : wb = .new batch.batchId batch.instrument
      ((mutatePreimages m preimages).map (·.order))) :
    wb.Accepted ∧ ∃ outcome', determineClearingOutcome wb = .ok outcome' := by
  have hsub : ((mutatePreimages m preimages).map (·.order)).Subperm batch.orders := by
    refine List.Subperm.trans (List.Sublist.subperm (List.Sublist.map _ ?_)) hp.subperm
    unfold mutatePreimages
    split
    · split_ifs
      · exact List.eraseIdx_sublist ..
      · exact List.Sublist.refl _
    · next h => exact absurd h hm
    · exact List.Sublist.refl _
  generalize (mutatePreimages m preimages).map (·.order) = working at hwb hsub
  obtain rfl := hwb
  have hwb : (Batch.new batch.batchId batch.instrument working).orders.Perm working :=
    StdSort.sort_perm _ _
  have hacc : (Batch.new batch.batchId batch.instrument working).Accepted := by
    refine ⟨⟨fun o h => ?_, ?_⟩, StdSort.sort_sorted_of_key Batch.canonicalKey
      Batch.canonicalLess_iff working⟩
    · exact hb.orders.order o (hsub.subset (hwb.mem_iff.mp h))
    · obtain ⟨l, hl, hsl⟩ := hsub
      exact ((hwb.trans hl.symm).map _).nodup_iff.mpr (hb.orders.ids_nodup.sublist (hsl.map _))
  have hside : ∀ side, side = .buy ∨ side = .sell →
      totalLots (sideOrders side (Batch.new batch.batchId batch.instrument working).orders) <
        2 ^ 64 := by
    intro side hs
    refine lt_of_le_of_lt ?_ (hb.totals_lt ho hs)
    obtain ⟨l, hl, hsl⟩ := hsub
    have hperm := ((hwb.trans hl.symm).filter (·.side = side)).map Order.lots
    rw [totalLots, sideOrders, hperm.sum_eq]
    exact ((hsl.filter _).map _).sum_le_sum fun _ _ => Nat.zero_le _
  exact ⟨hacc, hacc.exists_outcome (hside _ (Or.inl rfl)) (hside _ (Or.inr rfl))⟩

/-- The operator returns on every batch that clears, unless it injects an order or moves the price out
of 64 bits. -/
theorem exists_execute_iff {D : Type} [CommitmentScheme D] {m : AdversarialMutation D} {pre : Ledger}
    {batch : Batch} {preimages : List SaltedOrderPreimage} (hb : batch.Accepted)
    (hp : (preimages.map (·.order)).Perm batch.orders) {outcome : ClearingOutcome}
    (ho : determineClearingOutcome batch = .ok outcome) (hm : m.type ≠ .injectUnauthorizedOrder) :
    (∃ exec, execute m pre batch preimages = some exec) ↔
      (m.type = .manipulateClearingPrice → ∀ p, outcome.clearingPrice = some p →
        ∃ q, shiftPrice p m.offsetTicks = some q) := by
  have hkeep : m.type = .manipulateClearingPrice → Batch.new batch.batchId batch.instrument
      ((mutatePreimages m preimages).map (·.order)) = batch := by
    intro ht
    rw [mutatePreimages_eq (fun h => absurd (ht.symm.trans h) (by decide)) hm, hb.new_eq hp]
  constructor
  · rintro ⟨exec, hexec⟩ ht
    obtain ⟨outcome₁, outcome₂, -, -, -, h1, h2, -⟩ := execute_eq_some.mp hexec
    rw [hkeep ht] at h1
    obtain rfl := Except.ok.inj (ho.symm.trans h1)
    exact exists_mutateOutcome_iff.mp ⟨outcome₂, h2⟩ ht
  · intro hshift
    obtain ⟨hacc, outcome₁, h1⟩ := working_accepted hb hp ho hm rfl
    obtain ⟨outcome₂, h2⟩ : ∃ outcome₂, mutateOutcome m outcome₁ = some outcome₂ := by
      refine exists_mutateOutcome_iff.mpr fun ht p hprice => ?_
      rw [hkeep ht] at h1
      obtain rfl := Except.ok.inj (ho.symm.trans h1)
      exact hshift ht p hprice
    obtain ⟨a, h3⟩ := hacc.allocateBatch_isOk h1 outcome₂.clearingPrice outcome₂.executableVolume
    obtain ⟨fills, h4⟩ := generateCanonicalFills_isOk (.new batch.batchId batch.instrument
      ((mutatePreimages m preimages).map (·.order))) (mutateAllocation m a)
    obtain ⟨fills', h5⟩ := mutateFill_isOk m fills
    exact ⟨_, execute_eq_some.mpr ⟨outcome₁, outcome₂, a, fills, fills', h1, h2, h3, h4, h5, rfl⟩⟩

end Returns

/-! ### The verdict -/

theorem mapM_cons_eq_some {α β : Type} {f : α → Option β} {a : α} {l : List α} {rs : List β} :
    (a :: l).mapM f = some rs ↔ ∃ r, f a = some r ∧ ∃ rs', l.mapM f = some rs' ∧ r :: rs' = rs := by
  simp only [List.mapM_cons, Option.bind_eq_bind, Option.bind_eq_some_iff, Option.pure_def,
    Option.some.injEq]

theorem mapM_all {α β : Type} {f : α → Option β} {l : List α} {rs : List β} (h : l.mapM f = some rs)
    (p : β → Bool) : rs.all p = true ↔ ∀ a ∈ l, ∀ r, f a = some r → p r = true := by
  induction l generalizing rs with
  | nil =>
    obtain rfl := Option.some.inj h
    simp
  | cons a l ih =>
    obtain ⟨r, hr, rs', hrs, rfl⟩ := mapM_cons_eq_some.mp h
    rw [List.all_cons, Bool.and_eq_true, ih hrs, List.forall_mem_cons]
    refine and_congr ⟨fun hp r' hr' => ?_, fun hp => hp r hr⟩ Iff.rfl
    obtain rfl := Option.some.inj (hr.symm.trans hr')
    exact hp

/-- What can be read off each result is what it is for the element it comes from. -/
theorem mapM_map {α β γ : Type} {f : α → Option β} {l : List α} {rs : List β}
    (h : l.mapM f = some rs) {g : β → γ} {k : α → γ} (hg : ∀ a ∈ l, ∀ r ∈ rs, f a = some r → g r = k a) :
    rs.map g = l.map k := by
  induction l generalizing rs with
  | nil =>
    obtain rfl := Option.some.inj h
    rfl
  | cons a l ih =>
    obtain ⟨r, hr, rs', hrs, rfl⟩ := mapM_cons_eq_some.mp h
    rw [List.map_cons, List.map_cons, hg a (List.mem_cons_self ..) r (List.mem_cons_self ..) hr,
      ih hrs fun b hb r' hr' => hg b (List.mem_cons_of_mem _ hb) r' (List.mem_cons_of_mem _ hr')]

theorem mapM_isSome {α β : Type} {f : α → Option β} {l : List α} :
    (∃ rs, l.mapM f = some rs) ↔ ∀ a ∈ l, ∃ r, f a = some r := by
  induction l with
  | nil => exact ⟨fun _ a ha => absurd ha List.not_mem_nil, fun _ => ⟨[], rfl⟩⟩
  | cons a l ih =>
    simp only [mapM_cons_eq_some, List.forall_mem_cons, ← ih]
    constructor
    · rintro ⟨_, r, hr, rs, hrs, -⟩
      exact ⟨⟨r, hr⟩, rs, hrs⟩
    · rintro ⟨⟨r, hr⟩, rs, hrs⟩
      exact ⟨_, r, hr, rs, hrs, rfl⟩

theorem mem_fillsFrom_of_mem {inst : InstrumentId} {cp : Price} {id : U64} {as : List OrderAllocation}
    {a : OrderAllocation} (ha : a ∈ as) (hz : a.allocatedQty.isZero = false) :
    ∃ id', fillOf inst cp id' a ∈ fillsFrom inst cp id as := by
  induction as generalizing id with
  | nil => cases ha
  | cons b as ih =>
    rw [fillsFrom]
    rcases List.mem_cons.mp ha with rfl | ha
    · rw [hz]
      exact ⟨id, List.mem_cons_self ..⟩
    · split_ifs
      · exact ih ha
      · obtain ⟨id', h⟩ := @ih (id + 1) ha
        exact ⟨id', List.mem_cons_of_mem _ h⟩

section Verdict

variable {D : Type} [CommitmentScheme D] [DecidableEq D] [StdSort] {fake : D} {pre : Ledger}
  {batch : Batch} {preimages : List SaltedOrderPreimage}

/-- An execution on which no attack of the matrix is harmless: the batch clears at `cp`, its first
order is `o`, and each forged value differs from the real one. -/
structure AttackMatrix.Exposing (fake : D) (batch : Batch) (preimages : List SaltedOrderPreimage)
    (r : BatchExecutionResult) (cp : Price) (o : Order) : Prop where
  clears : r.clearingOutcome.clearingPrice = some cp
  first : batch.orders.head? = some o
  price : (cp.raw : ℕ) ≠ 1 ∧ (cp.raw : ℕ) ≠ 99999
  allocated : ∀ a ∈ r.allocation.allocations, a.orderId = o.id →
    (a.allocatedQty.raw : ℕ) ≠ 0 ∧ (a.allocatedQty.raw : ℕ) ≠ 1 ∧
      (a.allocatedQty.raw : ℕ) ≠ 99999
  moved : ∃ a, netFills r.fills a ≠ 0
  cash_fits : r.postState.cashOf o.account + 10000 < 2 ^ 128
  lots_fit : r.postState.lotsOf batch.instrument o.account + 50 < 2 ^ 64
  leaf : ∀ p, preimages.head? = some p → commitOrder p ≠ fake

/-- A line of the report, from what the operator published. -/
theorem evaluate_eq_some {tc : TestCase D} {r : AttackEvaluationResult} :
    evaluate pre batch preimages tc = some r ↔
      ∃ exec, execute tc.mutation pre batch preimages = some exec ∧
        { attackName := tc.name, description := tc.desc, isHonestControl := tc.expectPass
          passedVerification := (audit pre batch preimages exec).passed
          rejectionReason := (audit pre batch preimages exec).rejectionReason
          expectedBehaviorMet := (audit pre batch preimages exec).passed == tc.expectPass } = r := by
  simp only [evaluate, Option.bind_eq_bind, Option.bind_eq_some_iff, Option.pure_def,
    Option.some.injEq]

/-- One line of the report meets its expectation when the mutation is harmless exactly for the honest
control. -/
theorem Batch.Accepted.evaluate_met (hb : batch.Accepted) (ideal : IdealHash D)
    (hp : (preimages.map (·.order)).Perm batch.orders) {tc : TestCase D} {r : AttackEvaluationResult}
    (h : evaluate pre batch preimages tc = some r) : r.expectedBehaviorMet = true ↔
      ((∃ r, executeBatch pre batch = .ok r ∧ pre.lotsSum batch.instrument < 2 ^ 64 ∧
        tc.mutation.Harmless batch preimages r) ↔ tc.expectPass = true) := by
  obtain ⟨exec, hexec, rfl⟩ := evaluate_eq_some.mp h
  rw [beq_iff_eq, Bool.eq_iff_iff, hb.passed_iff ideal hp hexec]

/-- The target's entry in the allocation of an execution. -/
theorem Batch.Accepted.exists_entry (hb : batch.Accepted) {r : BatchExecutionResult}
    (hr : executeBatch pre batch = .ok r) {o : Order} (ho : o ∈ batch.orders) :
    ∃ a ∈ r.allocation.allocations, a.orderId = o.id ∧
      ∀ b ∈ r.allocation.allocations, b.orderId = o.id → b = a := by
  obtain ⟨outcome, post, -, -, -, -, rfl⟩ := hb.executeBatch_eq_ok.mp hr
  refine ⟨_, List.mem_map.mpr ⟨o, ho, rfl⟩, rfl, fun b hmem hid => ?_⟩
  obtain ⟨o', ho', rfl⟩ := List.mem_map.mp hmem
  have hid : o'.id = o.id := hid
  rw [List.inj_on_of_nodup_map hb.orders.ids_nodup ho' ho hid]

omit [StdSort] in
/-- A credit of `extra > 0` is harmless only to an account that overflows. -/
theorem not_harmless_cash {r : BatchExecutionResult} (a : AccountId) {extra : Money}
    (hne : extra ≠ .zero) : (¬ ∃ acc, r.postState.getAccount a = some acc ∧
      ((acc.cash.raw : ℕ) + extra.raw < 2 ^ 128 → extra = .zero)) ↔
        r.postState.cashOf a + extra.raw < 2 ^ 128 := by
  unfold Ledger.cashOf
  cases r.postState.getAccount a with
  | none => simp
  | some acc => simp [hne]

omit [StdSort] in
theorem not_harmless_lots {r : BatchExecutionResult} (a : AccountId) (i : InstrumentId) {extra : Qty}
    (hne : extra ≠ .zero) : (¬ ∃ acc, r.postState.getAccount a = some acc ∧
      (((acc.inventoryOf i).raw : ℕ) + extra.raw < 2 ^ 64 → extra = .zero)) ↔
        r.postState.lotsOf i a + extra.raw < 2 ^ 64 := by
  unfold Ledger.lotsOf
  cases r.postState.getAccount a with
  | none => simp
  | some acc => simp [hne]

/-- The fills of the target are at the clearing price, and there is one when it trades. -/
theorem Batch.Accepted.fills_price_iff (hb : batch.Accepted) {r : BatchExecutionResult}
    (hr : executeBatch pre batch = .ok r) {cp bogus : Price}
    (hcp : r.clearingOutcome.clearingPrice = some cp) {o : Order} :
    (∀ f ∈ r.fills, f.orderId = o.id → f.executionPrice = bogus) ↔
      cp = bogus ∨ ∀ a ∈ r.allocation.allocations, a.orderId = o.id → (a.allocatedQty.raw : ℕ) = 0 := by
  obtain ⟨outcome, post, hout, -, -, -, rfl⟩ := hb.executeBatch_eq_ok.mp hr
  have hcp : outcome.clearingPrice = some cp := hcp
  have hfills : canonicalFills outcome batch = fillsFrom batch.instrument cp 0
      (canonicalAllocation outcome batch).allocations := by
    unfold canonicalFills
    rw [hcp]
  show (∀ f ∈ canonicalFills outcome batch, _) ↔ _
  rw [hfills]
  constructor
  · intro h
    by_contra hno
    push Not at hno
    obtain ⟨hne, a, ha, hid, hq⟩ := hno
    obtain ⟨id, hf⟩ := @mem_fillsFrom_of_mem batch.instrument cp 0 _ _ ha
      (by rwa [Bool.eq_false_iff, ne_eq, Qty.isZero_iff])
    exact hne (h _ hf hid)
  · rintro h f hf hid
    obtain ⟨id, a, ha, hz, rfl⟩ := mem_fillsFrom hf
    rcases h with rfl | h
    · rfl
    · rw [Bool.eq_false_iff, ne_eq, Qty.isZero_iff] at hz
      exact absurd (h a ha hid) hz

omit [DecidableEq D] in
/-- The eleven attacks are all harmful to an execution when it is exposing. -/
theorem Batch.Accepted.exposing_iff (hb : batch.Accepted)
    (hp : (preimages.map (·.order)).Perm batch.orders) {r : BatchExecutionResult}
    (hr : executeBatch pre batch = .ok r) :
    (∀ tc ∈ (testCases fake batch).tail, ¬ tc.mutation.Harmless batch preimages r) ↔
      ∃ cp o, Exposing fake batch preimages r cp o := by
  have hlen : preimages.length = batch.orders.length := length_preimages hp
  simp only [testCases, List.tail_cons, List.forall_mem_cons, AdversarialMutation.harmless_iff, makeMut,
    reduceCtorEq, false_implies, true_implies, ne_eq, not_false_eq_true, true_and, and_true,
    List.not_mem_nil, implies_true]
  have htarget : ∀ o, batch.orders.head? = some o → targetOrderId batch = o.id ∧
      targetAccountId batch = o.account ∧ o ∈ batch.orders := by
    intro o ho
    rw [targetOrderId, targetAccountId, ho]
    exact ⟨rfl, rfl, List.mem_of_head? ho⟩
  have hstale : ¬ (((1 : U64) : ℕ) = 0 ∨ 2 ^ 64 - 1000000000 ≤ ((1 : U64) : ℕ)) := by decide
  have hcash : (⟨10000⟩ : Money) ≠ .zero := by decide
  have hlots : (⟨50⟩ : Qty) ≠ .zero := by decide
  rw [not_harmless_cash _ hcash, not_harmless_lots _ _ hlots]
  -- a forged quantity is detected when it is not the target's own
  have hforge : ∀ o, o ∈ batch.orders → ∀ q : Qty,
      (¬ ∀ a ∈ r.allocation.allocations, a.orderId = o.id → a.allocatedQty = q) ↔
        ∀ a ∈ r.allocation.allocations, a.orderId = o.id → (a.allocatedQty.raw : ℕ) ≠ q.raw := by
    intro o ho q
    obtain ⟨a, ha, hid, hone⟩ := hb.exists_entry hr ho
    constructor
    · intro h b hb' hid' hq
      obtain rfl := hone b hb' hid'
      exact h fun c hc hidc => by rw [hone c hc hidc]; exact Qty.ext_val hq
    · intro h hall
      exact h a ha hid (by rw [hall a ha hid])
  constructor
  · rintro ⟨hne, hup, hdown, hover, hpref, hlimit, hmoved, hc, hl, hleaf, -⟩
    push Not at hup
    obtain ⟨cp, hcp, -⟩ := hup
    obtain ⟨o, os, horders⟩ := List.exists_cons_of_ne_nil
      (l := batch.orders) (by rintro h; rw [h] at hlen; simp [hlen] at hne)
    have ho : batch.orders.head? = some o := by rw [horders]; rfl
    obtain ⟨hid, hacct, hmem⟩ := htarget o ho
    rw [hid] at hover hpref hlimit
    rw [hacct] at hc hl
    rw [hb.fills_price_iff hr hcp, not_or] at hlimit
    simp only [hcp, Option.some.injEq, forall_eq', shiftPrice_down] at hdown
    refine ⟨cp, o, hcp, ho, ⟨hdown, fun h => hlimit.1 (Price.ext (Fin.ext h))⟩, ?_, ?_, hc, hl, ?_⟩
    · intro a ha hida
      refine ⟨fun h0 => hlimit.2 fun b hb' hidb => ?_, (hforge o hmem ⟨1⟩).mp hpref a ha hida,
        (hforge o hmem ⟨99999⟩).mp hover a ha hida⟩
      obtain ⟨e, -, -, hone⟩ := hb.exists_entry hr hmem
      rw [hone b hb' hidb, ← hone a ha hida]
      exact h0
    · push Not at hmoved
      exact hmoved
    · intro p hp' heq
      rw [List.head?_eq_getElem?] at hp'
      exact hleaf fun q hq => by rwa [Option.some.inj (hq.symm.trans hp')]
  · rintro ⟨cp, o, h⟩
    obtain ⟨hid, hacct, hmem⟩ := htarget o h.first
    rw [hid, hacct]
    obtain ⟨a, ha, hida, -⟩ := hb.exists_entry hr hmem
    have hpos : 0 < preimages.length := by
      rw [hlen]
      exact List.length_pos_of_mem hmem
    refine ⟨by omega, fun hall => shiftPrice_up cp (hall cp h.clears), fun hall => ?_,
      (hforge o hmem ⟨99999⟩).mpr fun b hb' hidb => (h.allocated b hb' hidb).2.2,
      (hforge o hmem ⟨1⟩).mpr fun b hb' hidb => (h.allocated b hb' hidb).2.1, ?_, ?_, h.cash_fits,
      h.lots_fit, ?_, hstale⟩
    · exact h.price.1 ((shiftPrice_down cp).mp (hall cp h.clears))
    · rw [hb.fills_price_iff hr h.clears, not_or]
      refine ⟨?_, fun hall => (h.allocated a ha hida).1 (hall a ha hida)⟩
      rintro rfl
      exact h.price.2 rfl
    · push Not
      exact h.moved
    · intro hall
      exact h.leaf _ (by rw [List.head?_eq_getElem?]; exact List.getElem?_eq_getElem hpos)
        (hall _ (List.getElem?_eq_getElem hpos))

omit [DecidableEq D] [StdSort] in
theorem testCases_type : ∀ tc ∈ testCases fake batch,
    tc.mutation.type ≠ .injectUnauthorizedOrder := by
  simp [testCases, makeMut]

omit [DecidableEq D] [StdSort] in
theorem testCases_expectPass : (testCases fake batch).map (·.expectPass) =
    true :: List.replicate 11 false := rfl

omit [DecidableEq D] in
/-- The honest control passes and the attacks are rejected: all expectations in one. -/
theorem Batch.Accepted.expectations_iff (hb : batch.Accepted)
    (hp : (preimages.map (·.order)).Perm batch.orders) :
    (∀ tc ∈ testCases fake batch,
      ((∃ r, executeBatch pre batch = .ok r ∧ pre.lotsSum batch.instrument < 2 ^ 64 ∧
        tc.mutation.Harmless batch preimages r) ↔ tc.expectPass = true)) ↔
      ∃ r cp o, executeBatch pre batch = .ok r ∧ pre.lotsSum batch.instrument < 2 ^ 64 ∧
        Exposing fake batch preimages r cp o := by
  have hhonest : ∀ r, (makeMut .none : AdversarialMutation D).Harmless batch preimages r := fun r => by
    simp [AdversarialMutation.harmless_iff, makeMut]
  have htail : ∀ tc ∈ (testCases fake batch).tail, tc.expectPass = false := by
    simp [testCases]
  have hcons : testCases fake batch = (testCases fake batch).head (List.cons_ne_nil _ _) ::
      (testCases fake batch).tail := rfl
  constructor
  · intro h
    rw [hcons, List.forall_mem_cons] at h
    obtain ⟨r, hr, hlots, -⟩ := h.1.mpr rfl
    obtain ⟨cp, o, hexp⟩ := (hb.exposing_iff hp hr).mp fun tc htc hm => by
      have := (h.2 tc htc).mp ⟨r, hr, hlots, hm⟩
      rw [htail tc htc] at this
      cases this
    exact ⟨r, cp, o, hr, hlots, hexp⟩
  · rintro ⟨r, cp, o, hr, hlots, hexp⟩
    rw [hcons, List.forall_mem_cons]
    refine ⟨⟨fun _ => rfl, fun _ => ⟨r, hr, hlots, hhonest r⟩⟩, fun tc htc => ?_⟩
    rw [htail tc htc]
    refine ⟨?_, fun h => absurd h Bool.false_ne_true⟩
    rintro ⟨r', hr', -, hm⟩
    obtain rfl := Except.ok.inj (hr.symm.trans hr')
    exact absurd hm ((hb.exposing_iff hp hr).mpr ⟨cp, o, hexp⟩ tc htc)

omit [DecidableEq D] [StdSort] in
/-- Both moved prices of the matrix have to be `int64_t`s. -/
theorem testCases_shift_iff {p : Price} :
    (∀ tc ∈ testCases fake batch, tc.mutation.type = .manipulateClearingPrice →
      ∃ q, shiftPrice p tc.mutation.offsetTicks = some q) ↔
        (p.raw : ℕ) + 5 < 2 ^ 63 ∨ 2 ^ 63 + 5 ≤ (p.raw : ℕ) := by
  have hlt := p.raw.isLt
  simp only [testCases, List.forall_mem_cons, makeMut, reduceCtorEq, false_implies, true_implies,
    true_and, and_true, List.not_mem_nil, implies_true, exists_shiftPrice_iff, InI64, I64.ofU64_val]
  split_ifs <;> omega

/-- There is a report when each operator publishes an execution. -/
theorem exists_runAttackMatrix_iff :
    (∃ report, runAttackMatrix fake pre batch preimages = some report) ↔
      ∀ tc ∈ testCases fake batch, ∃ exec, execute tc.mutation pre batch preimages = some exec := by
  simp only [runAttackMatrix, Option.bind_eq_bind, Option.bind_eq_some_iff, Option.pure_def,
    Option.some.injEq]
  constructor
  · rintro ⟨-, results, hresults, -⟩ tc htc
    obtain ⟨r, hr⟩ := mapM_isSome.mp ⟨results, hresults⟩ tc htc
    obtain ⟨exec, hexec, -⟩ := evaluate_eq_some.mp hr
    exact ⟨exec, hexec⟩
  · intro hexec
    obtain ⟨results, hresults⟩ := mapM_isSome.mpr fun tc htc => by
      obtain ⟨exec, hexec⟩ := hexec tc htc
      exact ⟨_, evaluate_eq_some.mpr ⟨exec, hexec, rfl⟩⟩
    exact ⟨_, results, hresults, rfl⟩

omit [DecidableEq D] in
/-- The operators of the matrix all publish when the batch clears at a price that can be moved. -/
theorem Batch.Accepted.exists_executions_iff (hb : batch.Accepted)
    (hp : (preimages.map (·.order)).Perm batch.orders) :
    (∀ tc ∈ testCases fake batch, ∃ exec, execute tc.mutation pre batch preimages = some exec) ↔
      ∃ outcome, determineClearingOutcome batch = .ok outcome ∧
        ∀ p, outcome.clearingPrice = some p →
          (p.raw : ℕ) + 5 < 2 ^ 63 ∨ 2 ^ 63 + 5 ≤ (p.raw : ℕ) := by
  constructor
  · intro hexec
    -- the honest control clears the batch itself
    obtain ⟨exec, hhonest⟩ := hexec _ (List.mem_cons_self ..)
    obtain ⟨outcome, -, -, -, -, ho, -⟩ := execute_eq_some.mp hhonest
    have hsame : mutatePreimages (makeMut .none : AdversarialMutation D) preimages = preimages := rfl
    rw [hsame, hb.new_eq hp] at ho
    refine ⟨outcome, ho, fun p hprice => ?_⟩
    have hshift : ∀ tc ∈ testCases fake batch, tc.mutation.type = .manipulateClearingPrice →
        ∃ q, shiftPrice p tc.mutation.offsetTicks = some q := fun tc htc ht =>
      (exists_execute_iff hb hp ho (testCases_type tc htc)).mp (hexec tc htc) ht p hprice
    exact testCases_shift_iff.mp hshift
  · rintro ⟨outcome, ho, hshift⟩ tc htc
    exact (exists_execute_iff hb hp ho (testCases_type tc htc)).mpr fun ht p hprice =>
      testCases_shift_iff.mpr (hshift p hprice) tc htc ht

/-- **The matrix.** It reports for every batch that clears at a price it can move by five ticks in 64
bits. All its expectations are met, the honest execution passing and the eleven others rejected,
exactly on an exposing execution. -/
theorem runAttackMatrix_held_iff (ideal : IdealHash D) {batchId : BatchId}
    {instrument : InstrumentId} {orders : List Order}
    (hb : Batch.create batchId instrument orders = .ok batch)
    (hp : (preimages.map (·.order)).Perm batch.orders) :
    ((∃ report, runAttackMatrix fake pre batch preimages = some report) ↔
      ∃ outcome, determineClearingOutcome batch = .ok outcome ∧
        ∀ p, outcome.clearingPrice = some p →
          (p.raw : ℕ) + 5 < 2 ^ 63 ∨ 2 ^ 63 + 5 ≤ (p.raw : ℕ)) ∧
    ∀ report, runAttackMatrix fake pre batch preimages = some report →
      (report.allInvariantsHeld = true ↔ ∃ r cp o, executeBatch pre batch = .ok r ∧
        pre.lotsSum batch.instrument < 2 ^ 64 ∧ Exposing fake batch preimages r cp o) ∧
      (report.allInvariantsHeld = true →
        report.totalEvaluated = 12 ∧ report.totalAttacksRejected = 11) := by
  have hacc := Batch.accepted_of_create hb
  refine ⟨exists_runAttackMatrix_iff.trans (hacc.exists_executions_iff hp), ?_⟩
  simp only [runAttackMatrix, Option.bind_eq_bind, Option.bind_eq_some_iff, Option.pure_def,
    Option.some.injEq]
  rintro report ⟨results, hresults, rfl⟩
  constructor
  · rw [← hacc.expectations_iff hp]
    refine (mapM_all hresults _).trans (forall₂_congr fun tc htc => ?_)
    obtain ⟨r, hr⟩ := mapM_isSome.mp ⟨results, hresults⟩ tc htc
    exact ⟨fun h => (hacc.evaluate_met ideal hp hr).mp (h r hr),
      fun h r' hr' => (hacc.evaluate_met ideal hp hr').mpr h⟩
  · intro hheld
    have hheld : results.all (·.expectedBehaviorMet) = true := hheld
    have hpassed : results.map (·.passedVerification) = (testCases fake batch).map (·.expectPass) := by
      refine mapM_map hresults fun tc _ r hmem hr => ?_
      have := List.all_eq_true.mp hheld r hmem
      obtain ⟨exec, -, rfl⟩ := evaluate_eq_some.mp hr
      exact beq_iff_eq.mp this
    rw [testCases_expectPass] at hpassed
    constructor
    · have := congrArg List.length hpassed
      rwa [List.length_map] at this
    · have := congrArg (List.countP fun b => !b) hpassed
      rwa [List.countP_map] at this

end Verdict

/-! ### The fixture of the tests -/

/-- One buy and one sell of 20 lots. -/
def attackedBatch : Batch where
  batchId := ⟨1⟩
  instrument := ⟨1⟩
  orders := [⟨⟨1⟩, ⟨1⟩, ⟨1⟩, .buy, ⟨100⟩, ⟨20⟩, 0⟩, ⟨⟨2⟩, ⟨2⟩, ⟨1⟩, .sell, ⟨100⟩, ⟨20⟩, 1⟩]

def attackedLedger : Ledger :=
  (Ledger.empty.insertAccount (.new ⟨1⟩ ⟨10000⟩)).insertAccount
    { AccountState.new ⟨2⟩ .zero with inventory := SortedMap.empty.insert ⟨1⟩ ⟨50⟩ }

def attackedPreimages : List SaltedOrderPreimage := attackedBatch.orders.map fun o => ⟨o, .fill 1⟩

/-- Its execution. -/
def attackedResult : BatchExecutionResult where
  clearingOutcome := ⟨some ⟨100⟩, ⟨20⟩⟩
  allocation := ⟨some ⟨100⟩, ⟨20⟩, ⟨20⟩, ⟨20⟩, attackedBatch.orders.map fun o => .of o ⟨20⟩⟩
  fills := [⟨0, ⟨1⟩, ⟨1⟩, ⟨1⟩, .buy, ⟨100⟩, ⟨20⟩, ⟨2000⟩⟩, ⟨1, ⟨2⟩, ⟨2⟩, ⟨1⟩, .sell, ⟨100⟩, ⟨20⟩, ⟨2000⟩⟩]
  postState :=
    (Ledger.empty.insertAccount
      { AccountState.new ⟨1⟩ ⟨8000⟩ with inventory := SortedMap.empty.insert ⟨1⟩ ⟨20⟩ }).insertAccount
      { AccountState.new ⟨2⟩ ⟨2000⟩ with inventory := SortedMap.empty.insert ⟨1⟩ ⟨30⟩ }

theorem attackedBatch_create :
    @Batch.create .stable ⟨1⟩ ⟨1⟩ attackedBatch.orders = .ok attackedBatch := by
  decide +kernel

theorem attackedPreimages_perm : (attackedPreimages.map (·.order)).Perm attackedBatch.orders := by
  decide +kernel

theorem executeBatch_attacked :
    @executeBatch .stable attackedLedger attackedBatch = .ok attackedResult := by
  decide +kernel

/-- Lots of an instrument other than the batch's, out of thin air. -/
def foreignInflation : AdversarialMutation TermDigest :=
  { makeMut .inflatePostStateInventory with
    beneficiaryAccount := ⟨1⟩, extraInstrument := ⟨2⟩, extraQty := ⟨50⟩ }

theorem foreignInflation_harmless :
    foreignInflation.Harmless attackedBatch attackedPreimages attackedResult := by
  simp only [AdversarialMutation.harmless_iff, foreignInflation, makeMut, reduceCtorEq,
    false_implies, true_implies, true_and, and_true, ne_eq, not_false_eq_true]
  obtain ⟨acc, hacc⟩ := Option.isSome_iff_exists.mp
    (show (attackedResult.postState.getAccount ⟨1⟩).isSome by decide +kernel)
  exact ⟨acc, hacc, fun h => absurd h (by decide)⟩

theorem execute_foreign : ∃ exec, @execute TermDigest foreignInflation _ .stable attackedLedger
    attackedBatch attackedPreimages = some exec :=
  (@exists_execute_iff .stable TermDigest _ foreignInflation attackedLedger attackedBatch
    attackedPreimages (@Batch.accepted_of_create .stable _ _ _ _ attackedBatch_create)
    attackedPreimages_perm ⟨some ⟨100⟩, ⟨20⟩⟩ (by decide +kernel) (by decide)).mpr
      fun h => absurd h (by decide)

/-- Inflating another instrument passes the audits. -/
theorem audits_pass_foreign : ∃ exec,
    @execute TermDigest foreignInflation _ .stable attackedLedger attackedBatch attackedPreimages =
      some exec ∧
    (@audit TermDigest _ _ .stable attackedLedger attackedBatch attackedPreimages exec).passed =
      true := by
  obtain ⟨exec, hexec⟩ := execute_foreign
  exact ⟨exec, hexec, (@audits_pass_iff TermDigest foreignInflation attackedPreimages .stable
    attackedLedger attackedBatch _ exec _ TermDigest.idealHash ⟨1⟩ ⟨1⟩ attackedBatch.orders
    attackedBatch_create attackedPreimages_perm hexec).mpr
      ⟨attackedResult, executeBatch_attacked, by decide +kernel, foreignInflation_harmless⟩⟩

/-- What it publishes of the batch is honest all the same. -/
theorem audits_pass_publishes_foreign : ∃ exec,
    @execute TermDigest foreignInflation _ .stable attackedLedger attackedBatch attackedPreimages =
      some exec ∧
    exec.executionResult.fills = attackedResult.fills ∧
    attackedResult.postState.Matches ⟨1⟩ exec.executionResult.postState := by
  obtain ⟨exec, hexec⟩ := execute_foreign
  have hacc := @Batch.accepted_of_create .stable _ _ _ _ attackedBatch_create
  have hpass := (@Batch.Accepted.passed_iff TermDigest foreignInflation attackedPreimages .stable
    attackedLedger attackedBatch _ exec _ hacc TermDigest.idealHash attackedPreimages_perm hexec).mpr
      ⟨attackedResult, executeBatch_attacked, by decide +kernel, foreignInflation_harmless⟩
  obtain ⟨r, hr, -, -, -, hfills, -, hm⟩ := @audits_pass_publishes TermDigest foreignInflation
    attackedPreimages .stable attackedLedger attackedBatch _ exec _ ⟨1⟩ ⟨1⟩ attackedBatch.orders
    TermDigest.idealHash attackedBatch_create attackedPreimages_perm hexec hpass
  obtain rfl := Except.ok.inj (executeBatch_attacked.symm.trans hr)
  exact ⟨exec, hexec, hfills, hm⟩

/-- The matrix on the fixture. -/
theorem runAttackMatrix_held_example : ∃ report,
    @runAttackMatrix TermDigest _ _ .stable .zero attackedLedger attackedBatch attackedPreimages =
      some report ∧
    report.allInvariantsHeld = true ∧ report.totalAttacksRejected = 11 := by
  have h := @runAttackMatrix_held_iff TermDigest _ _ .stable .zero attackedLedger attackedBatch
    attackedPreimages TermDigest.idealHash ⟨1⟩ ⟨1⟩ attackedBatch.orders attackedBatch_create
    attackedPreimages_perm
  obtain ⟨report, hreport⟩ := h.1.mpr ⟨⟨some ⟨100⟩, ⟨20⟩⟩, by decide +kernel, fun p hp => by
    obtain rfl := Option.some.inj hp
    decide⟩
  have hheld := (h.2 report hreport).1.mpr ⟨attackedResult, ⟨100⟩, attackedBatch.orders.head (by decide),
    executeBatch_attacked, by decide +kernel,
    { clears := rfl
      first := rfl
      price := by decide
      allocated := by decide +kernel
      moved := ⟨⟨1⟩, by decide +kernel⟩
      cash_fits := by decide +kernel
      lots_fit := by decide +kernel
      leaf := by
        rintro p hp
        obtain rfl := Option.some.inj hp
        exact TermDigest.noConfusion }⟩
  exact ⟨report, hreport, hheld, ((h.2 report hreport).2 hheld).2⟩

end FairCross
