import FairCross.Proof.Constraints
import FairCross.Proof.Proofs.R1csProofs

/-!
# What the subrelations assert

For every subrelation: when its synthesis succeeds, and what its constraints say about the scalars it
pushes. Nothing is assumed about the batch or the allocation here.
-/

namespace FairCross

open Synth LinearCombination

/-! ## Scalars -/

theorem toScalar_eq_cast (a : U64) : toScalar a = ((a : ℕ) : Scalar) :=
  (BitVec.natCast_eq_ofNat ..).symm

/-- Numbers below 2^128 are told apart. -/
theorem scalar_natCast_inj {a b : ℕ} (ha : a < 2 ^ 128) (hb : b < 2 ^ 128) :
    ((a : Scalar) = (b : Scalar)) ↔ a = b := by
  refine ⟨fun h => ?_, fun h => by rw [h]⟩
  have := congrArg BitVec.toNat h
  rw [BitVec.natCast_eq_ofNat, BitVec.natCast_eq_ofNat, BitVec.toNat_ofNat, BitVec.toNat_ofNat,
    Nat.mod_eq_of_lt ha, Nat.mod_eq_of_lt hb] at this
  exact this

theorem toScalar_inj {a b : U64} : toScalar a = toScalar b ↔ a = b := by
  have ha := a.isLt
  have hb := b.isLt
  rw [toScalar_eq_cast, toScalar_eq_cast, scalar_natCast_inj (by omega) (by omega)]
  exact Fin.val_inj

@[simp] theorem toScalar_zero : toScalar 0 = 0 := rfl

@[simp] theorem toScalar_one : toScalar 1 = 1 := rfl

theorem toScalar_sub {a b : U64} (h : (b : ℕ) ≤ a) :
    toScalar (a - b) = toScalar a - toScalar b := by
  rw [toScalar_eq_cast, toScalar_eq_cast, toScalar_eq_cast, Fin.sub_val_of_le h, Nat.cast_sub h]

/-- A slack that is cut off at zero makes a difference an inequality. -/
theorem toScalar_slack {a b : U64} :
    toScalar a - toScalar b = toScalar (if a > b then a - b else 0) ↔ b ≤ a := by
  rcases lt_trichotomy b a with h | h | h
  · rw [if_pos h, toScalar_sub h.le]
    exact iff_of_true rfl h.le
  · rw [h, if_neg (lt_irrefl a), sub_self, toScalar_zero]
    exact iff_of_true rfl le_rfl
  · rw [if_neg (not_lt.mpr h.le), toScalar_zero, sub_eq_zero, toScalar_inj]
    exact iff_of_false (ne_of_lt h) (not_le.mpr h)

/-- The positivity gadget multiplies a value by its flag. -/
theorem toScalar_mul_flag (x : U64) : toScalar x * toScalar (if x ≠ 0 then 1 else 0) = toScalar x := by
  by_cases hx : x = 0
  · simp [hx]
  · simp [hx]

section Subrelations

variable {publicInputs witness : List U64} {n : ℕ} {pre : Prop}

/-! ## Order validity -/

/-- The constraints of the order at position `idx`. -/
def OrderAsserts (batchInstrument : U64) (idx : ℕ) (order : Order) : Prop :=
  order.instrument.raw = batchInstrument ∧ toScalar order.seq = BitVec.ofNat 128 idx

instance (batchInstrument : U64) (idx : ℕ) (order : Order) :
    Decidable (OrderAsserts batchInstrument idx order) :=
  inferInstanceAs (Decidable (_ ∧ _))

theorem emits_synthesizeOrder (batchInstrument : U64) (idx : ℕ) (order : Order) :
    Emits publicInputs witness n (synthesizeOrder batchInstrument idx order) pre True 0 5
      (fun _ => True) (OrderAsserts batchInstrument idx order) := by
  refine Emits.block [order.id.raw, order.account.raw, order.instrument.raw,
    if order.side = .buy then 0 else 1, order.price.raw, order.qty.raw, order.seq,
    if order.price.raw ≠ 0 then 1 else 0, if order.qty.raw ≠ 0 then 1 else 0]
    fun s _ => ⟨_, _, rfl, by simp, rfl, rfl, by simp, fun hr _ => ⟨trivial, ?_⟩⟩
  obtain ⟨-, -, hinst, hside, hprice, hqty, hseq, hprice', hqty', -⟩ := hr
  -- the side is a bit, and the two flags are what the positivity gadgets multiply with
  have hbit : toScalar (if order.side = .buy then 0 else 1) *
      (1 + -1 * toScalar (if order.side = .buy then 0 else 1)) = 0 := by
    split_ifs <;> simp
  simp only [ConstraintSystem.sat_enforceEqual, ConstraintSystem.sat_enforce,
    ConstraintSystem.sat_mk, ConstraintSystem.enforce_numWitness,
    ConstraintSystem.enforceEqual_numWitness, evaluate_fromVar, evaluate_fromConstant,
    evaluate_addTerm, evaluate_zero, hinst, hside, hprice, hqty, hseq, hprice', hqty', hbit,
    toScalar_mul_flag, toScalar_inj, OrderAsserts]
  tauto

theorem emits_synthesizeOrdersFrom (batchInstrument : U64) (idx : ℕ) (orders : List Order) :
    Emits publicInputs witness n (synthesizeOrdersFrom batchInstrument idx orders) pre True 0
      (orders.length * 5) (fun _ => True)
      (∀ p ∈ orders.zipIdx idx, OrderAsserts batchInstrument p.2 p.1) := by
  induction orders generalizing idx pre with
  | nil => exact (Emits.done []).mono (Nat.zero_le _) Iff.rfl (fun _ _ => id) (fun _ => by simp)
  | cons order orders ih =>
    refine Emits.mono ((emits_synthesizeOrder batchInstrument idx order).bind fun allocated =>
      (ih (idx + 1)).bind fun rest => Emits.done (allocated :: rest)) ?_ (by simp) (fun _ _ => id)
      (fun _ => by simp)
    rw [List.length_cons]
    omega

theorem emits_synthesizeOrderValidityConstraints (batchInstrument : U64) (orders : List Order) :
    Emits publicInputs witness n (synthesizeOrderValidityConstraints batchInstrument orders) pre True
      0 (orders.length * 5) (fun _ => True)
      (∀ p ∈ orders.zipIdx, OrderAsserts batchInstrument p.2 p.1) :=
  emits_synthesizeOrdersFrom batchInstrument 0 orders

/-! ## Complete-input accounting -/

section Accounting

variable {D : Type} [CommitmentScheme D] [DecidableEq D]

/-- The checks of the record at position `idx`. -/
def RecordChecked (merkleTree : MerkleTree D) (allocation : BatchAllocation) (idx : ℕ)
    (record : OrderAccountingRecord D) (preimage : SaltedOrderPreimage) : Prop :=
  ∃ proof alloc, merkleTree.generateProof idx = some proof ∧
    proof.fold (commitOrder preimage) = merkleTree.root ∧
    allocation.allocations.find? (·.orderId = record.orderId) = some alloc ∧
    record.disposition = expectedDisposition alloc

/-- The constraints of the record at position `idx`; `rootValue` is the published root. -/
def RecordAsserts (merkleTree : MerkleTree D) (rootValue : Scalar) (idx : ℕ)
    (record : OrderAccountingRecord D) : Prop :=
  toScalar record.leafIndex = BitVec.ofNat 128 idx ∧
    toScalar (rootScalar merkleTree.root) = rootValue

theorem emits_synthesizeRecord (merkleTree : MerkleTree D) (allocation : BatchAllocation)
    (rootPubVar : Variable) (countLc : LinearCombination) (idx : ℕ)
    (record : OrderAccountingRecord D) (preimage : SaltedOrderPreimage) :
    Emits publicInputs witness n
      (synthesizeRecord merkleTree allocation rootPubVar countLc idx record preimage) pre
      (RecordChecked merkleTree allocation idx record preimage) 0 2
      (fun lc => lc.evaluate publicInputs witness = countLc.evaluate publicInputs witness + 1)
      (RecordAsserts merkleTree (rootPubVar.value publicInputs witness) idx record) := by
  by_cases hg : RecordChecked merkleTree allocation idx record preimage
  · obtain ⟨proof, alloc, hproof, hroot, halloc, hdisp⟩ := id hg
    have hverify : (!proof.verify merkleTree.root (commitOrder preimage)) ≠ true := by
      simp [MerkleProof.verify, hroot]
    simp only [synthesizeRecord, hproof, synthesizeMerkleInclusionConstraintWithRootVar,
      if_neg hverify, halloc, if_neg (not_not.mpr hdisp)]
    refine Emits.of_guard hg (Emits.block [record.leafIndex,
      rootScalar (proof.fold (commitOrder preimage))] fun s _ => ⟨_, _, rfl, by simp, rfl, rfl,
        by simp, fun hr _ => ⟨by simp, ?_⟩⟩)
    obtain ⟨hseq, hrootVar, -⟩ := hr
    simp only [ConstraintSystem.sat_enforceEqual, ConstraintSystem.sat_mk,
      ConstraintSystem.enforceEqual_numWitness, evaluate_fromVar, evaluate_fromConstant, hseq,
      hrootVar, hroot, RecordAsserts, and_assoc]
  · refine Emits.of_fails hg fun s => ?_
    cases hproof : merkleTree.generateProof idx with
    | none =>
      simp only [synthesizeRecord, hproof]
      exact ⟨_, rfl⟩
    | some proof =>
      by_cases hroot : proof.fold (commitOrder preimage) = merkleTree.root
      · have hverify : (!proof.verify merkleTree.root (commitOrder preimage)) ≠ true := by
          simp [MerkleProof.verify, hroot]
        cases halloc : allocation.allocations.find? (·.orderId = record.orderId) with
        | none =>
          simp only [synthesizeRecord, hproof, synthesizeMerkleInclusionConstraintWithRootVar,
            if_neg hverify, halloc]
          exact ⟨_, rfl⟩
        | some alloc =>
          have hdisp : record.disposition ≠ expectedDisposition alloc := fun hdisp =>
            hg ⟨proof, alloc, hproof, hroot, halloc, hdisp⟩
          simp only [synthesizeRecord, hproof, synthesizeMerkleInclusionConstraintWithRootVar,
            if_neg hverify, halloc, if_pos hdisp]
          exact ⟨_, rfl⟩
      · have hverify : (!proof.verify merkleTree.root (commitOrder preimage)) = true := by
          simp [MerkleProof.verify, hroot]
        simp only [synthesizeRecord, hproof, synthesizeMerkleInclusionConstraintWithRootVar,
          if_pos hverify]
        exact ⟨_, rfl⟩

theorem emits_synthesizeRecordsFrom (merkleTree : MerkleTree D) (allocation : BatchAllocation)
    (rootPubVar : Variable) (idx : ℕ) (countLc : LinearCombination)
    (rest : List (OrderAccountingRecord D × SaltedOrderPreimage)) :
    Emits publicInputs witness n
      (synthesizeRecordsFrom merkleTree allocation rootPubVar idx countLc rest) pre
      (∀ p ∈ rest.zipIdx idx, RecordChecked merkleTree allocation p.2 p.1.1 p.1.2) 0
      (rest.length * 2)
      (fun lc => lc.evaluate publicInputs witness =
        countLc.evaluate publicInputs witness + (rest.length : ℕ))
      (∀ p ∈ rest.zipIdx idx,
        RecordAsserts merkleTree (rootPubVar.value publicInputs witness) p.2 p.1.1) := by
  induction rest generalizing idx countLc pre with
  | nil =>
    refine (Emits.pure countLc).mono (Nat.zero_le _) (by simp) ?_ (fun _ => by simp)
    rintro - lc rfl
    simp
  | cons p rest ih =>
    obtain ⟨record, preimage⟩ := p
    refine Emits.mono ((emits_synthesizeRecord merkleTree allocation rootPubVar countLc idx record
      preimage).bind fun lc => (ih (idx + 1) lc).mono le_rfl Iff.rfl ?_ (fun _ => Iff.rfl))
      ?_ (by simp) (fun _ _ => id) (fun _ => by simp)
    · rintro ⟨-, hlc⟩ lc' h
      rw [h, hlc, List.length_cons, Nat.cast_succ]
      ring
    · rw [List.length_cons]
      omega

/-- The checks of the accounting subrelation. -/
def AccountingChecked (batch : Batch) (preimages : List SaltedOrderPreimage)
    (merkleTree : MerkleTree D) (accounting : CompleteInputAccounting D)
    (allocation : BatchAllocation) : Prop :=
  verifyCompleteInputAccounting batch merkleTree accounting allocation = .ok () ∧
    batch.len = accounting.records.length ∧
    ∀ p ∈ (accounting.records.zip preimages).zipIdx,
      RecordChecked merkleTree allocation p.2 p.1.1 p.1.2

/-- The constraints of the accounting subrelation, with the published batch length and root. -/
def AccountingAsserts (preimages : List SaltedOrderPreimage) (merkleTree : MerkleTree D)
    (accounting : CompleteInputAccounting D) (lenValue rootValue : Scalar) : Prop :=
  (∀ p ∈ (accounting.records.zip preimages).zipIdx,
      RecordAsserts merkleTree rootValue p.2 p.1.1) ∧
    (((accounting.records.zip preimages).length : ℕ) : Scalar) = lenValue

theorem emits_synthesizeCompleteInputAccountingConstraints (batch : Batch)
    (preimages : List SaltedOrderPreimage) (merkleTree : MerkleTree D)
    (accounting : CompleteInputAccounting D) (allocation : BatchAllocation) :
    Emits publicInputs witness n
      (synthesizeCompleteInputAccountingConstraints batch preimages merkleTree accounting allocation)
      pre (AccountingChecked batch preimages merkleTree accounting allocation) 2
      ((accounting.records.zip preimages).length * 2 + 1) (fun _ => True)
      (AccountingAsserts preimages merkleTree accounting
        ((Variable.publicVar n).value publicInputs witness)
        ((Variable.publicVar (n + 1)).value publicInputs witness)) := by
  have hequal : ∀ (batchLenVar rootPubVar : Variable) (countLc : LinearCombination),
      Emits publicInputs witness (n + 1 + 1 + 0)
      (enforceEqual countLc (fromVar batchLenVar) "total_accounting_cardinality_equality")
      (((pre ∧ batchLenVar = .publicVar n) ∧ rootPubVar = .publicVar (n + 1)) ∧
        countLc.evaluate publicInputs witness = zero.evaluate publicInputs witness +
          ((accounting.records.zip preimages).length : ℕ)) True 0 1 (fun _ => True)
      ((((accounting.records.zip preimages).length : ℕ) : Scalar) =
        (Variable.publicVar n).value publicInputs witness) := by
    intro batchLenVar rootPubVar countLc
    refine Emits.enforceEqual.mono le_rfl Iff.rfl (fun _ _ => id) ?_
    rintro ⟨⟨⟨-, rfl⟩, -⟩, h⟩
    rw [h, evaluate_zero, evaluate_fromVar, zero_add]
  have hcount : ∀ batchLenVar rootPubVar, Emits publicInputs witness (n + 1 + 1)
      (do
        let countLc ← synthesizeRecordsFrom merkleTree allocation rootPubVar 0 zero
          (accounting.records.zip preimages)
        enforceEqual countLc (fromVar batchLenVar) "total_accounting_cardinality_equality")
      ((pre ∧ batchLenVar = .publicVar n) ∧ rootPubVar = .publicVar (n + 1))
      (∀ p ∈ (accounting.records.zip preimages).zipIdx,
        RecordChecked merkleTree allocation p.2 p.1.1 p.1.2) 0
      ((accounting.records.zip preimages).length * 2 + 1) (fun _ => True)
      (AccountingAsserts preimages merkleTree accounting
        ((Variable.publicVar n).value publicInputs witness)
        ((Variable.publicVar (n + 1)).value publicInputs witness)) := by
    intro batchLenVar rootPubVar
    refine Emits.mono ((emits_synthesizeRecordsFrom merkleTree allocation rootPubVar 0 zero
      (accounting.records.zip preimages)).bind fun countLc => hequal batchLenVar rootPubVar countLc)
      le_rfl (by simp) (fun _ _ => id) ?_
    rintro ⟨⟨-, rfl⟩, rfl⟩
    exact Iff.rfl
  unfold synthesizeCompleteInputAccountingConstraints
  refine Emits.mono (Emits.lift_bind fun _ _ => Emits.check fun _ =>
    Emits.allocPublic.bind fun batchLenVar => Emits.allocPublic.bind fun rootPubVar =>
      hcount batchLenVar rootPubVar) ?_ ?_ (fun _ _ => id) (fun _ => by simp)
  · omega
  · simp only [Result.orFail_eq_ok, not_not, true_and, AccountingChecked, ne_eq]
    constructor
    · rintro ⟨⟨_, h1⟩, h2, h3⟩
      exact ⟨h1, h2, h3⟩
    · rintro ⟨h1, h2, h3⟩
      exact ⟨⟨(), h1⟩, h2, h3⟩

end Accounting

/-! ## Clearing optimality -/

/-- Demand and supply at a candidate price can be computed. -/
def CandidateChecked (orders : List Order) (price : Price) : Prop :=
  (∃ d, demandFromOrders orders price = .ok d) ∧ ∃ s, supplyFromOrders orders price = .ok s

/-- The volume of a candidate price and its slack add up to the published volume. -/
def CandidateAsserts (orders : List Order) (volValue : Scalar) (volRaw : U64) (price : Price) : Prop :=
  ∀ d s, demandFromOrders orders price = .ok d → supplyFromOrders orders price = .ok s →
    volValue - toScalar (min d.raw s.raw) =
      toScalar (if volRaw > min d.raw s.raw then volRaw - min d.raw s.raw else 0)

theorem emits_synthesizeCandidate (orders : List Order) (volPubVar : Variable) (volRaw : U64)
    (price : Price) :
    Emits publicInputs witness n (synthesizeCandidate orders volPubVar volRaw price) pre
      (CandidateChecked orders price) 0 2 (fun _ => True)
      (CandidateAsserts orders (volPubVar.value publicInputs witness) volRaw price) := by
  unfold synthesizeCandidate
  refine Emits.mono (Emits.lift_bind fun demand hd => Emits.lift_bind fun supply hs =>
    Emits.block [demand.raw, supply.raw, min demand.raw supply.raw,
      if volRaw > min demand.raw supply.raw then volRaw - min demand.raw supply.raw else 0]
      fun s _ => ⟨_, _, rfl, by simp, rfl, rfl, by simp, fun hr _ => ⟨trivial, ?_⟩⟩)
    le_rfl (by simp [CandidateChecked, Result.orFail_eq_ok]) (fun _ _ => id) (fun _ => Iff.rfl)
  obtain ⟨hdVar, hsVar, hvVar, hslack, -⟩ := hr
  rw [Result.orFail_eq_ok] at hd hs
  simp only [ConstraintSystem.sat_enforceEqual, ConstraintSystem.sat_enforce,
    ConstraintSystem.sat_mk, evaluate_fromVar, evaluate_fromConstant, evaluate_addTerm_neg, hdVar,
    hsVar, hvVar, hslack, wrappingMul, and_true, CandidateAsserts, hd, hs, Except.ok.injEq]
  constructor
  · rintro ⟨hsat, h⟩
    refine ⟨hsat, ?_⟩
    rintro d s rfl rfl
    exact h
  · rintro ⟨hsat, h⟩
    exact ⟨hsat, h _ _ rfl rfl⟩

/-- The checks of the clearing subrelation. -/
def ClearingChecked [StdSort] (batch : Batch) (clearingPrice : Option Price) (clearedVolume : Qty) :
    Prop :=
  determineClearingOutcome batch = .ok ⟨clearingPrice, clearedVolume⟩ ∧
    ∀ price ∈ candidatePricesFromOrders batch.orders, CandidateChecked batch.orders price

/-- The constraints of the clearing subrelation, with the published price and volume. -/
def ClearingAsserts [StdSort] (batch : Batch) (clearingPrice : Option Price) (clearedVolume : Qty)
    (cpValue volValue : Scalar) : Prop :=
  (∀ price ∈ candidatePricesFromOrders batch.orders,
      CandidateAsserts batch.orders volValue clearedVolume.raw price) ∧
    toScalar ((clearingPrice.map (·.raw)).getD 0) = cpValue ∧ toScalar clearedVolume.raw = volValue

theorem emits_synthesizeClearingOptimalityConstraints [StdSort] (batch : Batch)
    (clearingPrice : Option Price) (clearedVolume : Qty) :
    Emits publicInputs witness n
      (synthesizeClearingOptimalityConstraints batch clearingPrice clearedVolume) pre
      (ClearingChecked batch clearingPrice clearedVolume) 2
      ((candidatePricesFromOrders batch.orders).length * 2 + 2) (fun _ => True)
      (ClearingAsserts batch clearingPrice clearedVolume
        ((Variable.publicVar n).value publicInputs witness)
        ((Variable.publicVar (n + 1)).value publicInputs witness)) := by
  let prices := candidatePricesFromOrders batch.orders
  have hfinal : ∀ cpPubVar volPubVar, Emits publicInputs witness (n + 1 + 1)
      (do
        let cpWitVar ← allocWitness
        let volWitVar ← allocWitness
        push [(clearingPrice.map (·.raw)).getD 0, clearedVolume.raw]
        enforceEqual (fromVar cpWitVar) (fromVar cpPubVar) "clearing_price_equality"
        enforceEqual (fromVar volWitVar) (fromVar volPubVar) "cleared_volume_equality"
        let s ← get
        pure { numConstraints := s.cs.constraints.length, numPublicVariables := s.cs.numPublic,
               numWitnessVariables := s.cs.numWitness, numCandidatePrices := prices.length :
               ProofComplexityMetrics })
      (((pre ∧ cpPubVar = .publicVar n) ∧ volPubVar = .publicVar (n + 1)) ∧ True) True 0 2
      (fun _ => True)
      (toScalar ((clearingPrice.map (·.raw)).getD 0) =
          (Variable.publicVar n).value publicInputs witness ∧
        toScalar clearedVolume.raw = (Variable.publicVar (n + 1)).value publicInputs witness) := by
    intro cpPubVar volPubVar
    refine Emits.block [(clearingPrice.map (·.raw)).getD 0, clearedVolume.raw]
      fun s _ => ⟨_, _, rfl, by simp, rfl, rfl, by simp, fun hr hp => ⟨trivial, ?_⟩⟩
    obtain ⟨⟨⟨-, rfl⟩, rfl⟩, -⟩ := hp
    obtain ⟨hcp, hvol, -⟩ := hr
    simp only [ConstraintSystem.sat_enforceEqual, ConstraintSystem.sat_mk, evaluate_fromVar, hcp, hvol,
      and_assoc]
  have hcandidates : ∀ cpPubVar volPubVar : Variable, Emits publicInputs witness (n + 1 + 1)
      (prices.forM (synthesizeCandidate batch.orders volPubVar clearedVolume.raw))
      ((pre ∧ cpPubVar = .publicVar n) ∧ volPubVar = .publicVar (n + 1))
      (∀ price ∈ prices, CandidateChecked batch.orders price) 0 (prices.length * 2) (fun _ => True)
      (∀ price ∈ prices, CandidateAsserts batch.orders
        ((Variable.publicVar (n + 1)).value publicInputs witness) clearedVolume.raw price) := by
    intro cpPubVar volPubVar
    refine Emits.mono (Emits.forM fun price _ => emits_synthesizeCandidate batch.orders volPubVar
      clearedVolume.raw price) le_rfl Iff.rfl (fun _ _ => id) ?_
    rintro ⟨-, rfl⟩
    exact Iff.rfl
  unfold synthesizeClearingOptimalityConstraints
  refine Emits.mono (Emits.lift_bind (g := ClearingChecked batch clearingPrice clearedVolume)
    fun honest hhonest => ?_) le_rfl ?_ (fun _ _ => id) (fun _ => Iff.rfl)
  · refine Emits.mono (Emits.check fun _ => Emits.check fun _ => Emits.allocPublic.bind
      fun cpPubVar => Emits.allocPublic.bind fun volPubVar =>
        (hcandidates cpPubVar volPubVar).bind fun _ => hfinal cpPubVar volPubVar) ?_ ?_
          (fun _ _ => id) (fun _ => by simp [ClearingAsserts, prices])
    · simp [prices]
    · rw [Result.orFail_eq_ok] at hhonest
      simp only [ne_eq, not_not, true_and, and_true, ClearingChecked, hhonest, Except.ok.injEq]
      obtain ⟨price, volume⟩ := honest
      simp only [ClearingOutcome.mk.injEq, and_assoc, eq_comm (a := clearingPrice),
        eq_comm (a := clearedVolume)]
      exact Iff.rfl
  · simp only [Result.orFail_eq_ok, and_iff_right_iff_imp]
    exact fun h => ⟨_, h.1⟩

/-! ## Allocation -/

/-- The constraint of one allocation against its order: within the order, or nothing. -/
def OrderAllocationAsserts (orders : List Order) (clearingPrice : Price)
    (orderAlloc : OrderAllocation) : Prop :=
  ∀ order, orders.find? (·.id = orderAlloc.orderId) = some order →
    if classifyOrder order clearingPrice = .outOfTheMoney then orderAlloc.allocatedQty.raw = 0
    else orderAlloc.allocatedQty.raw ≤ order.qty.raw

/-- The totals after one more allocation, bought and sold. -/
def addAllocated (orders : List Order) (totals : Scalar × Scalar) (orderAlloc : OrderAllocation) :
    Scalar × Scalar :=
  match orders.find? (·.id = orderAlloc.orderId) with
  | none => totals
  | some order =>
    if order.side = .buy then (totals.1 + toScalar orderAlloc.allocatedQty.raw, totals.2)
    else (totals.1, totals.2 + toScalar orderAlloc.allocatedQty.raw)

theorem emits_synthesizeOrderAllocation (orders : List Order) (clearingPrice : Price)
    (totals : AllocationTotals) (t : Scalar × Scalar) (orderAlloc : OrderAllocation) :
    Emits publicInputs witness n
      (synthesizeOrderAllocation orders clearingPrice totals orderAlloc)
      (pre ∧ totals.totalBuyLc.evaluate publicInputs witness = t.1 ∧
        totals.totalSellLc.evaluate publicInputs witness = t.2)
      ((orders.find? (·.id = orderAlloc.orderId)).isSome) 0 1
      (fun a => a.totalBuyLc.evaluate publicInputs witness = (addAllocated orders t orderAlloc).1 ∧
        a.totalSellLc.evaluate publicInputs witness = (addAllocated orders t orderAlloc).2)
      (OrderAllocationAsserts orders clearingPrice orderAlloc) := by
  unfold synthesizeOrderAllocation addAllocated OrderAllocationAsserts
  cases horder : orders.find? (·.id = orderAlloc.orderId) with
  | none => exact Emits.of_fails (by simp) fun s => ⟨_, rfl⟩
  | some order =>
    by_cases hside : order.side = .buy
    all_goals
      simp only [hside, if_true, if_false]
      cases hclass : classifyOrder order clearingPrice with
      | outOfTheMoney =>
        refine Emits.of_guard rfl (Emits.block [orderAlloc.allocatedQty.raw, order.qty.raw]
          fun s _ => ⟨_, _, rfl, by simp, rfl, rfl, by simp, fun hr hp => ?_⟩)
        obtain ⟨halloc, -, -⟩ := hr
        obtain ⟨-, hbuy, hsell⟩ := hp
        simp only [ConstraintSystem.sat_enforceEqual, ConstraintSystem.sat_mk, evaluate_fromVar,
          evaluate_addTerm, evaluate_zero, halloc, hbuy, hsell, one_mul, true_and, and_true]
        simp only [Option.some.injEq, forall_eq', hclass, if_true, ← toScalar_zero, toScalar_inj]
      | inTheMoney | atTheMoney =>
        refine Emits.of_guard rfl (Emits.block [orderAlloc.allocatedQty.raw, order.qty.raw,
          if order.qty.raw > orderAlloc.allocatedQty.raw
            then order.qty.raw - orderAlloc.allocatedQty.raw else 0]
          fun s _ => ⟨_, _, rfl, by simp, rfl, rfl, by simp, fun hr hp => ?_⟩)
        obtain ⟨halloc, hqty, hrem, -⟩ := hr
        obtain ⟨-, hbuy, hsell⟩ := hp
        simp only [ConstraintSystem.sat_enforceEqual, ConstraintSystem.sat_mk, evaluate_fromVar,
          evaluate_addTerm, halloc, hqty, hrem, hbuy, hsell, one_mul, true_and, and_true]
        simp only [Option.some.injEq, forall_eq', hclass, neg_mul, one_mul, ← sub_eq_add_neg,
          toScalar_slack, reduceCtorEq, if_false]

/-- The checks of the allocation subrelation. -/
def AllocationChecked [StdSort] (batch : Batch) (clearingPrice : Price) (clearedVolume : Qty)
    (allocation : BatchAllocation) : Prop :=
  allocateBatch batch (some clearingPrice) clearedVolume = .ok allocation ∧
    ∀ a ∈ allocation.allocations, (batch.orders.find? (·.id = a.orderId)).isSome

/-- The constraints of the allocation subrelation, with the published volume. -/
def AllocationAsserts (batch : Batch) (clearingPrice : Price) (allocation : BatchAllocation)
    (volValue : Scalar) : Prop :=
  (∀ a ∈ allocation.allocations, OrderAllocationAsserts batch.orders clearingPrice a) ∧
    (allocation.allocations.foldl (addAllocated batch.orders) (0, 0)).1 = volValue ∧
    (allocation.allocations.foldl (addAllocated batch.orders) (0, 0)).2 = volValue

theorem emits_synthesizeAllocationConstraints [StdSort] (batch : Batch) (clearingPrice : Price)
    (clearedVolume : Qty) (allocation : BatchAllocation) :
    Emits publicInputs witness n
      (synthesizeAllocationConstraints batch clearingPrice clearedVolume allocation) pre
      (AllocationChecked batch clearingPrice clearedVolume allocation) 1
      (allocation.allocations.length * 1 + 2) (fun _ => True)
      (AllocationAsserts batch clearingPrice allocation
        ((Variable.publicVar n).value publicInputs witness)) := by
  let sums := allocation.allocations.foldl (addAllocated batch.orders) (0, 0)
  have hloop : ∀ volPubVar : Variable, Emits publicInputs witness (n + 1)
      (allocation.allocations.foldlM (synthesizeOrderAllocation batch.orders clearingPrice)
        ⟨zero, zero⟩) (pre ∧ volPubVar = .publicVar n)
      (∀ a ∈ allocation.allocations, (batch.orders.find? (·.id = a.orderId)).isSome) 0
      (allocation.allocations.length * 1)
      (fun a => a.totalBuyLc.evaluate publicInputs witness = sums.1 ∧
        a.totalSellLc.evaluate publicInputs witness = sums.2)
      (∀ a ∈ allocation.allocations, OrderAllocationAsserts batch.orders clearingPrice a) := by
    intro volPubVar
    refine (Emits.foldlM (fun (t : Scalar × Scalar) (a : AllocationTotals) =>
      a.totalBuyLc.evaluate publicInputs witness = t.1 ∧
        a.totalSellLc.evaluate publicInputs witness = t.2) (addAllocated batch.orders)
      (fun orderAlloc _ t a => emits_synthesizeOrderAllocation batch.orders clearingPrice a t
        orderAlloc) (0, 0) ⟨zero, zero⟩).weaken fun hp => ⟨hp, evaluate_zero, evaluate_zero⟩
  have hequal : ∀ (volPubVar : Variable) (totals : AllocationTotals),
      Emits publicInputs witness (n + 1 + 0)
      (do
        enforceEqual totals.totalBuyLc (fromVar volPubVar) "total_buy_allocation_conservation"
        enforceEqual totals.totalSellLc (fromVar volPubVar) "total_sell_allocation_conservation")
      ((pre ∧ volPubVar = .publicVar n) ∧ totals.totalBuyLc.evaluate publicInputs witness = sums.1 ∧
        totals.totalSellLc.evaluate publicInputs witness = sums.2) True 0 2 (fun _ => True)
      (sums.1 = (Variable.publicVar n).value publicInputs witness ∧
        sums.2 = (Variable.publicVar n).value publicInputs witness) := by
    intro volPubVar totals
    refine Emits.mono (Emits.enforceEqual.bind fun _ => Emits.enforceEqual) le_rfl (by simp)
      (fun _ _ => id) ?_
    rintro ⟨⟨-, rfl⟩, hbuy, hsell⟩
    rw [hbuy, hsell, evaluate_fromVar]
  unfold synthesizeAllocationConstraints
  refine Emits.mono (Emits.lift_bind
    (g := AllocationChecked batch clearingPrice clearedVolume allocation)
    fun honest hhonest => ?_) le_rfl ?_ (fun _ _ => id) (fun _ => Iff.rfl)
  · refine Emits.mono (Emits.check fun _ => Emits.allocPublic.bind fun volPubVar =>
      (hloop volPubVar).bind fun totals => hequal volPubVar totals) ?_ ?_ (fun _ _ => id)
        (fun _ => by simp [AllocationAsserts, sums])
    · simp
    · rw [Result.orFail_eq_ok] at hhonest
      simp only [ne_eq, not_not, true_and, and_true, AllocationChecked, hhonest, Except.ok.injEq,
        eq_comm (a := allocation)]
  · simp only [Result.orFail_eq_ok, and_iff_right_iff_imp]
    exact fun h => ⟨_, h.1⟩

/-! ## Fill bounds -/

/-- The checks of one fill against its order. -/
def FillChecked (orders : List Order) (cpVal : U64) (fill : Fill) : Prop :=
  ∃ order, orders.find? (·.id = fill.orderId) = some order ∧ fill.fillQty.raw ≤ order.qty.raw ∧
    ¬ (if order.side = .buy then cpVal > order.price.raw ∧ fill.fillQty.raw > 0
      else cpVal < order.price.raw ∧ fill.fillQty.raw > 0)

/-- The constraints of one fill: the low half of its consideration is the product, and the clearing
price is within the limit of its order. -/
def FillAsserts (orders : List Order) (cpVal : U64) (fill : Fill) : Prop :=
  ∀ order, orders.find? (·.id = fill.orderId) = some order →
    toScalar cpVal * toScalar fill.fillQty.raw = toScalar (toU64 fill.consideration.raw) ∧
      if order.side = .buy then cpVal ≤ order.price.raw else order.price.raw ≤ cpVal

/-- The limit of an order, and the slack of the clearing price on the side that counts. -/
theorem emits_synthesizeLimit (cpVar : Variable) (cpVal fillQtyVal : U64) (order : Order)
    (hcp : pre → cpVar.value publicInputs witness = toScalar cpVal) :
    Emits publicInputs witness n (synthesizeLimit cpVar cpVal fillQtyVal order) pre
      (¬ (if order.side = .buy then cpVal > order.price.raw ∧ fillQtyVal > 0
        else cpVal < order.price.raw ∧ fillQtyVal > 0)) 0 1 (fun _ => True)
      (if order.side = .buy then cpVal ≤ order.price.raw else order.price.raw ≤ cpVal) := by
  unfold synthesizeLimit
  by_cases hside : order.side = .buy
  · simp only [if_pos hside]
    by_cases hlimit : cpVal > order.price.raw ∧ fillQtyVal > 0
    · exact Emits.of_fails (not_not.mpr hlimit) fun s => ⟨_, by simp only [if_pos hlimit]; rfl⟩
    · simp only [if_neg hlimit]
      refine Emits.of_guard hlimit (Emits.block [order.price.raw,
        if order.price.raw > cpVal then order.price.raw - cpVal else 0]
        fun s _ => ⟨_, _, rfl, by simp, rfl, rfl, by simp, fun hr hp => ⟨trivial, ?_⟩⟩)
      obtain ⟨hlimitVar, hslack, -⟩ := hr
      simp only [ConstraintSystem.sat_enforceEqual, ConstraintSystem.sat_mk, evaluate_fromVar,
        evaluate_addTerm_neg, hlimitVar, hslack, hcp hp, toScalar_slack]
  · simp only [if_neg hside]
    by_cases hlimit : cpVal < order.price.raw ∧ fillQtyVal > 0
    · exact Emits.of_fails (not_not.mpr hlimit) fun s => ⟨_, by simp only [if_pos hlimit]; rfl⟩
    · simp only [if_neg hlimit]
      refine Emits.of_guard hlimit (Emits.block [order.price.raw,
        if cpVal > order.price.raw then cpVal - order.price.raw else 0]
        fun s _ => ⟨_, _, rfl, by simp, rfl, rfl, by simp, fun hr hp => ⟨trivial, ?_⟩⟩)
      obtain ⟨hlimitVar, hslack, -⟩ := hr
      simp only [ConstraintSystem.sat_enforceEqual, ConstraintSystem.sat_mk, evaluate_fromVar,
        evaluate_addTerm_neg, hlimitVar, hslack, hcp hp, toScalar_slack]

theorem emits_synthesizeFill (orders : List Order) (cpVar : Variable) (cpVal : U64) (fill : Fill) :
    Emits publicInputs witness n (synthesizeFill orders cpVar cpVal fill)
      (pre ∧ cpVar.value publicInputs witness = toScalar cpVal) (FillChecked orders cpVal fill) 0 3
      (fun _ => True) (FillAsserts orders cpVal fill) := by
  unfold synthesizeFill
  cases horder : orders.find? (·.id = fill.orderId) with
  | none => exact Emits.of_fails (by simp [FillChecked, horder]) fun s => ⟨_, rfl⟩
  | some order =>
    have hchecked : FillChecked orders cpVal fill ↔ ¬ fill.fillQty.raw > order.qty.raw ∧
        ¬ (if order.side = .buy then cpVal > order.price.raw ∧ fill.fillQty.raw > 0
          else cpVal < order.price.raw ∧ fill.fillQty.raw > 0) := by
      simp only [FillChecked, horder, Option.some.injEq, not_lt, gt_iff_lt, exists_eq_left']
    have hasserts : FillAsserts orders cpVal fill ↔
        toScalar cpVal * toScalar fill.fillQty.raw = toScalar (toU64 fill.consideration.raw) ∧
          if order.side = .buy then cpVal ≤ order.price.raw else order.price.raw ≤ cpVal := by
      simp only [FillAsserts, horder, Option.some.injEq, forall_eq']
    refine Emits.mono (Emits.check fun hover => ?_) le_rfl hchecked.symm (fun _ _ => id)
      (fun _ => hasserts.symm)
    have hrem : toScalar order.qty.raw - toScalar fill.fillQty.raw =
        toScalar (order.qty.raw - fill.fillQty.raw) := (toScalar_sub (not_lt.mp hover)).symm
    refine Emits.declare [fill.fillQty.raw, order.qty.raw, order.qty.raw - fill.fillQty.raw,
      toU64 fill.consideration.raw] (f := fun w => do
        enforceEqual ((fromVar (.witnessVar (w + 1))).addTerm (.witnessVar w) (-1))
          (fromVar (.witnessVar (w + 2)))
          ("order_" ++ toString (order.id.raw : ℕ) ++ "_remaining_qty_bound")
        enforce (fromVar cpVar) (fromVar (.witnessVar w)) (fromVar (.witnessVar (w + 3)))
          ("fill_" ++ toString (fill.fillId : ℕ) ++ "_consideration_product")
        synthesizeLimit cpVar cpVal fill.fillQty.raw order) (fun s => rfl) fun w => ?_
    refine Emits.mono (Emits.enforceEqual.bind fun _ => Emits.enforce.bind fun _ =>
      emits_synthesizeLimit cpVar cpVal fill.fillQty.raw order fun hp => hp.1.1.1.2)
      le_rfl (by simp) (fun _ _ => id) ?_
    rintro ⟨⟨-, hcp⟩, hqty, hoqty, hremVar, hcons, -⟩
    simp only [evaluate_fromVar, evaluate_addTerm_neg, hqty, hoqty, hremVar, hcons, hcp, hrem, true_and]

theorem emits_synthesizeFillBoundsConstraints (clearingPrice : Price) (orders : List Order)
    (fills : List Fill) :
    Emits publicInputs witness n (synthesizeFillBoundsConstraints clearingPrice orders fills) pre
      (∀ f ∈ fills, FillChecked orders clearingPrice.raw f) 0 (fills.length * 3) (fun _ => True)
      (∀ f ∈ fills, FillAsserts orders clearingPrice.raw f) := by
  refine Emits.declare [clearingPrice.raw]
    (f := fun w => fills.forM (synthesizeFill orders (.witnessVar w) clearingPrice.raw))
    (fun s => rfl) fun w => ?_
  exact (Emits.forM fun fill _ => emits_synthesizeFill orders (.witnessVar w) clearingPrice.raw
    fill).weaken fun hp => ⟨hp.1, hp.2.1⟩

/-! ## Conservation -/

/-- The cash and the inventory of account `accId` after one more fill. -/
def addAccountFill (accId : AccountId) (t : Scalar × Scalar) (fill : Fill) : Scalar × Scalar :=
  if fill.accountId ≠ accId then t
  else if fill.side = .buy then
    (t.1 - toScalar (toU64 fill.consideration.raw), t.2 + toScalar fill.fillQty.raw)
  else (t.1 + toScalar (toU64 fill.consideration.raw), t.2 - toScalar fill.fillQty.raw)

theorem emits_synthesizeAccountFill (accId : AccountId) (expected : ExpectedPost)
    (t : Scalar × Scalar) (fill : Fill) :
    Emits publicInputs witness n (synthesizeAccountFill accId expected fill)
      (pre ∧ expected.cashLc.evaluate publicInputs witness = t.1 ∧
        expected.invLc.evaluate publicInputs witness = t.2) True 0 0
      (fun e => e.cashLc.evaluate publicInputs witness = (addAccountFill accId t fill).1 ∧
        e.invLc.evaluate publicInputs witness = (addAccountFill accId t fill).2) True := by
  unfold synthesizeAccountFill addAccountFill
  by_cases hacc : fill.accountId ≠ accId
  · simp only [if_pos hacc]
    exact (Emits.pure expected).mono le_rfl Iff.rfl (fun hp e he => he ▸ hp.2) (fun _ => Iff.rfl)
  · simp only [if_neg hacc]
    by_cases hside : fill.side = .buy
    all_goals
      simp only [hside, if_true, if_false]
      refine Emits.block [toU64 fill.consideration.raw, fill.fillQty.raw]
        fun s _ => ⟨_, _, rfl, by simp, rfl, rfl, by simp, fun hr hp => ⟨?_, ?_⟩⟩
      · obtain ⟨hcons, hqty, -⟩ := hr
        obtain ⟨-, hcash, hinv⟩ := hp
        simp only [evaluate_addTerm, hcons, hqty, hcash, hinv, one_mul, neg_mul, ← sub_eq_add_neg,
          and_self]
      · rw [and_true]
        exact Iff.rfl

/-- What the account `e` of the pre-state holds before and after, as the circuit sees it. -/
structure AccountScalars where
  preCash : Scalar
  postCash : Scalar
  preInv : Scalar
  postInv : Scalar

/-- Cash with its low 64 bits, and the inventory; an account without post-state has neither. -/
def accountScalars (postState : Ledger) (instrument : InstrumentId) (e : AccountId × AccountState) :
    AccountScalars where
  preCash := toScalar (toU64 e.2.cash.raw)
  postCash := toScalar (((postState.getAccount e.1).map fun acc => toU64 acc.cash.raw).getD 0)
  preInv := toScalar (e.2.inventoryOf instrument).raw
  postInv :=
    toScalar (((postState.getAccount e.1).map fun acc => (acc.inventoryOf instrument).raw).getD 0)

/-- The constraints of one account: the fills lead from what it held to what it holds. -/
def AccountAsserts (postState : Ledger) (fills : List Fill) (instrument : InstrumentId)
    (e : AccountId × AccountState) : Prop :=
  let v := accountScalars postState instrument e
  v.postCash = (fills.foldl (addAccountFill e.1) (v.preCash, v.preInv)).1 ∧
    v.postInv = (fills.foldl (addAccountFill e.1) (v.preCash, v.preInv)).2

/-- The sums after one more account. -/
def addAccount (postState : Ledger) (instrument : InstrumentId) (t : AccountScalars)
    (e : AccountId × AccountState) : AccountScalars :=
  let v := accountScalars postState instrument e
  { preCash := t.preCash + v.preCash, postCash := t.postCash + v.postCash,
    preInv := t.preInv + v.preInv, postInv := t.postInv + v.postInv }

/-- The sums the linear combinations evaluate to. -/
def ConservationTotals.Evaluates (publicInputs witness : List U64) (t : AccountScalars)
    (totals : ConservationTotals) : Prop :=
  totals.totalPreCashLc.evaluate publicInputs witness = t.preCash ∧
    totals.totalPostCashLc.evaluate publicInputs witness = t.postCash ∧
    totals.totalPreInvLc.evaluate publicInputs witness = t.preInv ∧
    totals.totalPostInvLc.evaluate publicInputs witness = t.postInv

theorem emits_synthesizeAccount (postState : Ledger) (fills : List Fill) (instrument : InstrumentId)
    (totals : ConservationTotals) (t : AccountScalars) (e : AccountId × AccountState) :
    Emits publicInputs witness n (synthesizeAccount postState fills instrument totals e)
      (pre ∧ totals.Evaluates publicInputs witness t) True 0 2
      (ConservationTotals.Evaluates publicInputs witness (addAccount postState instrument t e))
      (AccountAsserts postState fills instrument e) := by
  let v := accountScalars postState instrument e
  let sums := fills.foldl (addAccountFill e.1) (v.preCash, v.preInv)
  let vs : List U64 := [toU64 e.2.cash.raw,
    ((postState.getAccount e.1).map fun acc => toU64 acc.cash.raw).getD 0,
    (e.2.inventoryOf instrument).raw,
    ((postState.getAccount e.1).map fun acc => (acc.inventoryOf instrument).raw).getD 0]
  refine Emits.declare vs
    (f := fun w => do
      let expected ← fills.foldlM (synthesizeAccountFill e.1)
        ⟨fromVar (.witnessVar w), fromVar (.witnessVar (w + 1 + 1))⟩
      let accTag := toString (e.1.raw : ℕ)
      enforceEqual (fromVar (.witnessVar (w + 1))) expected.cashLc
        ("account_" ++ accTag ++ "_cash_transition")
      enforceEqual (fromVar (.witnessVar (w + 1 + 1 + 1))) expected.invLc
        ("account_" ++ accTag ++ "_inv_transition")
      pure { totalPreCashLc := totals.totalPreCashLc.addTerm (.witnessVar w) 1
             totalPostCashLc := totals.totalPostCashLc.addTerm (.witnessVar (w + 1)) 1
             totalPreInvLc := totals.totalPreInvLc.addTerm (.witnessVar (w + 1 + 1)) 1
             totalPostInvLc := totals.totalPostInvLc.addTerm (.witnessVar (w + 1 + 1 + 1)) 1 })
    (fun s => rfl) fun w => ?_
  have hloop : Emits publicInputs witness n (fills.foldlM (synthesizeAccountFill e.1)
        ⟨fromVar (.witnessVar w), fromVar (.witnessVar (w + 1 + 1))⟩)
      ((pre ∧ totals.Evaluates publicInputs witness t) ∧
        Synthesis.ReadsFrom publicInputs witness w vs) (∀ f ∈ fills, True) 0 (fills.length * 0)
      (fun x => x.cashLc.evaluate publicInputs witness = sums.1 ∧
        x.invLc.evaluate publicInputs witness = sums.2) (∀ f ∈ fills, True) := by
    exact (Emits.foldlM (fun (u : Scalar × Scalar) (x : ExpectedPost) =>
      x.cashLc.evaluate publicInputs witness = u.1 ∧ x.invLc.evaluate publicInputs witness = u.2)
      (addAccountFill e.1) (fun fill _ u x => emits_synthesizeAccountFill e.1 x u fill)
      (v.preCash, v.preInv) _).weaken fun hp => ⟨hp, by rw [evaluate_fromVar, hp.2.1]; rfl,
        by rw [evaluate_fromVar, hp.2.2.2.1]; rfl⟩
  have htail : ∀ expected : ExpectedPost, Emits publicInputs witness (n + 0)
      (do
        enforceEqual (fromVar (.witnessVar (w + 1))) expected.cashLc
          ("account_" ++ toString (e.1.raw : ℕ) ++ "_cash_transition")
        enforceEqual (fromVar (.witnessVar (w + 1 + 1 + 1))) expected.invLc
          ("account_" ++ toString (e.1.raw : ℕ) ++ "_inv_transition")
        pure { totalPreCashLc := totals.totalPreCashLc.addTerm (.witnessVar w) 1
               totalPostCashLc := totals.totalPostCashLc.addTerm (.witnessVar (w + 1)) 1
               totalPreInvLc := totals.totalPreInvLc.addTerm (.witnessVar (w + 1 + 1)) 1
               totalPostInvLc := totals.totalPostInvLc.addTerm (.witnessVar (w + 1 + 1 + 1)) 1 })
      (((pre ∧ totals.Evaluates publicInputs witness t) ∧
        Synthesis.ReadsFrom publicInputs witness w vs) ∧
        expected.cashLc.evaluate publicInputs witness = sums.1 ∧
        expected.invLc.evaluate publicInputs witness = sums.2) True 0 2
      (ConservationTotals.Evaluates publicInputs witness (addAccount postState instrument t e))
      (AccountAsserts postState fills instrument e) := by
    intro expected
    refine Emits.block [] fun s _ => ⟨_, _, rfl, by simp, rfl, rfl, by simp, fun _ hp => ?_⟩
    obtain ⟨⟨⟨-, h1, h2, h3, h4⟩, hpreCash, hpostCash, hpreInv, hpostInv, -⟩, hcash, hinv⟩ := hp
    constructor
    · simp only [ConservationTotals.Evaluates, evaluate_addTerm, h1, h2, h3, h4, hpreCash, hpostCash,
        hpreInv, hpostInv, one_mul]
      exact ⟨rfl, rfl, rfl, rfl⟩
    · simp only [ConstraintSystem.sat_enforceEqual, evaluate_fromVar, hcash, hinv, hpostCash,
        hpostInv, and_assoc]
      exact Iff.rfl
  refine Emits.mono (hloop.bind fun expected => htail expected) (by simp) (by simp) (fun _ _ => id)
    (fun _ => by simp)

/-- The sums over all accounts. -/
def accountSums (preState postState : Ledger) (instrument : InstrumentId) : AccountScalars :=
  preState.accounts.entries.foldl (addAccount postState instrument) ⟨0, 0, 0, 0⟩

/-- The constraints of the conservation subrelation. -/
def ConservationAsserts (preState postState : Ledger) (fills : List Fill)
    (instrument : InstrumentId) : Prop :=
  (∀ e ∈ preState.accounts.entries, AccountAsserts postState fills instrument e) ∧
    (accountSums preState postState instrument).preCash =
      (accountSums preState postState instrument).postCash ∧
    (accountSums preState postState instrument).preInv =
      (accountSums preState postState instrument).postInv

theorem emits_synthesizeConservationConstraints (preState postState : Ledger) (fills : List Fill)
    (instrument : InstrumentId) :
    Emits publicInputs witness n
      (synthesizeConservationConstraints preState postState fills instrument) pre True 0
      (preState.accounts.entries.length * 2 + 2) (fun _ => True)
      (ConservationAsserts preState postState fills instrument) := by
  let sums := accountSums preState postState instrument
  have hloop : Emits publicInputs witness n (preState.accounts.entries.foldlM
        (synthesizeAccount postState fills instrument) ⟨zero, zero, zero, zero⟩) pre
      (∀ e ∈ preState.accounts.entries, True) 0 (preState.accounts.entries.length * 2)
      (ConservationTotals.Evaluates publicInputs witness sums)
      (∀ e ∈ preState.accounts.entries, AccountAsserts postState fills instrument e) :=
    (Emits.foldlM (ConservationTotals.Evaluates publicInputs witness) (addAccount postState instrument)
      (fun e _ t totals => emits_synthesizeAccount postState fills instrument totals t e)
      ⟨0, 0, 0, 0⟩ ⟨zero, zero, zero, zero⟩).weaken fun hp =>
        ⟨hp, evaluate_zero, evaluate_zero, evaluate_zero, evaluate_zero⟩
  have hequal : ∀ totals : ConservationTotals, Emits publicInputs witness (n + 0)
      (do
        enforceEqual totals.totalPreCashLc totals.totalPostCashLc "global_cash_conservation"
        enforceEqual totals.totalPreInvLc totals.totalPostInvLc "global_asset_conservation")
      (pre ∧ totals.Evaluates publicInputs witness sums) True 0 2 (fun _ => True)
      (sums.preCash = sums.postCash ∧ sums.preInv = sums.postInv) := by
    intro totals
    refine Emits.mono (Emits.enforceEqual.bind fun _ => Emits.enforceEqual) le_rfl (by simp)
      (fun _ _ => id) ?_
    rintro ⟨-, h1, h2, h3, h4⟩
    rw [h1, h2, h3, h4]
  exact Emits.mono (hloop.bind fun totals => hequal totals) le_rfl (by simp) (fun _ _ => id)
    (fun _ => Iff.rfl)

/-! ## Oracle freshness -/

/-- A snapshot the policy admits for a batch with this cutoff and clearing price. -/
structure SnapshotAdmissible (policy : ReferencePricePolicy) (snapshot : ReferencePriceSnapshot)
    (instrument : InstrumentId) (batchCutoffNanos : U64) (clearingPrice : Option Price) : Prop where
  instrument_eq : snapshot.instrumentId = instrument
  not_future : snapshot.timestampNanos ≤ batchCutoffNanos
  fresh : (batchCutoffNanos : ℕ) ≤ snapshot.timestampNanos + policy.maxStalenessNanos
  collar : ∀ cp, clearingPrice = some cp →
    (cp.raw : ℕ) ≤ snapshot.referencePrice.raw + policy.maxDeviationTicks ∧
      (snapshot.referencePrice.raw : ℕ) ≤ cp.raw + policy.maxDeviationTicks

theorem validateReferencePriceSnapshot_eq_ok {policy : ReferencePricePolicy}
    {snapshot : ReferencePriceSnapshot} {instrument : InstrumentId} {batchCutoffNanos : U64}
    {clearingPrice : Option Price} :
    validateReferencePriceSnapshot policy snapshot instrument batchCutoffNanos clearingPrice =
      .ok () ↔ SnapshotAdmissible policy snapshot instrument batchCutoffNanos clearingPrice := by
  have hcollar : ∀ cp : Price, policy.validateCollar cp snapshot = .ok () ↔
      (cp.raw : ℕ) ≤ snapshot.referencePrice.raw + policy.maxDeviationTicks ∧
        (snapshot.referencePrice.raw : ℕ) ≤ cp.raw + policy.maxDeviationTicks := by
    intro cp
    simp only [ReferencePricePolicy.validateCollar, Result.ite_failure_eq_ok, Result.pure_eq_ok,
      and_true]
    split_ifs <;> omega
  have hfresh : policy.validateFreshness snapshot batchCutoffNanos = .ok () ↔
      snapshot.timestampNanos ≤ batchCutoffNanos ∧
        (batchCutoffNanos : ℕ) ≤ snapshot.timestampNanos + policy.maxStalenessNanos := by
    simp only [ReferencePricePolicy.validateFreshness, Result.ite_failure_eq_ok, Result.pure_eq_ok,
      and_true, not_lt, gt_iff_lt]
    refine and_congr_right fun h => ?_
    omega
  simp only [validateReferencePriceSnapshot, Result.ite_error_eq_ok, ne_eq, not_not,
    Result.bind_eq_ok, hfresh]
  constructor
  · rintro ⟨h1, ⟨⟩, ⟨h2, h3⟩, h4⟩
    refine ⟨h1, h2, h3, ?_⟩
    rintro cp rfl
    exact (hcollar cp).mp h4
  · intro h
    refine ⟨h.instrument_eq, (), ⟨h.not_future, h.fresh⟩, ?_⟩
    cases hcp : clearingPrice with
    | none => rfl
    | some cp => exact (hcollar cp).mpr (h.collar cp hcp)

/-- An admissible snapshot satisfies its constraints. -/
theorem emits_synthesizeOracleFreshnessConstraints (instrument : InstrumentId)
    (batchTimestampNanos : U64) (clearingPrice : Price) (policy : ReferencePricePolicy)
    (snap : ReferencePriceSnapshot) :
    Emits publicInputs witness n (synthesizeOracleFreshnessConstraints instrument batchTimestampNanos
        clearingPrice policy (some snap)) pre
      (SnapshotAdmissible policy snap instrument batchTimestampNanos (some clearingPrice)) 0 3
      (fun _ => True) True := by
  let tb := batchTimestampNanos
  let age := if tb > snap.timestampNanos then tb - snap.timestampNanos else 0
  let cp := clearingPrice.raw
  let ref := snap.referencePrice.raw
  let diff := if cp > ref then cp - ref else ref - cp
  unfold synthesizeOracleFreshnessConstraints
  refine Emits.mono (Emits.lift_bind fun _ hvalid => Emits.block [tb, snap.timestampNanos, cp, ref,
    age, if policy.maxStalenessNanos > age then policy.maxStalenessNanos - age else 0, diff,
    if policy.maxDeviationTicks > diff then policy.maxDeviationTicks - diff else 0]
    fun s _ => ⟨_, _, rfl, by simp [tb, age, cp, ref, diff], rfl, rfl, by simp, fun hr _ =>
      ⟨trivial, ?_⟩⟩) le_rfl ?_ (fun _ _ => id) (fun _ => Iff.rfl)
  · rw [Result.orFail_eq_ok, validateReferencePriceSnapshot_eq_ok] at hvalid
    have hage : age ≤ policy.maxStalenessNanos := by
      have hfresh := hvalid.fresh
      show (if tb > snap.timestampNanos then tb - snap.timestampNanos else 0) ≤ _
      split_ifs with h
      · rw [Fin.le_def, Fin.sub_val_of_le h.le]
        omega
      · exact Fin.zero_le _
    have hdiff : diff ≤ policy.maxDeviationTicks := by
      obtain ⟨h1, h2⟩ := hvalid.collar clearingPrice rfl
      show (if cp > ref then cp - ref else ref - cp) ≤ _
      split_ifs with h
      · rw [Fin.le_def, Fin.sub_val_of_le h.le]
        omega
      · rw [Fin.le_def, Fin.sub_val_of_le (not_lt.mp h)]
        omega
    obtain ⟨htb, hto, -, -, hageVar, hfresh, hdiffVar, hcollar, -⟩ := hr
    simp only [ConstraintSystem.sat_enforceEqual, ConstraintSystem.sat_mk,
      ConstraintSystem.enforceEqual_numWitness, evaluate_fromVar, evaluate_fromConstant,
      evaluate_addTerm_neg, htb, hto, hageVar, hfresh, hdiffVar, hcollar, toScalar_slack, hage, hdiff,
      hvalid.not_future, and_true, age, tb]
  · simp only [Result.orFail_eq_ok, and_true, ← validateReferencePriceSnapshot_eq_ok]
    constructor
    · rintro ⟨⟨⟩, h⟩
      exact h
    · exact fun h => ⟨(), h⟩

end Subrelations

end FairCross
