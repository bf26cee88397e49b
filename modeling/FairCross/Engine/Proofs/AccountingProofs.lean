import FairCross.Commitments.Proofs.MerkleProofs
import FairCross.Engine.Accounting
import FairCross.Engine.Proofs.CheckerProofs

/-!
# Complete-input accounting

`verifyCompleteInputAccounting_eq_ok` lists what an accepted manifest satisfies. The builder's manifest
does, for preimages in any order. The other way round an accepted manifest is the builder's up to two
things nobody compares: which order id a record carries for its leaf, and the five counters.
-/

namespace FairCross

open FreshKeys

section Scheme

variable {D : Type} [CommitmentScheme D] [DecidableEq D]

/-! ## What is accepted -/

/-- A record that passes the checks of its own. -/
structure OrderAccountingRecord.Valid (orders : SortedMap U64 Order) (merkleTree : MerkleTree D)
    (allocs : SortedMap U64 Qty) (r : OrderAccountingRecord D) : Prop where
  included : ∃ proof, merkleTree.generateProof r.leafIndex = some proof ∧
    proof.fold r.commitment = merkleTree.root
  disposition : ∃ o, orders.find r.orderId.raw = some o ∧
    r.disposition = .ofAllocated o.qty (allocatedTo allocs r.orderId)

theorem checkRecord_eq_ok {orders : SortedMap U64 Order} {merkleTree : MerkleTree D}
    {allocs : SortedMap U64 Qty} {seen seen' : SeenRecords} {r : OrderAccountingRecord D} :
    checkRecord orders merkleTree allocs seen r = .ok seen' ↔
      r.Valid orders merkleTree allocs ∧ r.leafIndex ∉ seen.indices ∧ r.orderId ∉ seen.orderIds ∧
        seen' = ⟨r.leafIndex :: seen.indices, r.orderId :: seen.orderIds⟩ := by
  unfold checkRecord
  simp only [Result.ite_failure_eq_ok]
  constructor
  · rintro ⟨h1, h2, h⟩
    cases hp : merkleTree.generateProof r.leafIndex with
    | none => simp [hp] at h
    | some proof =>
      cases ho : orders.find r.orderId.raw with
      | none => simp [hp, ho] at h
      | some o =>
        simp only [hp, ho, Result.ite_failure_eq_ok, Result.pure_eq_ok, MerkleProof.verify, ne_eq,
          not_not, Bool.not_eq_true', Bool.not_eq_false, decide_eq_true_eq] at h
        obtain ⟨h3, h4, rfl⟩ := h
        exact ⟨⟨⟨proof, hp, h3⟩, o, ho, h4⟩, h1, h2, rfl⟩
  · rintro ⟨⟨⟨proof, hp, h3⟩, o, ho, h4⟩, h1, h2, rfl⟩
    refine ⟨h1, h2, ?_⟩
    simp only [hp, ho, Result.ite_failure_eq_ok, Result.pure_eq_ok, MerkleProof.verify, ne_eq,
      not_not, Bool.not_eq_true', Bool.not_eq_false, decide_eq_true_eq]
    exact ⟨h3, h4, trivial⟩

/-- The loop over the records succeeds on valid ones with new and distinct indices and ids, and has
seen their indices at the end. -/
theorem foldlM_checkRecord {orders : SortedMap U64 Order} {merkleTree : MerkleTree D}
    {allocs : SortedMap U64 Qty} {records : List (OrderAccountingRecord D)} {seen seen' : SeenRecords} :
    records.foldlM (checkRecord orders merkleTree allocs) seen = .ok seen' ↔
      (∀ r ∈ records, r.Valid orders merkleTree allocs) ∧ Fresh (·.leafIndex) seen.indices records ∧
      Fresh (·.orderId) seen.orderIds records ∧
      seen' = ⟨(records.map (·.leafIndex)).reverse ++ seen.indices,
        (records.map (·.orderId)).reverse ++ seen.orderIds⟩ := by
  induction records generalizing seen with
  | nil => simp [pure, Except.pure, eq_comm]
  | cons r records ih =>
    simp only [List.foldlM_cons, Result.bind_eq_ok, checkRecord_eq_ok, ih, fresh_cons,
      List.forall_mem_cons]
    constructor
    · rintro ⟨s, ⟨hv, hi, hid, rfl⟩, hall, hindices, hids, rfl⟩
      exact ⟨⟨hv, hall⟩, ⟨hi, hindices⟩, ⟨hid, hids⟩, by simp⟩
    · rintro ⟨⟨hv, hall⟩, ⟨hi, hindices⟩, ⟨hid, hids⟩, rfl⟩
      exact ⟨_, ⟨hv, hi, hid, rfl⟩, hall, hindices, hids, by simp⟩

/-- What an accepted manifest satisfies. -/
structure CompleteInputAccounting.Accepted (batch : Batch) (merkleTree : MerkleTree D)
    (allocation : BatchAllocation) (m : CompleteInputAccounting D) : Prop where
  leafCount : merkleTree.leafCount = batch.len
  length : m.records.length = batch.len
  totalCommitted : m.totalCommitted = batch.len
  valid : ∀ r ∈ m.records, r.Valid (orderMap batch.orders) merkleTree (allocMap allocation)
  indices_nodup : (m.records.map (·.leafIndex)).Nodup
  ids_nodup : (m.records.map (·.orderId)).Nodup
  covered : ∀ idx < batch.len, toU64 idx ∈ m.records.map (·.leafIndex)

theorem verifyCompleteInputAccounting_eq_ok {batch : Batch} {merkleTree : MerkleTree D}
    {m : CompleteInputAccounting D} {allocation : BatchAllocation} :
    verifyCompleteInputAccounting batch merkleTree m allocation = .ok () ↔
      m.Accepted batch merkleTree allocation := by
  simp only [verifyCompleteInputAccounting, Result.ite_failure_eq_ok, ne_eq, not_not, not_or,
    Result.bind_eq_ok, foldlM_checkRecord, fresh_nothing_seen, Result.forM_eq_ok, List.mem_range,
    Result.pure_eq_ok, List.append_nil]
  constructor
  · rintro ⟨h1, ⟨h2, h3⟩, seen, ⟨hv, hnd1, hnd2, rfl⟩, hcov⟩
    exact ⟨h1, h2, h3, hv, hnd1, hnd2, fun idx hidx => by simpa using hcov idx hidx⟩
  · intro h
    exact ⟨h.leafCount, ⟨h.length, h.totalCommitted⟩, _, ⟨h.valid, h.indices_nodup, h.ids_nodup, rfl⟩,
      fun idx hidx => by simpa using h.covered idx hidx⟩

end Scheme

/-! ## The builder's manifest -/

theorem OrderDisposition.ofAllocated_kind (qty allocated : Qty) :
    (ofAllocated qty allocated).kind = .fullyExecuted ∨
      (ofAllocated qty allocated).kind = .partiallyExecuted ∨
      (ofAllocated qty allocated).kind = .unfilled := by
  unfold ofAllocated
  split_ifs
  · exact Or.inl rfl
  · exact Or.inr (Or.inl rfl)
  · exact Or.inr (Or.inr rfl)

/-- The total a manifest states for a kind of disposition. -/
def CompleteInputAccounting.total {D : Type} (m : CompleteInputAccounting D) : DispositionKind → ℕ
  | .fullyExecuted => m.totalFullyExecuted
  | .partiallyExecuted => m.totalPartiallyExecuted
  | .unfilled => m.totalUnfilled
  | .cancelled => m.totalCancelled
  | .expired => m.totalExpired

/-- The number of records with a kind of disposition. -/
def dispositionCount {D : Type} (records : List (OrderAccountingRecord D)) (kind : DispositionKind) : ℕ :=
  (records.filter (·.disposition.kind = kind)).length

/-- Records whose disposition follows from an allocation are of one of three kinds. -/
theorem sum_dispositionCount {D : Type} {records : List (OrderAccountingRecord D)}
    (h : ∀ r ∈ records, ∃ qty allocated, r.disposition = .ofAllocated qty allocated) :
    dispositionCount records .fullyExecuted + dispositionCount records .partiallyExecuted +
      dispositionCount records .unfilled = records.length := by
  unfold dispositionCount
  induction records with
  | nil => rfl
  | cons r records ih =>
    have hrest := ih fun r' hr' => h r' (List.mem_cons_of_mem _ hr')
    obtain ⟨qty, allocated, hd⟩ := h r (List.mem_cons_self ..)
    rcases OrderDisposition.ofAllocated_kind qty allocated with hk | hk | hk <;>
      simp [hd, hk] <;> omega

/-- No such record is cancelled or expired. -/
theorem dispositionCount_eq_zero {D : Type} {records : List (OrderAccountingRecord D)}
    (h : ∀ r ∈ records, ∃ qty allocated, r.disposition = .ofAllocated qty allocated)
    {kind : DispositionKind} (hk : kind = .cancelled ∨ kind = .expired) :
    dispositionCount records kind = 0 := by
  unfold dispositionCount
  rw [List.length_eq_zero_iff, List.filter_eq_nil_iff]
  intro r hr
  obtain ⟨qty, allocated, hd⟩ := h r hr
  rcases OrderDisposition.ofAllocated_kind qty allocated with h' | h' | h' <;>
    rcases hk with rfl | rfl <;> simp [hd, h']

/-- A batch has no more orders than there are order ids. -/
theorem len_le_of_nodup {batch : Batch} (hnd : (batch.orders.map (·.id)).Nodup) :
    batch.len ≤ 2 ^ 64 := by
  have := (ids_nodup_raw hnd).length_le_card
  rwa [List.length_map, Fintype.card_fin] at this

section Builder

variable {D : Type} [CommitmentScheme D] {batch : Batch} {preimages : List SaltedOrderPreimage}
  {allocation : BatchAllocation}

theorem mem_records {r : OrderAccountingRecord D} :
    r ∈ (buildCompleteInputAccounting batch preimages allocation).2.records ↔
      ∃ idx preimage, preimages[idx]? = some preimage ∧
        r = recordOf (allocMap allocation) idx preimage := by
  show r ∈ preimages.zipIdx.map _ ↔ _
  rw [List.mem_map]
  constructor
  · rintro ⟨⟨preimage, idx⟩, hm, rfl⟩
    exact ⟨idx, preimage, List.mem_zipIdx_iff_getElem?.mp hm, rfl⟩
  · rintro ⟨idx, preimage, h, rfl⟩
    exact ⟨(preimage, idx), List.mem_zipIdx_iff_getElem?.mpr h, rfl⟩

theorem records_orderId :
    (buildCompleteInputAccounting (D := D) batch preimages allocation).2.records.map (·.orderId) =
      (preimages.map (·.order)).map (·.id) := by
  show (preimages.zipIdx.map _).map _ = _
  rw [List.map_map, List.map_map, ← List.zipIdx_map_fst 0 preimages, List.map_map,
    List.zipIdx_map_fst]
  rfl

/-- The builder's leaf indices are the positions, in order. -/
theorem records_leafIndex :
    (buildCompleteInputAccounting (D := D) batch preimages allocation).2.records.map (·.leafIndex) =
      (List.range preimages.length).map toU64 := by
  show (preimages.zipIdx.map _).map _ = _
  rw [List.map_map, List.range_eq_range', ← List.zipIdx_map_snd 0 preimages, List.map_map]
  rfl

variable (hnd : (batch.orders.map (·.id)).Nodup)
  (hp : (preimages.map (·.order)).Perm batch.orders)

include hp in
theorem length_preimages : preimages.length = batch.len := by
  have := hp.length_eq
  rwa [List.length_map] at this

include hnd hp

/-- A position of a preimage is its leaf index. -/
theorem toU64_position {idx : ℕ} (h : idx < preimages.length) : (toU64 idx : ℕ) = idx := by
  have h1 := len_le_of_nodup hnd
  have h2 := length_preimages hp
  exact Nat.mod_eq_of_lt (by omega)

/-- The record of a preimage passes the checks of its own. -/
theorem recordOf_valid {idx : ℕ} {preimage : SaltedOrderPreimage}
    (h : preimages[idx]? = some preimage) :
    (recordOf (D := D) (allocMap allocation) idx preimage).Valid (orderMap batch.orders)
      (.new (preimages.map commitOrder)) (allocMap allocation) := by
  obtain ⟨hidx, hget⟩ := List.getElem?_eq_some_iff.mp h
  have hmem : preimage.order ∈ batch.orders :=
    hp.mem_iff.mp (List.mem_map.mpr ⟨preimage, hget ▸ List.getElem_mem hidx, rfl⟩)
  constructor
  · show ∃ proof, (MerkleTree.new (preimages.map commitOrder)).generateProof (toU64 idx : ℕ) =
      some proof ∧ _
    rw [toU64_position hnd hp hidx]
    have hsome := (MerkleTree.generateProof_isSome (D := D) (preimages.map commitOrder) idx).mpr
      (by rwa [List.length_map])
    obtain ⟨proof, hproof⟩ := Option.isSome_iff_exists.mp hsome
    refine ⟨proof, hproof, ?_⟩
    have hleaf : (preimages.map (commitOrder (D := D)))[idx]? = some (commitOrder preimage) := by
      rw [List.getElem?_map, h]
      rfl
    exact (MerkleTree.fold_generateProof hleaf hproof).1
  · exact ⟨preimage.order, find_orderMap hnd hmem, rfl⟩

omit hnd hp in
theorem records_disposition : ∀ r ∈ (buildCompleteInputAccounting (D := D) batch preimages
    allocation).2.records, ∃ qty allocated, r.disposition = .ofAllocated qty allocated := by
  intro r hr
  obtain ⟨idx, preimage, -, rfl⟩ := mem_records.mp hr
  exact ⟨_, _, rfl⟩

omit hnd hp in
/-- The builder's totals count its records. -/
theorem build_total (kind : DispositionKind) :
    (buildCompleteInputAccounting (D := D) batch preimages allocation).2.total kind =
      dispositionCount
        (buildCompleteInputAccounting (D := D) batch preimages allocation).2.records kind := by
  cases kind with
  | fullyExecuted => rfl
  | partiallyExecuted => rfl
  | unfilled => rfl
  | cancelled => exact (dispositionCount_eq_zero records_disposition (Or.inl rfl)).symm
  | expired => exact (dispositionCount_eq_zero records_disposition (Or.inr rfl)).symm

/-- The builder's manifest is accepted, whatever the allocation and the order of the preimages. -/
theorem buildCompleteInputAccounting_accepted :
    (buildCompleteInputAccounting (D := D) batch preimages allocation).2.Accepted batch
      (.new (preimages.map commitOrder)) allocation := by
  have hlen := length_preimages hp
  refine ⟨?_, ?_, hlen, ?_, ?_, ?_, ?_⟩
  · show (preimages.map commitOrder).length = _
    rwa [List.length_map]
  · show (preimages.zipIdx.map _).length = _
    rwa [List.length_map, List.length_zipIdx]
  · intro r hr
    obtain ⟨idx, preimage, h, rfl⟩ := mem_records.mp hr
    exact recordOf_valid hnd hp h
  · rw [records_leafIndex]
    refine List.Nodup.map_on (fun i hi j hj he => ?_) List.nodup_range
    rw [List.mem_range] at hi hj
    rw [← toU64_position hnd hp hi, ← toU64_position hnd hp hj, he]
  · rw [records_orderId]
    exact (hp.map _).nodup_iff.mpr hnd
  · intro idx hidx
    rw [records_leafIndex, hlen]
    exact List.mem_map.mpr ⟨idx, List.mem_range.mpr hidx, rfl⟩

end Builder

section Claims

variable {D : Type} [DecidableEq D] [CommitmentScheme D] [StdSort] {batchId : BatchId}
  {instrument : InstrumentId} {orders : List Order} {batch : Batch}
  {preimages : List SaltedOrderPreimage} {allocation : BatchAllocation}

/-- **Accounting is complete.** The manifest built from preimages of the batch's orders, in any order
and with any nonces, is accepted, and its totals partition the batch. -/
theorem completeInputAccounting_complete (hb : Batch.create batchId instrument orders = .ok batch)
    (hp : (preimages.map (·.order)).Perm batch.orders) :
    let built := buildCompleteInputAccounting (D := D) batch preimages allocation
    verifyCompleteInputAccounting batch built.1 built.2 allocation = .ok () ∧
      built.2.totalFullyExecuted + built.2.totalPartiallyExecuted + built.2.totalUnfilled =
        batch.len := by
  intro built
  have haccepted : built.2.Accepted batch (.new (preimages.map commitOrder)) allocation :=
    buildCompleteInputAccounting_accepted (Batch.accepted_of_create hb).orders.ids_nodup hp
  refine ⟨verifyCompleteInputAccounting_eq_ok.mpr haccepted, ?_⟩
  have hdisp : ∀ r ∈ built.2.records, ∃ qty allocated, r.disposition = .ofAllocated qty allocated :=
    records_disposition
  have hsum := sum_dispositionCount hdisp
  rw [haccepted.length] at hsum
  exact hsum

/-! ## Manifests the verifier accepts -/

omit [DecidableEq D] [StdSort] in
/-- Under an ideal hash an accepted record has the commitment of the preimage at its leaf index. -/
theorem OrderAccountingRecord.Valid.commitment_eq (ideal : IdealHash D)
    {orderMap : SortedMap U64 Order} {allocMap : SortedMap U64 Qty} {r : OrderAccountingRecord D}
    (h : r.Valid orderMap (.new (preimages.map commitOrder)) allocMap) :
    ∃ preimage, preimages[(r.leafIndex : ℕ)]? = some preimage ∧
      r.commitment = commitOrder preimage := by
  obtain ⟨proof, hproof, hfold⟩ := h.included
  have hlt := (MerkleTree.generateProof_isSome _ _).mp (Option.isSome_iff_exists.mpr ⟨proof, hproof⟩)
  rw [List.length_map] at hlt
  have hleaf : (preimages.map (commitOrder (D := D)))[(r.leafIndex : ℕ)]? =
      some (commitOrder preimages[(r.leafIndex : ℕ)]) := by
    rw [List.getElem?_map, List.getElem?_eq_getElem hlt]
    rfl
  refine ⟨preimages[(r.leafIndex : ℕ)], List.getElem?_eq_getElem hlt, ?_⟩
  have hroot := (MerkleTree.fold_generateProof hleaf hproof).1
  rw [← hroot, MerkleTree.fold_eq_ascend, MerkleTree.fold_eq_ascend] at hfold
  exact ideal.free.foldl_ascend_inj hfold

omit [DecidableEq D] [StdSort] in
/-- Preimages in the order of the batch have the batch's orders at their positions. -/
theorem order_at (hp : preimages.map (·.order) = batch.orders) {idx : ℕ}
    {preimage : SaltedOrderPreimage} (h : preimages[idx]? = some preimage) :
    batch.orders[idx]? = some preimage.order := by
  rw [← hp, List.getElem?_map, h]
  rfl

omit [DecidableEq D] [StdSort] in
/-- An accepted record that names the order at its leaf is the builder's. -/
theorem OrderAccountingRecord.Valid.mem_records (ideal : IdealHash D) (hb : batch.Accepted)
    (hp : preimages.map (·.order) = batch.orders) {r : OrderAccountingRecord D}
    (h : r.Valid (orderMap batch.orders) (.new (preimages.map commitOrder)) (allocMap allocation))
    (hid : (batch.orders[(r.leafIndex : ℕ)]?).map (·.id) = some r.orderId) :
    r ∈ (buildCompleteInputAccounting batch preimages allocation).2.records := by
  obtain ⟨preimage, hpre, hcommit⟩ := h.commitment_eq ideal
  have horder := order_at hp hpre
  obtain ⟨o, ho, hdisp⟩ := h.disposition
  rw [horder] at hid
  have hid' : preimage.order.id = r.orderId := Option.some.inj hid
  have hfind := find_orderMap hb.orders.ids_nodup (List.mem_of_getElem? horder)
  rw [hid', ho] at hfind
  obtain rfl := Option.some.inj hfind
  refine FairCross.mem_records.mpr ⟨r.leafIndex, preimage, hpre, ?_⟩
  obtain ⟨leafIndex, orderId, commitment, disposition⟩ := r
  simp only at hcommit hdisp hid'
  subst hid' hcommit hdisp
  simp [recordOf]

omit [DecidableEq D] [StdSort] in
/-- An accepted manifest has the builder's records exactly when each names the order at its leaf. -/
theorem CompleteInputAccounting.Accepted.perm_iff (ideal : IdealHash D) (hb : batch.Accepted)
    (hp : preimages.map (·.order) = batch.orders) {m : CompleteInputAccounting D}
    (h : m.Accepted batch (.new (preimages.map commitOrder)) allocation) :
    m.records.Perm (buildCompleteInputAccounting batch preimages allocation).2.records ↔
      ∀ r ∈ m.records, (batch.orders[(r.leafIndex : ℕ)]?).map (·.id) = some r.orderId := by
  have hperm : (preimages.map (·.order)).Perm batch.orders := hp ▸ List.Perm.refl _
  constructor
  · intro hm r hr
    obtain ⟨idx, preimage, hpre, rfl⟩ := mem_records.mp (hm.mem_iff.mp hr)
    show (batch.orders[(toU64 idx : ℕ)]?).map _ = _
    rw [toU64_position hb.orders.ids_nodup hperm (List.getElem?_eq_some_iff.mp hpre).1, order_at hp hpre]
    rfl
  · intro hids
    have hsub : m.records ⊆ (buildCompleteInputAccounting batch preimages allocation).2.records :=
      fun r hr => (h.valid r hr).mem_records ideal hb hp (hids r hr)
    have hbuilt : (buildCompleteInputAccounting (D := D) batch preimages allocation).2.Accepted batch
        (.new (preimages.map commitOrder)) allocation :=
      buildCompleteInputAccounting_accepted hb.orders.ids_nodup hperm
    refine (h.indices_nodup.of_map.subperm hsub).perm_of_length_le ?_
    rw [h.length, hbuilt.length]

/-- **Accounting is sound up to order ids and counters.** An accepted manifest has the records and
the totals of the builder exactly when every record names the order at its leaf and the totals count
the manifest's own records. -/
theorem completeInputAccounting_sound_iff (ideal : IdealHash D)
    (hb : Batch.create batchId instrument orders = .ok batch)
    (hp : preimages.map (·.order) = batch.orders) {m : CompleteInputAccounting D}
    (h : verifyCompleteInputAccounting batch (.new (preimages.map commitOrder)) m allocation =
      .ok ()) :
    let built := (buildCompleteInputAccounting (D := D) batch preimages allocation).2
    (m.records.Perm built.records ∧ ∀ kind, m.total kind = built.total kind) ↔
      (∀ r ∈ m.records, (batch.orders[(r.leafIndex : ℕ)]?).map (·.id) = some r.orderId) ∧
        ∀ kind, m.total kind = dispositionCount m.records kind := by
  intro built
  have hiff := (verifyCompleteInputAccounting_eq_ok.mp h).perm_iff ideal
    (Batch.accepted_of_create hb) hp
  have htotal : m.records.Perm built.records → ∀ kind,
      dispositionCount m.records kind = built.total kind := by
    intro hm kind
    rw [build_total]
    exact (hm.filter _).length_eq
  constructor
  · rintro ⟨hm, ht⟩
    exact ⟨hiff.mp hm, fun kind => (ht kind).trans (htotal hm kind).symm⟩
  · rintro ⟨hids, ht⟩
    have hm := hiff.mpr hids
    exact ⟨hm, fun kind => (ht kind).trans (htotal hm kind)⟩

end Claims

/-! ## Examples -/

/-- The preimages of the example batch, last order first. -/
def exampleReversedPreimages : List SaltedOrderPreimage :=
  exampleBatch.orders.reverse.zipIdx.map fun p => ⟨p.1, .fill (UInt8.ofNat p.2)⟩

def exampleAccounting : MerkleTree TermDigest × CompleteInputAccounting TermDigest :=
  buildCompleteInputAccounting exampleBatch exampleReversedPreimages
    (@canonicalAllocation .stable exampleOutcome exampleBatch)

/-- The buy and the first sell are filled, the second sell for 6 of 8 lots. -/
theorem completeInputAccounting_complete_example :
    @verifyCompleteInputAccounting TermDigest _ _ exampleBatch exampleAccounting.1 exampleAccounting.2
      (@canonicalAllocation .stable exampleOutcome exampleBatch) = .ok () ∧
    exampleAccounting.2.totalFullyExecuted = 2 ∧ exampleAccounting.2.totalPartiallyExecuted = 1 ∧
    exampleAccounting.2.totalUnfilled = 0 := by
  obtain ⟨haccepted, hsum⟩ := @completeInputAccounting_complete TermDigest _ _ .stable ⟨1⟩ ⟨7⟩
    exampleBatch.orders exampleBatch exampleReversedPreimages
    (@canonicalAllocation .stable exampleOutcome exampleBatch) (by decide +kernel) (by decide +kernel)
  have hfully : exampleAccounting.2.totalFullyExecuted = 2 := by decide +kernel
  have hpartially : exampleAccounting.2.totalPartiallyExecuted = 1 := by decide +kernel
  have hlen : exampleAccounting.2.totalFullyExecuted + exampleAccounting.2.totalPartiallyExecuted +
    exampleAccounting.2.totalUnfilled = 3 := hsum
  exact ⟨haccepted, hfully, hpartially, by omega⟩

/-- Two buys that nobody sells to. -/
def restingBatch : Batch where
  batchId := ⟨1⟩
  instrument := ⟨7⟩
  orders := [exampleOrder 1 1 .buy 90 10 0, exampleOrder 2 2 .buy 90 10 1]

def restingPreimages : List SaltedOrderPreimage :=
  restingBatch.orders.map fun o => ⟨o, .fill 1⟩

/-- A manifest of the resting batch with the order ids `ids`, `fully` of them counted as executed. -/
def restingManifest (ids : List OrderId) (fully unfilled : ℕ) : CompleteInputAccounting TermDigest where
  records := (restingPreimages.zip ids).zipIdx.map fun p =>
    ⟨toU64 p.2, p.1.2, commitOrder p.1.1, .unfilled⟩
  totalCommitted := 2
  totalFullyExecuted := fully
  totalPartiallyExecuted := 0
  totalUnfilled := unfilled
  totalCancelled := 0
  totalExpired := 0

theorem completeInputAccounting_sound_example :
    (restingManifest [⟨1⟩, ⟨2⟩] 0 2).records.Perm (buildCompleteInputAccounting restingBatch
      restingPreimages (zeroAllocation restingBatch)).2.records := by
  have h := @completeInputAccounting_sound_iff TermDigest _ _ .stable ⟨1⟩ ⟨7⟩ restingBatch.orders
    restingBatch restingPreimages (zeroAllocation restingBatch) TermDigest.idealHash
    (by decide +kernel) rfl (restingManifest [⟨1⟩, ⟨2⟩] 0 2) (by decide +kernel)
  refine (h.mpr ⟨by decide +kernel, fun kind => ?_⟩).1
  cases kind <;> decide +kernel

/-- **A forged manifest.** The order ids of two resting orders are swapped, and the counters say that
both were executed; the manifest is accepted. -/
theorem completeInputAccounting_accepts_forged :
    IdealHash TermDigest ∧
    @Batch.create .stable ⟨1⟩ ⟨7⟩ restingBatch.orders = .ok restingBatch ∧
    restingPreimages.map (·.order) = restingBatch.orders ∧
    @determineClearingOutcome .stable restingBatch = .ok ⟨none, .zero⟩ ∧
    @allocateBatch .stable restingBatch none .zero = .ok (zeroAllocation restingBatch) ∧
    verifyCompleteInputAccounting restingBatch (.new (restingPreimages.map commitOrder))
      (restingManifest [⟨2⟩, ⟨1⟩] 2 0) (zeroAllocation restingBatch) = .ok () ∧
    ¬ (restingManifest [⟨2⟩, ⟨1⟩] 2 0).records.Perm (buildCompleteInputAccounting restingBatch
      restingPreimages (zeroAllocation restingBatch)).2.records ∧
    (restingManifest [⟨2⟩, ⟨1⟩] 2 0).totalFullyExecuted = 2 ∧
    (buildCompleteInputAccounting (D := TermDigest) restingBatch restingPreimages
      (zeroAllocation restingBatch)).2.totalFullyExecuted = 0 := by
  refine ⟨TermDigest.idealHash, ?_, rfl, ?_, ?_, ?_, ?_, rfl, ?_⟩ <;> decide +kernel

end FairCross
