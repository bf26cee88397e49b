import FairCross.Proof.Proofs.VerifierProofs

/-!
# Preimages

The objects that are hashed in the leaf domain, with the bytes they are hashed as. The layouts have
fixed widths, and no two of them the same; so the length of a preimage tells what kind of object it
is, and its fields are read off it one after another.
-/

namespace FairCross

open LittleEndian RecursiveSessionVerifier

/-- What is handed to `commit_raw_bytes`. An order has one of the two sides. -/
inductive LeafObject where
  | order (preimage : SaltedOrderPreimage)
      (h : preimage.order.side = .buy ∨ preimage.order.side = .sell)
  | account (preimage : SaltedAccountPreimage)
  | batchHeader (header : BatchHeader Commitment)
  | oracle (preimage : OracleSnapshotPreimage)
  | absentOracle
  | accountSalt (venueSecret : Bytes32) (accountId : AccountId)
  | historyStep (history : Commitment) (step : StepStatement Commitment)

namespace LeafObject

/-- The bytes an object is hashed as. -/
def preimage : LeafObject → List UInt8
  | order p _ => canonicalEncodeOrder p
  | account p => canonicalEncodeAccount p
  | batchHeader header => header.canonicalEncode
  | oracle p => canonicalEncodeOracleSnapshot p
  | absentOracle => absentOracleMarker
  | accountSalt venueSecret accountId => accountSaltPayload venueSecret accountId
  | historyStep history step => history.bytes ++ step.batchHeaderHash.bytes ++
      leBytes 8 step.clearingPrice ++ leBytes 8 step.clearedVolume

/-- The number of bytes an object of its kind is hashed as. -/
def width : LeafObject → ℕ
  | order _ _ => 86
  | account _ => 77
  | batchHeader _ => 69
  | oracle _ => 57
  | absentOracle => 14
  | accountSalt _ _ => 55
  | historyStep _ _ => 80

/-- The digest of an object. -/
def commit (o : LeafObject) : Commitment := CommitmentScheme.commitRawBytes o.preimage

/-! ## The callers -/

theorem commitOrder_eq (p : SaltedOrderPreimage) (h : p.order.side = .buy ∨ p.order.side = .sell) :
    commitOrder p = (order p h).commit := rfl

theorem commitAccount_eq (p : SaltedAccountPreimage) : commitAccount p = (account p).commit := rfl

theorem computeBatchCommitment_eq (header : BatchHeader Commitment) :
    computeBatchCommitment header = (batchHeader header).commit := rfl

theorem computeOracleSnapshotCommitment_eq (snapshot : Option ReferencePriceSnapshot)
    (policy : Option ReferencePricePolicy) : computeOracleSnapshotCommitment snapshot policy =
      match snapshot, policy with
      | some snapshot, some policy => (oracle ⟨snapshot, policy⟩).commit
      | _, _ => absentOracle.commit := rfl

theorem deriveAccountSalt_eq (venueSecret : Bytes32) (accountId : AccountId) :
    deriveAccountSalt venueSecret accountId = (accountSalt venueSecret accountId).commit := rfl

theorem accumulate_eq (history : Commitment) (publicInputs : BatchProofPublicInputs Commitment) :
    RunningState.accumulate history publicInputs =
      (historyStep history ⟨publicInputs.batchHeaderHash, publicInputs.clearingPrice,
        publicInputs.clearedVolume⟩).commit := rfl

theorem accumPayload_eq (history : Commitment) (publicInputs : BatchProofPublicInputs Commitment) :
    accumPayload history publicInputs =
      (historyStep history ⟨publicInputs.batchHeaderHash, publicInputs.clearingPrice,
        publicInputs.clearedVolume⟩).preimage := rfl

/-! ## Kinds -/

theorem length_preimage (o : LeafObject) : o.preimage.length = o.width := by
  cases o with
  | order p h => simp [preimage, width, canonicalEncodeOrder, DomainTags.orderTag, ascii, p.nonce.size]
  | account p =>
    simp [preimage, width, canonicalEncodeAccount, DomainTags.accountTag, ascii, p.salt.size]
  | batchHeader header =>
    have h : (CommitmentScheme.bytes header.ordersMerkleRoot).length = 32 :=
      header.ordersMerkleRoot.size
    simp [preimage, width, BatchHeader.canonicalEncode, DomainTags.batchHeaderTag, ascii, h]
  | oracle p =>
    simp [preimage, width, canonicalEncodeOracleSnapshot, DomainTags.oracleSnapshotTag, ascii]
  | absentOracle => rfl
  | accountSalt venueSecret accountId =>
    simp [preimage, width, accountSaltPayload, accountSaltTag, ascii, venueSecret.size]
  | historyStep history step => simp [preimage, width, history.size, step.batchHeaderHash.size]

/-! ## Fields -/

/-- The byte of a side tells the two sides apart. -/
theorem sideByte_inj {a b : Side} (ha : a = .buy ∨ a = .sell) (hb : b = .buy ∨ b = .sell)
    (h : (if a = .buy then 0 else 1 : UInt8) = if b = .buy then 0 else 1) : a = b := by
  rcases ha with rfl | rfl
  · rcases hb with rfl | rfl
    · rfl
    · exact absurd h (by decide)
  · rcases hb with rfl | rfl
    · exact absurd h (by decide)
    · rfl

theorem canonicalEncodeOrder_inj {p q : SaltedOrderPreimage}
    (hp : p.order.side = .buy ∨ p.order.side = .sell) (hq : q.order.side = .buy ∨ q.order.side = .sell)
    (h : canonicalEncodeOrder p = canonicalEncodeOrder q) : p = q := by
  unfold canonicalEncodeOrder at h
  simp only [List.append_assoc, List.append_cancel_left_eq] at h
  obtain ⟨hid, h⟩ := leBytes_append_inj p.order.id.raw.isLt q.order.id.raw.isLt h
  obtain ⟨haccount, h⟩ := leBytes_append_inj p.order.account.raw.isLt q.order.account.raw.isLt h
  obtain ⟨hinst, h⟩ := leBytes_append_inj p.order.instrument.raw.isLt q.order.instrument.raw.isLt h
  obtain ⟨hside, h⟩ := List.append_inj h rfl
  obtain ⟨hprice, h⟩ := leBytes_append_inj p.order.price.raw.isLt q.order.price.raw.isLt h
  obtain ⟨hqty, h⟩ := leBytes_append_inj p.order.qty.raw.isLt q.order.qty.raw.isLt h
  obtain ⟨hseq, h⟩ := leBytes_append_inj p.order.seq.isLt q.order.seq.isLt h
  have hside := sideByte_inj hp hq (List.singleton_injective hside)
  obtain ⟨⟨id, account, inst, side, price, qty, seq⟩, nonce⟩ := p
  obtain ⟨⟨id', account', inst', side', price', qty', seq'⟩, nonce'⟩ := q
  simp only [SaltedOrderPreimage.mk.injEq, Order.mk.injEq]
  exact ⟨⟨OrderId.ext (Fin.ext hid), AccountId.ext (Fin.ext haccount),
    InstrumentId.ext (Fin.ext hinst), hside, Price.ext (Fin.ext hprice), Qty.ext_val hqty,
    Fin.ext hseq⟩, Bytes32.ext_bytes h⟩

theorem canonicalEncode_inj {a b : BatchHeader Commitment}
    (h : a.canonicalEncode = b.canonicalEncode) : a = b := by
  unfold BatchHeader.canonicalEncode at h
  simp only [List.append_assoc, List.append_cancel_left_eq] at h
  obtain ⟨hversion, h⟩ := leBytes_append_inj a.semanticVersion.isLt b.semanticVersion.isLt h
  obtain ⟨hid, h⟩ := leBytes_append_inj a.batchId.raw.isLt b.batchId.raw.isLt h
  obtain ⟨hinst, h⟩ := leBytes_append_inj a.instrumentId.raw.isLt b.instrumentId.raw.isLt h
  obtain ⟨hcutoff, h⟩ := leBytes_append_inj a.cutoffTimestamp.isLt b.cutoffTimestamp.isLt h
  obtain ⟨hcount, h⟩ := leBytes_append_inj a.orderCount.isLt b.orderCount.isLt h
  have hroot : a.ordersMerkleRoot = b.ordersMerkleRoot := Bytes32.ext_bytes h
  obtain ⟨version, id, inst, cutoff, count, root⟩ := a
  obtain ⟨version', id', inst', cutoff', count', root'⟩ := b
  simp only [BatchHeader.mk.injEq]
  exact ⟨Fin.ext hversion, BatchId.ext (Fin.ext hid), InstrumentId.ext (Fin.ext hinst),
    Fin.ext hcutoff, Fin.ext hcount, hroot⟩

theorem canonicalEncodeOracleSnapshot_inj {p q : OracleSnapshotPreimage}
    (h : canonicalEncodeOracleSnapshot p = canonicalEncodeOracleSnapshot q) : p = q := by
  unfold canonicalEncodeOracleSnapshot at h
  simp only [List.append_assoc, List.append_cancel_left_eq] at h
  obtain ⟨hid, h⟩ := leBytes_append_inj p.snapshot.oracleId.isLt q.snapshot.oracleId.isLt h
  obtain ⟨hinst, h⟩ :=
    leBytes_append_inj p.snapshot.instrumentId.raw.isLt q.snapshot.instrumentId.raw.isLt h
  obtain ⟨hprice, h⟩ :=
    leBytes_append_inj p.snapshot.referencePrice.raw.isLt q.snapshot.referencePrice.raw.isLt h
  obtain ⟨htime, h⟩ :=
    leBytes_append_inj p.snapshot.timestampNanos.isLt q.snapshot.timestampNanos.isLt h
  obtain ⟨hseq, h⟩ := leBytes_append_inj p.snapshot.sequence.isLt q.snapshot.sequence.isLt h
  obtain ⟨hstale, h⟩ :=
    leBytes_append_inj p.policy.maxStalenessNanos.isLt q.policy.maxStalenessNanos.isLt h
  have hticks := leBytes_inj p.policy.maxDeviationTicks.isLt q.policy.maxDeviationTicks.isLt h
  obtain ⟨⟨oracleId, inst, price, time, seq⟩, stale, ticks⟩ := p
  obtain ⟨⟨oracleId', inst', price', time', seq'⟩, stale', ticks'⟩ := q
  simp only [OracleSnapshotPreimage.mk.injEq, ReferencePriceSnapshot.mk.injEq,
    ReferencePricePolicy.mk.injEq]
  exact ⟨⟨Fin.ext hid, InstrumentId.ext (Fin.ext hinst), Price.ext (Fin.ext hprice), Fin.ext htime,
    Fin.ext hseq⟩, Fin.ext hstale, Fin.ext hticks⟩

theorem accountSaltPayload_inj {secret secret' : Bytes32} {id id' : AccountId}
    (h : accountSaltPayload secret id = accountSaltPayload secret' id') : secret = secret' ∧ id = id' := by
  unfold accountSaltPayload at h
  simp only [List.append_assoc, List.append_cancel_left_eq] at h
  obtain ⟨hsecret, h⟩ := Bytes32.append_inj h
  exact ⟨hsecret, AccountId.ext (Fin.ext (leBytes_inj id.raw.isLt id'.raw.isLt h))⟩

theorem historyStep_inj {history history' : Commitment} {s s' : StepStatement Commitment}
    (h : (historyStep history s).preimage = (historyStep history' s').preimage) :
    history = history' ∧ s = s' := by
  simp only [preimage, List.append_assoc] at h
  obtain ⟨hhistory, h⟩ := Bytes32.append_inj h
  obtain ⟨hheader, h⟩ := Bytes32.append_inj h
  obtain ⟨hprice, h⟩ := leBytes_append_inj s.clearingPrice.isLt s'.clearingPrice.isLt h
  have hvolume := leBytes_inj s.clearedVolume.isLt s'.clearedVolume.isLt h
  obtain ⟨header, price, volume⟩ := s
  obtain ⟨header', price', volume'⟩ := s'
  simp only [StepStatement.mk.injEq]
  exact ⟨hhistory, hheader, Fin.ext hprice, Fin.ext hvolume⟩

/-- **Preimages never collide.** The bytes determine the kind of the object and all its fields. -/
theorem preimage_injective : Function.Injective preimage := by
  intro a b h
  -- objects of different kinds have preimages of different lengths
  have hwidth : a.width = b.width := by
    rw [← length_preimage a, ← length_preimage b, h]
  cases a <;> cases b <;> simp [width] at hwidth
  case order.order p hp q hq =>
    obtain rfl := canonicalEncodeOrder_inj hp hq h
    rfl
  case account.account p q =>
    obtain rfl := canonicalEncodeAccount_inj h
    rfl
  case batchHeader.batchHeader header header' =>
    obtain rfl := canonicalEncode_inj h
    rfl
  case oracle.oracle p q =>
    obtain rfl := canonicalEncodeOracleSnapshot_inj h
    rfl
  case absentOracle.absentOracle => rfl
  case accountSalt.accountSalt secret id secret' id' =>
    obtain ⟨rfl, rfl⟩ := accountSaltPayload_inj h
    rfl
  case historyStep.historyStep history step history' step' =>
    obtain ⟨rfl, rfl⟩ := historyStep_inj h
    rfl

end LeafObject

end FairCross
