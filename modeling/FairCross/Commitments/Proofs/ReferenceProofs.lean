import FairCross.Commitments.Reference

/-!
# Production and reference commitments agree

The production code appends fields and hashes in pieces; the reference writes fields by offset and
hashes at once. They return the same digests on every input.
-/

namespace FairCross

open RecordBuffer LittleEndian

namespace Conformance

/-! ## Fields -/

/-- Masking a byte that is cut off anyway. -/
theorem ofNat_and_mask (n : ℕ) : UInt8.ofNat (n &&& 0xFF) = UInt8.ofNat n := by
  have hmask : n &&& 0xFF = n % 2 ^ 8 := Nat.and_two_pow_sub_one_eq_mod n 8
  rw [hmask]
  exact UInt8.toNat_inj.mp (by simp)

section Fields

variable {done buf : List UInt8} {m : ℕ}

theorem writtenU8 (offset : ℕ) (h : Written 0 done m buf) (value : UInt8) (ho : offset = done.length) (hn : 1 ≤ m) :
    Written 0 (done ++ [value]) (m - 1) (putU8 buf offset value) :=
  h.fill (fun _ => value) ho hn

theorem writtenLe (width offset : ℕ) (h : Written 0 done m buf) (value : ℕ) (ho : offset = done.length)
    (hn : width ≤ m) :
    Written 0 (done ++ leBytes width value) (m - width) (putLe width buf offset value) := by
  have hfill := h.fill (fun i => UInt8.ofNat ((value >>> (i * 8)) &&& 0xFF)) ho hn
  have hbytes : leBytes width value =
      (List.range width).map fun i => UInt8.ofNat ((value >>> (i * 8)) &&& 0xFF) := by
    simp only [ofNat_and_mask]
    rfl
  rw [hbytes]
  exact hfill

theorem writtenTag (offset : ℕ) (h : Written 0 done m buf) (tag : List UInt8)
    (ho : offset = done.length) (hn : tag.length ≤ m) :
    Written 0 (done ++ tag) (m - tag.length) (putTag buf offset tag) :=
  h.fillList tag 0 ho hn

theorem writtenBytes32 (offset : ℕ) (h : Written 0 done m buf) (src : Bytes32)
    (ho : offset = done.length) (hn : 32 ≤ m) : Written 0 (done ++ src.bytes) (m - 32) (putBytes buf offset src.bytes) := by
  have hlist := h.fillList src.bytes 0 ho (by rwa [src.size])
  have hrest : m - src.bytes.length = m - 32 := by rw [src.size]
  rw [hrest] at hlist
  exact hlist

end Fields

/-! ## Records -/

/-- Each offset of the layout is where the fields before it end. -/
theorem encodeOrder_eq (p : SaltedOrderPreimage) : encodeOrder p = canonicalEncodeOrder p := by
  have htag : DomainTags.orderTag.length = 4 := rfl
  have h0 := Written.start (0 : UInt8) 86
  have h1 := writtenTag 0 h0 DomainTags.orderTag rfl (by decide)
  have h2 := writtenU8 4 h1 encodingVersionV1 rfl (by decide)
  have h3 := writtenLe 8 5 h2 p.order.id.raw rfl (by decide)
  have h4 := writtenLe 8 13 h3 p.order.account.raw (by simp [htag]) (by decide)
  have h5 := writtenLe 8 21 h4 p.order.instrument.raw (by simp [htag]) (by decide)
  have h6 := writtenU8 29 h5 (if p.order.side = .buy then 0 else 1) (by simp [htag])
    (by decide)
  have h7 := writtenLe 8 30 h6 p.order.price.raw (by simp [htag]) (by decide)
  have h8 := writtenLe 8 38 h7 p.order.qty.raw (by simp [htag]) (by decide)
  have h9 := writtenLe 8 46 h8 p.order.seq (by simp [htag]) (by decide)
  exact (writtenBytes32 54 h9 p.nonce (by simp [htag]) (by decide)).complete

theorem encodeAccount_eq (p : SaltedAccountPreimage) :
    encodeAccount p.accountId p.cash p.instrument p.inventory p.salt = canonicalEncodeAccount p := by
  have htag : DomainTags.accountTag.length = 4 := rfl
  have h0 := Written.start (0 : UInt8) 77
  have h1 := writtenTag 0 h0 DomainTags.accountTag rfl (by decide)
  have h2 := writtenU8 4 h1 encodingVersionV1 rfl (by decide)
  have h3 := writtenLe 8 5 h2 p.accountId.raw rfl (by decide)
  have h4 := writtenLe 16 13 h3 p.cash.raw (by simp [htag]) (by decide)
  have h5 := writtenLe 8 29 h4 p.instrument.raw (by simp [htag]) (by decide)
  have h6 := writtenLe 8 37 h5 p.inventory.raw (by simp [htag]) (by decide)
  exact (writtenBytes32 45 h6 p.salt (by simp [htag]) (by decide)).complete

theorem encodeBatchHeader_eq (header : BatchHeader Commitment) :
    encodeBatchHeader header.semanticVersion header.batchId.raw header.instrumentId.raw
      header.cutoffTimestamp header.orderCount header.ordersMerkleRoot = header.canonicalEncode := by
  have htag : DomainTags.batchHeaderTag.length = 4 := rfl
  have h0 := Written.start (0 : UInt8) 69
  have h1 := writtenTag 0 h0 DomainTags.batchHeaderTag rfl (by decide)
  have h2 := writtenU8 4 h1 encodingVersionV1 rfl (by decide)
  have h3 := writtenLe 4 5 h2 header.semanticVersion rfl (by decide)
  have h4 := writtenLe 8 9 h3 header.batchId.raw (by simp [htag]) (by decide)
  have h5 := writtenLe 8 17 h4 header.instrumentId.raw (by simp [htag]) (by decide)
  have h6 := writtenLe 8 25 h5 header.cutoffTimestamp (by simp [htag]) (by decide)
  have h7 := writtenLe 4 33 h6 header.orderCount (by simp [htag]) (by decide)
  exact (writtenBytes32 37 h7 header.ordersMerkleRoot (by simp [htag]) (by decide)).complete

theorem encodeOracle_eq (s : ReferencePriceSnapshot) (p : ReferencePricePolicy) :
    encodeOracle s p = canonicalEncodeOracleSnapshot { snapshot := s, policy := p } := by
  have htag : DomainTags.oracleSnapshotTag.length = 4 := rfl
  have h0 := Written.start (0 : UInt8) 57
  have h1 := writtenTag 0 h0 DomainTags.oracleSnapshotTag rfl (by decide)
  have h2 := writtenU8 4 h1 encodingVersionV1 rfl (by decide)
  have h3 := writtenLe 4 5 h2 s.oracleId rfl (by decide)
  have h4 := writtenLe 8 9 h3 s.instrumentId.raw (by simp [htag]) (by decide)
  have h5 := writtenLe 8 17 h4 s.referencePrice.raw (by simp [htag]) (by decide)
  have h6 := writtenLe 8 25 h5 s.timestampNanos (by simp [htag]) (by decide)
  have h7 := writtenLe 8 33 h6 s.sequence (by simp [htag]) (by decide)
  have h8 := writtenLe 8 41 h7 p.maxStalenessNanos (by simp [htag]) (by decide)
  exact (writtenLe 8 49 h8 p.maxDeviationTicks (by simp [htag]) (by decide)).complete

/-! ## The scheme -/

/-- The production code hashes the prefix and the data in two pieces. -/
theorem leafOf_eq (data : List UInt8) : leafOf data = Sha256Scheme.commitRawBytes data := by
  unfold leafOf sha256With sha256 Sha256.hash Sha256Scheme.commitRawBytes Sha256.update
  rw [List.foldl_append]
  rfl

theorem combine_eq (left right : Commitment) :
    combine left right = Sha256Scheme.combineNodes left right := by
  have h0 := Written.start (0 : UInt8) 64
  have h1 := writtenBytes32 0 h0 left rfl (by decide)
  have h2 := (writtenBytes32 32 h1 right (by simp [left.size]) (by decide)).complete
  rw [List.nil_append] at h2
  unfold combine sha256With sha256 Sha256.hash Sha256Scheme.combineNodes Sha256.update
  dsimp only
  rw [h2, List.foldl_append, List.foldl_append]
  rfl

/-- Counting pairs by their left index is pairing from the front. -/
theorem nextLayer_eq (layer : List Commitment) :
    nextLayer layer = HashTree.pairUp Sha256Scheme.combineNodes Sha256Scheme.emptyNode layer := by
  refine List.ext_getElem? fun j => ?_
  by_cases hj : j < (layer.length + 1) / 2
  · have hi : 2 * j < layer.length := by omega
    have hup := HashTree.getElem?_pairUp Sha256Scheme.combineNodes Sha256Scheme.emptyNode layer
      (List.getElem?_eq_getElem hi)
    rw [Nat.mul_div_cancel_left j (by decide), if_neg (by omega)] at hup
    rw [hup, nextLayer, List.getElem?_map, List.getElem?_range hj, Option.map_some]
    dsimp only
    rw [List.getD_eq_getElem _ _ hi, combine_eq]
    refine congrArg some (congrArg _ ?_)
    split_ifs with hi'
    · rw [List.getD_eq_getElem?_getD]
      rfl
    · rw [List.getElem?_eq_none (by omega)]
      rfl
  · rw [List.getElem?_eq_none (by simpa [nextLayer] using hj),
      List.getElem?_eq_none (by rw [HashTree.length_pairUp]; omega)]

theorem merkleLoop_hasRoot {layer : List Commitment} (hne : layer ≠ []) :
    HashTree.HasRoot Sha256Scheme.combineNodes Sha256Scheme.emptyNode layer (merkleLoop layer) := by
  induction layer using merkleLoop.induct with
  | case1 layer hlen ih =>
    rw [merkleLoop, if_pos hlen]
    rw [nextLayer_eq] at ih ⊢
    refine .step hlen (ih ?_)
    rw [← List.length_pos_iff, HashTree.length_pairUp]
    omega
  | case2 layer hlen =>
    have hpos := List.length_pos_iff.mpr hne
    obtain ⟨a, rfl⟩ := List.length_eq_one_iff.mp (show layer.length = 1 by omega)
    rw [merkleLoop, if_neg hlen]
    exact .single a

/-- The loop that keeps one layer and the tree that keeps all of them have one root. -/
theorem merkleRoot_eq (leaves : List Commitment) : merkleRoot leaves = (MerkleTree.new leaves).root := by
  unfold merkleRoot
  by_cases hne : leaves = []
  · rw [if_pos hne, hne]
    rfl
  · rw [if_neg hne]
    exact (merkleLoop_hasRoot hne).unique (MerkleTree.hasRoot_root hne)

/-! ## Derived commitments -/

theorem commitOrderRef_eq (p : SaltedOrderPreimage) : commitOrderRef p = commitOrder p := by
  unfold commitOrderRef
  rw [leafOf_eq, encodeOrder_eq]
  rfl

theorem deriveAccountSaltRef_eq (venueSecret : Bytes32) (accountId : AccountId) :
    deriveAccountSaltRef venueSecret accountId = deriveAccountSalt venueSecret accountId := by
  have htag : FairCross.accountSaltTag.length = 15 := rfl
  have h0 := Written.start (0 : UInt8) 55
  have h1 := writtenTag 0 h0 FairCross.accountSaltTag rfl (by decide)
  have h2 := writtenBytes32 15 h1 venueSecret rfl (by decide)
  have h3 := (writtenLe 8 47 h2 accountId.raw (by simp [htag, venueSecret.size]) (by decide)).complete
  exact (leafOf_eq _).trans (congrArg _ h3)

/-- The ids are listed in ascending order already. -/
theorem sort_keys [StdSort] (ledger : Ledger) :
    StdSort.sort (fun a b : AccountId => decide (a.raw < b.raw)) ledger.accounts.keys =
      ledger.accounts.keys := by
  refine StdSort.sort_eq (fun a : AccountId => a.raw) (fun a b => by simp) ?_ (.refl _) ?_
  · intro a _ b _ h
    exact AccountId.ext h
  · exact List.pairwise_map.mpr (ledger.accounts.sorted.imp fun h => le_of_lt h)

/-- Every listed account is found. -/
theorem mapM_accounts {β : Type} (ledger : Ledger) (f : AccountId → AccountState → β) :
    (ledger.accounts.keys.mapM fun id => (ledger.getAccount id).bind fun acc => some (f id acc)) =
      some (ledger.accounts.entries.map fun e => f e.1 e.2) := by
  have hfound : ∀ e ∈ ledger.accounts.entries, ledger.getAccount e.1 = some e.2 :=
    fun e he => SortedMap.mem_entries.mp he
  unfold SortedMap.keys
  generalize ledger.accounts.entries = entries at hfound ⊢
  induction entries with
  | nil => rfl
  | cons e es ih =>
    rw [List.map_cons, List.mapM_cons, hfound e (.head _), ih fun e he => hfound e (.tail _ he)]
    rfl

theorem ledgerRootRef_eq [StdSort] (ledger : Ledger) (instrument : InstrumentId) :
    ledgerRootRef ledger instrument = some (computeLedgerRoot ledger instrument) := by
  unfold ledgerRootRef computeLedgerRoot
  by_cases hempty : ledger.accounts.entries = []
  · rw [if_pos hempty, if_pos hempty]
    rfl
  · rw [if_neg hempty, if_neg hempty, sort_keys]
    have hleaf : ∀ e : AccountId × AccountState,
        leafOf (encodeAccount e.1 e.2.cash instrument (e.2.inventoryOf instrument)
          e.2.commitmentSalt) =
        CommitmentScheme.commitRawBytes (canonicalEncodeAccount (accountPreimage instrument e)) := by
      intro e
      rw [leafOf_eq]
      exact congrArg _ (encodeAccount_eq (accountPreimage instrument e))
    have hmapM := mapM_accounts ledger fun id acc =>
      leafOf (encodeAccount id acc.cash instrument (acc.inventoryOf instrument) acc.commitmentSalt)
    simp only [Option.bind_eq_bind, Option.pure_def] at hmapM ⊢
    rw [hmapM, Option.bind_some, merkleRoot_eq]
    simp only [hleaf]

theorem oracleCommitmentRef_eq (snapshot : Option ReferencePriceSnapshot)
    (policy : Option ReferencePricePolicy) :
    oracleCommitmentRef snapshot policy = computeOracleSnapshotCommitment snapshot policy := by
  unfold oracleCommitmentRef computeOracleSnapshotCommitment
  rcases snapshot with - | s
  · exact leafOf_eq _
  · rcases policy with - | p
    · exact leafOf_eq _
    · dsimp only
      rw [leafOf_eq, encodeOracle_eq]
      rfl

/-- **The two implementations conform.** On every input the reference returns the commitment the
production code returns: for orders, the root over a batch, batch headers, ledgers, oracle snapshots
and account salts, whatever the sort of the standard library does with the account ids. -/
theorem production_conforms [StdSort] :
    (∀ p, commitOrderRef p = commitOrder p) ∧
    (∀ ps, batchMerkleRootRef ps = (MerkleTree.new (ps.map commitOrder)).root) ∧
    (∀ header : BatchHeader Commitment, batchHeaderCommitmentRef header.semanticVersion
      header.batchId.raw header.instrumentId.raw header.cutoffTimestamp header.orderCount
      header.ordersMerkleRoot = computeBatchCommitment header) ∧
    (∀ ledger instrument, ledgerRootRef ledger instrument = some (computeLedgerRoot ledger instrument)) ∧
    (∀ snapshot policy, oracleCommitmentRef snapshot policy =
      computeOracleSnapshotCommitment snapshot policy) ∧
    (∀ venueSecret accountId, deriveAccountSaltRef venueSecret accountId =
      deriveAccountSalt venueSecret accountId) := by
  refine ⟨commitOrderRef_eq, fun ps => ?_, fun header => ?_, ledgerRootRef_eq, oracleCommitmentRef_eq,
    deriveAccountSaltRef_eq⟩
  · rw [batchMerkleRootRef, merkleRoot_eq, funext commitOrderRef_eq]
  · rw [batchHeaderCommitmentRef, leafOf_eq, encodeBatchHeader_eq]
    rfl

end Conformance

end FairCross
