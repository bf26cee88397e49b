import FairCross.Commitments.Merkle
import FairCross.Commitments.Sha256
import FairCross.Domain.Account
import FairCross.Library.ByteOrder

/-!
# Canonical encodings and commitments

`domain/encoding.hpp` and the commitments of orders, batch headers, ledgers and oracle snapshots
(`commitments/*_commitment.hpp`).
-/

namespace FairCross

open LittleEndian

namespace DomainTags

def orderTag : List UInt8 := ascii ['F', 'C', 'O', 'R']

def accountTag : List UInt8 := ascii ['F', 'C', 'A', 'C']

def batchHeaderTag : List UInt8 := ascii ['F', 'C', 'B', 'H']

def oracleSnapshotTag : List UInt8 := ascii ['F', 'C', 'O', 'S']

end DomainTags

def encodingVersionV1 : UInt8 := 1

/-- The balances of one account in one instrument, with the salt that hides them. -/
structure SaltedAccountPreimage where
  accountId : AccountId
  cash : Money
  instrument : InstrumentId
  inventory : Qty
  salt : Bytes32
deriving DecidableEq

def canonicalEncodeOrder (preimage : SaltedOrderPreimage) : List UInt8 :=
  DomainTags.orderTag ++ [encodingVersionV1] ++ leBytes 8 preimage.order.id.raw ++
    leBytes 8 preimage.order.account.raw ++ leBytes 8 preimage.order.instrument.raw ++
    [if preimage.order.side = .buy then 0 else 1] ++ leBytes 8 preimage.order.price.raw ++
    leBytes 8 preimage.order.qty.raw ++ leBytes 8 preimage.order.seq ++ preimage.nonce.bytes

def canonicalEncodeAccount (preimage : SaltedAccountPreimage) : List UInt8 :=
  DomainTags.accountTag ++ [encodingVersionV1] ++ leBytes 8 preimage.accountId.raw ++
    leBytes 16 preimage.cash.raw ++ leBytes 8 preimage.instrument.raw ++
    leBytes 8 preimage.inventory.raw ++ preimage.salt.bytes

/-- A snapshot and the policy it was accepted under. -/
structure OracleSnapshotPreimage where
  snapshot : ReferencePriceSnapshot
  policy : ReferencePricePolicy
deriving DecidableEq

def canonicalEncodeOracleSnapshot (preimage : OracleSnapshotPreimage) : List UInt8 :=
  DomainTags.oracleSnapshotTag ++ [encodingVersionV1] ++ leBytes 4 preimage.snapshot.oracleId ++
    leBytes 8 preimage.snapshot.instrumentId.raw ++ leBytes 8 preimage.snapshot.referencePrice.raw ++
    leBytes 8 preimage.snapshot.timestampNanos ++ leBytes 8 preimage.snapshot.sequence ++
    leBytes 8 preimage.policy.maxStalenessNanos ++ leBytes 8 preimage.policy.maxDeviationTicks

/-- The metadata of one clearing round. -/
structure BatchHeader (D : Type) where
  semanticVersion : U32
  batchId : BatchId
  instrumentId : InstrumentId
  cutoffTimestamp : U64
  orderCount : U32
  ordersMerkleRoot : D

/-- What is committed to when there is no snapshot. -/
def absentOracleMarker : List UInt8 :=
  ascii ['F', 'C', 'O', 'S', '_', 'A', 'B', 'S', 'E', 'N', 'T', '_', 'V', '1']

/-- `ACCOUNT_SALT_TAG`. -/
def accountSaltTag : List UInt8 :=
  ascii ['F', 'C', '_', 'A', 'C', 'C', 'T', '_', 'S', 'A', 'L', 'T', '_', 'V', '1']

/-- What an account's salt is derived from. -/
def accountSaltPayload (venueSecret : Bytes32) (accountId : AccountId) : List UInt8 :=
  accountSaltTag ++ venueSecret.bytes ++ leBytes 8 accountId.raw

def deriveAccountSalt (venueSecret : Bytes32) (accountId : AccountId) : Bytes32 :=
  Sha256Scheme.commitRawBytes (accountSaltPayload venueSecret accountId)

section Scheme

variable {D : Type} [CommitmentScheme D]

def BatchHeader.canonicalEncode (header : BatchHeader D) : List UInt8 :=
  DomainTags.batchHeaderTag ++ [encodingVersionV1] ++ leBytes 4 header.semanticVersion ++
    leBytes 8 header.batchId.raw ++ leBytes 8 header.instrumentId.raw ++
    leBytes 8 header.cutoffTimestamp ++ leBytes 4 header.orderCount ++
    CommitmentScheme.bytes header.ordersMerkleRoot

def commitOrder (preimage : SaltedOrderPreimage) : D :=
  CommitmentScheme.commitRawBytes (canonicalEncodeOrder preimage)

def computeBatchCommitment (header : BatchHeader D) : D :=
  CommitmentScheme.commitRawBytes header.canonicalEncode

/-- What the ledger commitment says about one account. -/
def accountPreimage (inst : InstrumentId) (e : AccountId × AccountState) : SaltedAccountPreimage where
  accountId := e.1
  cash := e.2.cash
  instrument := inst
  inventory := e.2.inventoryOf inst
  salt := e.2.commitmentSalt

/-- The Merkle root over the accounts, in ascending order of their ids. -/
def computeLedgerRoot (ledger : Ledger) (inst : InstrumentId) : D :=
  if ledger.accounts.entries = [] then CommitmentScheme.emptyNode
  else (MerkleTree.new (ledger.accounts.entries.map fun e =>
    (CommitmentScheme.commitRawBytes (canonicalEncodeAccount (accountPreimage inst e)) : D))).root

def computeOracleSnapshotCommitment (snapshot : Option ReferencePriceSnapshot)
    (policy : Option ReferencePricePolicy) : D :=
  match snapshot, policy with
  | some snapshot, some policy =>
    CommitmentScheme.commitRawBytes (canonicalEncodeOracleSnapshot { snapshot, policy })
  | _, _ => CommitmentScheme.commitRawBytes absentOracleMarker

/-! ## The ledger root binds the balances -/

theorem Bytes32.ext_bytes {a b : Bytes32} (h : a.bytes = b.bytes) : a = b := by
  cases a; cases b; simp_all

theorem canonicalEncodeAccount_inj {p q : SaltedAccountPreimage}
    (h : canonicalEncodeAccount p = canonicalEncodeAccount q) : p = q := by
  unfold canonicalEncodeAccount at h
  simp only [List.append_assoc, List.append_cancel_left_eq] at h
  obtain ⟨h1, h⟩ := leBytes_append_inj p.accountId.raw.isLt q.accountId.raw.isLt h
  obtain ⟨h2, h⟩ := leBytes_append_inj p.cash.raw.isLt q.cash.raw.isLt h
  obtain ⟨h3, h⟩ := leBytes_append_inj p.instrument.raw.isLt q.instrument.raw.isLt h
  obtain ⟨h4, h⟩ := leBytes_append_inj p.inventory.raw.isLt q.inventory.raw.isLt h
  have h5 := Bytes32.ext_bytes h
  cases p
  cases q
  simp only [SaltedAccountPreimage.mk.injEq]
  exact ⟨AccountId.ext (Fin.ext h1), Money.ext_val h2, InstrumentId.ext (Fin.ext h3),
    Qty.ext_val h4, h5⟩

/-- What the root of a ledger commits to: the preimages of its accounts. -/
def ledgerPreimages (inst : InstrumentId) (ledger : Ledger) : List SaltedAccountPreimage :=
  ledger.accounts.entries.map (accountPreimage inst)

/-- The leaf of an account. -/
def commitAccount (p : SaltedAccountPreimage) : D :=
  CommitmentScheme.commitRawBytes (canonicalEncodeAccount p)

theorem commitAccount_inj (h : IdealHash D) {p q : SaltedAccountPreimage}
    (he : (commitAccount p : D) = commitAccount q) : p = q :=
  canonicalEncodeAccount_inj (h.commit_inj he)

/-- The leaves of a ledger. -/
def ledgerLeaves (inst : InstrumentId) (ledger : Ledger) : List D :=
  (ledgerPreimages inst ledger).map commitAccount

theorem ledgerLeaves_commit (inst : InstrumentId) (ledger : Ledger) :
    ∀ d ∈ (ledgerLeaves inst ledger : List D), ∃ s, d = CommitmentScheme.commitRawBytes s := by
  intro d hd
  obtain ⟨p, -, rfl⟩ := List.mem_map.mp hd
  exact ⟨_, rfl⟩

theorem computeLedgerRoot_eq (inst : InstrumentId) (ledger : Ledger) :
    (computeLedgerRoot ledger inst : D) = (MerkleTree.new (ledgerLeaves inst ledger)).root := by
  unfold computeLedgerRoot ledgerLeaves ledgerPreimages
  by_cases hm : ledger.accounts.entries = []
  · rw [if_pos hm, hm]
    rfl
  · rw [if_neg hm, List.map_map]
    rfl

/-- **Binding.** Under an ideal hash, ledgers with the same root commit to the same preimages. -/
theorem computeLedgerRoot_inj (h : IdealHash D) {inst : InstrumentId} {l l' : Ledger}
    (he : (computeLedgerRoot l inst : D) = computeLedgerRoot l' inst) :
    ledgerPreimages inst l = ledgerPreimages inst l' := by
  rw [computeLedgerRoot_eq, computeLedgerRoot_eq] at he
  have hleaves := MerkleTree.root_inj h (ledgerLeaves_commit inst l) (ledgerLeaves_commit inst l') he
  exact List.map_injective_iff.mpr (fun p q hpq => commitAccount_inj h hpq) hleaves

end Scheme

/-- The same accounts, with the same cash, salt and inventory of `inst`. -/
structure Ledger.SameCommitted (inst : InstrumentId) (l l' : Ledger) : Prop where
  isSome : ∀ a, (l'.getAccount a).isSome = (l.getAccount a).isSome
  balances : ∀ a x y, l.getAccount a = some x → l'.getAccount a = some y →
    y.cash = x.cash ∧ y.inventoryOf inst = x.inventoryOf inst ∧ y.commitmentSalt = x.commitmentSalt

/-- The preimage of an account's leaf is found under its id. -/
theorem mem_ledgerPreimages {inst : InstrumentId} {l : Ledger} {p : SaltedAccountPreimage} :
    p ∈ ledgerPreimages inst l ↔
      ∃ x, l.getAccount p.accountId = some x ∧ accountPreimage inst (p.accountId, x) = p := by
  constructor
  · intro hp
    obtain ⟨⟨a, x⟩, he, rfl⟩ := List.mem_map.mp hp
    exact ⟨x, SortedMap.mem_entries.mp he, rfl⟩
  · rintro ⟨x, hx, hp⟩
    exact List.mem_map.mpr ⟨(p.accountId, x), SortedMap.mem_entries.mpr hx, hp⟩

theorem sameCommitted_of_preimages {inst : InstrumentId} {l l' : Ledger}
    (h : ledgerPreimages inst l = ledgerPreimages inst l') : l.SameCommitted inst l' := by
  -- an account of one ledger has its counterpart in the other
  have hfind : ∀ {m m' : Ledger}, ledgerPreimages inst m = ledgerPreimages inst m' → ∀ a x,
      m.getAccount a = some x → ∃ y, m'.getAccount a = some y ∧
        accountPreimage inst (a, y) = accountPreimage inst (a, x) := by
    intro m m' hm a x hx
    have hp : accountPreimage inst (a, x) ∈ ledgerPreimages inst m' :=
      hm ▸ mem_ledgerPreimages.mpr ⟨x, hx, rfl⟩
    obtain ⟨y, hy, hp⟩ := mem_ledgerPreimages.mp hp
    exact ⟨y, hy, hp⟩
  constructor
  · intro a
    rw [Bool.eq_iff_iff, Option.isSome_iff_exists, Option.isSome_iff_exists]
    constructor
    · rintro ⟨x, hx⟩
      obtain ⟨y, hy, -⟩ := hfind h.symm a x hx
      exact ⟨y, hy⟩
    · rintro ⟨x, hx⟩
      obtain ⟨y, hy, -⟩ := hfind h a x hx
      exact ⟨y, hy⟩
  · intro a x y hx hy
    obtain ⟨z, hz, hp⟩ := hfind h a x hx
    obtain rfl := Option.some.inj (hy.symm.trans hz)
    simp only [accountPreimage, SaltedAccountPreimage.mk.injEq] at hp
    exact ⟨hp.2.1, hp.2.2.2.1, hp.2.2.2.2⟩

/-- Ledgers that agree in everything a leaf encodes have the same preimages. -/
theorem preimages_of_sameCommitted {inst : InstrumentId} {l l' : Ledger}
    (h : l.SameCommitted inst l') : ledgerPreimages inst l = ledgerPreimages inst l' := by
  refine SortedMap.map_entries_congr (f := fun a x => accountPreimage inst (a, x))
    (g := fun a x => accountPreimage inst (a, x)) fun a => ?_
  have hsome : (l'.accounts.find a).isSome = (l.accounts.find a).isSome := h.isSome a
  cases hx : l.accounts.find a with
  | none =>
    rw [hx, Option.isSome_none, Option.isSome_eq_false_iff, Option.isNone_iff_eq_none] at hsome
    rw [hsome]
  | some x =>
    rw [hx, Option.isSome_some] at hsome
    obtain ⟨y, hy⟩ := Option.isSome_iff_exists.mp hsome
    obtain ⟨hcash, hinv, hsalt⟩ := h.balances a x y hx hy
    rw [hy, Option.map_some, Option.map_some]
    simp only [accountPreimage, hcash, hinv, hsalt]

/-! ## Blinding -/

def AccountState.setCommitmentSalt (acc : AccountState) (salt : Bytes32) : AccountState :=
  { acc with commitmentSalt := salt }

/-- The zero salt stands for no salt. -/
def AccountState.isBlinded (acc : AccountState) : Bool := acc.commitmentSalt ≠ .fill 0

def Ledger.isFullyBlinded (l : Ledger) : Bool :=
  l.accounts.entries ≠ [] && l.accounts.entries.all fun e => e.2.isBlinded

def blindLedger (venueSecret : Bytes32) (l : Ledger) : Ledger :=
  ⟨l.accounts.mapVal fun id acc => acc.setCommitmentSalt (deriveAccountSalt venueSecret id)⟩

end FairCross
