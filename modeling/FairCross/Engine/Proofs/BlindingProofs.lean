import FairCross.Commitments.Encoding
import FairCross.Engine.Proofs.ExecutionProofs

/-!
# Blinding and execution

No step of the engine reads or writes a salt, and an accepted batch creates no account. So executing a
blinded ledger is blinding the executed one, batch after batch.
-/

namespace FairCross

/-- The result of an execution on a ledger blinded with `venueSecret`. -/
def BatchExecutionResult.blind (venueSecret : Bytes32) (r : BatchExecutionResult) :
    BatchExecutionResult :=
  { r with postState := blindLedger venueSecret r.postState }

/-- The batches executed one after another, each on the ledger the one before it leaves. -/
def executeBatches [StdSort] : Ledger → List Batch → Result (List BatchExecutionResult)
  | _, [] => pure []
  | l, batch :: batches => do
    let r ← executeBatch l batch
    let rs ← executeBatches r.postState batches
    pure (r :: rs)

section Ledger

variable (s : Bytes32) (l : Ledger)

theorem getAccount_blindLedger (a : AccountId) : (blindLedger s l).getAccount a =
    (l.getAccount a).map fun acc => acc.setCommitmentSalt (deriveAccountSalt s a) :=
  SortedMap.find_mapVal _ _ _

theorem setAccount_blindLedger (a : AccountId) (acc : AccountState) :
    (blindLedger s l).setAccount a (acc.setCommitmentSalt (deriveAccountSalt s a)) =
      blindLedger s (l.setAccount a acc) := by
  unfold blindLedger Ledger.setAccount
  congr 1
  apply SortedMap.ext_find
  intro k
  rw [SortedMap.find_mapVal, SortedMap.find_insert, SortedMap.find_insert, SortedMap.find_mapVal]
  split_ifs with h
  · rw [h]
    rfl
  · rfl

theorem Ledger.isFullyBlinded_iff : l.isFullyBlinded = true ↔
    (∃ a, (l.getAccount a).isSome) ∧ ∀ a acc, l.getAccount a = some acc → acc.isBlinded = true := by
  simp only [isFullyBlinded, Bool.and_eq_true, decide_eq_true_eq, List.all_eq_true, Prod.forall,
    SortedMap.mem_entries, getAccount]
  refine and_congr_left fun _ => ?_
  constructor
  · intro hne
    obtain ⟨e, he⟩ := List.exists_mem_of_ne_nil _ hne
    exact ⟨e.1, by rw [SortedMap.mem_entries.mp he]; rfl⟩
  · rintro ⟨a, ha⟩
    obtain ⟨acc, hacc⟩ := Option.isSome_iff_exists.mp ha
    exact List.ne_nil_of_mem (SortedMap.mem_entries.mpr hacc)

theorem totalCash_blindLedger : (blindLedger s l).totalCash = l.totalCash := by
  unfold Ledger.totalCash blindLedger SortedMap.mapVal
  rw [List.foldlM_map]
  rfl

theorem totalInventoryOf_blindLedger (i : InstrumentId) :
    (blindLedger s l).totalInventoryOf i = l.totalInventoryOf i := by
  unfold Ledger.totalInventoryOf blindLedger SortedMap.mapVal
  rw [List.foldlM_map]
  rfl

end Ledger

section Settle

variable (s : Bytes32)

theorem debitCash_setCommitmentSalt (acc : AccountState) (m : Money) :
    (acc.setCommitmentSalt s).debitCash m = (acc.debitCash m).map (·.setCommitmentSalt s) := by
  unfold AccountState.debitCash
  cases h : acc.cash.checkedSub m <;> simp [AccountState.setCommitmentSalt, h, Except.map]

theorem creditCash_setCommitmentSalt (acc : AccountState) (m : Money) :
    (acc.setCommitmentSalt s).creditCash m = (acc.creditCash m).map (·.setCommitmentSalt s) := by
  unfold AccountState.creditCash
  simp only [AccountState.setCommitmentSalt]
  cases (acc.cash.checkedAdd m).convert <;> rfl

theorem debitInventory_setCommitmentSalt (acc : AccountState) (i : InstrumentId) (q : Qty) :
    (acc.setCommitmentSalt s).debitInventory i q =
      (acc.debitInventory i q).map (·.setCommitmentSalt s) := by
  unfold AccountState.debitInventory
  simp only [show (acc.setCommitmentSalt s).inventoryOf i = acc.inventoryOf i from rfl]
  cases (acc.inventoryOf i).checkedSub q with
  | error e => rfl
  | ok rest =>
    simp only
    split_ifs <;> rfl

theorem creditInventory_setCommitmentSalt (acc : AccountState) (i : InstrumentId) (q : Qty) :
    (acc.setCommitmentSalt s).creditInventory i q =
      (acc.creditInventory i q).map (·.setCommitmentSalt s) := by
  unfold AccountState.creditInventory
  simp only [show (acc.setCommitmentSalt s).inventoryOf i = acc.inventoryOf i from rfl]
  cases ((acc.inventoryOf i).checkedAdd q).convert <;> rfl

/-- Settlement neither reads nor writes the salt. -/
theorem settle_setCommitmentSalt (acc : AccountState) (f : Fill) :
    settle (acc.setCommitmentSalt s) f = (settle acc f).map (·.setCommitmentSalt s) := by
  unfold settle
  split_ifs with hs
  · rw [debitCash_setCommitmentSalt]
    cases acc.debitCash f.consideration with
    | error e => rfl
    | ok acc' =>
      show ((acc'.setCommitmentSalt s).creditInventory _ _).convert = _
      rw [creditInventory_setCommitmentSalt]
      cases h : acc'.creditInventory f.instrumentId f.fillQty <;>
        simp [Except.map, Result.convert, bind, Except.bind, h, failure]
  · rw [debitInventory_setCommitmentSalt]
    cases acc.debitInventory f.instrumentId f.fillQty with
    | error e => rfl
    | ok acc' =>
      show ((acc'.setCommitmentSalt s).creditCash _).convert = _
      rw [creditCash_setCommitmentSalt]
      cases h : acc'.creditCash f.consideration <;>
        simp [Except.map, Result.convert, bind, Except.bind, h, failure]

theorem applyFill_of_some {l : Ledger} {f : Fill} {acc : AccountState}
    (h : l.getAccount f.accountId = some acc) :
    applyFill l f = (settle acc f).map (l.setAccount f.accountId) := by
  unfold applyFill Ledger.getOrCreateAccount
  rw [show l.accounts.find f.accountId = some acc from h]
  simp only
  cases settle acc f <;> rfl

theorem applyFill_of_none {l : Ledger} {f : Fill} (h : l.getAccount f.accountId = none) :
    applyFill l f = (settle (.new f.accountId .zero) f).map
      ((Ledger.setAccount ⟨l.accounts.insert f.accountId (.new f.accountId .zero)⟩ f.accountId)) := by
  unfold applyFill Ledger.getOrCreateAccount
  rw [show l.accounts.find f.accountId = none from h]
  simp only
  cases settle (.new f.accountId .zero) f <;> rfl

/-- A fill of a positive amount settles alike on a blinded ledger: it fails on a missing account, so
no account without a salt comes up. -/
theorem applyFill_blindLedger (l : Ledger) {f : Fill} (hpos : f.Positive) :
    applyFill (blindLedger s l) f = (applyFill l f).map (blindLedger s) := by
  have hget := getAccount_blindLedger s l f.accountId
  cases hacc : l.getAccount f.accountId with
  | some acc =>
    rw [hacc] at hget
    rw [applyFill_of_some hget, applyFill_of_some hacc, settle_setCommitmentSalt]
    cases settle acc f with
    | error e => rfl
    | ok acc' => exact congrArg Except.ok (setAccount_blindLedger s l _ _)
  | none =>
    rw [hacc] at hget
    cases hset : settle (.new f.accountId .zero) f with
    | error e => rw [applyFill_of_none hget, applyFill_of_none hacc, hset]; rfl
    | ok acc' =>
      have := applyFill_account_exists hpos ((applyFill_of_none hacc).trans (by rw [hset]; rfl))
      rw [hacc] at this
      exact Bool.noConfusion this

theorem foldlM_applyFill_blindLedger {fills : List Fill} (hpos : ∀ f ∈ fills, f.Positive)
    (l : Ledger) :
    fills.foldlM applyFill (blindLedger s l) = (fills.foldlM applyFill l).map (blindLedger s) := by
  induction fills generalizing l with
  | nil => rfl
  | cons f fills ih =>
    rw [List.foldlM_cons, List.foldlM_cons, applyFill_blindLedger s l (hpos f (List.mem_cons_self ..))]
    cases applyFill l f with
    | error e => rfl
    | ok l' => exact ih (fun f hf => hpos f (List.mem_cons_of_mem _ hf)) l'

theorem applyBatchTransition_blindLedger {fills : List Fill} (hpos : ∀ f ∈ fills, f.Positive)
    (l : Ledger) :
    applyBatchTransition (blindLedger s l) fills =
      (applyBatchTransition l fills).map (blindLedger s) := by
  unfold applyBatchTransition
  rw [foldlM_applyFill_blindLedger s hpos]
  cases fills.foldlM applyFill l with
  | error e => rfl
  | ok l' =>
    simp only [Except.map, bind, Except.bind, totalCash_blindLedger, totalInventoryOf_blindLedger]
    split_ifs <;> rfl

/-- The same accounts with the same salts are blinded alike. -/
theorem SameAccounts.isFullyBlinded {i : InstrumentId} {l l' : Ledger} (h : SameAccounts i l l') :
    l'.isFullyBlinded = l.isFullyBlinded := by
  rw [Bool.eq_iff_iff, Ledger.isFullyBlinded_iff, Ledger.isFullyBlinded_iff]
  refine and_congr (exists_congr fun a => by rw [h.isSome]) (forall_congr' fun a => ?_)
  constructor
  · intro h' x hx
    obtain ⟨y, hy⟩ := Option.isSome_iff_exists.mp ((h.isSome a).trans (by rw [hx]; rfl))
    have := h' y hy
    rwa [AccountState.isBlinded, (h.moved a x y hx hy).salt] at this
  · intro h' y hy
    obtain ⟨x, hx⟩ := Option.isSome_iff_exists.mp ((h.isSome a).symm.trans (by rw [hy]; rfl))
    have := h' x hx
    rwa [AccountState.isBlinded, ← (h.moved a x y hx hy).salt] at this

end Settle

section Execute

variable [StdSort] (s : Bytes32)

/-- One batch: blinding commutes with execution, errors included. -/
theorem Batch.Accepted.executeBatch_blindLedger {batch : Batch} (hb : batch.Accepted) (l : Ledger) :
    executeBatch (blindLedger s l) batch = (executeBatch l batch).map (.blind s) := by
  unfold executeBatch
  cases ho : determineClearingOutcome batch with
  | error e => rfl
  | ok outcome =>
    have hpos := hb.canonicalFills_positive ho
    simp only [Result.convert, bind, Except.bind, hb.allocateBatch_eq ho,
      hb.generateCanonicalFills_eq ho, applyBatchTransition_blindLedger s hpos]
    cases applyBatchTransition l (canonicalFills outcome batch) <;> rfl

theorem Batch.Accepted.executeBatch_sameAccounts {batch : Batch} (hb : batch.Accepted)
    {l : Ledger} {r : BatchExecutionResult} (h : executeBatch l batch = .ok r) :
    SameAccounts batch.instrument l r.postState := by
  obtain ⟨outcome, post, ho, hrun, -, -, rfl⟩ := hb.executeBatch_eq_ok.mp h
  exact foldlM_applyFill_sameAccounts (canonicalFills_instrument outcome batch)
    (hb.canonicalFills_positive ho) hrun

/-- **A blinded run.** Blinding the ledger first and executing then, and executing first and blinding
every result then, are the same, errors included, and the blinding holds in every state reached. -/
theorem executeBatches_blindLedger {batches : List Batch}
    (hb : ∀ b ∈ batches, ∃ orders, Batch.create b.batchId b.instrument orders = .ok b) (l : Ledger) :
    executeBatches (blindLedger s l) batches =
        (executeBatches l batches).map (List.map (.blind s)) ∧
      ∀ rs, executeBatches l batches = .ok rs →
        ∀ r ∈ rs, r.postState.isFullyBlinded = l.isFullyBlinded := by
  induction batches generalizing l with
  | nil =>
    refine ⟨rfl, fun rs hrs r hr => ?_⟩
    obtain rfl : [] = rs := Except.ok.inj hrs
    exact absurd hr List.not_mem_nil
  | cons b batches ih =>
    obtain ⟨hhd, htl⟩ := List.forall_mem_cons.mp hb
    obtain ⟨orders, hcreate⟩ := hhd
    have hacc := Batch.accepted_of_create hcreate
    unfold executeBatches
    rw [hacc.executeBatch_blindLedger s l]
    cases hr : executeBatch l b with
    | error e => exact ⟨rfl, fun rs hrs => by cases hrs⟩
    | ok r =>
      obtain ⟨hrun, hblind⟩ := ih htl r.postState
      have hstep := (hacc.executeBatch_sameAccounts hr).isFullyBlinded
      refine ⟨?_, fun rs hrs => ?_⟩
      · show (executeBatches (blindLedger s r.postState) batches >>= _) =
          (executeBatches r.postState batches >>= fun rs => pure (r :: rs)).map _
        rw [hrun]
        cases executeBatches r.postState batches <;> rfl
      · simp only [Result.bind_eq_ok, Result.pure_eq_ok] at hrs
        obtain ⟨r', hr', rs', hrs', rfl⟩ := hrs
        obtain rfl := Except.ok.inj hr'
        rintro r'' (_ | ⟨_, hr''⟩)
        · exact hstep
        · exact (hblind rs' hrs' r'' hr'').trans hstep

end Execute

/-- The buyer of the example batch sells 3 lots back. -/
def returnBatch : Batch where
  batchId := ⟨2⟩
  instrument := ⟨7⟩
  orders := [exampleOrder 4 1 .sell 100 3 0, exampleOrder 5 2 .buy 100 3 1]

def returnOutcome : ClearingOutcome := ⟨some ⟨100⟩, ⟨3⟩⟩

def returnResult : BatchExecutionResult where
  clearingOutcome := returnOutcome
  allocation := @canonicalAllocation .stable returnOutcome returnBatch
  fills := @canonicalFills .stable returnOutcome returnBatch
  postState := ((Ledger.empty.insertAccount (exampleAccount 1 1250 [(7, 7)])).insertAccount
    (exampleAccount 2 120 [(7, 9)])).insertAccount (exampleAccount 3 630 [(7, 4), (8, 5)])

/-- Two batches on the example ledger, blinded with the secret `0101…`. -/
theorem executeBatches_blindLedger_example :
    @executeBatches .stable (blindLedger (.fill 1) exampleLedger) [exampleBatch, returnBatch] =
      .ok [exampleResult.blind (.fill 1), returnResult.blind (.fill 1)] := by
  have hrun : @executeBatches .stable exampleLedger [exampleBatch, returnBatch] =
      .ok [exampleResult, returnResult] := by decide +kernel
  have hcreate : ∀ b ∈ [exampleBatch, returnBatch],
      ∃ orders, @Batch.create .stable b.batchId b.instrument orders = .ok b := by
    intro b hb
    rcases List.mem_cons.mp hb with rfl | hb
    · exact ⟨exampleBatch.orders, by decide +kernel⟩
    · obtain rfl := List.mem_singleton.mp hb
      exact ⟨returnBatch.orders, by decide +kernel⟩
  have h := (@executeBatches_blindLedger .stable (.fill 1) [exampleBatch, returnBatch] hcreate
    exampleLedger).1
  rwa [hrun] at h

end FairCross
