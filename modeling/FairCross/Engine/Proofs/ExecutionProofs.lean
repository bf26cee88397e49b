import FairCross.Engine.Proofs.TransitionProofs

/-!
# What an execution does, and when it fails

`executeBatch_settles`: a successful execution settles exactly what was allocated. `executeBatch_fails`:
an execution fails on the side totals, on the balances during the replay of the fills, or on the range
of the ledger's totals, and on nothing else.
-/

namespace FairCross

/-! ## Exact settlement -/

theorem Ledger.balance_of_getAccount {l : Ledger} {i : InstrumentId} {a : AccountId}
    {x : AccountState} (h : l.getAccount a = some x) :
    l.balance i a = ((x.cash.raw : ℤ), ((x.inventoryOf i).raw : ℤ)) := by
  simp only [balance, cashOf, lotsOf, h, Option.map_some, Option.getD_some]

/-- **Settlement is exact and touches nothing else.** Every account pays and receives the clearing
price for what was allocated to its orders; all else in it stays, no account appears, and all totals
are conserved. -/
theorem executeBatch_settles [StdSort] {batchId : BatchId} {instrument : InstrumentId}
    {orders : List Order} {batch : Batch} {pre : Ledger} {r : BatchExecutionResult}
    (hb : Batch.create batchId instrument orders = .ok batch)
    (h : executeBatch pre batch = .ok r) :
    (∀ p, r.clearingOutcome.clearingPrice = some p → ∀ a x, pre.getAccount a = some x →
      ∃ y, r.postState.getAccount a = some y ∧
        (y.cash.raw : ℤ) = x.cash.raw - p.raw * r.allocation.accountLots .buy a +
          p.raw * r.allocation.accountLots .sell a ∧
        ((y.inventoryOf batch.instrument).raw : ℤ) = (x.inventoryOf batch.instrument).raw +
          r.allocation.accountLots .buy a - r.allocation.accountLots .sell a ∧
        (∀ i, i ≠ batch.instrument → y.inventory.find i = x.inventory.find i) ∧
        y.id = x.id ∧ y.commitmentSalt = x.commitmentSalt) ∧
      (r.clearingOutcome.clearingPrice = none → r.postState = pre) ∧
      (∀ a, (r.postState.getAccount a).isSome = (pre.getAccount a).isSome) ∧
      r.postState.cashSum = pre.cashSum ∧ ∀ i, r.postState.lotsSum i = pre.lotsSum i := by
  have hacc := Batch.accepted_of_create hb
  obtain ⟨outcome, post, ho, hrun, -, -, rfl⟩ := hacc.executeBatch_eq_ok.mp h
  have hinst := canonicalFills_instrument outcome batch
  have hsame := foldlM_applyFill_sameAccounts hinst (hacc.canonicalFills_positive ho) hrun
  refine ⟨fun p hp a x hx => ?_, fun hn => ?_, hsame.isSome, hacc.sums_eq ho hrun⟩
  · obtain ⟨y, hy⟩ := Option.isSome_iff_exists.mp ((hsame.isSome a).trans (by rw [hx]; rfl))
    have hbal := foldlM_applyFill_balance hinst hrun a
    rw [Ledger.balance_of_getAccount hx, Ledger.balance_of_getAccount hy,
      hacc.canonicalFills_net hp, Prod.ext_iff] at hbal
    obtain ⟨h1, h2⟩ := hbal
    obtain ⟨h3, h4, h5⟩ := hsame.moved a x y hx hy
    simp only [Prod.fst_add, Prod.snd_add] at h1 h2
    exact ⟨y, hy, by rw [h1]; ring, by rw [h2]; ring, h3, h4, h5⟩
  · have hnil : canonicalFills outcome batch = [] := by
      simp only at hn
      rw [canonicalFills, hn]
    rw [hnil] at hrun
    exact (Except.ok.inj hrun).symm

/-- An account with some cash and inventories. -/
def exampleAccount (id : U64) (cash : U128) (inventory : List (U64 × U64)) : AccountState where
  id := ⟨id⟩
  cash := ⟨cash⟩
  inventory := inventory.foldl (fun m e => m.insert ⟨e.1⟩ ⟨e.2⟩) .empty
  commitmentSalt := .fill 1

/-- The participants of the example batch; the third also holds instrument 8. -/
def exampleLedger : Ledger :=
  ((Ledger.empty.insertAccount (exampleAccount 1 2000 [])).insertAccount
    (exampleAccount 2 0 [(7, 10)])).insertAccount (exampleAccount 3 0 [(7, 10), (8, 5)])

/-- The ledger after the example batch. -/
def exampleSettled : Ledger :=
  ((Ledger.empty.insertAccount (exampleAccount 1 950 [(7, 10)])).insertAccount
    (exampleAccount 2 420 [(7, 6)])).insertAccount (exampleAccount 3 630 [(7, 4), (8, 5)])

/-- The execution of the example batch. -/
def exampleResult : BatchExecutionResult where
  clearingOutcome := exampleOutcome
  allocation := @canonicalAllocation .stable exampleOutcome exampleBatch
  fills := @canonicalFills .stable exampleOutcome exampleBatch
  postState := exampleSettled

/-- The third account sells 6 of its 10 lots at 105. -/
theorem executeBatch_settles_example :
    (∃ y, exampleSettled.getAccount ⟨3⟩ = some y ∧ (y.cash.raw : ℤ) = 105 * 6 ∧
      ((y.inventoryOf ⟨7⟩).raw : ℤ) = 10 - 6 ∧ y.inventory.find ⟨8⟩ = some ⟨5⟩) ∧
    exampleSettled.cashSum = exampleLedger.cashSum ∧
    ∀ i, exampleSettled.lotsSum i = exampleLedger.lotsSum i := by
  obtain ⟨haccounts, -, -, hsums⟩ := @executeBatch_settles .stable ⟨1⟩ ⟨7⟩ exampleBatch.orders
    exampleBatch exampleLedger exampleResult (by decide +kernel) (by decide +kernel)
  obtain ⟨y, hy, hcash, hlots, hother, -⟩ := haccounts ⟨105⟩ rfl ⟨3⟩
    (exampleAccount 3 0 [(7, 10), (8, 5)]) (by decide +kernel)
  have hbuy : exampleResult.allocation.accountLots .buy ⟨3⟩ = 0 := by decide +kernel
  have hsell : exampleResult.allocation.accountLots .sell ⟨3⟩ = 6 := by decide +kernel
  have hheld : (((exampleAccount 3 0 [(7, 10), (8, 5)]).inventoryOf exampleBatch.instrument).raw : ℤ) =
    10 := by decide +kernel
  rw [hbuy, hsell] at hcash hlots
  rw [hheld] at hlots
  refine ⟨⟨y, hy, hcash, hlots, ?_⟩, hsums⟩
  rw [hother ⟨8⟩ (by decide)]
  decide +kernel

/-! ## Exact failure -/

/-- Settling `f` on a balance debits more than there is, or credits more than can be stored. -/
def Fill.Rejected (f : Fill) (b : ℤ × ℤ) : Prop :=
  if f.side = .buy then b.1 < f.consideration.raw ∨ 2 ^ 64 ≤ b.2 + f.fillQty.raw
  else b.2 < f.fillQty.raw ∨ 2 ^ 128 ≤ b.1 + f.consideration.raw

theorem Fill.rejected_iff {f : Fill} {b : ℤ × ℤ} (hb : Storable b) :
    f.Rejected b ↔ ¬ Storable (b + f.delta) := by
  obtain ⟨h1, h2, h3, h4⟩ := hb
  have := f.consideration.raw.isLt
  have := f.fillQty.raw.isLt
  unfold Rejected Storable
  rw [Prod.fst_add, Prod.snd_add]
  unfold Fill.delta
  split_ifs <;> simp only <;> omega

theorem Ledger.balance_storable (l : Ledger) (i : InstrumentId) (a : AccountId) :
    Storable (l.balance i a) := by
  cases h : l.getAccount a with
  | none =>
    simp only [balance, cashOf, lotsOf, h]
    show Storable (0, 0)
    decide
  | some x =>
    rw [balance_of_getAccount h]
    have h1 := x.cash.raw.isLt
    have h2 := (x.inventoryOf i).raw.isLt
    unfold Storable
    simp only
    omega

section Replay

variable {i : InstrumentId} {l : Ledger} {fills : List Fill}

/-- While all fills were accepted, all running balances are stored balances. -/
theorem runningBalance_storable {k : ℕ} (hk : k ≤ fills.length)
    (h : ∀ j (_ : j < k) (hj : j < fills.length),
      Storable (runningBalance i l fills j fills[j].accountId + fills[j].delta)) (a : AccountId) :
    Storable (runningBalance i l fills k a) := by
  induction k with
  | zero =>
    rw [runningBalance, List.take_zero, netFills, Postings.net_nil, add_zero]
    exact l.balance_storable i a
  | succ k ih =>
    have ih' := ih (by omega) fun j hj => h j (by omega)
    unfold runningBalance netFills at *
    rw [Postings.net_take_succ _ _ _ (by omega), ← add_assoc]
    split_ifs with ha
    · have := h k (by omega) (by omega)
      rwa [ha] at this
    · rwa [add_zero]

/-- The replay fails exactly when it meets a fill it must reject. -/
theorem exists_rejected_iff :
    (∃ k, ∃ hk : k < fills.length, fills[k].Rejected (runningBalance i l fills k fills[k].accountId)) ↔
      ¬ ∀ k (hk : k < fills.length),
        Storable (runningBalance i l fills k fills[k].accountId + fills[k].delta) := by
  constructor
  · rintro ⟨k, hk, hrej⟩ hall
    have hstore := runningBalance_storable (l := l) (i := i) hk.le (fun j _ hj => hall j hj)
      fills[k].accountId
    exact (Fill.rejected_iff hstore).mp hrej (hall k hk)
  · intro hnot
    by_contra hno
    refine hnot fun k => ?_
    induction k using Nat.strong_induction_on with
    | _ k ih =>
      intro hk
      have hstore := runningBalance_storable hk.le ih fills[k].accountId
      by_contra hbad
      exact hno ⟨k, hk, (Fill.rejected_iff hstore).mpr hbad⟩

end Replay

/-- **Exact failure conditions.** An execution fails (a) on a side total beyond 64 bits, (b) on a fill
of the replay whose debit or credit does not fit, or (c) on a total of the ledger that does not fit.
Allocation, fill generation, the price-quantity product and the conservation checks on the post-state
are never the cause. -/
theorem executeBatch_fails [StdSort] {batchId : BatchId} {instrument : InstrumentId}
    {orders : List Order} {batch : Batch} (pre : Ledger)
    (hb : Batch.create batchId instrument orders = .ok batch) :
    ((∃ e, executeBatch pre batch = .error e) ↔
      (2 ^ 64 ≤ totalLots (sideOrders .buy batch.orders) ∨
        2 ^ 64 ≤ totalLots (sideOrders .sell batch.orders)) ∨
      (∃ outcome alloc fills, determineClearingOutcome batch = .ok outcome ∧
        allocateBatch batch outcome.clearingPrice outcome.executableVolume = .ok alloc ∧
        generateCanonicalFills batch alloc = .ok fills ∧
        ((∃ k, ∃ hk : k < fills.length, fills[k].Rejected
            (runningBalance batch.instrument pre fills k fills[k].accountId)) ∨
          (fills ≠ [] ∧ 2 ^ 64 ≤ pre.lotsSum batch.instrument))) ∨
      2 ^ 128 ≤ pre.cashSum) ∧
    (∀ outcome, determineClearingOutcome batch = .ok outcome → ∃ alloc fills,
      allocateBatch batch outcome.clearingPrice outcome.executableVolume = .ok alloc ∧
      generateCanonicalFills batch alloc = .ok fills ∧
      ∀ post, fills.foldlM applyFill pre = .ok post →
        post.cashSum = pre.cashSum ∧ ∀ i, post.lotsSum i = pre.lotsSum i) ∧
    ∀ p q, ∃ m, Money.fromPriceQty p q = .ok m := by
  have hacc := Batch.accepted_of_create hb
  refine ⟨?_, fun outcome ho => ⟨_, _, hacc.allocateBatch_eq ho, hacc.generateCanonicalFills_eq ho,
    fun post => hacc.sums_eq ho⟩, fun p q => ?_⟩
  · rw [Result.eq_error_iff, not_iff_comm]
    -- success is the negation of the three conditions together
    have hinst := fun outcome => canonicalFills_instrument outcome batch
    have hok := computeVolumeMaximizers_isOk hacc.side
    constructor
    · intro hno
      simp only [not_or, not_le] at hno
      obtain ⟨hside, hb', hcash⟩ := hno
      obtain ⟨m, hm⟩ := hok.mpr hside
      have ho := determineClearingOutcome_eq_ok.mpr ⟨m, hm, rfl⟩
      obtain ⟨hrej, hlots⟩ := not_or.mp <| mt (fun hbad => ⟨_, _, _, ho, hacc.allocateBatch_eq ho,
        hacc.generateCanonicalFills_eq ho, hbad⟩) hb'
      obtain ⟨post, hpost⟩ := (foldlM_applyFill_isOk (hinst _)).mpr
        (not_not.mp (mt exists_rejected_iff.mpr hrej))
      refine ⟨_, hacc.executeBatch_eq_ok.mpr ⟨_, post, ho, hpost, hcash, fun hne => ?_, rfl⟩⟩
      by_contra hlt
      exact hlots ⟨hne, not_lt.mp hlt⟩
    · rintro ⟨r, hr⟩ hbad
      obtain ⟨outcome, post, ho, hrun, hcash, hlots, rfl⟩ := hacc.executeBatch_eq_ok.mp hr
      obtain ⟨m, hm, -⟩ := determineClearingOutcome_eq_ok.mp ho
      obtain ⟨h1, h2⟩ := hok.mp ⟨m, hm⟩
      rcases hbad with (hbad | hbad) | ⟨outcome', alloc, fills, ho', ha, hf, hbad⟩ | hbad
      · omega
      · omega
      · obtain rfl := Except.ok.inj (ho.symm.trans ho')
        obtain rfl := Except.ok.inj ((hacc.allocateBatch_eq ho).symm.trans ha)
        obtain rfl := Except.ok.inj ((hacc.generateCanonicalFills_eq ho).symm.trans hf)
        rcases hbad with hbad | ⟨hne, hbad⟩
        · exact exists_rejected_iff.mp hbad ((foldlM_applyFill_isOk (hinst _)).mp ⟨post, hrun⟩)
        · exact absurd (hlots hne) (by omega)
      · omega
  · exact ⟨⟨⟨(p.raw * q.raw : ℕ), Money.price_qty_lt p q⟩⟩, Money.fromPriceQty_eq_ok.mpr rfl⟩

theorem executeBatch_fails_example : ∃ alloc fills,
    @allocateBatch .stable exampleBatch (some ⟨105⟩) ⟨10⟩ = .ok alloc ∧
      generateCanonicalFills exampleBatch alloc = .ok fills ∧
      ∀ post, fills.foldlM applyFill exampleLedger = .ok post →
        post.cashSum = exampleLedger.cashSum ∧ ∀ i, post.lotsSum i = exampleLedger.lotsSum i :=
  (@executeBatch_fails .stable ⟨1⟩ ⟨7⟩ exampleBatch.orders exampleBatch exampleLedger
    (by decide +kernel)).2.1 exampleOutcome (by decide +kernel)

end FairCross
