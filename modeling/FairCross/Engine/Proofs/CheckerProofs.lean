import FairCross.Engine.Checker
import FairCross.Engine.Proofs.ExecutionProofs

/-!
# The checker against the execution

`verifyTransition_eq_ok` lists what an accepted proposal satisfies. From it: an accepted proposal
agrees with the execution on everything except, possibly, the inventory of other instruments; and an
execution's own result is accepted as long as the batch instrument's total fits 64 bits.
-/

namespace FairCross

/-! ## The fills against their orders -/

theorem find_orderMap {orders : List Order} (hnd : (orders.map (·.id)).Nodup) {o : Order}
    (ho : o ∈ orders) : (orderMap orders).find o.id.raw = some o :=
  SortedMap.find_foldl_insert (fun o : Order => o.id.raw) (fun o => o) _ (ids_nodup_raw hnd) ho

/-- An allocation whose fill at `cp` passes the checks against its order. -/
structure OrderAllocation.FillableAt (orders : SortedMap U64 Order) (cp : Price)
    (a : OrderAllocation) : Prop where
  order : ∃ o, orders.find a.orderId.raw = some o ∧ (a.allocatedQty.raw : ℕ) ≤ o.qty.raw ∧
    (a.side = .buy → cp ≤ o.price) ∧ (a.side = .sell → o.price ≤ cp)
  side : a.side = .buy ∨ a.side = .sell

/-- One fill's checks pass, and count its quantity. -/
theorem checkFill_fillOf {orders : SortedMap U64 Order} (inst : InstrumentId) {cp : Price} (id : U64)
    {a : OrderAllocation} (ha : a.FillableAt orders cp) {t : FillTotals}
    (hbuy : (t.totalBuyQty.raw : ℕ) + tradedLots .buy [a] < 2 ^ 64)
    (hsell : (t.totalSellQty.raw : ℕ) + tradedLots .sell [a] < 2 ^ 64) :
    ∃ t', checkFill orders t (fillOf inst cp id a) = .ok t' ∧
      (t'.totalBuyQty.raw : ℕ) = t.totalBuyQty.raw + tradedLots .buy [a] ∧
      (t'.totalSellQty.raw : ℕ) = t.totalSellQty.raw + tradedLots .sell [a] := by
  obtain ⟨⟨o, ho, hqty, hb, hs⟩, hside⟩ := ha
  have hcons : Money.fromPriceQty cp a.allocatedQty = .ok (fillOf inst cp id a).consideration :=
    Money.fromPriceQty_eq_ok.mpr (fillOf_consideration inst cp id a)
  obtain ⟨hf1, hf2, hf3, hf4⟩ : (fillOf inst cp id a).orderId = a.orderId ∧
      (fillOf inst cp id a).fillQty = a.allocatedQty ∧ (fillOf inst cp id a).side = a.side ∧
      (fillOf inst cp id a).executionPrice = cp := ⟨rfl, rfl, rfl, rfl⟩
  have hover : ¬ a.allocatedQty.raw > o.qty.raw := not_lt.mpr hqty
  simp only [tradedLots_cons, tradedLots_nil, add_zero] at hbuy hsell ⊢
  rcases hside with hside | hside
  · simp only [hside, if_true, reduceCtorEq, if_false] at hbuy hsell ⊢
    have hlim : ¬ cp.raw > o.price.raw := not_lt.mpr (hb hside)
    obtain ⟨c, hadd, hc⟩ := Qty.exists_checkedAdd hbuy
    refine ⟨{ t with totalBuyQty := c }, ?_, hc, rfl⟩
    simp only [checkFill, hf1, hf2, hf3, hf4, ho, hover, if_false, hside, if_true, hlim, hadd, hcons,
      ne_eq, not_true_eq_false]
    rfl
  · simp only [hside, if_true, reduceCtorEq, if_false] at hbuy hsell ⊢
    have hlim : ¬ cp.raw < o.price.raw := not_lt.mpr (hs hside)
    obtain ⟨c, hadd, hc⟩ := Qty.exists_checkedAdd hsell
    refine ⟨{ t with totalSellQty := c }, ?_, rfl, hc⟩
    simp only [checkFill, hf1, hf2, hf3, hf4, ho, hover, if_false, hside, hlim, hadd, hcons,
      reduceCtorEq, ne_eq, not_true_eq_false]
    rfl

/-- The checks of all fills pass, and add both sides up. -/
theorem foldlM_checkFill {orders : SortedMap U64 Order} (inst : InstrumentId) {cp : Price} (id : U64)
    {as : List OrderAllocation}
    (has : ∀ a ∈ as, a.allocatedQty.isZero = false → a.FillableAt orders cp) {t : FillTotals}
    (hbuy : (t.totalBuyQty.raw : ℕ) + tradedLots .buy as < 2 ^ 64)
    (hsell : (t.totalSellQty.raw : ℕ) + tradedLots .sell as < 2 ^ 64) :
    ∃ t', (fillsFrom inst cp id as).foldlM (checkFill orders) t = .ok t' ∧
      (t'.totalBuyQty.raw : ℕ) = t.totalBuyQty.raw + tradedLots .buy as ∧
      (t'.totalSellQty.raw : ℕ) = t.totalSellQty.raw + tradedLots .sell as := by
  induction as generalizing id t with
  | nil => exact ⟨t, rfl, rfl, rfl⟩
  | cons a as ih =>
    have hrest := fun b hb => has b (List.mem_cons_of_mem _ hb)
    rw [tradedLots_cons] at hbuy hsell
    rw [fillsFrom]
    split_ifs with hz
    · have h0 := Qty.isZero_iff.mp hz
      simp only [tradedLots_cons, h0, ite_self, Nat.zero_add] at hbuy hsell ⊢
      exact ih id hrest hbuy hsell
    · have hfill := has a (List.mem_cons_self ..) (by simpa using hz)
      obtain ⟨t1, ht1, hb1, hs1⟩ := checkFill_fillOf inst id hfill (t := t)
        (by rw [tradedLots_cons, tradedLots_nil]; omega)
        (by rw [tradedLots_cons, tradedLots_nil]; omega)
      simp only [tradedLots_cons, tradedLots_nil, add_zero] at hb1 hs1
      obtain ⟨t', ht', hb', hs'⟩ := ih (id + 1) hrest (t := t1) (by omega) (by omega)
      refine ⟨t', ?_, ?_, ?_⟩
      · rw [List.foldlM_cons, ht1]
        exact ht'
      · rw [tradedLots_cons]; omega
      · rw [tradedLots_cons]; omega

theorem Batch.Accepted.fillableAt [StdSort] {batch : Batch} (hb : batch.Accepted)
    {outcome : ClearingOutcome} (h : determineClearingOutcome batch = .ok outcome) {cp : Price}
    (hcp : outcome.clearingPrice = some cp) {a : OrderAllocation}
    (ha : a ∈ (canonicalAllocation outcome batch).allocations)
    (hz : a.allocatedQty.isZero = false) : a.FillableAt (orderMap batch.orders) cp := by
  have hfill := hb.isAllocation h
  refine ⟨?_, hb.allocations_side a ha⟩
  obtain ⟨o, ho, rfl⟩ := List.mem_map.mp ha
  have hne : canonicalFill outcome batch.orders o ≠ 0 := by
    intro h0
    rw [Bool.eq_false_iff, ne_eq, Qty.isZero_iff] at hz
    refine hz ?_
    show (toU64 (canonicalFill outcome batch.orders o) : ℕ) = 0
    rw [h0]; rfl
  refine ⟨o, find_orderMap hb.orders.ids_nodup ho, ?_, fun hs => ?_, fun hs => ?_⟩
  · exact (toU64_fill hfill ho).le.trans (hfill.le_lots o ho)
  · by_contra hlt
    exact hne (hfill.not_crossing cp hcp o ho (Or.inl ⟨hs, not_le.mp hlt⟩))
  · by_contra hlt
    exact hne (hfill.not_crossing cp hcp o ho (Or.inr ⟨hs, not_le.mp hlt⟩))

/-- The canonical fills pass the checks against their orders, and buy what they sell. -/
theorem Batch.Accepted.checkFills [StdSort] {batch : Batch} (hb : batch.Accepted)
    {outcome : ClearingOutcome} (h : determineClearingOutcome batch = .ok outcome) :
    ∃ t, (canonicalFills outcome batch).foldlM (checkFill (orderMap batch.orders))
      ⟨.zero, .zero⟩ = .ok t ∧ t.totalBuyQty = t.totalSellQty := by
  cases hcp : outcome.clearingPrice with
  | none =>
    rw [canonicalFills, hcp]
    exact ⟨_, rfl, rfl⟩
  | some cp =>
    have hbuy := hb.tradedLots_canonical h (.inl rfl)
    have hsell := hb.tradedLots_canonical h (.inr rfl)
    have hv := outcome.executableVolume.raw.isLt
    obtain ⟨t, ht, h1, h2⟩ := foldlM_checkFill batch.instrument 0
      (fun a ha hz => hb.fillableAt h hcp ha hz) (t := ⟨.zero, .zero⟩)
      (by rw [hbuy, Qty.zero_raw]; omega) (by rw [hsell, Qty.zero_raw]; omega)
    refine ⟨t, ?_, Qty.ext_val (by rw [h1, h2, hbuy, hsell])⟩
    rw [canonicalFills, hcp]
    exact ht

/-! ## What the checker accepts -/

/-- The comparison of the reconstructed post-state with the proposed one. -/
structure Ledger.Matches (inst : InstrumentId) (expected proposed : Ledger) : Prop where
  size : proposed.accounts.size = expected.accounts.size
  account : ∀ a x, expected.getAccount a = some x → ∃ y, proposed.getAccount a = some y ∧
    y.cash = x.cash ∧ y.inventoryOf inst = x.inventoryOf inst

theorem checkAccount_eq_ok {proposed : Ledger} {inst : InstrumentId} {a : AccountId}
    {x : AccountState} : checkAccount proposed inst a x = .ok () ↔
      ∃ y, proposed.getAccount a = some y ∧ y.cash = x.cash ∧
        y.inventoryOf inst = x.inventoryOf inst := by
  unfold checkAccount
  cases h : proposed.getAccount a with
  | none => simp
  | some y =>
    simp only [Result.ite_failure_eq_ok, ne_eq, not_not, Option.some.injEq, exists_eq_left',
      Result.pure_eq_ok, and_true]

theorem matches_iff {inst : InstrumentId} {expected proposed : Ledger} :
    Ledger.Matches inst expected proposed ↔
      proposed.accounts.size = expected.accounts.size ∧
        expected.accounts.entries.forM (fun e => checkAccount proposed inst e.1 e.2) = .ok () := by
  simp only [Result.forM_eq_ok, checkAccount_eq_ok, Prod.forall, SortedMap.mem_entries]
  exact ⟨fun h => ⟨h.size, h.account⟩, fun h => ⟨h.1, h.2⟩⟩

/-- **What an accepted proposal satisfies.** -/
theorem Batch.Accepted.verifyTransition_eq_ok [StdSort] {batch : Batch} (hb : batch.Accepted)
    {pre : Ledger} {proposed : BatchExecutionResult} :
    verifyTransition pre batch proposed = .ok () ↔ ∃ outcome post,
      determineClearingOutcome batch = .ok outcome ∧
      (canonicalFills outcome batch).foldlM applyFill pre = .ok post ∧
      proposed.clearingOutcome = outcome ∧
      proposed.allocation = canonicalAllocation outcome batch ∧
      proposed.fills = canonicalFills outcome batch ∧
      (proposed.postState.cashSum = pre.cashSum ∧ pre.cashSum < 2 ^ 128) ∧
      (proposed.postState.lotsSum batch.instrument = pre.lotsSum batch.instrument ∧
        pre.lotsSum batch.instrument < 2 ^ 64) ∧
      post.Matches batch.instrument proposed.postState := by
  simp only [verifyTransition, verifySettlement, Result.bind_eq_ok, Result.orFail_eq_ok,
    Result.ite_failure_eq_ok, ne_eq, not_not, Bool.not_eq_true', Bool.not_eq_false,
    sameTotal_cash, sameTotal_inventory, applyBatchTransition_eq_ok, ← matches_iff]
  constructor
  · rintro ⟨outcome, ho, h1, alloc, ha, h2, fills, hf, h3, t, ht, -, hcash, hlots, post,
      ⟨hrun, -, -⟩, hm⟩
    obtain rfl := Except.ok.inj ((hb.allocateBatch_eq ho).symm.trans ha)
    obtain rfl := Except.ok.inj ((hb.generateCanonicalFills_eq ho).symm.trans hf)
    rw [← h3] at hrun
    exact ⟨outcome, post, ho, hrun, h1.symm, h2.symm, h3.symm, hcash, hlots, hm⟩
  · rintro ⟨outcome, post, ho, hrun, h1, h2, h3, hcash, hlots, hm⟩
    obtain ⟨t, ht, hsame⟩ := hb.checkFills ho
    obtain ⟨hc, hl⟩ := hb.sums_eq ho hrun
    refine ⟨outcome, ho, h1.symm, _, hb.allocateBatch_eq ho, h2.symm, _,
      hb.generateCanonicalFills_eq ho, h3.symm, t, by rw [h3]; exact ht, hsame, hcash, hlots, post,
      ⟨by rw [h3]; exact hrun, ⟨hc, hcash.2⟩, fun f hf => ⟨hl _, ?_⟩⟩, hm⟩
    rw [h3] at hf
    rw [canonicalFills_instrument _ _ f hf]
    exact hlots.2

/-! ## Soundness -/

/-- A reconstruction has the accounts of the proposal it matches. -/
theorem Ledger.Matches.isSome {inst : InstrumentId} {expected proposed : Ledger}
    (h : Matches inst expected proposed) (a : AccountId) :
    (proposed.getAccount a).isSome = (expected.getAccount a).isSome := by
  have hsub : expected.accounts.keys ⊆ proposed.accounts.keys := by
    intro k hk
    obtain ⟨x, hx⟩ := SortedMap.mem_keys.mp hk
    obtain ⟨y, hy, -⟩ := h.account k x hx
    exact SortedMap.mem_keys.mpr ⟨y, hy⟩
  have hlen : proposed.accounts.keys.length ≤ expected.accounts.keys.length := by
    simpa [SortedMap.keys, SortedMap.size] using h.size.le
  have hperm : expected.accounts.keys.Perm proposed.accounts.keys :=
    (expected.accounts.keys_nodup.subperm hsub).perm_of_length_le hlen
  rw [Bool.eq_iff_iff]
  exact (SortedMap.mem_keys_iff_isSome.symm.trans hperm.mem_iff.symm).trans
    SortedMap.mem_keys_iff_isSome

/-- The same accounts with the same cash and the same inventory of every instrument. -/
structure Ledger.SameBalances (l l' : Ledger) : Prop where
  isSome : ∀ a, (l'.getAccount a).isSome = (l.getAccount a).isSome
  cash : ∀ a x y, l.getAccount a = some x → l'.getAccount a = some y → y.cash = x.cash
  inventory : ∀ a x y, l.getAccount a = some x → l'.getAccount a = some y →
    ∀ i, y.inventoryOf i = x.inventoryOf i

/-- An accepted proposal is the execution, up to the inventory of other instruments. -/
theorem Batch.Accepted.sound [StdSort] {batch : Batch} (hb : batch.Accepted) {pre : Ledger}
    {proposed : BatchExecutionResult} (h : verifyTransition pre batch proposed = .ok ()) :
    ∃ r, executeBatch pre batch = .ok r ∧ proposed.clearingOutcome = r.clearingOutcome ∧
      proposed.allocation = r.allocation ∧ proposed.fills = r.fills ∧
      r.postState.Matches batch.instrument proposed.postState ∧
      SameAccounts batch.instrument pre r.postState := by
  obtain ⟨outcome, post, ho, hrun, h1, h2, h3, hcash, hlots, hm⟩ := hb.verifyTransition_eq_ok.mp h
  refine ⟨_, hb.executeBatch_eq_ok.mpr ⟨outcome, post, ho, hrun, hcash.2, fun _ => hlots.2, rfl⟩,
    h1, h2, h3, hm, ?_⟩
  exact foldlM_applyFill_sameAccounts (canonicalFills_instrument _ _) (hb.canonicalFills_positive ho) hrun

/-- **Soundness, and its gap.** The checker never compares the inventory of an instrument other than
the batch's. So an accepted proposal agrees with the execution in everything exactly when it leaves
those inventories as they were. -/
theorem verifyTransition_sound_iff [StdSort] {batchId : BatchId} {instrument : InstrumentId}
    {orders : List Order} {batch : Batch} {pre : Ledger} {proposed : BatchExecutionResult}
    (hb : Batch.create batchId instrument orders = .ok batch)
    (h : verifyTransition pre batch proposed = .ok ()) :
    (∃ r, executeBatch pre batch = .ok r ∧ proposed.clearingOutcome = r.clearingOutcome ∧
      proposed.allocation = r.allocation ∧ proposed.fills = r.fills ∧
      r.postState.SameBalances proposed.postState) ↔
    ∀ a x y, pre.getAccount a = some x → proposed.postState.getAccount a = some y →
      ∀ i, i ≠ batch.instrument → y.inventoryOf i = x.inventoryOf i := by
  obtain ⟨r, hr, h1, h2, h3, hm, hsame⟩ := (Batch.accepted_of_create hb).sound h
  -- the execution itself leaves the other instruments alone
  have hother : ∀ a x z, pre.getAccount a = some x → r.postState.getAccount a = some z →
      ∀ i, i ≠ batch.instrument → z.inventoryOf i = x.inventoryOf i := by
    intro a x z hx hz i hi
    unfold AccountState.inventoryOf
    rw [(hsame.moved a x z hx hz).other i hi]
  have hget : ∀ a x, pre.getAccount a = some x → ∃ z, r.postState.getAccount a = some z :=
    fun a x hx => Option.isSome_iff_exists.mp ((hsame.isSome a).trans (by rw [hx]; rfl))
  constructor
  · rintro ⟨r', hr', -, -, -, hbal⟩ a x y hx hy i hi
    obtain rfl := Except.ok.inj (hr.symm.trans hr')
    obtain ⟨z, hz⟩ := hget a x hx
    rw [hbal.inventory a z y hz hy i, hother a x z hx hz i hi]
  · intro hsameInv
    refine ⟨r, hr, h1, h2, h3, hm.isSome, fun a z y hz hy => ?_, fun a z y hz hy i => ?_⟩
    · obtain ⟨y', hy', hc, -⟩ := hm.account a z hz
      obtain rfl := Option.some.inj (hy.symm.trans hy')
      exact hc
    · by_cases hi : i = batch.instrument
      · obtain ⟨y', hy', -, hinv⟩ := hm.account a z hz
        obtain rfl := Option.some.inj (hy.symm.trans hy')
        rw [hi, hinv]
      · obtain ⟨x, hx⟩ := Option.isSome_iff_exists.mp
          ((hsame.isSome a).symm.trans (by rw [hz]; rfl))
        rw [hsameInv a x y hx hy i hi, hother a x z hx hz i hi]

theorem verifyTransition_sound_example : ∃ r,
    @executeBatch .stable exampleLedger exampleBatch = .ok r ∧
      r.postState.SameBalances exampleSettled := by
  have hcreate : @Batch.create .stable ⟨1⟩ ⟨7⟩ exampleBatch.orders = .ok exampleBatch := by
    decide +kernel
  have hacc := @Batch.accepted_of_create .stable _ _ _ _ hcreate
  obtain ⟨outcome, post, ho, hrun, -, -, hr⟩ := (@Batch.Accepted.executeBatch_eq_ok .stable _ hacc
    exampleLedger exampleResult).mp (by decide +kernel)
  have hpost : post = exampleSettled := congrArg BatchExecutionResult.postState hr
  have hsame := foldlM_applyFill_sameAccounts (@canonicalFills_instrument .stable _ _)
    (@Batch.Accepted.canonicalFills_positive .stable _ hacc _ ho) hrun
  obtain ⟨r, hr, -, -, -, hbal⟩ := (@verifyTransition_sound_iff .stable ⟨1⟩ ⟨7⟩ exampleBatch.orders
    exampleBatch exampleLedger exampleResult hcreate (by decide +kernel)).mpr
      fun a x y hx hy i hi => by
        unfold AccountState.inventoryOf
        rw [(hsame.moved a x y hx (hpost ▸ hy)).other i hi]
  exact ⟨r, hr, hbal⟩

/-- The execution of the example batch, with 500 lots of instrument 8 where there are 5. -/
def forgedResult : BatchExecutionResult :=
  { exampleResult with
    postState := exampleSettled.insertAccount (exampleAccount 3 630 [(7, 4), (8, 500)]) }

/-- The checker accepts the forged inventory. -/
theorem verifyTransition_accepts_forged :
    @verifyTransition .stable exampleLedger exampleBatch forgedResult = .ok () ∧
      ¬ ∃ r, @executeBatch .stable exampleLedger exampleBatch = .ok r ∧
        forgedResult.clearingOutcome = r.clearingOutcome ∧ forgedResult.allocation = r.allocation ∧
        forgedResult.fills = r.fills ∧ r.postState.SameBalances forgedResult.postState := by
  refine ⟨by decide +kernel, ?_⟩
  rintro ⟨r, hr, -, -, -, hbal⟩
  have hexec : @executeBatch .stable exampleLedger exampleBatch = .ok exampleResult := by
    decide +kernel
  obtain rfl := Except.ok.inj (hexec.symm.trans hr)
  have h8 := hbal.inventory ⟨3⟩ (exampleAccount 3 630 [(7, 4), (8, 5)])
    (exampleAccount 3 630 [(7, 4), (8, 500)]) (by decide +kernel) (by decide +kernel) ⟨8⟩
  revert h8
  decide +kernel

/-! ## Completeness -/

/-- **Completeness, and its gap.** The checker sums the batch instrument in every case, the execution
only when there is a fill. So the result of an execution is accepted exactly when that sum fits. -/
theorem verifyTransition_complete_iff [StdSort] {batchId : BatchId} {instrument : InstrumentId}
    {orders : List Order} {batch : Batch} {pre : Ledger} {r : BatchExecutionResult}
    (hb : Batch.create batchId instrument orders = .ok batch)
    (h : executeBatch pre batch = .ok r) :
    verifyTransition pre batch r = .ok () ↔ pre.lotsSum batch.instrument < 2 ^ 64 := by
  have hacc := Batch.accepted_of_create hb
  obtain ⟨outcome, post, ho, hrun, hcash, -, rfl⟩ := hacc.executeBatch_eq_ok.mp h
  obtain ⟨h1, h2⟩ := hacc.sums_eq ho hrun
  rw [hacc.verifyTransition_eq_ok]
  constructor
  · rintro ⟨-, -, -, -, -, -, -, -, ⟨-, hlots⟩, -⟩
    exact hlots
  · intro hlots
    exact ⟨outcome, post, ho, hrun, rfl, rfl, rfl, ⟨h1, hcash⟩, ⟨h2 _, hlots⟩, rfl,
      fun a x hx => ⟨x, hx, rfl, rfl⟩⟩

theorem verifyTransition_complete_example :
    @verifyTransition .stable exampleLedger exampleBatch exampleResult = .ok () :=
  (@verifyTransition_complete_iff .stable ⟨1⟩ ⟨7⟩ exampleBatch.orders exampleBatch exampleLedger
    exampleResult (by decide +kernel) (by decide +kernel)).mpr (by decide +kernel)

/-- A batch without orders. -/
def quietBatch : Batch := ⟨⟨1⟩, ⟨7⟩, []⟩

/-- Two accounts whose inventories of instrument 7 add up to 2^64. -/
def hugeLedger : Ledger :=
  (Ledger.empty.insertAccount (exampleAccount 1 0 [(7, 9223372036854775808)])).insertAccount
    (exampleAccount 2 0 [(7, 9223372036854775808)])

/-- The execution of a batch without orders. -/
def quietResult : BatchExecutionResult :=
  ⟨⟨none, .zero⟩, zeroAllocation quietBatch, [], hugeLedger⟩

/-- The checker rejects the result of an execution. -/
theorem verifyTransition_rejects_execution :
    @Batch.create .stable ⟨1⟩ ⟨7⟩ [] = .ok quietBatch ∧
      @executeBatch .stable hugeLedger quietBatch = .ok quietResult ∧
      @verifyTransition .stable hugeLedger quietBatch quietResult ≠ .ok () := by
  decide +kernel

end FairCross
