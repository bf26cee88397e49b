import FairCross.Adversary.Matrix
import FairCross.Commitments.Proofs.MerkleProofs
import FairCross.Engine.Proofs.AccountingProofs
import FairCross.Engine.Proofs.CheckerProofs
import FairCross.Proof.Proofs.ConstraintProofs

/-!
# What the audits let through

The audits pass an adversarial execution exactly when the honest one passes and the mutation changes
nothing that is audited (`AdversarialMutation.Harmless`).
-/

namespace FairCross

/-! ## Settlement with the failures ignored -/

section Ledger

open AdversarialOperator

variable {l l' : Ledger}

theorem Ledger.getOrCreateAccount_snd (l : Ledger) (id : AccountId) :
    (l.getOrCreateAccount id).2 = l.accountOrNew id := by
  unfold getOrCreateAccount accountOrNew getAccount
  cases l.accounts.find id <;> rfl

/-- Writing the account back overwrites the inserted one. -/
theorem Ledger.getOrCreateAccount_setAccount (l : Ledger) (id : AccountId) (acc : AccountState) :
    (l.getOrCreateAccount id).1.setAccount id acc = l.setAccount id acc := by
  unfold getOrCreateAccount setAccount
  cases l.accounts.find id with
  | some _ => rfl
  | none => exact congrArg Ledger.mk (SortedMap.insert_insert l.accounts id _ acc)

theorem updateAccount_eq (l : Ledger) (id : AccountId) (op : AccountState → Result AccountState) :
    updateAccount l id op = l.setAccount id ((l.accountOrNew id).orKeep (op (l.accountOrNew id))) := by
  rw [← l.getOrCreateAccount_snd, ← l.getOrCreateAccount_setAccount]
  rfl

theorem settleAnyway_of_settle {acc acc' : AccountState} {f : Fill} (h : settle acc f = .ok acc') :
    settleAnyway acc f = acc' := by
  unfold settle at h
  unfold settleAnyway
  by_cases hb : f.side = .buy
  · rw [if_pos hb, Result.bind_eq_ok] at h
    obtain ⟨_, h1, h2⟩ := h
    rw [Result.convert_eq_ok] at h1 h2
    simp only [hb, if_true, h1, AccountState.orKeep, h2]
  · rw [if_neg hb, Result.bind_eq_ok] at h
    obtain ⟨_, h1, h2⟩ := h
    rw [Result.convert_eq_ok] at h1 h2
    simp only [hb, if_false, h1, AccountState.orKeep, h2]

/-- A fill that settles is published as it settles. -/
theorem publishFill_of_applyFill {f : Fill} (h : applyFill l f = .ok l') : publishFill l f = l' := by
  obtain ⟨acc, hs, rfl⟩ := applyFill_eq_ok.mp h
  rw [← settleAnyway_of_settle hs, ← l.getOrCreateAccount_snd, ← l.getOrCreateAccount_setAccount]
  rfl

theorem foldl_publishFill {fills : List Fill} (h : fills.foldlM applyFill l = .ok l') :
    fills.foldl publishFill l = l' := by
  induction fills generalizing l with
  | nil => exact Result.pure_eq_ok.mp h
  | cons f fills ih =>
    rw [List.foldlM_cons, Result.bind_eq_ok] at h
    obtain ⟨m, hf, hrest⟩ := h
    rw [List.foldl_cons, publishFill_of_applyFill hf]
    exact ih hrest

/-- Matching, read account by account. -/
theorem Ledger.matches_iff_isSome {inst : InstrumentId} {expected proposed : Ledger} :
    expected.Matches inst proposed ↔
      (∀ a, (proposed.getAccount a).isSome = (expected.getAccount a).isSome) ∧
        ∀ a x y, expected.getAccount a = some x → proposed.getAccount a = some y →
          y.cash = x.cash ∧ y.inventoryOf inst = x.inventoryOf inst := by
  constructor
  · intro h
    refine ⟨h.isSome, fun a x y hx hy => ?_⟩
    obtain ⟨y', hy', hsame⟩ := h.account a x hx
    obtain rfl := Option.some.inj (hy.symm.trans hy')
    exact hsame
  · rintro ⟨hsome, hsame⟩
    constructor
    · exact SortedMap.size_eq_of_isSome hsome
    · intro a x hx
      obtain ⟨y, hy⟩ := Option.isSome_iff_exists.mp ((hsome a).trans (by rw [hx]; rfl))
      exact ⟨y, hy, hsame a x y hx hy⟩

/-- Ledgers that match have the same totals. -/
theorem Ledger.Matches.sums {inst : InstrumentId} {expected proposed : Ledger}
    (h : expected.Matches inst proposed) :
    proposed.cashSum = expected.cashSum ∧ proposed.lotsSum inst = expected.lotsSum inst := by
  have hread : ∀ f : AccountState → ℕ,
      (∀ a x y, expected.getAccount a = some x → proposed.getAccount a = some y → f y = f x) →
      proposed.accounts.sum f = expected.accounts.sum f := by
    intro f hf
    rw [SortedMap.sum_of_isSome h.isSome f, SortedMap.sum]
    refine congrArg List.sum (List.map_congr_left fun e he => ?_)
    obtain ⟨y, hy, -⟩ := h.account e.1 e.2 (SortedMap.mem_entries.mp he)
    rw [show proposed.accounts.find e.1 = some y from hy]
    exact hf e.1 e.2 y (SortedMap.mem_entries.mp he) hy
  have hsame := (Ledger.matches_iff_isSome.mp h).2
  constructor
  · exact hread (fun x => x.cash.raw) fun a x y hx hy => by rw [(hsame a x y hx hy).1]
  · exact hread (fun x => (x.inventoryOf inst).raw) fun a x y hx hy => by rw [(hsame a x y hx hy).2]

/-- A changed account matches when its cash and its inventory are what they were. -/
theorem matches_updateAccount {inst : InstrumentId} {id : AccountId}
    {op : AccountState → Result AccountState} : l.Matches inst (updateAccount l id op) ↔
      ∃ acc, l.getAccount id = some acc ∧ (acc.orKeep (op acc)).cash = acc.cash ∧
        (acc.orKeep (op acc)).inventoryOf inst = acc.inventoryOf inst := by
  rw [updateAccount_eq, Ledger.matches_iff_isSome]
  constructor
  · rintro ⟨hsome, hsame⟩
    have hid := hsome id
    rw [Ledger.getAccount_setAccount, if_pos rfl, Option.isSome_some] at hid
    obtain ⟨acc, hacc⟩ := Option.isSome_iff_exists.mp hid.symm
    have hnew : l.accountOrNew id = acc := by rw [Ledger.accountOrNew, hacc]; rfl
    refine ⟨acc, hacc, ?_⟩
    have := hsame id acc _ hacc (by rw [Ledger.getAccount_setAccount, if_pos rfl])
    rwa [hnew] at this
  · rintro ⟨acc, hacc, hsame⟩
    have hnew : l.accountOrNew id = acc := by rw [Ledger.accountOrNew, hacc]; rfl
    constructor
    · intro a
      rw [Ledger.getAccount_setAccount]
      split_ifs with ha
      · rw [← ha, hacc]; rfl
      · rfl
    · intro a x y hx hy
      rw [Ledger.getAccount_setAccount] at hy
      split_ifs at hy with ha
      · obtain rfl := Option.some.inj hy
        obtain rfl := Option.some.inj ((ha ▸ hacc).symm.trans hx)
        rwa [hnew]
      · obtain rfl := Option.some.inj (hx.symm.trans hy)
        exact ⟨rfl, rfl⟩

end Ledger

/-! ## The checker on a published post-state -/

/-- The checker accepts the canonical outcome, allocation and fills with a post-state `posted` when
the batch executes, its instrument sums, and `posted` matches the execution. -/
theorem Batch.Accepted.verifyTransition_posted [StdSort] {batch : Batch} (hb : batch.Accepted)
    {pre : Ledger} {outcome : ClearingOutcome} (ho : determineClearingOutcome batch = .ok outcome)
    {posted : Ledger} :
    verifyTransition pre batch ⟨outcome, canonicalAllocation outcome batch,
        canonicalFills outcome batch, posted⟩ = .ok () ↔
      ∃ r, executeBatch pre batch = .ok r ∧ pre.lotsSum batch.instrument < 2 ^ 64 ∧
        r.postState.Matches batch.instrument posted := by
  rw [hb.verifyTransition_eq_ok]
  constructor
  · rintro ⟨outcome', post, ho', hrun, -, -, -, ⟨-, hcash⟩, ⟨-, hlots⟩, hm⟩
    obtain rfl := Except.ok.inj (ho.symm.trans ho')
    exact ⟨_, hb.executeBatch_eq_ok.mpr ⟨outcome, post, ho, hrun, hcash, fun _ => hlots, rfl⟩,
      hlots, hm⟩
  · rintro ⟨r, hr, hlots, hm⟩
    obtain ⟨outcome', post, ho', hrun, hcash, -, rfl⟩ := hb.executeBatch_eq_ok.mp hr
    obtain rfl := Except.ok.inj (ho.symm.trans ho')
    obtain ⟨h1, h2⟩ := hb.sums_eq ho hrun
    obtain ⟨h3, h4⟩ := hm.sums
    exact ⟨outcome, post, ho, hrun, rfl, rfl, rfl, ⟨h3.trans h1, hcash⟩,
      ⟨h4.trans (h2 _), hlots⟩, hm⟩

/-! ## Harmless mutations -/

/-- The mutation changes nothing the audits look at in the honest execution `r`. The inventory of
another instrument, the batch header and the published tree are not looked at. -/
@[mk_iff] structure AdversarialMutation.Harmless {D : Type} [CommitmentScheme D] (m : AdversarialMutation D)
    (batch : Batch) (preimages : List SaltedOrderPreimage) (r : BatchExecutionResult) : Prop where
  price : m.type = .manipulateClearingPrice → ∀ p, r.clearingOutcome.clearingPrice = some p →
    AdversarialOperator.shiftPrice p m.offsetTicks = some p
  no_order_censored : m.type = .censorOrder → preimages.length ≤ m.leafIndex
  no_order_injected : m.type ≠ .injectUnauthorizedOrder
  allocation : m.type = .manipulateAllocation → ∀ a ∈ r.allocation.allocations,
    a.orderId = m.targetOrderId → a.allocatedQty = m.forgedQty
  fills : m.type = .violateLimitPrice → ∀ f ∈ r.fills, f.orderId = m.targetOrderId →
    f.executionPrice = m.bogusPrice
  no_balance_moved : m.type = .freezePostState → ∀ a, netFills r.fills a = 0
  cash : m.type = .inflatePostStateCash → ∃ acc,
    r.postState.getAccount m.beneficiaryAccount = some acc ∧
      ((acc.cash.raw : ℕ) + m.extraCash.raw < 2 ^ 128 → m.extraCash = .zero)
  inventory : m.type = .inflatePostStateInventory → ∃ acc,
    r.postState.getAccount m.beneficiaryAccount = some acc ∧
      (m.extraInstrument = batch.instrument →
        ((acc.inventoryOf batch.instrument).raw : ℕ) + m.extraQty.raw < 2 ^ 64 → m.extraQty = .zero)
  leaf : m.type = .spoofCommitmentLeaf → ∀ p, preimages[m.leafIndex]? = some p →
    commitOrder p = m.fakeCommitment
  snapshot : m.type = .staleOracleSnapshot →
    (m.stalenessOffsetNanos : ℕ) = 0 ∨ 2 ^ 64 - 1000000000 ≤ (m.stalenessOffsetNanos : ℕ)

namespace AdversarialOperator

variable {D : Type} {m : AdversarialMutation D}

/-- The moved price, as an integer. -/
theorem shiftPrice_eq_some {p q : Price} {offset : I64} : shiftPrice p offset = some q ↔
    InI64 ((I64.ofU64 p.raw : ℤ) + offset) ∧
      (q.raw : ℕ) = (max 1 ((I64.ofU64 p.raw : ℤ) + offset)).toNat := by
  simp only [shiftPrice, Option.bind_eq_bind, Option.bind_eq_some_iff, Option.pure_def,
    Option.some.injEq, I64.add_eq_some, Price.ext_iff, Fin.ext_iff, toU64_val]
  have hmax : ∀ n : ℤ, InI64 n → (if n < 1 then 1 else n).toNat % 2 ^ 64 = (max 1 n).toNat := by
    rintro n ⟨-, hlt⟩
    split_ifs <;> omega
  constructor
  · rintro ⟨sum, hsum, hq⟩
    rw [← hsum, ← hq, hmax _ sum.property]
    exact ⟨sum.property, rfl⟩
  · rintro ⟨hfits, hq⟩
    exact ⟨⟨_, hfits⟩, rfl, (hmax _ hfits).trans hq.symm⟩

/-- A price moves wherever the sum is an `int64_t`. -/
theorem exists_shiftPrice_iff {p : Price} {offset : I64} :
    (∃ q, shiftPrice p offset = some q) ↔ InI64 ((I64.ofU64 p.raw : ℤ) + offset) := by
  simp only [shiftPrice_eq_some]
  refine ⟨fun ⟨_, h, _⟩ => h, fun h => ?_⟩
  have hlt : (max 1 ((I64.ofU64 p.raw : ℤ) + offset)).toNat < 2 ^ 64 := by
    have := h.2
    omega
  exact ⟨⟨⟨_, hlt⟩⟩, h, rfl⟩

/-- Only the mutation of the price touches the outcome, and only one with a price. -/
theorem mutateOutcome_cases (outcome : ClearingOutcome) :
    ((m.type = .manipulateClearingPrice → outcome.clearingPrice = none) ∧
      mutateOutcome m outcome = some outcome) ∨
    ∃ p, m.type = .manipulateClearingPrice ∧ outcome.clearingPrice = some p ∧
      mutateOutcome m outcome = (shiftPrice p m.offsetTicks).map fun q =>
        { outcome with clearingPrice := some q } := by
  unfold mutateOutcome
  split
  · next p ht hp =>
    refine Or.inr ⟨p, ht, hp, ?_⟩
    cases shiftPrice p m.offsetTicks <;> rfl
  · next hother =>
    refine Or.inl ⟨fun ht => ?_, rfl⟩
    by_contra hne
    obtain ⟨p, hp⟩ := Option.ne_none_iff_exists'.mp hne
    exact hother p ht hp

theorem mutateOutcome_eq {outcome : ClearingOutcome} : mutateOutcome m outcome = some outcome ↔
    (m.type = .manipulateClearingPrice → ∀ p, outcome.clearingPrice = some p →
      shiftPrice p m.offsetTicks = some p) := by
  rcases mutateOutcome_cases (m := m) outcome with ⟨hnone, h⟩ | ⟨p, ht, hp, h⟩
  · exact iff_of_true h fun ht p hp => absurd (hp.symm.trans (hnone ht)) (Option.some_ne_none _)
  · obtain ⟨cp, v⟩ := outcome
    obtain rfl : cp = some p := hp
    rw [h, Option.map_eq_some_iff]
    simp [ht]

theorem exists_mutateOutcome_iff {outcome : ClearingOutcome} :
    (∃ outcome', mutateOutcome m outcome = some outcome') ↔
      (m.type = .manipulateClearingPrice → ∀ p, outcome.clearingPrice = some p →
        ∃ q, shiftPrice p m.offsetTicks = some q) := by
  rcases mutateOutcome_cases (m := m) outcome with ⟨hnone, h⟩ | ⟨p, ht, hp, h⟩
  · exact iff_of_true ⟨_, h⟩ fun ht p hp => absurd (hp.symm.trans (hnone ht)) (Option.some_ne_none _)
  · simp [h, ht, hp]

theorem mutateAllocation_eq {allocation : BatchAllocation} :
    mutateAllocation m allocation = allocation ↔
      (m.type = .manipulateAllocation → ∀ a ∈ allocation.allocations,
        a.orderId = m.targetOrderId → a.allocatedQty = m.forgedQty) := by
  by_cases ht : m.type = .manipulateAllocation
  · have hentry : ∀ a : OrderAllocation,
        (if a.orderId = m.targetOrderId then { a with allocatedQty := m.forgedQty } else a) = a ↔
          (a.orderId = m.targetOrderId → a.allocatedQty = m.forgedQty) := by
      intro a
      obtain ⟨id, acct, side, limit, orig, qty, seq⟩ := a
      by_cases hid : id = m.targetOrderId
      · simp [hid, eq_comm]
      · simp [hid]
    simp only [mutateAllocation, ht, true_implies]
    obtain ⟨cp, v, tb, ts, as⟩ := allocation
    simp only [BatchAllocation.mk.injEq, true_and]
    conv_lhs => rw [← List.map_id as, List.map_map]
    rw [List.map_inj_left]
    exact forall₂_congr fun a _ => hentry a
  · simp only [ht, false_implies, iff_true]
    unfold mutateAllocation
    split
    · next h => exact absurd h ht
    · rfl

/-- A list of results is a list of values exactly when each is. -/
theorem mapM_eq_self {α : Type} {f : α → Result α} {l : List α} :
    l.mapM f = .ok l ↔ ∀ a ∈ l, f a = .ok a := by
  induction l with
  | nil => simp [List.mapM_nil, pure, Except.pure]
  | cons a l ih =>
    simp only [List.mapM_cons, Result.bind_eq_ok, Result.pure_eq_ok, List.cons.injEq,
      List.forall_mem_cons]
    constructor
    · rintro ⟨_, h1, _, h2, rfl, rfl⟩
      exact ⟨h1, ih.mp h2⟩
    · rintro ⟨h1, h2⟩
      exact ⟨a, h1, l, ih.mpr h2, rfl, rfl⟩

/-- The consideration follows the price. -/
theorem mutateFill_eq {fills : List Fill}
    (hc : ∀ f ∈ fills, (f.consideration.raw : ℕ) = f.executionPrice.raw * f.fillQty.raw) :
    fills.mapM (mutateFill m) = .ok fills ↔
      (m.type = .violateLimitPrice → ∀ f ∈ fills, f.orderId = m.targetOrderId →
        f.executionPrice = m.bogusPrice) := by
  rw [mapM_eq_self]
  by_cases ht : m.type = .violateLimitPrice
  · simp only [ht, true_implies]
    refine forall₂_congr fun f hf => ?_
    have hcf := hc f hf
    obtain ⟨fid, oid, acct, inst, side, price, qty, cons⟩ := f
    simp only [mutateFill, ht]
    by_cases hid : oid = m.targetOrderId
    · simp only [hid, if_true, Result.bind_eq_ok, Money.fromPriceQty_eq_ok, Result.pure_eq_ok,
        Fill.mk.injEq, true_and, true_implies]
      constructor
      · rintro ⟨_, _, hp, _⟩
        exact hp.symm
      · rintro rfl
        exact ⟨cons, hcf, rfl, rfl⟩
    · simp [hid]
  · simp only [ht, false_implies, iff_true]
    intro f _
    unfold mutateFill
    split
    · next h => exact absurd h ht
    · rfl

end AdversarialOperator

/-- The state before the batch matches the execution when no balance moves. -/
theorem Batch.Accepted.matches_preState_iff [StdSort] {batch : Batch} (hb : batch.Accepted)
    {pre : Ledger} {r : BatchExecutionResult} (hr : executeBatch pre batch = .ok r) :
    r.postState.Matches batch.instrument pre ↔ ∀ a, netFills r.fills a = 0 := by
  obtain ⟨outcome, post, ho, hrun, -, -, rfl⟩ := hb.executeBatch_eq_ok.mp hr
  have hinst := canonicalFills_instrument outcome batch
  have hsame := foldlM_applyFill_sameAccounts hinst (hb.canonicalFills_positive ho) hrun
  have hbal := fun a => foldlM_applyFill_balance hinst hrun a
  show post.Matches batch.instrument pre ↔ ∀ a, netFills (canonicalFills outcome batch) a = 0
  rw [Ledger.matches_iff_isSome]
  constructor
  · rintro ⟨-, hm⟩ a
    have hb := hbal a
    cases hx : pre.getAccount a with
    | none =>
      have hy : post.getAccount a = none := by
        have := hsame.isSome a
        rw [hx, Option.isSome_none, Option.isSome_eq_false_iff, Option.isNone_iff_eq_none] at this
        exact this
      rw [Ledger.balance, Ledger.balance, Ledger.cashOf, Ledger.lotsOf, Ledger.cashOf,
        Ledger.lotsOf, hx, hy] at hb
      simpa using hb.symm
    | some x =>
      obtain ⟨y, hy⟩ := Option.isSome_iff_exists.mp ((hsame.isSome a).trans (by rw [hx]; rfl))
      obtain ⟨h1, h2⟩ := hm a y x hy hx
      rw [Ledger.balance_of_getAccount hx, Ledger.balance_of_getAccount hy, h1, h2] at hb
      simpa using hb.symm
  · intro h0
    refine ⟨fun a => (hsame.isSome a).symm, fun a y x hy hx => ?_⟩
    have hb := hbal a
    rw [h0 a, add_zero, Ledger.balance_of_getAccount hx, Ledger.balance_of_getAccount hy,
      Prod.mk.injEq, Nat.cast_inj, Nat.cast_inj] at hb
    exact ⟨(Money.ext_val hb.1).symm, (Qty.ext_val hb.2).symm⟩

namespace AdversarialOperator

variable {D : Type} {m : AdversarialMutation D}

theorem orKeep_creditCash (acc : AccountState) (amount : Money) (i : InstrumentId) :
    ((acc.orKeep (acc.creditCash amount)).cash = acc.cash ∧
        (acc.orKeep (acc.creditCash amount)).inventoryOf i = acc.inventoryOf i) ↔
      ((acc.cash.raw : ℕ) + amount.raw < 2 ^ 128 → amount = .zero) := by
  cases h : acc.creditCash amount with
  | error e =>
    have hno : ¬ (acc.cash.raw : ℕ) + amount.raw < 2 ^ 128 := by
      intro hlt
      have := AccountState.creditCash_eq_ok.mpr ⟨(⟨⟨_, hlt⟩⟩ : Money), rfl, rfl⟩
      rw [h] at this
      cases this
    simp only [AccountState.orKeep, and_self, true_iff]
    exact fun hlt => absurd hlt hno
  | ok acc' =>
    obtain ⟨c, hc, rfl⟩ := AccountState.creditCash_eq_ok.mp h
    have hlt : (acc.cash.raw : ℕ) + amount.raw < 2 ^ 128 := hc ▸ c.raw.isLt
    simp only [AccountState.orKeep, AccountState.inventoryOf, and_true, hlt, true_implies]
    constructor
    · rintro rfl
      exact Money.ext_val (by rw [Money.zero_raw]; omega)
    · rintro rfl
      exact Money.ext_val (by rw [hc, Money.zero_raw, add_zero])

theorem orKeep_creditInventory (acc : AccountState) (amount : Qty) (i j : InstrumentId) :
    ((acc.orKeep (acc.creditInventory j amount)).cash = acc.cash ∧
        (acc.orKeep (acc.creditInventory j amount)).inventoryOf i = acc.inventoryOf i) ↔
      (j = i → ((acc.inventoryOf i).raw : ℕ) + amount.raw < 2 ^ 64 → amount = .zero) := by
  cases h : acc.creditInventory j amount with
  | error e =>
    have hno : ¬ ((acc.inventoryOf j).raw : ℕ) + amount.raw < 2 ^ 64 := by
      intro hlt
      have := AccountState.creditInventory_eq_ok.mpr ⟨(⟨⟨_, hlt⟩⟩ : Qty), rfl, rfl⟩
      rw [h] at this
      cases this
    simp only [AccountState.orKeep, true_and, true_iff]
    rintro rfl hlt
    exact absurd hlt hno
  | ok acc' =>
    obtain ⟨c, hc, rfl⟩ := AccountState.creditInventory_eq_ok.mp h
    have hinv : ({ acc with inventory := acc.inventory.insert j c } : AccountState).inventoryOf i =
        if j = i then c else acc.inventoryOf i := AccountState.inventoryOf_insert rfl i
    simp only [AccountState.orKeep, true_and, hinv]
    split_ifs with hj
    · obtain rfl := hj
      have hlt : ((acc.inventoryOf j).raw : ℕ) + amount.raw < 2 ^ 64 := hc ▸ c.raw.isLt
      simp only [hlt, true_implies]
      constructor
      · rintro rfl
        exact Qty.ext_val (by rw [Qty.zero_raw]; omega)
      · rintro rfl
        exact Qty.ext_val (by rw [hc, Qty.zero_raw, add_zero])
    · simp [hj]

/-- The published ledger matches the execution when the mutation leaves its balances alone. -/
theorem matches_mutatePostState [StdSort] {batch : Batch} (hb : batch.Accepted) {pre : Ledger}
    {r : BatchExecutionResult} (hr : executeBatch pre batch = .ok r) :
    r.postState.Matches batch.instrument (mutatePostState m pre r.postState) ↔
      (m.type = .freezePostState → ∀ a, netFills r.fills a = 0) ∧
      (m.type = .inflatePostStateCash → ∃ acc,
        r.postState.getAccount m.beneficiaryAccount = some acc ∧
          ((acc.cash.raw : ℕ) + m.extraCash.raw < 2 ^ 128 → m.extraCash = .zero)) ∧
      (m.type = .inflatePostStateInventory → ∃ acc,
        r.postState.getAccount m.beneficiaryAccount = some acc ∧
          (m.extraInstrument = batch.instrument →
            ((acc.inventoryOf batch.instrument).raw : ℕ) + m.extraQty.raw < 2 ^ 64 →
              m.extraQty = .zero)) := by
  by_cases h1 : m.type = .freezePostState
  · simpa [mutatePostState, h1] using hb.matches_preState_iff hr
  by_cases h2 : m.type = .inflatePostStateCash
  · simp only [mutatePostState, h2, matches_updateAccount, orKeep_creditCash, true_implies,
      reduceCtorEq, false_implies, and_true, true_and]
  by_cases h3 : m.type = .inflatePostStateInventory
  · simp only [mutatePostState, h3, matches_updateAccount, orKeep_creditInventory, true_implies,
      reduceCtorEq, false_implies, true_and]
  simp only [h1, h2, h3, false_implies, and_self, iff_true]
  have hpost : mutatePostState m pre r.postState = r.postState := by
    unfold mutatePostState
    split
    · next h => exact absurd h h1
    · next h => exact absurd h h2
    · next h => exact absurd h h3
    · rfl
  rw [hpost]
  exact ⟨rfl, fun a x hx => ⟨x, hx, rfl, rfl⟩⟩

section Scheme

variable [CommitmentScheme D]

/-- A path leads from one digest only to its root. -/
theorem fold_inj (ideal : IdealHash D) {proof : MerkleProof D} {c c' : D}
    (h : proof.fold c = proof.fold c') : c = c' := by
  rw [MerkleTree.fold_eq_ascend, MerkleTree.fold_eq_ascend] at h
  exact ideal.free.foldl_ascend_inj h

variable {batch : Batch} {preimages : List SaltedOrderPreimage} {allocation : BatchAllocation}

/-- A leaf spoofed with its own commitment changes no record. -/
theorem mutateAccounting_eq (hleaf : m.type = .spoofCommitmentLeaf →
    ∀ p, preimages[m.leafIndex]? = some p → commitOrder p = m.fakeCommitment) :
    (mutateAccounting m (buildCompleteInputAccounting batch preimages allocation)).2 =
      (buildCompleteInputAccounting batch preimages allocation).2 := by
  unfold mutateAccounting
  split
  · next ht =>
    split_ifs with hi
    · have hsame : (buildCompleteInputAccounting (D := D) batch preimages allocation).2.records.modify
          m.leafIndex (fun r => { r with commitment := m.fakeCommitment }) =
          (buildCompleteInputAccounting (D := D) batch preimages allocation).2.records := by
        apply List.ext_getElem?
        intro i
        by_cases hm : m.leafIndex = i
        · obtain rfl := hm
          rw [List.getElem?_modify_eq]
          show _ <$> (preimages.zipIdx.map _)[m.leafIndex]? = (preimages.zipIdx.map _)[m.leafIndex]?
          cases hp : preimages[m.leafIndex]? with
          | none => simp [hp]
          | some p => simp [hp, recordOf, hleaf ht p hp]
        · rw [List.getElem?_modify_ne _ _ hm]
      rw [hsame]
    · rfl
  · rfl

/-- The accounting with a spoofed leaf passes when the leaf is the committed one. -/
theorem mutateAccounting_accepted (ideal : IdealHash D) (hnd : (batch.orders.map (·.id)).Nodup)
    (hp : (preimages.map (·.order)).Perm batch.orders) :
    (mutateAccounting m (buildCompleteInputAccounting batch preimages allocation)).2.Accepted batch
        (.new (preimages.map commitOrder)) allocation ↔
      (m.type = .spoofCommitmentLeaf → ∀ p, preimages[m.leafIndex]? = some p →
        commitOrder p = m.fakeCommitment) := by
  have hbuilt : (buildCompleteInputAccounting (D := D) batch preimages allocation).2.Accepted batch
      (.new (preimages.map commitOrder)) allocation := buildCompleteInputAccounting_accepted hnd hp
  constructor
  · intro h ht p hget
    obtain ⟨hi, -⟩ := List.getElem?_eq_some_iff.mp hget
    have hr : (buildCompleteInputAccounting (D := D) batch preimages allocation).2.records[
        m.leafIndex]? = some (recordOf (allocMap allocation) m.leafIndex p) := by
      show (preimages.zipIdx.map _)[m.leafIndex]? = _
      simp [hget]
    have hlen : m.leafIndex <
        (buildCompleteInputAccounting (D := D) batch preimages allocation).1.leaves.length := by
      show m.leafIndex < (preimages.map _).length
      rwa [List.length_map]
    simp only [mutateAccounting, ht, hlen, if_true] at h
    -- the spoofed record is checked against the original tree
    have hmem : { recordOf (D := D) (allocMap allocation) m.leafIndex p with
        commitment := m.fakeCommitment } ∈
        (buildCompleteInputAccounting (D := D) batch preimages allocation).2.records.modify
          m.leafIndex fun r => { r with commitment := m.fakeCommitment } := by
      apply List.mem_of_getElem? (i := m.leafIndex)
      rw [List.getElem?_modify_eq, hr]
      rfl
    obtain ⟨proof, hproof, hfold⟩ := (h.valid _ hmem).included
    obtain ⟨proof', hproof', hfold'⟩ := (hbuilt.valid _ (List.mem_of_getElem? hr)).included
    obtain rfl := Option.some.inj (hproof.symm.trans hproof')
    exact fold_inj ideal (hfold'.trans hfold.symm)
  · intro h
    rw [mutateAccounting_eq h]
    exact hbuilt

end Scheme

/-- The snapshot of the operator is fresh, unless its time is set back by more than the policy
allows. -/
theorem snapshotTime_fresh : (snapshotTime m ≤ cutoffNanos ∧
      (cutoffNanos : ℕ) ≤ snapshotTime m + maxStaleness) ↔
    (m.type = .staleOracleSnapshot →
      (m.stalenessOffsetNanos : ℕ) = 0 ∨ 2 ^ 64 - 1000000000 ≤ (m.stalenessOffsetNanos : ℕ)) := by
  have hcut : (cutoffNanos : ℕ) = 1700000000000000000 := by decide
  have hmax : (maxStaleness : ℕ) = 1000000000 := by decide
  by_cases ht : m.type = .staleOracleSnapshot
  · have hlt := m.stalenessOffsetNanos.isLt
    simp only [snapshotTime, ht, true_implies, Fin.le_def, Fin.sub_def, hcut, hmax]
    omega
  · simp only [ht, false_implies, iff_true]
    have htime : snapshotTime m = cutoffNanos - 500000000 := by
      unfold snapshotTime
      split
      · next h => exact absurd h ht
      · rfl
    rw [htime]
    decide

end AdversarialOperator

end FairCross
