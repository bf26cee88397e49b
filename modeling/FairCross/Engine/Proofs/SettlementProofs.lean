import FairCross.Engine.Settlement
import FairCross.Library.BoundedSum

/-!
# The settlement loop

`SettlesTo` is what one fill does to its account, `foldlM_applyFill` what a list of fills does to a
ledger.
-/

namespace FairCross

open Postings

/-! ## One account -/

namespace AccountState

variable {acc acc' : AccountState} {i : InstrumentId} {q : Qty} {m : Money}

theorem inventoryOf_insert {q : Qty} (h : acc'.inventory = acc.inventory.insert i q)
    (j : InstrumentId) : acc'.inventoryOf j = if i = j then q else acc.inventoryOf j := by
  simp only [inventoryOf, h, SortedMap.find_insert]
  split_ifs <;> rfl

theorem inventoryOf_debit {q : Qty}
    (h : acc'.inventory = if q.isZero then acc.inventory.erase i else acc.inventory.insert i q)
    (j : InstrumentId) : acc'.inventoryOf j = if i = j then q else acc.inventoryOf j := by
  by_cases hq : q.isZero = true
  · have hzero : q = .zero := Qty.ext_val (Qty.isZero_iff.mp hq)
    rw [if_pos hq] at h
    simp only [inventoryOf, h, SortedMap.find_erase, hzero]
    split_ifs <;> rfl
  · rw [if_neg hq] at h
    exact inventoryOf_insert h j

/-- `acc'` is `acc` with another amount of cash and another inventory of `i`. -/
structure Moved (i : InstrumentId) (acc acc' : AccountState) : Prop where
  other : ∀ j, j ≠ i → acc'.inventory.find j = acc.inventory.find j
  id : acc'.id = acc.id
  salt : acc'.commitmentSalt = acc.commitmentSalt

theorem Moved.inventoryOf_other (h : Moved i acc acc') {j : InstrumentId} (hj : j ≠ i) :
    acc'.inventoryOf j = acc.inventoryOf j := by
  rw [inventoryOf, inventoryOf, h.other j hj]

theorem creditCash_eq_ok : acc.creditCash m = .ok acc' ↔
    ∃ c : Money, (c.raw : ℕ) = acc.cash.raw + m.raw ∧ { acc with cash := c } = acc' := by
  simp [creditCash, Money.checkedAdd_eq_ok]

theorem debitCash_eq_ok : acc.debitCash m = .ok acc' ↔
    ∃ c : Money, (acc.cash.raw : ℕ) = c.raw + m.raw ∧ { acc with cash := c } = acc' := by
  unfold debitCash
  simp only [← Money.checkedSub_eq_ok]
  cases acc.cash.checkedSub m <;> simp

theorem creditInventory_eq_ok : acc.creditInventory i q = .ok acc' ↔
    ∃ c : Qty, (c.raw : ℕ) = (acc.inventoryOf i).raw + q.raw ∧
      { acc with inventory := acc.inventory.insert i c } = acc' := by
  simp [creditInventory, Qty.checkedAdd_eq_ok]

theorem debitInventory_eq_ok : acc.debitInventory i q = .ok acc' ↔
    ∃ c : Qty, ((acc.inventoryOf i).raw : ℕ) = c.raw + q.raw ∧
      { acc with inventory := if c.isZero then acc.inventory.erase i
                              else acc.inventory.insert i c } = acc' := by
  unfold debitInventory
  simp only [← Qty.checkedSub_eq_ok]
  cases (acc.inventoryOf i).checkedSub q with
  | error e => simp
  | ok c => by_cases h : c.isZero = true <;> simp [h]

end AccountState

theorem settle_buy_eq_ok {acc acc' : AccountState} {f : Fill} (hs : f.side = .buy) :
    settle acc f = .ok acc' ↔ ∃ (c : Money) (q : Qty),
      (acc.cash.raw : ℕ) = c.raw + f.consideration.raw ∧
      (q.raw : ℕ) = (acc.inventoryOf f.instrumentId).raw + f.fillQty.raw ∧
      { acc with cash := c, inventory := acc.inventory.insert f.instrumentId q } = acc' := by
  rw [settle, if_pos hs]
  simp only [Result.bind_eq_ok, Result.convert_eq_ok, AccountState.debitCash_eq_ok,
    AccountState.creditInventory_eq_ok]
  constructor
  · rintro ⟨-, ⟨c, hc, rfl⟩, q, hq, rfl⟩
    exact ⟨c, q, hc, hq, rfl⟩
  · rintro ⟨c, q, hc, hq, rfl⟩
    exact ⟨_, ⟨c, hc, rfl⟩, q, hq, rfl⟩

theorem settle_sell_eq_ok {acc acc' : AccountState} {f : Fill} (hs : ¬ f.side = .buy) :
    settle acc f = .ok acc' ↔ ∃ (c : Money) (q : Qty),
      (c.raw : ℕ) = acc.cash.raw + f.consideration.raw ∧
      ((acc.inventoryOf f.instrumentId).raw : ℕ) = q.raw + f.fillQty.raw ∧
      { acc with
        cash := c
        inventory := if q.isZero then acc.inventory.erase f.instrumentId
                     else acc.inventory.insert f.instrumentId q } = acc' := by
  rw [settle, if_neg hs]
  simp only [Result.bind_eq_ok, Result.convert_eq_ok, AccountState.debitInventory_eq_ok,
    AccountState.creditCash_eq_ok]
  constructor
  · rintro ⟨-, ⟨q, hq, rfl⟩, c, hc, rfl⟩
    exact ⟨c, q, hc, hq, rfl⟩
  · rintro ⟨c, q, hc, hq, rfl⟩
    exact ⟨_, ⟨q, hq, rfl⟩, c, hc, rfl⟩

/-- What settling `f` makes of the account `acc`. -/
structure SettlesTo (acc : AccountState) (f : Fill) (acc' : AccountState) : Prop where
  cash : (acc'.cash.raw : ℤ) = acc.cash.raw + f.delta.1
  lots : ((acc'.inventoryOf f.instrumentId).raw : ℤ) =
    (acc.inventoryOf f.instrumentId).raw + f.delta.2
  moved : AccountState.Moved f.instrumentId acc acc'

theorem settle_settlesTo {acc acc' : AccountState} {f : Fill} (h : settle acc f = .ok acc') :
    SettlesTo acc f acc' := by
  by_cases hs : f.side = .buy
  · obtain ⟨c, q, hc, hq, rfl⟩ := (settle_buy_eq_ok hs).mp h
    refine ⟨?_, ?_, fun j hj => ?_, rfl, rfl⟩
    · simp only [Fill.delta, hs, if_true]
      omega
    · rw [AccountState.inventoryOf_insert rfl, if_pos rfl, hq]
      simp only [Fill.delta, hs, if_true]
      exact Nat.cast_add _ _
    · exact SortedMap.find_insert_ne _ _ (Ne.symm hj)
  · obtain ⟨c, q, hc, hq, rfl⟩ := (settle_sell_eq_ok hs).mp h
    refine ⟨?_, ?_, fun j hj => ?_, rfl, rfl⟩
    · simp only [Fill.delta, hs, if_false]
      rw [hc]
      exact Nat.cast_add _ _
    · rw [AccountState.inventoryOf_debit rfl, if_pos rfl]
      simp only [Fill.delta, hs, if_false]
      omega
    · show (if q.isZero = true then _ else _ : SortedMap InstrumentId Qty).find j = _
      split_ifs
      · rw [SortedMap.find_erase, if_neg (Ne.symm hj)]
      · exact SortedMap.find_insert_ne _ _ (Ne.symm hj)

theorem settle_isOk (acc : AccountState) (f : Fill) : (∃ acc', settle acc f = .ok acc') ↔
    Storable (((acc.cash.raw : ℤ), ((acc.inventoryOf f.instrumentId).raw : ℤ)) + f.delta) := by
  have hc := acc.cash.raw.isLt
  have hq := (acc.inventoryOf f.instrumentId).raw.isLt
  constructor
  · rintro ⟨acc', h⟩
    obtain ⟨h1, h2, -⟩ := settle_settlesTo h
    have := acc'.cash.raw.isLt
    have := (acc'.inventoryOf f.instrumentId).raw.isLt
    unfold Storable
    rw [Prod.fst_add, Prod.snd_add, ← h1, ← h2]
    omega
  · intro h
    unfold Storable at h
    rw [Prod.fst_add, Prod.snd_add] at h
    by_cases hs : f.side = .buy
    · simp only [Fill.delta, hs, if_true] at h
      exact ⟨_, (settle_buy_eq_ok hs).mpr ⟨⟨⟨acc.cash.raw - f.consideration.raw, by omega⟩⟩,
        ⟨⟨(acc.inventoryOf f.instrumentId).raw + f.fillQty.raw, by omega⟩⟩, by simp only; omega,
        rfl, rfl⟩⟩
    · simp only [Fill.delta, hs, if_false] at h
      exact ⟨_, (settle_sell_eq_ok hs).mpr ⟨⟨⟨acc.cash.raw + f.consideration.raw, by omega⟩⟩,
        ⟨⟨(acc.inventoryOf f.instrumentId).raw - f.fillQty.raw, by omega⟩⟩, rfl,
        by simp only; omega, rfl⟩⟩

/-! ## One fill -/

/-- The account a fill is settled on: a missing one is new. -/
def Ledger.accountOrNew (l : Ledger) (id : AccountId) : AccountState :=
  (l.getAccount id).getD (.new id .zero)

theorem Ledger.getAccount_setAccount (l : Ledger) (id a : AccountId) (acc : AccountState) :
    (l.setAccount id acc).getAccount a = if id = a then some acc else l.getAccount a :=
  SortedMap.find_insert _ _ _ _

theorem applyFill_eq_ok {l l' : Ledger} {f : Fill} : applyFill l f = .ok l' ↔
    ∃ acc, settle (l.accountOrNew f.accountId) f = .ok acc ∧ l.setAccount f.accountId acc = l' := by
  unfold applyFill Ledger.getOrCreateAccount Ledger.accountOrNew Ledger.getAccount
  cases h : l.accounts.find f.accountId with
  | some x => simp
  | none => simp [Ledger.setAccount, SortedMap.insert_insert]

theorem Ledger.balance_accountOrNew (i : InstrumentId) (l : Ledger) (a : AccountId) :
    (((l.accountOrNew a).cash.raw : ℤ), (((l.accountOrNew a).inventoryOf i).raw : ℤ)) =
      l.balance i a := by
  unfold accountOrNew balance cashOf lotsOf
  cases l.getAccount a <;> rfl

/-- A successful fill posts its amounts to the balances of its account. -/
theorem applyFill_posts_amounts (f : Fill) :
    Posts Fill.accountId Fill.amounts Ledger.balances applyFill f := by
  intro l l' h a
  obtain ⟨acc, hacc, rfl⟩ := applyFill_eq_ok.mp h
  obtain ⟨h1, h2, h3⟩ := settle_settlesTo hacc
  by_cases ha : f.accountId = a
  · subst ha
    have hold := fun i => l.balance_accountOrNew i f.accountId
    have hcash : ((l.accountOrNew f.accountId).cash.raw : ℤ) = l.cashOf f.accountId :=
      congrArg Prod.fst (hold f.instrumentId)
    have hlots : ∀ i, (((l.accountOrNew f.accountId).inventoryOf i).raw : ℤ) =
        l.lotsOf i f.accountId := fun i => congrArg Prod.snd (hold i)
    rw [if_pos rfl]
    refine Prod.ext ?_ (funext fun i => ?_)
    · show ((l.setAccount f.accountId acc).cashOf f.accountId : ℤ) = l.cashOf f.accountId + f.delta.1
      simp only [Ledger.cashOf, Ledger.getAccount_setAccount, if_true, Option.map_some,
        Option.getD_some]
      rw [h1, hcash]
      rfl
    · show ((l.setAccount f.accountId acc).lotsOf i f.accountId : ℤ) =
        l.lotsOf i f.accountId + (Pi.single f.instrumentId f.delta.2 : InstrumentId → ℤ) i
      have hnew : (l.setAccount f.accountId acc).lotsOf i f.accountId = (acc.inventoryOf i).raw := by
        simp only [Ledger.lotsOf, Ledger.getAccount_setAccount, if_true, Option.map_some,
          Option.getD_some]
      rw [hnew, ← hlots, Pi.single_apply]
      split_ifs with hi
      · rw [hi, h2]
      · rw [h3.inventoryOf_other hi, add_zero]
  · rw [if_neg ha, add_zero]
    simp only [Ledger.balances, Ledger.cashOf, Ledger.lotsOf, Ledger.getAccount_setAccount, ha,
      if_false]

section Instrument

variable {i : InstrumentId} {f : Fill} (hf : f.instrumentId = i)
include hf

theorem applyFill_isOk (l : Ledger) :
    (∃ l', applyFill l f = .ok l') ↔ Storable (l.balance i f.accountId + f.delta) := by
  have h := settle_isOk (l.accountOrNew f.accountId) f
  rw [hf, l.balance_accountOrNew] at h
  rw [← h]
  simp [applyFill_eq_ok]

theorem applyFill_posts : Posts Fill.accountId Fill.delta (Ledger.balance i) applyFill f := by
  intro l l' h a
  have hread : ∀ m : Ledger, m.balance i a = ((m.balances a).1, (m.balances a).2 i) := fun _ => rfl
  have hsame : f.amounts.2 i = f.delta.2 := by
    subst hf
    exact Pi.single_eq_same _ _
  rw [hread, hread, applyFill_posts_amounts f l l' h a]
  split_ifs
  · exact Prod.ext rfl (congrArg (_ + ·) hsame)
  · rw [add_zero, add_zero]

end Instrument

/-- A fill with something to pay on both sides. -/
def Fill.Positive (f : Fill) : Prop := 0 < (f.consideration.raw : ℕ) ∧ 0 < (f.fillQty.raw : ℕ)

/-- A missing account has nothing to debit, so a successful fill finds its account. -/
theorem applyFill_account_exists {l l' : Ledger} {f : Fill} (hpos : f.Positive)
    (h : applyFill l f = .ok l') : (l.getAccount f.accountId).isSome := by
  have hs := (applyFill_isOk rfl l).mp ⟨l', h⟩
  cases hacc : l.getAccount f.accountId with
  | some x => rfl
  | none =>
    obtain ⟨hp1, hp2⟩ := hpos
    have hb : l.balance f.instrumentId f.accountId = 0 := by
      simp only [Ledger.balance, Ledger.cashOf, Ledger.lotsOf, hacc]
      rfl
    rw [hb, zero_add] at hs
    obtain ⟨h1, -, h2, -⟩ := hs
    unfold Fill.delta at h1 h2
    split_ifs at h1 h2 <;> simp only at h1 h2 <;> omega

/-- The same accounts, changed in nothing but cash and the inventory of `i`. -/
structure SameAccounts (i : InstrumentId) (l l' : Ledger) : Prop where
  isSome : ∀ a, (l'.getAccount a).isSome = (l.getAccount a).isSome
  moved : ∀ a x y, l.getAccount a = some x → l'.getAccount a = some y → AccountState.Moved i x y

theorem SameAccounts.refl (i : InstrumentId) (l : Ledger) : SameAccounts i l l :=
  ⟨fun _ => rfl, fun a x y hx hy => by
    obtain rfl := Option.some.inj (hx.symm.trans hy)
    exact ⟨fun _ _ => rfl, rfl, rfl⟩⟩

theorem SameAccounts.trans {i : InstrumentId} {l l' l'' : Ledger} (h : SameAccounts i l l')
    (h' : SameAccounts i l' l'') : SameAccounts i l l'' := by
  refine ⟨fun a => (h'.isSome a).trans (h.isSome a), fun a x z hx hz => ?_⟩
  obtain ⟨y, hy⟩ := Option.isSome_iff_exists.mp ((h.isSome a).trans (by rw [hx]; rfl))
  have h1 := h.moved a x y hx hy
  have h2 := h'.moved a y z hy hz
  exact ⟨fun j hj => (h2.other j hj).trans (h1.other j hj), h2.id.trans h1.id,
    h2.salt.trans h1.salt⟩

theorem applyFill_sameAccounts {l l' : Ledger} {f : Fill} (hpos : f.Positive)
    (h : applyFill l f = .ok l') : SameAccounts f.instrumentId l l' := by
  obtain ⟨x, hx⟩ := Option.isSome_iff_exists.mp (applyFill_account_exists hpos h)
  obtain ⟨acc, hacc, rfl⟩ := applyFill_eq_ok.mp h
  have hold : l.accountOrNew f.accountId = x := by rw [Ledger.accountOrNew, hx]; rfl
  rw [hold] at hacc
  refine ⟨fun a => ?_, fun a y z hy hz => ?_⟩
  · rw [Ledger.getAccount_setAccount]
    split_ifs with ha
    · rw [← ha, hx]; rfl
    · rfl
  · rw [Ledger.getAccount_setAccount] at hz
    split_ifs at hz with ha
    · obtain rfl := Option.some.inj hz
      obtain rfl : x = y := by rw [ha] at hx; exact Option.some.inj (hx.symm.trans hy)
      exact (settle_settlesTo hacc).moved
    · obtain rfl := Option.some.inj (hy.symm.trans hz)
      exact ⟨fun _ _ => rfl, rfl, rfl⟩

/-- A changed account changes a sum over the accounts by its own change. -/
theorem Ledger.sum_setAccount (l : Ledger) (id : AccountId) (acc : AccountState)
    (f : AccountState → ℕ) (hnew : f (.new id .zero) = 0) :
    ((l.setAccount id acc).accounts.sum f : ℤ) = l.accounts.sum f + (f acc - f (l.accountOrNew id)) := by
  have h := SortedMap.sum_insert l.accounts f id acc
  have hold : f (l.accountOrNew id) = ((l.accounts.find id).map f).getD 0 := by
    unfold accountOrNew getAccount
    cases l.accounts.find id with
    | some x => rfl
    | none => exact hnew
  have hsum : (l.setAccount id acc).accounts.sum f + f (l.accountOrNew id) =
      l.accounts.sum f + f acc := by rw [hold]; exact h
  omega

theorem applyFill_sums {l l' : Ledger} {f : Fill} (h : applyFill l f = .ok l') :
    (l'.cashSum : ℤ) = l.cashSum + f.delta.1 ∧
      ∀ j, (l'.lotsSum j : ℤ) = l.lotsSum j + if j = f.instrumentId then f.delta.2 else 0 := by
  obtain ⟨acc, hacc, rfl⟩ := applyFill_eq_ok.mp h
  obtain ⟨h1, h2, h3⟩ := settle_settlesTo hacc
  constructor
  · unfold Ledger.cashSum
    rw [Ledger.sum_setAccount _ _ _ _ rfl, h1]
    omega
  · intro j
    unfold Ledger.lotsSum
    rw [Ledger.sum_setAccount _ _ _ _ rfl]
    split_ifs with hj
    · subst hj
      rw [h2]
      omega
    · rw [h3.inventoryOf_other hj, sub_self]

/-! ## All fills -/

section Run

variable {i : InstrumentId} {fills : List Fill} {l l' : Ledger}

/-- **Replay.** The settlement loop succeeds exactly when every running balance can be stored. -/
theorem foldlM_applyFill_isOk (hi : ∀ f ∈ fills, f.instrumentId = i) :
    (∃ l', fills.foldlM applyFill l = .ok l') ↔ ∀ k (hk : k < fills.length),
      Storable (runningBalance i l fills k fills[k].accountId + fills[k].delta) :=
  foldlM_isOk (fun _ => Storable) (fun f hf => applyFill_posts (hi f hf))
    fun f hf l => applyFill_isOk (hi f hf) l

theorem foldlM_applyFill_balance (hi : ∀ f ∈ fills, f.instrumentId = i)
    (h : fills.foldlM applyFill l = .ok l') (a : AccountId) :
    l'.balance i a = l.balance i a + netFills fills a :=
  foldlM_read (fun f hf => applyFill_posts (hi f hf)) h a

theorem foldlM_applyFill_sameAccounts (hi : ∀ f ∈ fills, f.instrumentId = i)
    (hpos : ∀ f ∈ fills, f.Positive) (h : fills.foldlM applyFill l = .ok l') :
    SameAccounts i l l' := by
  induction fills generalizing l with
  | nil =>
    obtain rfl : l = l' := by simpa [pure, Except.pure] using h
    exact .refl i l
  | cons f fills ih =>
    rw [List.foldlM_cons, Result.bind_eq_ok] at h
    obtain ⟨m, hm, h⟩ := h
    have h1 := applyFill_sameAccounts (hpos f (List.mem_cons_self ..)) hm
    rw [hi f (List.mem_cons_self ..)] at h1
    exact h1.trans (ih (fun f hf => hi f (List.mem_cons_of_mem _ hf))
      (fun f hf => hpos f (List.mem_cons_of_mem _ hf)) h)

theorem foldlM_applyFill_sums (h : fills.foldlM applyFill l = .ok l') :
    (l'.cashSum : ℤ) = l.cashSum + (fills.map fun f => f.delta.1).sum ∧
      ∀ j, (l'.lotsSum j : ℤ) =
        l.lotsSum j + (fills.map fun f => if j = f.instrumentId then f.delta.2 else 0).sum := by
  induction fills generalizing l with
  | nil =>
    obtain rfl : l = l' := by simpa [pure, Except.pure] using h
    simp
  | cons f fills ih =>
    rw [List.foldlM_cons, Result.bind_eq_ok] at h
    obtain ⟨m, hm, h⟩ := h
    obtain ⟨h1, h2⟩ := applyFill_sums hm
    obtain ⟨h3, h4⟩ := ih h
    refine ⟨?_, fun j => ?_⟩
    · rw [h3, h1, List.map_cons, List.sum_cons, add_assoc]
    · rw [h4, h2, List.map_cons, List.sum_cons, add_assoc]

end Run

/-! ## The totals -/

theorem Ledger.totalCash_eq_ok {l : Ledger} {m : Money} :
    l.totalCash = .ok m ↔ (m.raw : ℕ) = l.cashSum := by
  have hr : BoundedSum.Reading (fun _ : Money => True) fun m => (m.raw : ℕ) :=
    ⟨fun _ _ h => Money.ext_val h, fun {s m} _ hm =>
      ⟨⟨⟨m, lt_of_le_of_lt hm s.raw.isLt⟩⟩, trivial, rfl⟩⟩
  have : l.accounts.entries.foldlM (fun sum e => sum.checkedAdd e.2.cash) Money.zero = .ok m ↔ _ :=
    BoundedSum.foldlM_eq_ok hr (w := fun e : AccountId × AccountState => (e.2.cash.raw : ℕ))
      (fun s e s' _ _ => by rw [Money.checkedAdd_eq_ok, true_and]) trivial
  rw [totalCash, this, Money.zero_raw, zero_add, true_and]
  rfl

theorem Ledger.totalInventoryOf_eq_ok {l : Ledger} {i : InstrumentId} {q : Qty} :
    l.totalInventoryOf i = .ok q ↔ (q.raw : ℕ) = l.lotsSum i := by
  have hr : BoundedSum.Reading (fun _ : Qty => True) fun q => (q.raw : ℕ) :=
    ⟨fun _ _ h => Qty.ext_val h, fun {s m} _ hm =>
      ⟨⟨⟨m, lt_of_le_of_lt hm s.raw.isLt⟩⟩, trivial, rfl⟩⟩
  have : l.accounts.entries.foldlM (fun sum e => sum.checkedAdd (e.2.inventoryOf i)) Qty.zero =
      .ok q ↔ _ :=
    BoundedSum.foldlM_eq_ok hr
      (w := fun e : AccountId × AccountState => ((e.2.inventoryOf i).raw : ℕ))
      (fun s e s' _ _ => by rw [Qty.checkedAdd_eq_ok, true_and]) trivial
  rw [totalInventoryOf, this, Qty.zero_raw, zero_add, true_and]
  rfl

theorem sameTotal_iff {α : Type} [DecidableEq α] {r r' : Result α} :
    sameTotal r r' = true ↔ ∃ a, r = .ok a ∧ r' = .ok a := by
  unfold sameTotal
  cases r <;> cases r' <;> simp [eq_comm]

theorem sameTotal_cash {l l' : Ledger} : sameTotal l.totalCash l'.totalCash = true ↔
    l'.cashSum = l.cashSum ∧ l.cashSum < 2 ^ 128 := by
  simp only [sameTotal_iff, Ledger.totalCash_eq_ok]
  constructor
  · rintro ⟨m, h1, h2⟩
    have := m.raw.isLt
    omega
  · rintro ⟨h1, h2⟩
    exact ⟨⟨⟨l.cashSum, h2⟩⟩, rfl, h1.symm⟩

theorem sameTotal_inventory {l l' : Ledger} {i : InstrumentId} :
    sameTotal (l.totalInventoryOf i) (l'.totalInventoryOf i) = true ↔
      l'.lotsSum i = l.lotsSum i ∧ l.lotsSum i < 2 ^ 64 := by
  simp only [sameTotal_iff, Ledger.totalInventoryOf_eq_ok]
  constructor
  · rintro ⟨m, h1, h2⟩
    have := m.raw.isLt
    omega
  · rintro ⟨h1, h2⟩
    exact ⟨⟨⟨l.lotsSum i, h2⟩⟩, rfl, h1.symm⟩

theorem mem_touchedInstruments {fills : List Fill} {i : InstrumentId} :
    i ∈ (touchedInstruments fills).keys ↔ ∃ f ∈ fills, f.instrumentId = i := by
  have hfold : ∀ m : SortedMap InstrumentId Unit,
      ((fills.foldl (fun s f => s.insert f.instrumentId ()) m).find i).isSome ↔
        (m.find i).isSome ∨ ∃ f ∈ fills, f.instrumentId = i := by
    induction fills with
    | nil => simp
    | cons f fills ih =>
      intro m
      rw [List.foldl_cons, ih, SortedMap.find_insert]
      by_cases h : f.instrumentId = i <;> simp [h]
  rw [SortedMap.mem_keys_iff_isSome, touchedInstruments, hfold]
  simp

theorem applyBatchTransition_eq_ok {l l' : Ledger} {fills : List Fill} :
    applyBatchTransition l fills = .ok l' ↔ fills.foldlM applyFill l = .ok l' ∧
      (l'.cashSum = l.cashSum ∧ l.cashSum < 2 ^ 128) ∧
      ∀ f ∈ fills, l'.lotsSum f.instrumentId = l.lotsSum f.instrumentId ∧
        l.lotsSum f.instrumentId < 2 ^ 64 := by
  have hall : ∀ m : Ledger, ((touchedInstruments fills).keys.all fun inst =>
      sameTotal (l.totalInventoryOf inst) (m.totalInventoryOf inst)) = true ↔
      ∀ f ∈ fills, m.lotsSum f.instrumentId = l.lotsSum f.instrumentId ∧
        l.lotsSum f.instrumentId < 2 ^ 64 := by
    intro m
    simp only [List.all_eq_true, mem_touchedInstruments, sameTotal_inventory, forall_exists_index,
      and_imp, forall_apply_eq_imp_iff₂]
  unfold applyBatchTransition
  simp only [Result.bind_eq_ok]
  constructor
  · rintro ⟨m, hm, h⟩
    simp only [Result.ite_failure_eq_ok, Bool.not_eq_true', Bool.not_eq_false, Result.pure_eq_ok] at h
    obtain ⟨h1, h2, rfl⟩ := h
    exact ⟨hm, sameTotal_cash.mp h1, (hall m).mp h2⟩
  · rintro ⟨hm, h1, h2⟩
    refine ⟨l', hm, ?_⟩
    rw [sameTotal_cash.mpr h1, (hall l').mpr h2]
    rfl

end FairCross
