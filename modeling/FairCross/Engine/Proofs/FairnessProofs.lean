import FairCross.Engine.Proofs.AllocationProofs

/-!
# Equal orders

Two orders of one side with the same limit and the same quantity differ in their sequence numbers and
their ids only. At the clearing price the shares of two such orders differ by one lot at most. Better
than the clearing price the orders are filled one after another, and the one that comes first can take
what both ask for.
-/

namespace FairCross

open Apportion

variable {orders : List Order}

/-- Two orders that differ in nothing the published rule looks at. -/
structure EqualTerms (o o' : Order) : Prop where
  side : o.side = o'.side
  price : o.price = o'.price
  qty : o.qty = o'.qty

theorem EqualTerms.classify {o o' : Order} (h : EqualTerms o o') (cp : Price) :
    classifyOrder o cp = classifyOrder o' cp := by
  unfold classifyOrder
  rw [h.side, h.price]

theorem EqualTerms.lots {o o' : Order} (h : EqualTerms o o') : o.lots = o'.lots :=
  congrArg (fun q : Qty => (q.raw : ℕ)) h.qty

/-- The lots of the in-the-money orders that stand before `o` in the priority order. -/
def lotsAhead [StdSort] (cp : Price) (orders : List Order) (o : Order) : ℕ :=
  ahead Order.lots (StdSort.sort (itmLess o.side) (moneynessOrders .inTheMoney cp o.side orders)) o

/-- The volume ends inside the two equal in-the-money orders `o` and `o'`: it covers two lots of `o`
and leaves two lots of `o'` uncovered. -/
structure EndsInside [StdSort] (orders : List Order) (cp : Price) (v : ℕ) (o o' : Order) : Prop where
  mem : o ∈ orders
  mem' : o' ∈ orders
  ne : o ≠ o'
  equal : EqualTerms o o'
  inTheMoney : classifyOrder o cp = .inTheMoney
  two_le : 2 ≤ o.lots
  covers : lotsAhead cp orders o + 2 ≤ v
  leaves : v + 2 ≤ lotsAhead cp orders o' + o'.lots

/-- The proportional shares of equal orders differ by one lot at most. -/
theorem atmFill_equal [StdSort] {v : ℕ} {atm : List Order} {o o' : Order} (h : EqualTerms o o') :
    atmFill v atm o ≤ atmFill v atm o' + 1 := by
  have hbase : baseShare Order.lots v (totalLots atm) o = baseShare Order.lots v (totalLots atm) o' := by
    rw [baseShare, baseShare, h.lots]
  have hextra := extraLot_le_one (StdSort.sort remainderLess (atm.map (atmCandidate v atm)))
    (surplusLots v atm) (atmCandidate v atm o)
  have hlots := h.lots
  unfold atmFill
  split_ifs <;> omega

/-- Equal in-the-money orders are filled more than one lot apart exactly when the volume ends inside
them. -/
theorem itmFill_equal_iff [StdSort] {cp : Price} {v : ℕ} {o o' : Order} (ho : o ∈ orders)
    (ho' : o' ∈ orders) (hne : o ≠ o') (h : EqualTerms o o')
    (hc : classifyOrder o cp = .inTheMoney) :
    itmFill o.side v (moneynessOrders .inTheMoney cp o.side orders) o' + 1 <
        itmFill o.side v (moneynessOrders .inTheMoney cp o.side orders) o ↔
      EndsInside orders cp v o o' := by
  set itm := moneynessOrders .inTheMoney cp o.side orders with hitm
  have hp := StdSort.sort_perm (itmLess o.side) itm
  have hmem : o ∈ itm := mem_moneynessOrders.mpr ⟨ho, rfl, hc⟩
  have hmem' : o' ∈ itm := mem_moneynessOrders.mpr ⟨ho', h.side.symm, (h.classify cp) ▸ hc⟩
  have hahead' : lotsAhead cp orders o' =
      ahead Order.lots (StdSort.sort (itmLess o.side) itm) o' := by
    rw [lotsAhead, ← h.side]
  have htotal := ahead_add_claim_le Order.lots (hp.mem_iff.mpr hmem')
  rw [(hp.map Order.lots).sum_eq] at htotal
  unfold itmFill
  by_cases hv : v ≤ totalLots itm
  · simp only [if_pos hv]
    rw [greedyFill_apart_iff Order.lots (hp.mem_iff.mpr hmem) (hp.mem_iff.mpr hmem') hne h.lots]
    constructor
    · rintro ⟨h2, hcov, hleaves⟩
      exact ⟨ho, ho', hne, h, hc, h2, hcov, hahead' ▸ hleaves⟩
    · intro hin
      exact ⟨hin.two_le, hin.covers, hahead' ▸ hin.leaves⟩
  · -- every in-the-money order is filled
    have hlots := h.lots
    rw [if_neg hv, if_neg hv]
    refine ⟨fun hlt => by omega, fun hin => ?_⟩
    have hleaves := hin.leaves
    rw [hahead'] at hleaves
    have : (itm.map Order.lots).sum = totalLots itm := rfl
    omega

/-- Two equal orders of a side are filled more than one lot apart exactly when they are in the money
and the volume ends inside them. -/
theorem sideFill_equal_iff [StdSort] {cp : Price} {v : ℕ} {o o' : Order} (ho : o ∈ orders)
    (ho' : o' ∈ orders) (h : EqualTerms o o') :
    sideFill cp o'.side v orders o' + 1 < sideFill cp o.side v orders o ↔
      EndsInside orders cp v o o' := by
  by_cases hne : o = o'
  · subst hne
    exact ⟨fun hlt => by omega, fun hin => absurd rfl hin.ne⟩
  rw [← h.side]
  unfold sideFill
  rw [← h.classify cp]
  cases hc : classifyOrder o cp with
  | inTheMoney => exact itmFill_equal_iff ho ho' hne h hc
  | atTheMoney =>
    have : atmFill (v - totalLots (moneynessOrders .inTheMoney cp o.side orders))
        (moneynessOrders .atTheMoney cp o.side orders) o ≤
        atmFill (v - totalLots (moneynessOrders .inTheMoney cp o.side orders))
          (moneynessOrders .atTheMoney cp o.side orders) o' + 1 := atmFill_equal h
    refine ⟨fun hlt => by simp only at hlt; omega, fun hin => ?_⟩
    have := hin.inTheMoney
    rw [hc] at this
    cases this
  | outOfTheMoney =>
    refine ⟨fun hlt => by simp only at hlt; omega, fun hin => ?_⟩
    have := hin.inTheMoney
    rw [hc] at this
    cases this

/-- **Equal orders are treated alike unless the volume ends inside them.** The allocation of a batch
gives any two equal orders fills at most one lot apart if and only if the clearing volume does not end
inside two equal in-the-money orders. -/
theorem allocateBatch_equal_iff [StdSort] {batchId : BatchId} {instrument : InstrumentId}
    {orders : List Order} {batch : Batch} {outcome : ClearingOutcome} {cp : Price}
    {a : BatchAllocation} (hb : Batch.create batchId instrument orders = .ok batch)
    (h : determineClearingOutcome batch = .ok outcome) (hcp : outcome.clearingPrice = some cp)
    (ha : allocateBatch batch outcome.clearingPrice outcome.executableVolume = .ok a) :
    (∀ x ∈ a.allocations, ∀ y ∈ a.allocations, x.side = y.side → x.limitPrice = y.limitPrice →
      x.originalQty = y.originalQty → (x.allocatedQty.raw : ℕ) ≤ y.allocatedQty.raw + 1) ↔
    ∀ o o', ¬ EndsInside batch.orders cp outcome.executableVolume.raw o o' := by
  have hacc := Batch.accepted_of_create hb
  have hfill := hacc.isAllocation h
  obtain rfl : canonicalAllocation outcome batch = a :=
    Except.ok.inj ((hacc.allocateBatch_eq h).symm.trans ha)
  have hcanon : ∀ o, canonicalFill outcome batch.orders o =
      sideFill cp o.side outcome.executableVolume.raw batch.orders o := fun o => by
    simp only [canonicalFill, hcp]
  constructor
  · intro hall o o' hin
    have hxy := hall _ (List.mem_map.mpr ⟨o, hin.mem, rfl⟩) _ (List.mem_map.mpr ⟨o', hin.mem', rfl⟩)
      hin.equal.side hin.equal.price hin.equal.qty
    have hlt := (sideFill_equal_iff hin.mem hin.mem' hin.equal).mpr hin
    rw [← hcanon, ← hcanon] at hlt
    have hx := toU64_fill hfill hin.mem
    have hy := toU64_fill hfill hin.mem'
    simp only [OrderAllocation.of] at hxy
    omega
  · intro hno x hx y hy hside hprice hqty
    obtain ⟨o, ho, rfl⟩ := List.mem_map.mp hx
    obtain ⟨o', ho', rfl⟩ := List.mem_map.mp hy
    have hle := (sideFill_equal_iff ho ho' ⟨hside, hprice, hqty⟩).not.mpr (hno o o')
    rw [← hcanon, ← hcanon] at hle
    have hx := toU64_fill hfill ho
    have hy := toU64_fill hfill ho'
    simp only [OrderAllocation.of]
    omega

/-- Two buys of 10 at 110 against a sell of 10 at 100. The batch clears 10 lots at 105, where both buys
are in the money. -/
def contestedBatch : Batch where
  batchId := ⟨1⟩
  instrument := ⟨7⟩
  orders := [exampleOrder 1 1 .buy 110 10 0, exampleOrder 2 2 .buy 110 10 1,
    exampleOrder 3 3 .sell 100 10 2]

def contestedOutcome : ClearingOutcome := ⟨some ⟨105⟩, ⟨10⟩⟩

/-- Two buys of 5 at 105 against a sell of 7 at 105: all orders are at the money. -/
def rationedBatch : Batch where
  batchId := ⟨1⟩
  instrument := ⟨7⟩
  orders := [exampleOrder 1 1 .buy 105 5 0, exampleOrder 2 2 .buy 105 5 1,
    exampleOrder 3 3 .sell 105 7 2]

def rationedOutcome : ClearingOutcome := ⟨some ⟨105⟩, ⟨7⟩⟩

/-- The two equal buys share the 7 lots, as 4 and 3. -/
theorem allocateBatch_equal_example : ∃ a,
    @allocateBatch .stable rationedBatch rationedOutcome.clearingPrice
      rationedOutcome.executableVolume = .ok a ∧
    (∀ x ∈ a.allocations, ∀ y ∈ a.allocations, x.side = y.side → x.limitPrice = y.limitPrice →
      x.originalQty = y.originalQty → (x.allocatedQty.raw : ℕ) ≤ y.allocatedQty.raw + 1) ∧
    a.allocations.map (fun x => (x.allocatedQty.raw : ℕ)) = [4, 3, 7] := by
  have hatm : ∀ o ∈ rationedBatch.orders, classifyOrder o ⟨105⟩ ≠ .inTheMoney := by decide +kernel
  have ha : @allocateBatch .stable rationedBatch rationedOutcome.clearingPrice
      rationedOutcome.executableVolume =
        .ok (@canonicalAllocation .stable rationedOutcome rationedBatch) := by decide +kernel
  have hinside : ∀ o o', ¬ @EndsInside .stable rationedBatch.orders ⟨105⟩ 7 o o' := by
    rintro o o' ⟨hmem, -, -, -, hin, -⟩
    exact hatm o hmem hin
  have hequal := (@allocateBatch_equal_iff .stable ⟨1⟩ ⟨7⟩ rationedBatch.orders rationedBatch
    rationedOutcome ⟨105⟩ _ (by decide +kernel) (by decide +kernel) rfl ha).mpr hinside
  exact ⟨_, ha, hequal, by decide +kernel⟩

/-- The buy that came first takes everything. -/
theorem allocateBatch_not_equal :
    @Batch.create .stable ⟨1⟩ ⟨7⟩ contestedBatch.orders = .ok contestedBatch ∧
    @determineClearingOutcome .stable contestedBatch = .ok contestedOutcome ∧
    ∃ a, @allocateBatch .stable contestedBatch contestedOutcome.clearingPrice
        contestedOutcome.executableVolume = .ok a ∧
      ∃ x ∈ a.allocations, ∃ y ∈ a.allocations, x.side = y.side ∧ x.limitPrice = y.limitPrice ∧
        x.originalQty = y.originalQty ∧ x.allocatedQty = ⟨10⟩ ∧ y.allocatedQty = ⟨0⟩ :=
  ⟨by decide +kernel, by decide +kernel,
    @canonicalAllocation .stable contestedOutcome contestedBatch, by decide +kernel,
    by decide +kernel⟩

end FairCross
