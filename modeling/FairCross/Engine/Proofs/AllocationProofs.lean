import FairCross.Engine.Proofs.AuctionProofs
import FairCross.Engine.Proofs.SideProofs

/-!
# The allocation of a batch

The two sides' lists are merged back into batch order through two maps keyed by order id. Together
with the clearing rule this fixes the allocation: `canonicalFill` is what every order receives, and
both sides receive the clearing volume.
-/

namespace FairCross

/-- What it means for `fill` to share the clearing volume among the orders. -/
structure IsAllocation (orders : List Order) (outcome : ClearingOutcome) (fill : Order → ℕ) :
    Prop where
  le_lots : ∀ o ∈ orders, fill o ≤ o.lots
  sum_side : ∀ side, side = .buy ∨ side = .sell →
    ((sideOrders side orders).map fill).sum = outcome.executableVolume.raw
  not_crossing : ∀ cp, outcome.clearingPrice = some cp → ∀ o ∈ orders,
    o.side = .buy ∧ o.price < cp ∨ o.side = .sell ∧ cp < o.price → fill o = 0
  no_price : outcome.clearingPrice = none → ∀ o ∈ orders, fill o = 0

/-- What order `o` of the batch receives. -/
def canonicalFill [StdSort] (outcome : ClearingOutcome) (orders : List Order) (o : Order) : ℕ :=
  match outcome.clearingPrice with
  | none => 0
  | some cp => sideFill cp o.side outcome.executableVolume.raw orders o

/-- The allocation of the batch when it clears with `outcome`. -/
def canonicalAllocation [StdSort] (outcome : ClearingOutcome) (batch : Batch) : BatchAllocation where
  clearingPrice := outcome.clearingPrice
  targetVolume := outcome.executableVolume
  totalBuyAllocated := outcome.executableVolume
  totalSellAllocated := outcome.executableVolume
  allocations := batch.orders.map fun o => .of o ⟨toU64 (canonicalFill outcome batch.orders o)⟩

/-! ## Looking up by id -/

theorem find?_id {orders : List Order} (hnd : (orders.map (·.id)).Nodup) {o : Order}
    (ho : o ∈ orders) : orders.find? (·.id = o.id) = some o := by
  obtain ⟨o', ho'⟩ := Option.isSome_iff_exists.mp
    (List.find?_isSome.mpr ⟨o, ho, decide_eq_true rfl⟩ :
      (orders.find? (·.id = o.id)).isSome)
  have hid : o'.id = o.id := by simpa using List.find?_some ho'
  rw [ho', List.inj_on_of_nodup_map hnd (List.mem_of_find?_eq_some ho') ho hid]

/-- One allocation per order is found by the order's id. -/
theorem find?_orderId {orders : List Order} (hnd : (orders.map (·.id)).Nodup) (f : Order → Qty)
    {o : Order} (ho : o ∈ orders) :
    (orders.map fun o => OrderAllocation.of o (f o)).find? (·.orderId = o.id) =
      some (.of o (f o)) := by
  rw [List.find?_map]
  show (orders.find? (·.id = o.id)).map _ = _
  rw [find?_id hnd ho]
  rfl

/-! ## Merging the two sides -/

/-- The merge loop collects the allocation of every order, from the map that has it. -/
theorem foldl_mergeStep {rest : List Order} {f : Order → OrderAllocation} {s : MergeState}
    (hnd : (rest.map (·.id)).Nodup)
    (hf : ∀ o ∈ rest, s.buyMap.find o.id.raw = some (f o) ∨
      s.buyMap.find o.id.raw = none ∧ s.sellMap.find o.id.raw = some (f o)) :
    (rest.foldl mergeStep s).allocations = s.allocations ++ rest.map f := by
  induction rest generalizing s with
  | nil => simp
  | cons o rest ih =>
    obtain ⟨ho, hnd'⟩ := List.nodup_cons.mp hnd
    have hne : ∀ o' ∈ rest, o.id.raw ≠ o'.id.raw := fun o' ho' he =>
      ho (List.mem_map.mpr ⟨o', ho', OrderId.ext he.symm⟩)
    have hrest := fun o' ho' => hf o' (List.mem_cons_of_mem _ ho')
    rw [List.foldl_cons]
    rcases hf o (List.mem_cons_self ..) with h | ⟨hn, h⟩
    · have hstep : mergeStep s o = ⟨s.allocations ++ [f o], s.buyMap.erase o.id.raw, s.sellMap⟩ := by
        simp only [mergeStep, h]
      rw [hstep, ih hnd' fun o' ho' => ?_]
      · simp
      · simp only [SortedMap.find_erase, hne o' ho', if_false]
        exact hrest o' ho'
    · have hstep : mergeStep s o = ⟨s.allocations ++ [f o], s.buyMap, s.sellMap.erase o.id.raw⟩ := by
        simp only [mergeStep, hn, h]
      rw [hstep, ih hnd' fun o' ho' => ?_]
      · simp
      · simp only [SortedMap.find_erase, hne o' ho', if_false]
        exact hrest o' ho'

/-- Every entry of the map stands under its order id. -/
def AllocationMap.Keyed (m : AllocationMap) : Prop := ∀ k a, m.find k = some a → a.orderId.raw = k

theorem AllocationMap.Keyed.insert {m : AllocationMap} (h : m.Keyed) (a : OrderAllocation) :
    AllocationMap.Keyed (SortedMap.insert m a.orderId.raw a) := by
  intro k b hb
  rw [SortedMap.find_insert] at hb
  split_ifs at hb with hk
  · rw [← Option.some.inj hb, hk]
  · exact h k b hb

theorem AllocationMap.Keyed.erase {m : AllocationMap} (h : m.Keyed) (k : U64) :
    AllocationMap.Keyed (SortedMap.erase m k) := by
  intro k' b hb
  rw [SortedMap.find_erase] at hb
  split_ifs at hb
  exact h k' b hb

theorem allocationMap_keyed (allocs : List OrderAllocation) : (allocationMap allocs).Keyed := by
  have hfold : ∀ (l : List OrderAllocation) (m : AllocationMap), m.Keyed →
      AllocationMap.Keyed (l.foldl (fun m a => m.insert a.orderId.raw a) m) := by
    intro l
    induction l with
    | nil => exact fun m hm => hm
    | cons a l ih => exact fun m hm => ih _ (hm.insert a)
  refine hfold allocs .empty fun k a ha => ?_
  rw [SortedMap.find_empty] at ha
  cases ha

/-- What the merge loop collects stands in the order of the batch, with at most one entry for an
order. -/
theorem foldl_mergeStep_sublist {rest : List Order} {s : MergeState} (hbuy : s.buyMap.Keyed)
    (hsell : s.sellMap.Keyed) : ∃ l, (rest.foldl mergeStep s).allocations = s.allocations ++ l ∧
      (l.map (·.orderId)).Sublist (rest.map (·.id)) := by
  induction rest generalizing s with
  | nil => exact ⟨[], by simp, by simp⟩
  | cons o rest ih =>
    rw [List.foldl_cons]
    cases hb : s.buyMap.find o.id.raw with
    | some a =>
      have hstep : mergeStep s o = ⟨s.allocations ++ [a], s.buyMap.erase o.id.raw, s.sellMap⟩ := by
        simp only [mergeStep, hb]
      rw [hstep]
      obtain ⟨l, hl, hsub⟩ := ih (s := ⟨s.allocations ++ [a], s.buyMap.erase o.id.raw, s.sellMap⟩)
        (hbuy.erase _) hsell
      refine ⟨a :: l, by simpa using hl, ?_⟩
      rw [List.map_cons, List.map_cons, OrderId.ext (hbuy _ _ hb)]
      exact hsub.cons_cons _
    | none =>
      cases hs : s.sellMap.find o.id.raw with
      | some a =>
        have hstep : mergeStep s o = ⟨s.allocations ++ [a], s.buyMap, s.sellMap.erase o.id.raw⟩ := by
          simp only [mergeStep, hb, hs]
        rw [hstep]
        obtain ⟨l, hl, hsub⟩ := ih (s := ⟨s.allocations ++ [a], s.buyMap, s.sellMap.erase o.id.raw⟩)
          hbuy (hsell.erase _)
        refine ⟨a :: l, by simpa using hl, ?_⟩
        rw [List.map_cons, List.map_cons, OrderId.ext (hsell _ _ hs)]
        exact hsub.cons_cons _
      | none =>
        have hstep : mergeStep s o = s := by simp only [mergeStep, hb, hs]
        rw [hstep]
        obtain ⟨l, hl, hsub⟩ := ih hbuy hsell
        exact ⟨l, hl, hsub.cons _⟩

/-- The orders an allocation names are orders of the batch, in batch order. -/
theorem allocateBatch_sublist [StdSort] {batch : Batch} {cp : Option Price} {v : Qty}
    {a : BatchAllocation} (h : allocateBatch batch cp v = .ok a) :
    (a.allocations.map (·.orderId)).Sublist (batch.orders.map (·.id)) := by
  have hzero : ((zeroAllocation batch).allocations.map (·.orderId)).Sublist
      (batch.orders.map (·.id)) := by
    rw [zeroAllocation, List.map_map]
    exact List.Sublist.refl _
  unfold allocateBatch at h
  split at h
  · obtain rfl := Except.ok.inj h
    exact hzero
  · split_ifs at h
    · obtain rfl := Except.ok.inj h
      exact hzero
    · simp only [allocateAt, Result.bind_eq_ok, Result.pure_eq_ok] at h
      obtain ⟨buys, -, sells, -, rfl⟩ := h
      obtain ⟨l, hl, hsub⟩ := @foldl_mergeStep_sublist batch.orders
        ⟨[], allocationMap buys, allocationMap sells⟩ (allocationMap_keyed buys)
        (allocationMap_keyed sells)
      rw [hl]
      exact hsub

section Side

variable [StdSort] {orders : List Order} {cp : Price} {v : ℕ}

theorem find_sideAllocations (hnd : (orders.map (·.id)).Nodup) (side : Side) {o : Order}
    (ho : o ∈ orders) :
    (allocationMap (sideAllocations cp side v orders)).find o.id.raw =
      if o.side = side then some (.of o ⟨toU64 (sideFill cp side v orders o)⟩) else none := by
  have hids : ∀ o' ∈ orders, o'.id.raw = o.id.raw → o' = o := fun o' ho' he =>
    List.inj_on_of_nodup_map hnd ho' ho (OrderId.ext he)
  unfold allocationMap
  split_ifs with hs
  · have hnd' : ((sideAllocations cp side v orders).map fun a => a.orderId.raw).Nodup := by
      unfold sideAllocations
      rw [List.map_map]
      exact (ids_nodup_raw hnd).sublist (List.filter_sublist.map _)
    exact SortedMap.find_foldl_insert (fun a : OrderAllocation => a.orderId.raw) (fun a => a) _ hnd'
      (List.mem_map.mpr ⟨o, mem_sideOrders.mpr ⟨ho, hs⟩, rfl⟩)
  · rw [SortedMap.find_foldl_insert_of_notMem (fun a : OrderAllocation => a.orderId.raw) fun a => a]
    · rfl
    · rintro a ha he
      obtain ⟨o', ho', rfl⟩ := List.mem_map.mp ha
      obtain ⟨ho', hs'⟩ := mem_sideOrders.mp ho'
      exact hs (hids o' ho' he ▸ hs')

theorem allocatedSum_sideAllocations (hnd : (orders.map (·.id)).Nodup) {side : Side}
    (ht : marketableLots cp side orders < 2 ^ 64)
    (hsum : ((sideOrders side orders).map (sideFill cp side v orders)).sum = v) (hv : v < 2 ^ 64) :
    (allocatedSum (sideAllocations cp side v orders) : ℕ) = v := by
  have hmap : (sideAllocations cp side v orders).map (fun a => (a.allocatedQty.raw : ℕ)) =
      (sideOrders side orders).map (sideFill cp side v orders) := by
    unfold sideAllocations
    rw [List.map_map]
    refine List.map_congr_left fun o ho => ?_
    have hle := sideFill_le v hnd ht ho
    have : sideFill cp side v orders o < 2 ^ 64 := lt_of_le_of_lt hle o.qty.raw.isLt
    exact Nat.mod_eq_of_lt this
  have := foldl_add_val (fun a : OrderAllocation => a.allocatedQty.raw)
    (sideAllocations cp side v orders) 0 (by rw [hmap, hsum, Fin.val_zero]; omega)
  rw [hmap, hsum, Fin.val_zero, Nat.zero_add] at this
  exact this

end Side

/-! ## The batch -/

namespace Batch.Accepted

variable {batch : Batch} (hb : batch.Accepted)
include hb

theorem lots_pos : ∀ o ∈ batch.orders, 0 < o.lots := fun o ho => (hb.orders.order o ho).qty_pos

theorem side : ∀ o ∈ batch.orders, o.side = .buy ∨ o.side = .sell :=
  fun o ho => (hb.orders.order o ho).side

theorem orders_nodup : batch.orders.Nodup := hb.orders.ids_nodup.of_map

variable [StdSort] {outcome : ClearingOutcome}

/-- The side totals of a batch that clears fit 64 bits. -/
theorem totals_lt (h : determineClearingOutcome batch = .ok outcome) {side : Side}
    (hs : side = .buy ∨ side = .sell) : totalLots (sideOrders side batch.orders) < 2 ^ 64 := by
  obtain ⟨m, hm, -⟩ := determineClearingOutcome_eq_ok.mp h
  obtain ⟨h1, h2⟩ := (computeVolumeMaximizers_isOk hb.side).mp ⟨m, hm⟩
  rcases hs with rfl | rfl
  · exact h1
  · exact h2

theorem marketableLots_lt (h : determineClearingOutcome batch = .ok outcome) (cp : Price)
    {side : Side} (hs : side = .buy ∨ side = .sell) :
    marketableLots cp side batch.orders < 2 ^ 64 :=
  lt_of_le_of_lt (marketableLots_le _ _ _) (hb.totals_lt h hs)

/-- At the clearing price both sides can trade the clearing volume. -/
theorem le_marketableLots (h : determineClearingOutcome batch = .ok outcome) {cp : Price}
    (hcp : outcome.clearingPrice = some cp) {side : Side} (hs : side = .buy ∨ side = .sell) :
    (outcome.executableVolume.raw : ℕ) ≤ marketableLots cp side batch.orders := by
  have hexec := (hb.clears h).executes cp hcp
  rw [← hexec, executableAt]
  rcases hs with rfl | rfl
  · rw [marketableLots_buy]; exact min_le_left _ _
  · rw [marketableLots_sell]; exact min_le_right _ _

/-- The canonical fills share the clearing volume. -/
theorem isAllocation (h : determineClearingOutcome batch = .ok outcome) :
    IsAllocation batch.orders outcome (canonicalFill outcome batch.orders) := by
  have hclears := hb.clears h
  refine ⟨fun o ho => ?_, fun side hs => ?_, fun cp hcp o ho hno => ?_, fun hn o ho => ?_⟩
  · unfold canonicalFill
    split
    · exact Nat.zero_le _
    · exact sideFill_le _ hb.orders.ids_nodup (hb.marketableLots_lt h _ (hb.side o ho))
        (mem_sideOrders.mpr ⟨ho, rfl⟩)
  · cases hcp : outcome.clearingPrice with
    | none =>
      have h0 : ¬ 0 < (outcome.executableVolume.raw : ℕ) := by
        rw [← hclears.isSome_iff, hcp]; simp
      have : (sideOrders side batch.orders).map (canonicalFill outcome batch.orders) =
          (sideOrders side batch.orders).map fun _ => 0 :=
        List.map_congr_left fun o _ => by simp only [canonicalFill, hcp]
      rw [this]
      simp only [List.map_const', List.sum_replicate, smul_eq_mul, mul_zero]
      omega
    | some cp =>
      have : (sideOrders side batch.orders).map (canonicalFill outcome batch.orders) =
          (sideOrders side batch.orders).map
            (sideFill cp side outcome.executableVolume.raw batch.orders) :=
        List.map_congr_left fun o ho => by
          simp only [canonicalFill, hcp, (mem_sideOrders.mp ho).2]
      rw [this]
      exact sum_sideFill hb.orders_nodup (hb.le_marketableLots h hcp hs)
  · have hotm : classifyOrder o cp = .outOfTheMoney := by
      rcases hno with ⟨hs, hp⟩ | ⟨hs, hp⟩
      · exact (classifyOrder_buy hs cp).2.2.mpr hp
      · exact (classifyOrder_sell hs cp).2.2.mpr hp
    simp only [canonicalFill, hcp, sideFill, hotm]
  · simp only [canonicalFill, hn]

/-- **The allocation is the canonical one.** -/
theorem allocateBatch_eq (h : determineClearingOutcome batch = .ok outcome) :
    allocateBatch batch outcome.clearingPrice outcome.executableVolume =
      .ok (canonicalAllocation outcome batch) := by
  have hclears := hb.clears h
  unfold canonicalAllocation
  cases hcp : outcome.clearingPrice with
  | none =>
    have hv : outcome.executableVolume = .zero := by
      refine Qty.ext_val ?_
      have : ¬ 0 < (outcome.executableVolume.raw : ℕ) := by rw [← hclears.isSome_iff, hcp]; simp
      rw [Qty.zero_raw]
      omega
    simp only [allocateBatch, zeroAllocation, hv, canonicalFill, hcp]
    rfl
  | some cp =>
    have hpos : 0 < (outcome.executableVolume.raw : ℕ) := by rw [← hclears.isSome_iff, hcp]; simp
    have hz : outcome.executableVolume.isZero = false := by
      rw [Bool.eq_false_iff, ne_eq, Qty.isZero_iff]; omega
    have hz' : ¬ outcome.executableVolume.isZero = true := by rw [hz]; simp
    have hside : ∀ side, side = .buy ∨ side = .sell →
        allocateSide batch.orders cp outcome.executableVolume side =
          .ok (sideAllocations cp side outcome.executableVolume.raw batch.orders) := fun side hs =>
      allocateSide_eq hb.orders.ids_nodup (hb.marketableLots_lt h cp hs)
    have hsum : ∀ side, side = .buy ∨ side = .sell →
        (⟨allocatedSum (sideAllocations cp side outcome.executableVolume.raw batch.orders)⟩ : Qty) =
          outcome.executableVolume := fun side hs =>
      Qty.ext_val (allocatedSum_sideAllocations hb.orders.ids_nodup (hb.marketableLots_lt h cp hs)
        (sum_sideFill hb.orders_nodup (hb.le_marketableLots h hcp hs)) (Fin.isLt _))
    have hmerge := foldl_mergeStep
      (f := fun o => OrderAllocation.of o ⟨toU64 (canonicalFill outcome batch.orders o)⟩)
      (s := ⟨[], allocationMap (sideAllocations cp .buy outcome.executableVolume.raw batch.orders),
        allocationMap (sideAllocations cp .sell outcome.executableVolume.raw batch.orders)⟩)
      hb.orders.ids_nodup fun o ho => by
        rw [find_sideAllocations hb.orders.ids_nodup _ ho,
          find_sideAllocations hb.orders.ids_nodup _ ho]
        rcases hb.side o ho with hs | hs <;> simp [hs, canonicalFill, hcp]
    simp only [allocateBatch, hz', allocateAt, hside .buy (Or.inl rfl), hside .sell (Or.inr rfl)]
    simp only [Result.convert, hsum .buy (Or.inl rfl), hsum .sell (Or.inr rfl), hmerge,
      List.nil_append, bind, Except.bind, pure, Except.pure, Bool.false_eq_true, if_false]

end Batch.Accepted

/-- The quantity the allocations of one side receive. -/
def tradedLots (side : Side) (allocs : List OrderAllocation) : ℕ :=
  ((allocs.filter (·.side = side)).map fun x => (x.allocatedQty.raw : ℕ)).sum

@[simp] theorem tradedLots_nil (side : Side) : tradedLots side [] = 0 := rfl

theorem tradedLots_cons (side : Side) (a : OrderAllocation) (as : List OrderAllocation) :
    tradedLots side (a :: as) =
      (if a.side = side then (a.allocatedQty.raw : ℕ) else 0) + tradedLots side as := by
  by_cases h : a.side = side <;> simp [tradedLots, h]

/-- The quantity an allocation gives to one side. -/
def BatchAllocation.allocatedLots (a : BatchAllocation) (side : Side) : ℕ :=
  tradedLots side a.allocations

/-- The quantity an allocation gives to the orders of one account on one side. -/
def BatchAllocation.accountLots (a : BatchAllocation) (side : Side) (acct : AccountId) : ℕ :=
  tradedLots side (a.allocations.filter (·.account = acct))

/-- A quantity within a 64-bit bound, stored in 64 bits. -/
theorem toU64_fill {orders : List Order} {outcome : ClearingOutcome} {fill : Order → ℕ}
    (h : IsAllocation orders outcome fill) {o : Order} (ho : o ∈ orders) :
    (toU64 (fill o) : ℕ) = fill o :=
  Nat.mod_eq_of_lt (lt_of_le_of_lt (h.le_lots o ho) o.qty.raw.isLt)

theorem allocatedLots_map {a : BatchAllocation} {orders : List Order} {outcome : ClearingOutcome}
    {fill : Order → ℕ} (h : IsAllocation orders outcome fill)
    (ha : a.allocations = orders.map fun o => .of o ⟨toU64 (fill o)⟩) (side : Side) :
    a.allocatedLots side = ((sideOrders side orders).map fill).sum := by
  rw [BatchAllocation.allocatedLots, tradedLots, ha, List.filter_map, List.map_map]
  congr 1
  exact List.map_congr_left fun o ho => toU64_fill h (List.mem_filter.mp ho).1

/-- **Clearing and allocation agree exactly.** There is one allocation per order, in batch order and
with the order's own fields; no order gets more than its quantity, or anything when it does not cross
the clearing price; and each side gets the clearing volume. -/
theorem allocateBatch_exact [StdSort] {batchId : BatchId} {instrument : InstrumentId}
    {orders : List Order} {batch : Batch} {outcome : ClearingOutcome}
    (hb : Batch.create batchId instrument orders = .ok batch)
    (h : determineClearingOutcome batch = .ok outcome) :
    ∃ a, allocateBatch batch outcome.clearingPrice outcome.executableVolume = .ok a ∧
      List.Forall₂ (fun o x => x = OrderAllocation.of o x.allocatedQty) batch.orders a.allocations ∧
      (∀ x ∈ a.allocations, (x.allocatedQty.raw : ℕ) ≤ x.originalQty.raw) ∧
      (∀ cp, outcome.clearingPrice = some cp → ∀ x ∈ a.allocations,
        x.side = .buy ∧ x.limitPrice < cp ∨ x.side = .sell ∧ cp < x.limitPrice →
          x.allocatedQty = .zero) ∧
      a.allocatedLots .buy = outcome.executableVolume.raw ∧
      a.allocatedLots .sell = outcome.executableVolume.raw ∧
      a.totalBuyAllocated = outcome.executableVolume ∧
      a.totalSellAllocated = outcome.executableVolume ∧
      (outcome.clearingPrice = none → ∀ x ∈ a.allocations, x.allocatedQty = .zero) := by
  have hacc := Batch.accepted_of_create hb
  have hfill := hacc.isAllocation h
  have hzero : ∀ o, canonicalFill outcome batch.orders o = 0 →
      (⟨toU64 (canonicalFill outcome batch.orders o)⟩ : Qty) = .zero := by
    intro o ho
    rw [ho]; rfl
  refine ⟨_, hacc.allocateBatch_eq h, ?_, ?_, ?_, ?_, ?_, rfl, rfl, ?_⟩
  · rw [canonicalAllocation, List.forall₂_map_right_iff]
    exact List.forall₂_same.mpr fun o _ => rfl
  · rintro x hx
    obtain ⟨o, ho, rfl⟩ := List.mem_map.mp hx
    exact (toU64_fill hfill ho).le.trans (hfill.le_lots o ho)
  · rintro cp hcp x hx hno
    obtain ⟨o, ho, rfl⟩ := List.mem_map.mp hx
    exact hzero o (hfill.not_crossing cp hcp o ho hno)
  · rw [allocatedLots_map hfill rfl, hfill.sum_side _ (Or.inl rfl)]
  · rw [allocatedLots_map hfill rfl, hfill.sum_side _ (Or.inr rfl)]
  · rintro hn x hx
    obtain ⟨o, ho, rfl⟩ := List.mem_map.mp hx
    exact hzero o (hfill.no_price hn o ho)

theorem allocateBatch_exact_example : ∃ a, @allocateBatch .stable exampleBatch (some ⟨105⟩) ⟨10⟩ =
    .ok a ∧ a.allocatedLots .buy = 10 ∧ a.allocatedLots .sell = 10 := by
  obtain ⟨a, ha, -, -, -, hbuy, hsell, -⟩ := @allocateBatch_exact .stable ⟨1⟩ ⟨7⟩
    exampleBatch.orders exampleBatch exampleOutcome (by decide +kernel) (by decide +kernel)
  exact ⟨a, ha, hbuy, hsell⟩

end FairCross
