import FairCross.Engine.Proofs.DeterminismProofs
import FairCross.Engine.Proofs.ExecutionProofs
import FairCross.Library.Matching

/-!
# What an auction leaves on the table

Nothing. The canonical fills are a matching of the largest volume with price priority
(`Batch.Accepted.isPrioritised`), so what the orders have left does not cross, and no other way to
match the batch is worth more to its participants. Neither depends on where the midpoint rule puts the
price.
-/

namespace FairCross

/-- The limit of an order as an integer. -/
def Order.limit (o : Order) : ℤ := o.price.raw

/-- The orders of the batch with the quantity they have left, without those that have nothing left. -/
def leftoverOrders (batch : Batch) (a : BatchAllocation) : List Order :=
  (List.zipWith (fun o x => { o with qty := o.qty.saturatingSub x.allocatedQty }) batch.orders
    a.allocations).filter fun o => !o.qty.isZero

/-- What the buyers would pay for their lots beyond what the sellers want for theirs. -/
def gains (allocs : List OrderAllocation) : ℤ :=
  (allocs.map fun x => if x.side = .buy then (x.limitPrice.raw : ℤ) * (x.allocatedQty.raw : ℕ)
    else -((x.limitPrice.raw : ℤ) * (x.allocatedQty.raw : ℕ))).sum

theorem limit_le_iff {a b : Order} : a.limit ≤ b.limit ↔ a.price ≤ b.price := by
  unfold Order.limit
  rw [Nat.cast_le]
  rfl

theorem limit_lt_iff {a b : Order} : a.limit < b.limit ↔ a.price < b.price := by
  unfold Order.limit
  rw [Nat.cast_lt]
  rfl

/-- The market of the limits at one of them is the market of the prices. -/
theorem executable_limit (orders : List Order) (o : Order) :
    (CallMarket.ofInterests Order.limit Order.lots (sideOrders .buy orders)
      (sideOrders .sell orders)).executable o.limit = executableAt orders o.price := by
  rw [← market_executable]
  unfold CallMarket.executable
  congr 1
  · refine congrArg (fun l : List Order => (l.map Order.lots).sum) (List.filter_congr fun a _ => ?_)
    exact decide_eq_decide.mpr limit_le_iff
  · refine congrArg (fun l : List Order => (l.map Order.lots).sum) (List.filter_congr fun a _ => ?_)
    exact decide_eq_decide.mpr limit_le_iff

namespace Batch.Accepted

variable [StdSort] {batch : Batch} (hb : batch.Accepted) {outcome : ClearingOutcome}
  (h : determineClearingOutcome batch = .ok outcome)

include hb h

/-- Price priority of the canonical fills. -/
theorem canonicalFill_worse {a b : Order} (ha : a ∈ batch.orders) (hb' : b ∈ batch.orders)
    (hs : b.side = a.side) (hworse : WorseLimit a.side a.price b.price)
    (hlt : canonicalFill outcome batch.orders a < a.lots) :
    canonicalFill outcome batch.orders b = 0 := by
  cases hcp : outcome.clearingPrice with
  | none => exact (hb.isAllocation h).no_price hcp b hb'
  | some cp =>
    simp only [canonicalFill, hcp, hs] at hlt ⊢
    exact sideFill_worse (mem_sideOrders.mpr ⟨ha, rfl⟩) (mem_sideOrders.mpr ⟨hb', hs⟩) hworse hlt

/-- The canonical fills are a matching of the largest volume with price priority. -/
theorem isPrioritised : CallMarket.IsPrioritised Order.limit Order.lots (sideOrders .buy batch.orders)
    (sideOrders .sell batch.orders) (canonicalFill outcome batch.orders)
    outcome.executableVolume.raw := by
  have ha := hb.isAllocation h
  refine ⟨⟨fun o ho => ha.le_lots o (mem_sideOrders.mp ho).1,
    fun o ho => ha.le_lots o (mem_sideOrders.mp ho).1, ha.sum_side _ (.inl rfl),
    ha.sum_side _ (.inr rfl)⟩, ?_, ?_, ?_⟩
  · refine CallMarket.executable_le_of_bids fun o ho => ?_
    rw [executable_limit]
    exact (hb.clears h).optimal.2 ⟨o.price, (hb.orders.order o (mem_sideOrders.mp ho).1).price_pos, rfl⟩
  · intro a ha b hb' hlt hleft
    obtain ⟨ha, hsa⟩ := mem_sideOrders.mp ha
    obtain ⟨hb', hsb⟩ := mem_sideOrders.mp hb'
    refine hb.canonicalFill_worse h ha hb' (hsb.trans hsa.symm) ?_ hleft
    rw [WorseLimit, if_pos hsa]
    exact limit_lt_iff.mp hlt
  · intro a ha b hb' hlt hleft
    obtain ⟨ha, hsa⟩ := mem_sideOrders.mp ha
    obtain ⟨hb', hsb⟩ := mem_sideOrders.mp hb'
    refine hb.canonicalFill_worse h ha hb' (hsb.trans hsa.symm) ?_ hleft
    rw [WorseLimit, if_neg (by rw [hsa]; decide)]
    exact limit_lt_iff.mp hlt

/-- Filled orders trade at the clearing price, so a filled sell is not above a filled buy. -/
theorem filled_trades : ∀ b ∈ sideOrders .buy batch.orders, ∀ a ∈ sideOrders .sell batch.orders,
    0 < canonicalFill outcome batch.orders b → 0 < canonicalFill outcome batch.orders a →
      a.limit ≤ b.limit := by
  intro b hb' a ha hfb hfa
  obtain ⟨hb', hsb⟩ := mem_sideOrders.mp hb'
  obtain ⟨ha, hsa⟩ := mem_sideOrders.mp ha
  have halloc := hb.isAllocation h
  cases hcp : outcome.clearingPrice with
  | none => exact absurd (halloc.no_price hcp b hb') hfb.ne'
  | some cp =>
    have hle : cp ≤ b.price := by
      by_contra hlt
      exact absurd (halloc.not_crossing cp hcp b hb' (.inl ⟨hsb, not_le.mp hlt⟩)) hfb.ne'
    have hge : a.price ≤ cp := by
      by_contra hlt
      exact absurd (halloc.not_crossing cp hcp a ha (.inr ⟨hsa, not_le.mp hlt⟩)) hfa.ne'
    exact limit_le_iff.mpr (hge.trans hle)

/-! ## Leftovers -/

/-- What an order has left after its canonical fill. -/
theorem leftover_val {o : Order} (ho : o ∈ batch.orders) :
    ((o.qty.saturatingSub ⟨toU64 (canonicalFill outcome batch.orders o)⟩).raw : ℕ) =
      o.lots - canonicalFill outcome batch.orders o := by
  have hval := toU64_fill (hb.isAllocation h) ho
  have hle := (hb.isAllocation h).le_lots o ho
  rw [Qty.saturatingSub_val (by rw [hval]; exact hle), hval]
  rfl

theorem mem_leftoverOrders {o' : Order} :
    o' ∈ leftoverOrders batch (canonicalAllocation outcome batch) ↔ ∃ o ∈ batch.orders,
      canonicalFill outcome batch.orders o < o.lots ∧
        o' = { o with qty := o.qty.saturatingSub ⟨toU64 (canonicalFill outcome batch.orders o)⟩ } := by
  have hpos : ∀ o ∈ batch.orders, (¬ (o.qty.saturatingSub
      ⟨toU64 (canonicalFill outcome batch.orders o)⟩).isZero = true ↔
        canonicalFill outcome batch.orders o < o.lots) := by
    intro o ho
    rw [Qty.isZero_iff, hb.leftover_val h ho]
    omega
  unfold leftoverOrders canonicalAllocation
  rw [List.zipWith_map_right, List.zipWith_self]
  simp only [List.mem_filter, List.mem_map, Bool.not_eq_true', ← Bool.not_eq_true]
  constructor
  · rintro ⟨⟨o, ho, rfl⟩, hz⟩
    exact ⟨o, ho, (hpos o ho).mp hz, rfl⟩
  · rintro ⟨o, ho, hlt, rfl⟩
    exact ⟨⟨o, ho, rfl⟩, (hpos o ho).mpr hlt⟩

/-- The leftovers can be submitted again. -/
theorem leftoverOrders_acceptable :
    Batch.Acceptable batch.instrument (leftoverOrders batch (canonicalAllocation outcome batch)) := by
  constructor
  · intro o' ho'
    obtain ⟨o, ho, hlt, rfl⟩ := (hb.mem_leftoverOrders h).mp ho'
    obtain ⟨hinst, hside, hprice, -⟩ := hb.orders.order o ho
    refine ⟨hinst, hside, hprice, ?_⟩
    rw [hb.leftover_val h ho]
    exact Nat.sub_pos_of_lt hlt
  · unfold leftoverOrders canonicalAllocation
    rw [List.zipWith_map_right, List.zipWith_self]
    refine (List.Nodup.sublist (List.filter_sublist.map _) ?_)
    rw [List.map_map]
    exact hb.orders.ids_nodup

/-- At no price do the leftovers trade. -/
theorem leftoverOrders_executable (p : Price) :
    executableAt (leftoverOrders batch (canonicalAllocation outcome batch)) p = 0 := by
  by_contra hne
  obtain ⟨hd, hs⟩ := lt_min_iff.mp (Nat.pos_of_ne_zero hne)
  obtain ⟨b', hb', -⟩ := CallMarket.exists_of_sum_pos hd
  obtain ⟨a', ha', -⟩ := CallMarket.exists_of_sum_pos hs
  obtain ⟨hb', hpb⟩ := List.mem_filter.mp hb'
  obtain ⟨ha', hpa⟩ := List.mem_filter.mp ha'
  obtain ⟨hsb, hpb⟩ := of_decide_eq_true hpb
  obtain ⟨hsa, hpa⟩ := of_decide_eq_true hpa
  obtain ⟨b, hbm, hlb, rfl⟩ := (hb.mem_leftoverOrders h).mp hb'
  obtain ⟨a, ham, hla, rfl⟩ := (hb.mem_leftoverOrders h).mp ha'
  have hlt := (hb.isPrioritised h).uncrossed (mem_sideOrders.mpr ⟨hbm, hsb⟩)
    (mem_sideOrders.mpr ⟨ham, hsa⟩) hlb hla
  exact absurd (limit_lt_iff.mp hlt) (not_lt.mpr (hpa.trans hpb))

end Batch.Accepted

/-- A batch that trades nowhere clears to nothing. -/
theorem Batch.Accepted.determineClearingOutcome_quiet [StdSort] {batch : Batch} (hb : batch.Accepted)
    (hbuy : totalLots (sideOrders .buy batch.orders) < 2 ^ 64)
    (hsell : totalLots (sideOrders .sell batch.orders) < 2 ^ 64)
    (hquiet : ∀ p, executableAt batch.orders p = 0) :
    determineClearingOutcome batch = .ok ⟨none, .zero⟩ := by
  obtain ⟨m, hm⟩ := (computeVolumeMaximizers_isOk hb.side).mpr ⟨hbuy, hsell⟩
  have ho := determineClearingOutcome_eq_ok.mpr ⟨m, hm, rfl⟩
  have hclears := hb.clears ho
  obtain ⟨p, -, hp⟩ := hclears.optimal.1
  rw [hquiet p] at hp
  have hvolume : m.maxVolume = .zero := Qty.ext_val hp.symm
  have hprice : resolveClearingPriceTie m = none := by
    by_contra hsome
    have hpos := hclears.isSome_iff.mp (Option.isSome_iff_ne_none.mpr hsome)
    exact absurd hpos (by rw [← hp]; exact lt_irrefl 0)
  rw [ho, hprice, hvolume]

/-- The leftovers of a side are at most the side. -/
theorem totalLots_leftoverOrders_le (batch : Batch) (a : BatchAllocation) (side : Side) :
    totalLots (sideOrders side (leftoverOrders batch a)) ≤ totalLots (sideOrders side batch.orders) := by
  have hdrop : (sideOrders side (leftoverOrders batch a)).Sublist (sideOrders side (List.zipWith
      (fun o x => { o with qty := o.qty.saturatingSub x.allocatedQty }) batch.orders a.allocations)) :=
    List.filter_sublist.filter _
  refine ((hdrop.map Order.lots).sum_le_sum fun _ _ => Nat.zero_le _).trans ?_
  generalize batch.orders = orders
  generalize a.allocations = allocs
  induction orders generalizing allocs with
  | nil => simp [sideOrders]
  | cons o orders ih =>
    cases allocs with
    | nil => simp [sideOrders]
    | cons x allocs =>
      have hle : ((o.qty.saturatingSub x.allocatedQty).raw : ℕ) ≤ o.qty.raw := by
        unfold Qty.saturatingSub
        split_ifs with hlt
        · exact Nat.zero_le _
        · rw [Fin.sub_val_of_le (not_lt.mp hlt)]
          exact Nat.sub_le _ _
      have := ih allocs
      unfold sideOrders totalLots at this ⊢
      by_cases hs : o.side = side
      · simp only [List.zipWith_cons_cons, List.filter_cons, hs, decide_true, if_true, List.map_cons,
          List.sum_cons]
        exact Nat.add_le_add hle this
      · simpa only [List.zipWith_cons_cons, List.filter_cons, hs, decide_false, Bool.false_eq_true,
          if_false] using this

/-- **The leftovers of an auction clear to nothing.** Submitted again as a batch they are accepted, and
executing them on the settled ledger succeeds and changes nothing. -/
theorem leftovers_quiet [StdSort] {batchId : BatchId} {instrument : InstrumentId}
    {orders : List Order} {batch : Batch} {pre : Ledger} {r : BatchExecutionResult}
    (hb : Batch.create batchId instrument orders = .ok batch) (h : executeBatch pre batch = .ok r) :
    ∃ again, Batch.create batchId instrument (leftoverOrders batch r.allocation) = .ok again ∧
      executeBatch r.postState again =
        .ok ⟨⟨none, .zero⟩, zeroAllocation again, [], r.postState⟩ := by
  have hacc := Batch.accepted_of_create hb
  obtain ⟨outcome, post, ho, hrun, hcash, -, rfl⟩ := hacc.executeBatch_eq_ok.mp h
  have hinst : batch.instrument = instrument := by
    obtain ⟨-, rfl⟩ := Batch.create_eq_ok.mp hb
    rfl
  have hagain : Batch.create batchId instrument
      (leftoverOrders batch (canonicalAllocation outcome batch)) = .ok _ :=
    Batch.create_eq_ok.mpr ⟨hinst ▸ hacc.leftoverOrders_acceptable ho, rfl⟩
  refine ⟨_, hagain, ?_⟩
  have hacc' := Batch.accepted_of_create hagain
  have hperm := StdSort.sort_perm Batch.canonicalLess
    (leftoverOrders batch (canonicalAllocation outcome batch))
  have htotal : ∀ side, side = .buy ∨ side = .sell → totalLots (sideOrders side (Batch.new batchId instrument
      (leftoverOrders batch (canonicalAllocation outcome batch))).orders) < 2 ^ 64 := by
    intro side hs
    refine lt_of_eq_of_lt (totalLots_filter_perm hperm _) ?_
    exact (totalLots_leftoverOrders_le _ _ _).trans_lt (hacc.totals_lt ho hs)
  have hquiet := hacc'.determineClearingOutcome_quiet (htotal _ (.inl rfl)) (htotal _ (.inr rfl))
    fun p => (executableAt_perm hperm p).trans (hacc.leftoverOrders_executable ho p)
  refine hacc'.executeBatch_eq_ok.mpr ⟨_, post, hquiet, rfl, ?_, fun hne => absurd rfl hne, rfl⟩
  rw [(hacc.sums_eq ho hrun).1]
  exact hcash

/-! ## Gains -/

/-- The gains of an allocation of valid orders, side by side. -/
theorem gains_map {orders : List Order} (hside : ∀ o ∈ orders, o.side = .buy ∨ o.side = .sell)
    (q : Order → Qty) : gains (orders.map fun o => .of o (q o)) =
      CallMarket.surplus Order.limit (sideOrders .buy orders) (sideOrders .sell orders)
        fun o => (q o).raw := by
  unfold gains CallMarket.surplus sideOrders
  rw [List.map_map]
  induction orders with
  | nil => rfl
  | cons o orders ih =>
    obtain ⟨ho, horders⟩ := List.forall_mem_cons.mp hside
    rw [List.map_cons, List.sum_cons, ih horders]
    rcases ho with hs | hs
    · simp only [Function.comp_apply, OrderAllocation.of, Order.limit, List.filter_cons, hs,
        reduceCtorEq, decide_true, decide_false, if_true, Bool.false_eq_true, if_false,
        List.map_cons, List.sum_cons]
      ring
    · simp only [Function.comp_apply, OrderAllocation.of, Order.limit, List.filter_cons, hs,
        reduceCtorEq, decide_true, decide_false, if_true, Bool.false_eq_true, if_false,
        List.map_cons, List.sum_cons]
      ring

theorem tradedLots_map (orders : List Order) (q : Order → Qty) (side : Side) :
    tradedLots side (orders.map fun o => .of o (q o)) =
      ((sideOrders side orders).map fun o => ((q o).raw : ℕ)).sum := by
  unfold tradedLots sideOrders
  rw [List.filter_map, List.map_map]
  rfl

/-- **The auction is efficient.** Whatever else the orders could trade among themselves, the buys as
much as the sells, the gains are not larger. -/
theorem executeBatch_efficient [StdSort] {batchId : BatchId} {instrument : InstrumentId}
    {orders : List Order} {batch : Batch} {pre : Ledger} {r : BatchExecutionResult}
    (hb : Batch.create batchId instrument orders = .ok batch) (h : executeBatch pre batch = .ok r)
    {q : Order → Qty} (hle : ∀ o ∈ batch.orders, ((q o).raw : ℕ) ≤ o.qty.raw)
    (hsum : tradedLots .buy (batch.orders.map fun o => .of o (q o)) =
      tradedLots .sell (batch.orders.map fun o => .of o (q o))) :
    gains (batch.orders.map fun o => .of o (q o)) ≤ gains r.allocation.allocations := by
  have hacc := Batch.accepted_of_create hb
  obtain ⟨outcome, post, ho, -, -, -, rfl⟩ := hacc.executeBatch_eq_ok.mp h
  have hfill : ∀ side, (sideOrders side batch.orders).map (fun o => o.limit *
      ((⟨toU64 (canonicalFill outcome batch.orders o)⟩ : Qty).raw : ℕ)) =
      (sideOrders side batch.orders).map fun o => o.limit * canonicalFill outcome batch.orders o := by
    intro side
    refine List.map_congr_left fun o ho' => ?_
    rw [toU64_fill (hacc.isAllocation ho) (mem_sideOrders.mp ho').1]
  have hgains : gains (canonicalAllocation outcome batch).allocations =
      CallMarket.surplus Order.limit (sideOrders .buy batch.orders) (sideOrders .sell batch.orders)
        (canonicalFill outcome batch.orders) := by
    unfold canonicalAllocation
    rw [gains_map hacc.side]
    unfold CallMarket.surplus
    rw [hfill, hfill]
  rw [hgains, gains_map hacc.side]
  rw [tradedLots_map, tradedLots_map] at hsum
  exact (hacc.isPrioritised ho).surplus_le (hacc.filled_trades ho)
    ⟨fun o ho' => hle o (mem_sideOrders.mp ho').1, fun o ho' => hle o (mem_sideOrders.mp ho').1,
      hsum, rfl⟩

/-- The two sells have 2 lots left, at 105. -/
theorem leftovers_quiet_example : ∃ again,
    @Batch.create .stable ⟨1⟩ ⟨7⟩ (leftoverOrders exampleBatch exampleResult.allocation) = .ok again ∧
      @executeBatch .stable exampleSettled again =
        .ok ⟨⟨none, .zero⟩, zeroAllocation again, [], exampleSettled⟩ :=
  @leftovers_quiet .stable ⟨1⟩ ⟨7⟩ exampleBatch.orders exampleBatch exampleLedger exampleResult
    (by decide +kernel) (by decide +kernel)

/-- Without the sell at 100 the batch would gain nothing; with it, it gains 20. -/
theorem executeBatch_efficient_example :
    gains (exampleBatch.orders.map fun o => .of o ⟨if o.price = ⟨105⟩ then 8 else 0⟩) ≤
      gains exampleResult.allocation.allocations :=
  @executeBatch_efficient .stable ⟨1⟩ ⟨7⟩ exampleBatch.orders exampleBatch exampleLedger exampleResult
    (by decide +kernel) (by decide +kernel) (fun o => ⟨if o.price = ⟨105⟩ then 8 else 0⟩)
    (by decide +kernel) (by decide +kernel)

/-! ## The aggregated book -/

/-- The quantity of one side at one price. -/
def depthAt (orders : List Order) (side : Side) (p : Price) : ℕ :=
  CallMarket.bucket Order.price Order.lots (sideOrders side orders) p

/-- The same quantity at every price of either side. -/
def SameDepth (l l' : List Order) : Prop :=
  ∀ side, side = .buy ∨ side = .sell → ∀ p, depthAt l side p = depthAt l' side p

namespace SameDepth

variable {l l' : List Order}

theorem symm (h : SameDepth l l') : SameDepth l' l := fun side hs p => (h side hs p).symm

theorem total (h : SameDepth l l') {side : Side} (hs : side = .buy ∨ side = .sell) :
    totalLots (sideOrders side l) = totalLots (sideOrders side l') := by
  have := CallMarket.sum_filter_price_congr Order.price Order.lots (h side hs) fun _ => True
  simpa [totalLots] using this

theorem executable (h : SameDepth l l') (p : Price) : executableAt l p = executableAt l' p := by
  rw [← market_executable, ← market_executable]
  exact congrArg₂ min
    (CallMarket.sum_filter_price_congr Order.price Order.lots (h _ (.inl rfl)) fun q => p ≤ q)
    (CallMarket.sum_filter_price_congr Order.price Order.lots (h _ (.inr rfl)) fun q => q ≤ p)

/-- A price at which orders of `l` stand is one at which orders of `l'` do. -/
theorem price (h : SameDepth l l') (hpos : ∀ o ∈ l, 0 < o.lots)
    (hside : ∀ o ∈ l, o.side = .buy ∨ o.side = .sell) {p : Price} (hp : ∃ o ∈ l, o.price = p) :
    ∃ o ∈ l', o.price = p := by
  obtain ⟨o, ho, rfl⟩ := hp
  have hmem : o ∈ (sideOrders o.side l).filter fun i => i.price = o.price :=
    List.mem_filter.mpr ⟨mem_sideOrders.mpr ⟨ho, rfl⟩, decide_eq_true rfl⟩
  have hle : o.lots ≤ depthAt l o.side o.price :=
    List.single_le_sum (fun _ _ => Nat.zero_le _) _ (List.mem_map.mpr ⟨o, hmem, rfl⟩)
  rw [h _ (hside o ho)] at hle
  obtain ⟨o', ho', -⟩ := CallMarket.exists_of_sum_pos ((hpos o ho).trans_le hle)
  obtain ⟨ho', hprice⟩ := List.mem_filter.mp ho'
  exact ⟨o', (mem_sideOrders.mp ho').1, of_decide_eq_true hprice⟩

end SameDepth

/-- One direction of the theorem below. -/
theorem Batch.Accepted.outcome_of_sameDepth [StdSort] {batch batch' : Batch} (hb : batch.Accepted)
    (hb' : batch'.Accepted) (hd : SameDepth batch.orders batch'.orders) {outcome : ClearingOutcome}
    (h : determineClearingOutcome batch = .ok outcome) :
    determineClearingOutcome batch' = .ok outcome := by
  obtain ⟨m, hm⟩ := (computeVolumeMaximizers_isOk hb'.side).mpr
    ⟨hd.total (.inl rfl) ▸ hb.totals_lt h (.inl rfl), hd.total (.inr rfl) ▸ hb.totals_lt h (.inr rfl)⟩
  have ho' := determineClearingOutcome_eq_ok.mpr ⟨m, hm, rfl⟩
  generalize (⟨resolveClearingPriceTie m, m.maxVolume⟩ : ClearingOutcome) = outcome' at ho'
  have hexec : executableAt batch.orders = executableAt batch'.orders := funext hd.executable
  have hprice : ∀ p, (∃ o ∈ batch.orders, o.price = p) ↔ ∃ o ∈ batch'.orders, o.price = p :=
    fun p => ⟨hd.price hb.lots_pos hb.side, hd.symm.price hb'.lots_pos hb'.side⟩
  have hclears := hb.clears h
  have hclears' := hb'.clears ho'
  have hvolume : (outcome.executableVolume.raw : ℕ) = outcome'.executableVolume.raw := by
    have hopt := hclears.optimal
    unfold executableVolumes at hopt
    rw [hexec] at hopt
    exact hopt.unique hclears'.optimal
  have hcp : outcome.clearingPrice = outcome'.clearingPrice := by
    cases hsome : outcome.clearingPrice with
    | none =>
      have hzero : ¬ 0 < (outcome'.executableVolume.raw : ℕ) := by
        rw [← hvolume, ← hclears.isSome_iff, hsome]
        exact Bool.false_ne_true
      rw [← hclears'.isSome_iff, Option.not_isSome_iff_eq_none] at hzero
      exact hzero.symm
    | some cp =>
      obtain ⟨hopt, hpos, lo, hi, hlo, hhi, hmid⟩ := (hb.clearsAt_iff h).mpr ⟨hsome, rfl⟩
      simp only [hprice, hexec] at hlo hhi
      have hclear : ClearsAt batch'.orders cp outcome.executableVolume.raw :=
        ⟨hvolume ▸ hclears'.optimal, hpos, lo, hi, hlo, hhi, hmid⟩
      exact ((hb'.clearsAt_iff ho').mp hclear).1.symm
  obtain ⟨cp, v⟩ := outcome
  obtain ⟨cp', v'⟩ := outcome'
  obtain rfl : cp = cp' := hcp
  obtain rfl : v = v' := Qty.ext_val hvolume
  exact ho'

/-- **Clearing reads the aggregated book only.** Orders may be split, merged, renumbered or handed to
other accounts: with the same quantity at every price of either side the outcome is the same. -/
theorem determineClearingOutcome_sameDepth [StdSort] {batchId batchId' : BatchId}
    {instrument instrument' : InstrumentId} {orders orders' : List Order} {batch batch' : Batch}
    (hb : Batch.create batchId instrument orders = .ok batch)
    (hb' : Batch.create batchId' instrument' orders' = .ok batch')
    (hd : SameDepth orders orders') (outcome : ClearingOutcome) :
    determineClearingOutcome batch = .ok outcome ↔ determineClearingOutcome batch' = .ok outcome := by
  have hperm : batch.orders.Perm orders := (Batch.create_eq_ok.mp hb).2 ▸ StdSort.sort_perm _ _
  have hperm' : batch'.orders.Perm orders' := (Batch.create_eq_ok.mp hb').2 ▸ StdSort.sort_perm _ _
  have hd' : SameDepth batch.orders batch'.orders := by
    intro side hs p
    have hdepth := hd side hs p
    unfold depthAt CallMarket.bucket sideOrders at hdepth ⊢
    rw [(((hperm.filter _).filter _).map _).sum_eq, (((hperm'.filter _).filter _).map _).sum_eq]
    exact hdepth
  have hacc := Batch.accepted_of_create hb
  have hacc' := Batch.accepted_of_create hb'
  exact ⟨hacc.outcome_of_sameDepth hacc' hd', hacc'.outcome_of_sameDepth hacc hd'.symm⟩

/-- The example batch with its buy split in two, of another account and instrument. -/
def splitOrders : List Order :=
  [{ exampleOrder 4 9 .buy 105 7 9 with instrument := ⟨8⟩ },
    { exampleOrder 5 9 .buy 105 3 9 with instrument := ⟨8⟩ },
    { exampleOrder 2 2 .sell 100 4 1 with instrument := ⟨8⟩ },
    { exampleOrder 3 3 .sell 105 8 2 with instrument := ⟨8⟩ }]

theorem splitOrders_sameDepth : SameDepth exampleBatch.orders splitOrders := by
  rintro side (rfl | rfl) p
  · show CallMarket.bucket _ _ [exampleOrder 1 1 .buy 105 10 0] p =
      CallMarket.bucket _ _ [{ exampleOrder 4 9 .buy 105 7 9 with instrument := ⟨8⟩ },
        { exampleOrder 5 9 .buy 105 3 9 with instrument := ⟨8⟩ }] p
    by_cases h : (⟨105⟩ : Price) = p <;>
      simp [CallMarket.bucket, exampleOrder, Order.lots, h]
  · show CallMarket.bucket _ _ [exampleOrder 2 2 .sell 100 4 1, exampleOrder 3 3 .sell 105 8 2] p =
      CallMarket.bucket _ _ [{ exampleOrder 2 2 .sell 100 4 1 with instrument := ⟨8⟩ },
        { exampleOrder 3 3 .sell 105 8 2 with instrument := ⟨8⟩ }] p
    unfold CallMarket.bucket
    by_cases h : (⟨105⟩ : Price) = p <;> by_cases h' : (⟨100⟩ : Price) = p <;>
      simp [exampleOrder, Order.lots, h, h']

theorem determineClearingOutcome_sameDepth_example :
    @determineClearingOutcome .stable (@Batch.new .stable ⟨2⟩ ⟨8⟩ splitOrders) = .ok exampleOutcome :=
  (@determineClearingOutcome_sameDepth .stable ⟨1⟩ ⟨2⟩ ⟨7⟩ ⟨8⟩ exampleBatch.orders splitOrders
    exampleBatch _ (by decide +kernel) (by decide +kernel) splitOrders_sameDepth exampleOutcome).mp
    (by decide +kernel)

end FairCross
