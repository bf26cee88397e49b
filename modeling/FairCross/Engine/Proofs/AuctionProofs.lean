import FairCross.Engine.Proofs.SweepProofs

/-!
# The clearing price

From the sweep to the optimum over the whole price domain: the order prices are enough to find the
largest volume, and the midpoint of the maximizing prices attains it as well.
-/

namespace FairCross

variable {orders : List Order}

/-- The volumes the positive prices execute. -/
def executableVolumes (orders : List Order) : Set ℕ :=
  {v | ∃ p : Price, 0 < (p.raw : ℕ) ∧ executableAt orders p = v}

/-- What the auction promises about its outcome. -/
structure ClearingOutcome.Clears (orders : List Order) (o : ClearingOutcome) : Prop where
  optimal : IsGreatest (executableVolumes orders) o.executableVolume.raw
  isSome_iff : o.clearingPrice.isSome ↔ 0 < (o.executableVolume.raw : ℕ)
  price_pos : ∀ p, o.clearingPrice = some p → 0 < (p.raw : ℕ)
  executes : ∀ p, o.clearingPrice = some p → executableAt orders p = o.executableVolume.raw

/-- The midpoint never wraps: it is the exact floor of the mean. -/
theorem midpoint_val {a b : U64} (h : a ≤ b) : (midpoint a b : ℕ) = (a + b : ℕ) / 2 := by
  have ha := a.isLt
  have hb := b.isLt
  have hab : (a : ℕ) ≤ b := h
  have hdiv : (((b - a) / 2 : U64) : ℕ) = (b - a : ℕ) / 2 := by
    rw [Fin.div_val, Fin.sub_val_of_le h]; rfl
  rw [midpoint, Fin.val_add, hdiv, Nat.mod_eq_of_lt (by omega)]
  omega

theorem midpoint_mem {a b : U64} (h : a ≤ b) : a ≤ midpoint a b ∧ midpoint a b ≤ b := by
  have hm := midpoint_val h
  have hab : (a : ℕ) ≤ b := h
  have h1 : (a : ℕ) ≤ midpoint a b := by omega
  have h2 : (midpoint a b : ℕ) ≤ b := by omega
  exact ⟨h1, h2⟩

/-- The ends of a sorted list bound its elements. -/
theorem head_le_le_getLast {l : List Price} (hs : l.Pairwise (· < ·)) (hne : l ≠ []) {q : Price}
    (hq : q ∈ l) : l.head hne ≤ q ∧ q ≤ l.getLast hne := by
  obtain ⟨k, hk, rfl⟩ := List.getElem_of_mem hq
  rw [← List.getElem_zero_eq_head (by omega), List.getLast_eq_getElem]
  have hle := List.pairwise_iff_getElem.mp hs
  constructor
  · rcases Nat.eq_zero_or_pos k with rfl | hpos
    · exact le_refl _
    · exact (hle 0 k (by omega) hk hpos).le
  · rcases Nat.lt_or_eq_of_le (show k ≤ l.length - 1 by omega) with hlt | rfl
    · exact (hle k (l.length - 1) hk (by omega) hlt).le
    · exact le_refl _

section Sweep

variable [StdSort] {m : VolumeMaximizers}

theorem Sweep.exists_evaluation (hm : Sweep orders m) {o : Order} (ho : o ∈ orders) :
    ∃ e ∈ m.evaluations, e.price = o.price := by
  have : o.price ∈ m.evaluations.map (·.price) := by
    rw [hm.prices]; exact mem_candidatePrices.mpr ⟨o, ho, rfl⟩
  exact List.mem_map.mp this

theorem Sweep.exists_order (hm : Sweep orders m) {e : CandidateEvaluation} (he : e ∈ m.evaluations) :
    ∃ o ∈ orders, o.price = e.price :=
  mem_candidatePrices.mp (hm.prices ▸ List.mem_map.mpr ⟨e, he, rfl⟩)

/-- No price at all executes more than the best candidate. -/
theorem Sweep.executableAt_le (hm : Sweep orders m) (p : Price) :
    executableAt orders p ≤ m.maxVolume.raw := by
  rcases Nat.eq_zero_or_pos (executableAt orders p) with h0 | hpos
  · omega
  · rw [← market_executable] at hpos
    obtain ⟨o, ho, hle⟩ := CallMarket.exists_interest Order.price Order.lots hpos
    obtain ⟨e, he, hep⟩ := hm.exists_evaluation (mem_sideOrders.mp ho).1
    calc executableAt orders p = (market orders).executable p := (market_executable _ _).symm
      _ ≤ (market orders).executable o.price := hle
      _ = e.executableVolume.raw := by rw [market_executable, hm.volume e he, hep]
      _ ≤ m.maxVolume.raw := hm.le_max e he

theorem Sweep.isGreatest (hm : Sweep orders m) (hpos : ∀ o ∈ orders, 0 < (o.price.raw : ℕ)) :
    IsGreatest (executableVolumes orders) m.maxVolume.raw := by
  constructor
  · rcases hm.max_attained with h0 | ⟨e, he, hmax⟩
    · refine ⟨⟨1⟩, by decide, ?_⟩
      have := hm.executableAt_le ⟨1⟩
      rw [h0] at this ⊢
      exact Nat.le_zero.mp this
    · obtain ⟨o, ho, hp⟩ := hm.exists_order he
      exact ⟨e.price, hp ▸ hpos o ho, by rw [← hm.volume e he, hmax]⟩
  · rintro v ⟨p, -, rfl⟩
    exact hm.executableAt_le p

/-- The maximizing prices are the order prices that attain the maximum. -/
theorem Sweep.mem_maximizing_iff (hm : Sweep orders m) {p : Price} : p ∈ m.maximizingPrices ↔
    (∃ o ∈ orders, o.price = p) ∧ executableAt orders p = m.maxVolume.raw := by
  rw [hm.maximizing, List.mem_map]
  constructor
  · rintro ⟨e, he, rfl⟩
    obtain ⟨he, hv⟩ := List.mem_filter.mp he
    rw [decide_eq_true_iff] at hv
    exact ⟨hm.exists_order he, by rw [← hm.volume e he, hv]⟩
  · rintro ⟨⟨o, ho, rfl⟩, hv⟩
    obtain ⟨e, he, hep⟩ := hm.exists_evaluation ho
    refine ⟨e, List.mem_filter.mpr ⟨he, ?_⟩, hep⟩
    rw [decide_eq_true_iff]
    exact Qty.ext_val (by rw [hm.volume e he, hep, hv])

theorem Sweep.maximizing_sorted (hm : Sweep orders m) : m.maximizingPrices.Pairwise (· < ·) := by
  have h := candidatePrices_sorted orders
  rw [← hm.prices, List.pairwise_map] at h
  rw [hm.maximizing, List.pairwise_map]
  exact h.filter _

theorem Sweep.maximizing_ne_nil (hm : Sweep orders m) (hpos : 0 < (m.maxVolume.raw : ℕ)) :
    m.maximizingPrices ≠ [] := by
  rcases hm.max_attained with h0 | ⟨e, he, hmax⟩
  · rw [h0] at hpos
    exact absurd hpos (lt_irrefl _)
  · rw [hm.maximizing]
    refine List.ne_nil_of_mem (a := e.price) (List.mem_map.mpr ⟨e, List.mem_filter.mpr ⟨he, ?_⟩, rfl⟩)
    simpa using hmax

/-- The maximizing price the tie rule takes is the midpoint of the lowest and the highest one. -/
theorem Sweep.resolve_eq (hm : Sweep orders m) (hpos : ∀ o ∈ orders, 0 < (o.price.raw : ℕ)) :
    (resolveClearingPriceTie m = none ∧ (m.maxVolume.raw : ℕ) = 0) ∨
      ∃ pMin ∈ m.maximizingPrices, ∃ pMax ∈ m.maximizingPrices,
        (∀ q ∈ m.maximizingPrices, pMin ≤ q ∧ q ≤ pMax) ∧ 0 < (m.maxVolume.raw : ℕ) ∧
        resolveClearingPriceTie m = some ⟨midpoint pMin.raw pMax.raw⟩ := by
  rcases Nat.eq_zero_or_pos (m.maxVolume.raw : ℕ) with h0 | hV
  · left
    refine ⟨?_, h0⟩
    unfold resolveClearingPriceTie
    split
    · rw [if_pos (Qty.isZero_iff.mpr h0)]
    · rfl
  · right
    have hne := hm.maximizing_ne_nil hV
    have hmin := List.head_mem hne
    have hmax := List.getLast_mem hne
    have hbounds := fun q hq => head_le_le_getLast hm.maximizing_sorted hne (q := q) hq
    have hle := (hbounds _ hmin).2
    obtain ⟨⟨o, ho, hop⟩, -⟩ := hm.mem_maximizing_iff.mp hmin
    have hle' : (m.maximizingPrices.head hne).raw ≤ (m.maximizingPrices.getLast hne).raw := hle
    have hmid : midpoint (m.maximizingPrices.head hne).raw (m.maximizingPrices.getLast hne).raw ≠
        0 := by
      intro h
      have h1 := (midpoint_mem hle').1
      rw [h, ← hop] at h1
      exact absurd (hpos o ho) (not_lt.mpr h1)
    refine ⟨_, hmin, _, hmax, hbounds, hV, ?_⟩
    have hz : m.maxVolume.isZero = false := by
      rw [Bool.eq_false_iff]
      intro h
      rw [Qty.isZero_iff] at h
      omega
    simp only [resolveClearingPriceTie, List.head?_eq_some_head hne,
      List.getLast?_eq_some_getLast hne, hz, Bool.false_eq_true, if_false, Price.create, hmid]

theorem Sweep.clears (hm : Sweep orders m) (hpos : ∀ o ∈ orders, 0 < (o.price.raw : ℕ)) :
    ClearingOutcome.Clears orders ⟨resolveClearingPriceTie m, m.maxVolume⟩ := by
  refine ⟨hm.isGreatest hpos, ?_, fun p hp => ?_, fun p hp => ?_⟩
  · rcases hm.resolve_eq hpos with ⟨h, h0⟩ | ⟨_, _, _, _, _, hV, h⟩
    · simp [h, h0]
    · simp [h, hV]
  · rcases hm.resolve_eq hpos with ⟨h, h0⟩ | ⟨pMin, hmin, pMax, hmax, hbounds, hV, h⟩
    · simp [h] at hp
    · obtain rfl := Option.some.inj (h.symm.trans hp)
      obtain ⟨⟨o, ho, hop⟩, -⟩ := hm.mem_maximizing_iff.mp hmin
      have h1 : (pMin.raw : ℕ) ≤ midpoint pMin.raw pMax.raw := (midpoint_mem (hbounds _ hmin).2).1
      exact lt_of_lt_of_le (hop ▸ hpos o ho) h1
  · rcases hm.resolve_eq hpos with ⟨h, h0⟩ | ⟨pMin, hmin, pMax, hmax, hbounds, hV, h⟩
    · simp [h] at hp
    · obtain rfl := Option.some.inj (h.symm.trans hp)
      have hle : pMin ≤ pMax := (hbounds _ hmin).2
      have hopt : ∀ {q}, q ∈ m.maximizingPrices → (market orders).IsOptimal q := by
        intro q hq r
        rw [market_executable, market_executable, (hm.mem_maximizing_iff.mp hq).2]
        exact hm.executableAt_le r
      have hbetween := (hopt hmin).between (hopt hmax) (midpoint_mem hle).1 (midpoint_mem hle).2
      refine le_antisymm (hm.executableAt_le _) ?_
      have := hbetween pMin
      rwa [market_executable, market_executable, (hm.mem_maximizing_iff.mp hmin).2] at this

end Sweep

theorem determineClearingOutcome_eq_ok [StdSort] {batch : Batch} {o : ClearingOutcome} :
    determineClearingOutcome batch = .ok o ↔
      ∃ m, computeVolumeMaximizersFromOrders batch.orders = .ok m ∧
        ⟨resolveClearingPriceTie m, m.maxVolume⟩ = o := by
  simp [determineClearingOutcome]

theorem Batch.Accepted.clears [StdSort] {batch : Batch} (hb : batch.Accepted) {o : ClearingOutcome}
    (h : determineClearingOutcome batch = .ok o) : o.Clears batch.orders := by
  obtain ⟨m, hm, rfl⟩ := determineClearingOutcome_eq_ok.mp h
  exact (computeVolumeMaximizers_spec (fun o ho => (hb.orders.order o ho).side) hm).clears
    fun o ho => (hb.orders.order o ho).price_pos

/-- **The auction finds the global optimum.** The volume is the largest one any price in the whole
domain executes; a price is returned exactly when it is positive; the price executes it, and is the
exact midpoint of the lowest and the highest maximizing one. -/
theorem determineClearingOutcome_optimal [StdSort] {batchId : BatchId} {instrument : InstrumentId}
    {orders : List Order} {batch : Batch} {o : ClearingOutcome}
    (hb : Batch.create batchId instrument orders = .ok batch)
    (h : determineClearingOutcome batch = .ok o) :
    IsGreatest {v : ℕ | ∃ p : Price, 0 < (p.raw : ℕ) ∧ executableAt batch.orders p = v}
        o.executableVolume.raw ∧
      (o.clearingPrice.isSome ↔ 0 < (o.executableVolume.raw : ℕ)) ∧
      ∀ p, o.clearingPrice = some p →
        executableAt batch.orders p = o.executableVolume.raw ∧
        ∃ m, computeVolumeMaximizersFromOrders batch.orders = .ok m ∧
          ∃ pMin ∈ m.maximizingPrices, ∃ pMax ∈ m.maximizingPrices,
            (∀ q ∈ m.maximizingPrices, pMin ≤ q ∧ q ≤ pMax) ∧
            p.raw = midpoint pMin.raw pMax.raw ∧ (p.raw : ℕ) = (pMin.raw + pMax.raw : ℕ) / 2 := by
  have hacc := Batch.accepted_of_create hb
  have hc := hacc.clears h
  refine ⟨hc.optimal, hc.isSome_iff, fun p hp => ⟨hc.executes p hp, ?_⟩⟩
  obtain ⟨m, hm, rfl⟩ := determineClearingOutcome_eq_ok.mp h
  have hs := computeVolumeMaximizers_spec (fun o ho => (hacc.orders.order o ho).side) hm
  rcases hs.resolve_eq fun o ho => (hacc.orders.order o ho).price_pos with
    ⟨hn, -⟩ | ⟨pMin, hmin, pMax, hmax, hbounds, -, he⟩
  · simp only [hn] at hp; cases hp
  · obtain rfl := Option.some.inj (he.symm.trans hp)
    exact ⟨m, hm, pMin, hmin, pMax, hmax, hbounds, rfl, midpoint_val (hbounds _ hmin).2⟩

/-- The example clears 10 lots at 105. -/
def exampleOutcome : ClearingOutcome := ⟨some ⟨105⟩, ⟨10⟩⟩

theorem determineClearingOutcome_optimal_example :
    IsGreatest {v : ℕ | ∃ p : Price, 0 < (p.raw : ℕ) ∧ executableAt exampleBatch.orders p = v} 10 :=
  (@determineClearingOutcome_optimal .stable ⟨1⟩ ⟨7⟩ exampleBatch.orders exampleBatch exampleOutcome
    (by decide +kernel) (by decide +kernel)).1

/-! ## The sweep and the plain sums -/

section Plain

variable [StdSort] {m : VolumeMaximizers}

/-- An evaluation has the demand and the supply that `demand_from_orders` and `supply_from_orders`
compute. -/
theorem Sweep.plain (hm : Sweep orders m) (hbuys : totalLots (sideOrders .buy orders) < 2 ^ 64)
    (hsells : totalLots (sideOrders .sell orders) < 2 ^ 64) {e : CandidateEvaluation}
    (he : e ∈ m.evaluations) :
    demandFromOrders orders e.price = .ok e.demand ∧
      supplyFromOrders orders e.price = .ok e.supply := by
  obtain ⟨d, hd, hdv⟩ := demandFromOrders_eq e.price hbuys
  obtain ⟨s, hs, hsv⟩ := supplyFromOrders_eq e.price hsells
  obtain rfl : d = e.demand := Qty.ext_val (hdv.trans (hm.demand e he).symm)
  obtain rfl : s = e.supply := Qty.ext_val (hsv.trans (hm.supply e he).symm)
  exact ⟨hd, hs⟩

/-- The volume of an evaluation is the smaller of its two sides. -/
theorem Sweep.volume_eq_min (hm : Sweep orders m) {e : CandidateEvaluation} (he : e ∈ m.evaluations) :
    min (e.demand.raw : ℕ) e.supply.raw = e.executableVolume.raw := by
  rw [hm.volume e he, hm.demand e he, hm.supply e he]
  rfl

/-- The largest volume is the greatest of the candidates' volumes, nothing without candidates. -/
theorem Sweep.max_spec (hm : Sweep orders m) :
    (m.evaluations = [] → m.maxVolume = .zero) ∧
      (m.evaluations ≠ [] → IsGreatest {v : ℕ | ∃ e ∈ m.evaluations,
        min (e.demand.raw : ℕ) e.supply.raw = v} m.maxVolume.raw) := by
  have hupper : (m.maxVolume.raw : ℕ) ∈ upperBounds {v : ℕ | ∃ e ∈ m.evaluations,
      min (e.demand.raw : ℕ) e.supply.raw = v} := by
    rintro v ⟨e, he, rfl⟩
    rw [hm.volume_eq_min he]
    exact hm.le_max e he
  constructor
  · intro hnil
    rcases hm.max_attained with h0 | ⟨e, he, -⟩
    · exact h0
    · rw [hnil] at he
      cases he
  · intro hne
    refine ⟨?_, hupper⟩
    rcases hm.max_attained with h0 | ⟨e, he, hmax⟩
    · -- nothing trades at any candidate, so the first one will do
      obtain ⟨e, he⟩ := List.exists_mem_of_ne_nil _ hne
      have hle := hm.le_max e he
      refine ⟨e, he, ?_⟩
      rw [hm.volume_eq_min he]
      rw [h0] at hle ⊢
      exact Nat.le_zero.mp hle
    · exact ⟨e, he, by rw [hm.volume_eq_min he, hmax]⟩

end Plain

/-- **The sweep agrees with the plain definition.** It fails on the side totals only; otherwise it
evaluates the distinct order prices, and each with the demand and the supply a scan of all orders finds
there, which does not fail; its maximum and its maximizing prices are those of the evaluations. -/
theorem computeVolumeMaximizers_agrees [StdSort] {batchId : BatchId} {instrument : InstrumentId}
    {orders : List Order} {batch : Batch} (hb : Batch.create batchId instrument orders = .ok batch) :
    ((∃ e, computeVolumeMaximizersFromOrders batch.orders = .error e) ↔
      2 ^ 64 - 1 < totalLots (sideOrders .buy batch.orders) ∨
        2 ^ 64 - 1 < totalLots (sideOrders .sell batch.orders)) ∧
    ∀ m, computeVolumeMaximizersFromOrders batch.orders = .ok m →
      m.evaluations.map (·.price) = candidatePricesFromOrders batch.orders ∧
      (candidatePricesFromOrders batch.orders).Pairwise (· < ·) ∧
      (∀ p, p ∈ candidatePricesFromOrders batch.orders ↔ ∃ o ∈ batch.orders, o.price = p) ∧
      (∀ e ∈ m.evaluations, demandFromOrders batch.orders e.price = .ok e.demand ∧
        supplyFromOrders batch.orders e.price = .ok e.supply) ∧
      (m.evaluations = [] → m.maxVolume = .zero) ∧
      (m.evaluations ≠ [] → IsGreatest {v : ℕ | ∃ e ∈ m.evaluations,
        min (e.demand.raw : ℕ) e.supply.raw = v} m.maxVolume.raw) ∧
      m.maximizingPrices.Pairwise (· < ·) ∧
      ∀ p, p ∈ m.maximizingPrices ↔ ∃ e ∈ m.evaluations, e.price = p ∧
        min (e.demand.raw : ℕ) e.supply.raw = m.maxVolume.raw := by
  have hacc := Batch.accepted_of_create hb
  have hside := fun o ho => (hacc.orders.order o ho).side
  have hok := computeVolumeMaximizers_isOk hside
  refine ⟨?_, fun m hm => ?_⟩
  · rw [Result.eq_error_iff, hok]
    omega
  · obtain ⟨hbuys, hsells⟩ := hok.mp ⟨m, hm⟩
    have hs := computeVolumeMaximizers_spec hside hm
    refine ⟨hs.prices, candidatePrices_sorted _, fun p => mem_candidatePrices,
      fun e he => hs.plain hbuys hsells he, hs.max_spec.1, hs.max_spec.2, hs.maximizing_sorted,
      fun p => ?_⟩
    rw [hs.maximizing, List.mem_map]
    constructor
    · rintro ⟨e, he, rfl⟩
      obtain ⟨he, hv⟩ := List.mem_filter.mp he
      rw [decide_eq_true_iff] at hv
      exact ⟨e, he, rfl, by rw [hs.volume_eq_min he, hv]⟩
    · rintro ⟨e, he, rfl, hv⟩
      rw [hs.volume_eq_min he] at hv
      exact ⟨e, List.mem_filter.mpr ⟨he, by simpa using Qty.ext_val hv⟩, rfl⟩

theorem computeVolumeMaximizers_agrees_example :
    ¬ ∃ e, @computeVolumeMaximizersFromOrders .stable exampleBatch.orders = .error e := by
  rw [(@computeVolumeMaximizers_agrees .stable ⟨1⟩ ⟨7⟩ exampleBatch.orders exampleBatch
    (by decide +kernel)).1]
  decide +kernel

/-! ## More interest -/

/-- A subset of the orders executes no more at any price. -/
theorem executableAt_le_of_subperm {orders orders' : List Order} (h : orders.Subperm orders')
    (p : Price) : executableAt orders p ≤ executableAt orders' p := by
  have hfilter : ∀ q : Order → Bool, totalLots (orders.filter q) ≤ totalLots (orders'.filter q) := by
    intro q
    obtain ⟨l, hperm, hsub⟩ := h
    have hp := ((hperm.filter q).map Order.lots).sum_eq
    have hs : ((l.filter q).map Order.lots).sum ≤ ((orders'.filter q).map Order.lots).sum :=
      ((hsub.filter q).map _).sum_le_sum fun _ _ => Nat.zero_le _
    unfold totalLots
    rwa [← hp]
  exact min_le_min (hfilter _) (hfilter _)

/-- **More interest never clears less.** The price that executes the volume of the smaller batch
executes at least as much in the larger one. -/
theorem determineClearingOutcome_mono [StdSort] {batchId batchId' : BatchId}
    {instrument : InstrumentId} {orders orders' : List Order} {extra : Order} {batch batch' : Batch}
    {o o' : ClearingOutcome} (hp : orders'.Perm (extra :: orders))
    (hb : Batch.create batchId instrument orders = .ok batch)
    (hb' : Batch.create batchId' instrument orders' = .ok batch')
    (h : determineClearingOutcome batch = .ok o) (h' : determineClearingOutcome batch' = .ok o') :
    (o.executableVolume.raw : ℕ) ≤ o'.executableVolume.raw := by
  have hsub : batch.orders.Subperm batch'.orders := by
    obtain ⟨-, rfl⟩ := Batch.create_eq_ok.mp hb
    obtain ⟨-, rfl⟩ := Batch.create_eq_ok.mp hb'
    have hcons : orders.Subperm (extra :: orders) := (List.sublist_cons_self extra orders).subperm
    exact ((StdSort.sort_perm _ orders).subperm.trans hcons).trans
      ((StdSort.sort_perm _ orders').trans hp).symm.subperm
  obtain ⟨⟨p, hpos, hv⟩, -⟩ := ((Batch.accepted_of_create hb).clears h).optimal
  obtain ⟨-, hmax⟩ := ((Batch.accepted_of_create hb').clears h').optimal
  calc (o.executableVolume.raw : ℕ) = executableAt batch.orders p := hv.symm
    _ ≤ executableAt batch'.orders p := executableAt_le_of_subperm hsub p
    _ ≤ o'.executableVolume.raw := hmax ⟨p, hpos, rfl⟩

/-- The example before the second sell: 4 lots clear at 102. -/
def exampleThinBatch : Batch := { exampleBatch with orders := exampleBatch.orders.take 2 }

def exampleThinOutcome : ClearingOutcome := ⟨some ⟨102⟩, ⟨4⟩⟩

theorem determineClearingOutcome_mono_example :
    (exampleThinOutcome.executableVolume.raw : ℕ) ≤ exampleOutcome.executableVolume.raw :=
  @determineClearingOutcome_mono .stable ⟨1⟩ ⟨1⟩ ⟨7⟩ exampleThinBatch.orders exampleBatch.orders
    (exampleOrder 3 3 .sell 105 8 2) exampleThinBatch exampleBatch exampleThinOutcome exampleOutcome
    (@List.perm_append_comm _ exampleThinBatch.orders [exampleOrder 3 3 .sell 105 8 2]) (by decide +kernel) (by decide +kernel)
    (by decide +kernel) (by decide +kernel)

end FairCross
