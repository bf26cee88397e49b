import FairCross.Engine.Proofs.AllocationProofs
import FairCross.Engine.Proofs.SettlementProofs

/-!
# Execution

The canonical fills of a batch, and the execution of a batch as clearing followed by the settlement
of its canonical fills (`executeBatch_eq_ok`). From it follow what a successful execution does to the
ledger, and exactly when an execution fails.
-/

namespace FairCross

/-! ## Canonical fills -/

/-- The fill with number `id` of an allocation. -/
def fillOf (inst : InstrumentId) (cp : Price) (id : U64) (a : OrderAllocation) : Fill where
  fillId := id
  orderId := a.orderId
  accountId := a.account
  instrumentId := inst
  side := a.side
  executionPrice := cp
  fillQty := a.allocatedQty
  consideration := ⟨Fin.ofNat _ (cp.raw * a.allocatedQty.raw : ℕ)⟩

/-- The fills of the allocations that receive something, numbered from `id`. -/
def fillsFrom (inst : InstrumentId) (cp : Price) : U64 → List OrderAllocation → List Fill
  | _, [] => []
  | id, a :: as =>
    if a.allocatedQty.isZero then fillsFrom inst cp id as
    else fillOf inst cp id a :: fillsFrom inst cp (id + 1) as

section Fills

variable {inst : InstrumentId} {cp : Price}

theorem fillOf_consideration (inst : InstrumentId) (cp : Price) (id : U64) (a : OrderAllocation) :
    ((fillOf inst cp id a).consideration.raw : ℕ) = cp.raw * a.allocatedQty.raw :=
  Nat.mod_eq_of_lt (Money.price_qty_lt cp a.allocatedQty)

theorem fillCreate_eq (id : U64) (a : OrderAllocation) :
    Fill.create id a.orderId a.account inst a.side cp a.allocatedQty = .ok (fillOf inst cp id a) :=
  Fill.create_eq_ok.mpr ⟨_, fillOf_consideration inst cp id a, rfl⟩

theorem foldlM_fillStep (inst : InstrumentId) (cp : Price) (as : List OrderAllocation) (fills : List Fill) (id : U64) :
    ∃ id', as.foldlM (fillStep inst cp) (fills, id) = .ok (fills ++ fillsFrom inst cp id as, id') := by
  induction as generalizing fills id with
  | nil => exact ⟨id, by simp [fillsFrom, pure, Except.pure]⟩
  | cons a as ih =>
    rw [List.foldlM_cons, fillStep, fillsFrom]
    split_ifs
    · exact ih fills id
    · obtain ⟨id', h⟩ := ih (fills ++ [fillOf inst cp id a]) (id + 1)
      refine ⟨id', ?_⟩
      rw [fillCreate_eq]
      simpa [Result.convert, bind, Except.bind, pure, Except.pure] using h

theorem mem_fillsFrom {id : U64} {as : List OrderAllocation} {f : Fill}
    (h : f ∈ fillsFrom inst cp id as) :
    ∃ id', ∃ a ∈ as, a.allocatedQty.isZero = false ∧ f = fillOf inst cp id' a := by
  induction as generalizing id with
  | nil => cases h
  | cons a as ih =>
    rw [fillsFrom] at h
    split_ifs at h with ha
    · obtain ⟨id', b, hb, h⟩ := ih h
      exact ⟨id', b, List.mem_cons_of_mem _ hb, h⟩
    · rcases List.mem_cons.mp h with rfl | h
      · exact ⟨id, a, List.mem_cons_self .., by simpa using ha, rfl⟩
      · obtain ⟨id', b, hb, h⟩ := ih h
        exact ⟨id', b, List.mem_cons_of_mem _ hb, h⟩

theorem length_fillsFrom (inst : InstrumentId) (cp : Price) (id : U64) (as : List OrderAllocation) :
    (fillsFrom inst cp id as).length ≤ as.length := by
  induction as generalizing id with
  | nil => exact le_rfl
  | cons a as ih =>
    rw [fillsFrom, List.length_cons]
    split_ifs
    · exact (ih id).trans (Nat.le_succ _)
    · rw [List.length_cons]
      exact Nat.succ_le_succ (ih (id + 1))

/-- A sum over the fills that does not read their numbers is a sum over the allocations. -/
theorem sum_fillsFrom {M : Type} [AddCommMonoid M] (inst : InstrumentId) (cp : Price) (g : Fill → M) (h : OrderAllocation → M)
    (hg : ∀ id a, g (fillOf inst cp id a) = h a) (h0 : ∀ a, a.allocatedQty.isZero → h a = 0)
    (id : U64) (as : List OrderAllocation) :
    ((fillsFrom inst cp id as).map g).sum = (as.map h).sum := by
  induction as generalizing id with
  | nil => rfl
  | cons a as ih =>
    rw [fillsFrom, List.map_cons, List.sum_cons]
    split_ifs with ha
    · rw [ih, h0 a ha, zero_add]
    · rw [List.map_cons, List.sum_cons, ih, hg]

/-- What an allocation adds to the balance of its account at price `cp`. -/
def OrderAllocation.delta (cp : Price) (a : OrderAllocation) : ℤ × ℤ :=
  if a.side = .buy then (-(cp.raw * a.allocatedQty.raw : ℕ), a.allocatedQty.raw)
  else ((cp.raw * a.allocatedQty.raw : ℕ), -a.allocatedQty.raw)

theorem fillOf_delta (id : U64) (a : OrderAllocation) :
    (fillOf inst cp id a).delta = a.delta cp := by
  unfold Fill.delta OrderAllocation.delta
  rw [fillOf_consideration]
  rfl

theorem delta_eq_zero {a : OrderAllocation} (h : a.allocatedQty.isZero) : a.delta cp = 0 := by
  have h0 := Qty.isZero_iff.mp h
  unfold OrderAllocation.delta
  rw [h0]
  split_ifs <;> rfl

/-- Allocations add to the balances what they trade, at the price. -/
theorem sum_delta (cp : Price) {as : List OrderAllocation} (hside : ∀ a ∈ as, a.side = .buy ∨ a.side = .sell) :
    (as.map (OrderAllocation.delta cp)).sum =
      (-((cp.raw : ℤ) * tradedLots .buy as) + cp.raw * tradedLots .sell as,
        (tradedLots .buy as : ℤ) - tradedLots .sell as) := by
  induction as with
  | nil => rfl
  | cons a as ih =>
    rw [List.map_cons, List.sum_cons, ih fun b hb => hside b (List.mem_cons_of_mem _ hb)]
    rcases hside a (List.mem_cons_self ..) with h | h
    · simp only [OrderAllocation.delta, tradedLots, h, if_true, decide_true, decide_false,
        List.filter_cons, List.map_cons, List.sum_cons, reduceCtorEq, if_false,
        Prod.mk_add_mk, Bool.false_eq_true, Nat.cast_add, Nat.cast_mul]
      refine Prod.ext ?_ ?_ <;> simp only <;> ring
    · simp only [OrderAllocation.delta, tradedLots, h, if_true, decide_true, decide_false,
        List.filter_cons, List.map_cons, List.sum_cons, reduceCtorEq, if_false,
        Prod.mk_add_mk, Bool.false_eq_true, Nat.cast_add, Nat.cast_mul]
      refine Prod.ext ?_ ?_ <;> simp only <;> ring

end Fills

/-- The canonical fills of the batch when it clears with `outcome`. -/
def canonicalFills [StdSort] (outcome : ClearingOutcome) (batch : Batch) : List Fill :=
  match outcome.clearingPrice with
  | none => []
  | some cp => fillsFrom batch.instrument cp 0 (canonicalAllocation outcome batch).allocations

theorem mem_canonicalFills [StdSort] {outcome : ClearingOutcome} {batch : Batch} {f : Fill}
    (hf : f ∈ canonicalFills outcome batch) :
    ∃ cp id, outcome.clearingPrice = some cp ∧ ∃ a ∈ (canonicalAllocation outcome batch).allocations,
      a.allocatedQty.isZero = false ∧ f = fillOf batch.instrument cp id a := by
  unfold canonicalFills at hf
  cases hcp : outcome.clearingPrice with
  | none => rw [hcp] at hf; cases hf
  | some cp =>
    rw [hcp] at hf
    obtain ⟨id, a, ha, hz, rfl⟩ := mem_fillsFrom hf
    exact ⟨cp, id, rfl, a, ha, hz, rfl⟩

theorem canonicalFills_instrument [StdSort] (outcome : ClearingOutcome) (batch : Batch) :
    ∀ f ∈ canonicalFills outcome batch, f.instrumentId = batch.instrument := by
  intro f hf
  obtain ⟨cp, id, -, a, -, -, rfl⟩ := mem_canonicalFills hf
  rfl

/-- A sum over the canonical fills is one over the allocations. -/
theorem sum_canonicalFills [StdSort] {M : Type} [AddCommMonoid M] {outcome : ClearingOutcome}
    {batch : Batch} {cp : Price} (hcp : outcome.clearingPrice = some cp) (g : ℤ × ℤ → M)
    (hg : g 0 = 0) : ((canonicalFills outcome batch).map fun f => g f.delta).sum =
      ((canonicalAllocation outcome batch).allocations.map fun a => g (a.delta cp)).sum := by
  rw [canonicalFills, hcp]
  refine sum_fillsFrom _ _ _ (fun a => g (a.delta cp)) (fun id a => ?_) (fun a ha => ?_) _ _
  · rw [fillOf_delta]
  · rw [delta_eq_zero ha, hg]

section Execution

variable [StdSort] {batch : Batch} (hb : batch.Accepted) {outcome : ClearingOutcome}
  (h : determineClearingOutcome batch = .ok outcome)
include hb h

namespace Batch.Accepted

theorem generateCanonicalFills_eq :
    generateCanonicalFills batch (canonicalAllocation outcome batch) =
      .ok (canonicalFills outcome batch) := by
  unfold generateCanonicalFills canonicalFills canonicalAllocation
  cases hcp : outcome.clearingPrice with
  | none => rfl
  | some cp =>
    have hpos : 0 < (outcome.executableVolume.raw : ℕ) := by
      rw [← (hb.clears h).isSome_iff, hcp]; rfl
    have hz : ¬ outcome.executableVolume.isZero = true := by rw [Qty.isZero_iff]; omega
    obtain ⟨id', hf⟩ := foldlM_fillStep batch.instrument cp
      (batch.orders.map fun o => .of o ⟨toU64 (canonicalFill outcome batch.orders o)⟩) [] 0
    simp only [hz, hf, if_false, List.nil_append, Bool.false_eq_true]
    rfl

theorem canonicalFills_positive : ∀ f ∈ canonicalFills outcome batch, f.Positive := fun f hf => by
  obtain ⟨cp, id, hcp, a, -, hz, rfl⟩ := mem_canonicalFills hf
  have hq : 0 < (a.allocatedQty.raw : ℕ) := by
    rw [Bool.eq_false_iff, ne_eq, Qty.isZero_iff] at hz; omega
  refine ⟨?_, hq⟩
  rw [fillOf_consideration]
  exact Nat.mul_pos ((hb.clears h).price_pos cp hcp) hq

omit h in
theorem allocations_side : ∀ a ∈ (canonicalAllocation outcome batch).allocations,
    a.side = .buy ∨ a.side = .sell := fun a ha => by
  obtain ⟨o, ho, rfl⟩ := List.mem_map.mp ha
  exact hb.side o ho

omit h in
theorem canonicalFills_net {cp : Price} (hcp : outcome.clearingPrice = some cp) (a : AccountId) :
    netFills (canonicalFills outcome batch) a =
      (-((cp.raw : ℤ) * (canonicalAllocation outcome batch).accountLots .buy a) +
          cp.raw * (canonicalAllocation outcome batch).accountLots .sell a,
        ((canonicalAllocation outcome batch).accountLots .buy a : ℤ) -
          (canonicalAllocation outcome batch).accountLots .sell a) := by
  have hsum := sum_delta cp fun x
    (hx : x ∈ (canonicalAllocation outcome batch).allocations.filter (·.account = a)) =>
      hb.allocations_side x (List.mem_filter.mp hx).1
  unfold BatchAllocation.accountLots
  rw [← hsum, netFills, Postings.net_eq_sum, canonicalFills, hcp]
  simp only
  rw [sum_fillsFrom _ _ _ (fun x => if x.account = a then x.delta cp else 0)]
  · rw [← Postings.net_eq_sum OrderAllocation.account (OrderAllocation.delta cp)]
    rfl
  · intro id x
    rw [fillOf_delta]
    rfl
  · intro x hx
    rw [delta_eq_zero hx, ite_self]

/-- Both sides trade the executable volume. -/
theorem tradedLots_canonical {side : Side} (hs : side = .buy ∨ side = .sell) :
    tradedLots side (canonicalAllocation outcome batch).allocations = outcome.executableVolume.raw :=
  (allocatedLots_map (a := canonicalAllocation outcome batch) (hb.isAllocation h) rfl side).trans
    ((hb.isAllocation h).sum_side side hs)

/-- The canonical fills move as much as they take: their sum is nothing. -/
theorem canonicalFills_sum : ((canonicalFills outcome batch).map Fill.delta).sum = 0 := by
  cases hcp : outcome.clearingPrice with
  | none => rw [canonicalFills, hcp]; rfl
  | some cp =>
    have hsum : ((canonicalFills outcome batch).map Fill.delta).sum =
        ((canonicalAllocation outcome batch).allocations.map (OrderAllocation.delta cp)).sum :=
      sum_canonicalFills hcp id rfl
    rw [hsum, sum_delta cp hb.allocations_side, hb.tradedLots_canonical h (.inl rfl),
      hb.tradedLots_canonical h (.inr rfl)]
    refine Prod.ext ?_ ?_
    · exact neg_add_cancel _
    · exact sub_self _

end Batch.Accepted

end Execution

/-! ## Execution -/

/-- The amounts of fills of one instrument, by component. -/
theorem sum_delta_components {fills : List Fill} {i : InstrumentId}
    (hi : ∀ f ∈ fills, f.instrumentId = i) (j : InstrumentId) :
    (fills.map fun f => f.delta.1).sum = (fills.map Fill.delta).sum.1 ∧
      (fills.map fun f => if j = f.instrumentId then f.delta.2 else 0).sum =
        if j = i then (fills.map Fill.delta).sum.2 else 0 := by
  rw [Postings.sum_components]
  refine ⟨rfl, ?_⟩
  have hmap : (fills.map fun f => if j = f.instrumentId then f.delta.2 else 0) =
      fills.map fun f => if j = i then f.delta.2 else 0 :=
    List.map_congr_left fun f hf => by rw [hi f hf]
  rw [hmap]
  split_ifs
  · rfl
  · simp

/-- Settling the canonical fills conserves every total. -/
theorem Batch.Accepted.sums_eq [StdSort] {batch : Batch} (hb : batch.Accepted)
    {outcome : ClearingOutcome} (h : determineClearingOutcome batch = .ok outcome)
    {pre post : Ledger} (hrun : (canonicalFills outcome batch).foldlM applyFill pre = .ok post) :
    post.cashSum = pre.cashSum ∧ ∀ i, post.lotsSum i = pre.lotsSum i := by
  obtain ⟨h1, h2⟩ := foldlM_applyFill_sums hrun
  have hcomp := sum_delta_components (canonicalFills_instrument outcome batch)
  rw [(hcomp batch.instrument).1, hb.canonicalFills_sum h] at h1
  refine ⟨by simpa using h1, fun i => ?_⟩
  have h3 := h2 i
  rw [(hcomp i).2, hb.canonicalFills_sum h] at h3
  simpa using h3

/-- **Execution** is clearing followed by the settlement of the canonical fills. The totals that are
compared are the same in both states, so only their range is left to check. -/
theorem Batch.Accepted.executeBatch_eq_ok [StdSort] {batch : Batch} (hb : batch.Accepted)
    {pre : Ledger} {r : BatchExecutionResult} :
    executeBatch pre batch = .ok r ↔ ∃ outcome post,
      determineClearingOutcome batch = .ok outcome ∧
      (canonicalFills outcome batch).foldlM applyFill pre = .ok post ∧
      pre.cashSum < 2 ^ 128 ∧
      (canonicalFills outcome batch ≠ [] → pre.lotsSum batch.instrument < 2 ^ 64) ∧
      ⟨outcome, canonicalAllocation outcome batch, canonicalFills outcome batch, post⟩ = r := by
  have hinst : ∀ outcome, ∀ f ∈ canonicalFills outcome batch, f.instrumentId = batch.instrument :=
    fun _ => canonicalFills_instrument _ _
  simp only [executeBatch, Result.bind_eq_ok, Result.convert_eq_ok, Result.pure_eq_ok,
    applyBatchTransition_eq_ok]
  constructor
  · rintro ⟨outcome, ho, alloc, ha, fills, hf, post, ⟨hrun, hcash, hlots⟩, rfl⟩
    obtain rfl := Except.ok.inj ((hb.allocateBatch_eq ho).symm.trans ha)
    obtain rfl := Except.ok.inj ((hb.generateCanonicalFills_eq ho).symm.trans hf)
    refine ⟨outcome, post, ho, hrun, hcash.2, fun hne => ?_, rfl⟩
    obtain ⟨f, hf'⟩ := List.exists_mem_of_ne_nil _ hne
    have := (hlots f hf').2
    rwa [hinst outcome f hf'] at this
  · rintro ⟨outcome, post, ho, hrun, hcash, hlots, rfl⟩
    obtain ⟨h1, h2⟩ := hb.sums_eq ho hrun
    refine ⟨outcome, ho, _, hb.allocateBatch_eq ho, _, hb.generateCanonicalFills_eq ho, post,
      ⟨hrun, ⟨h1, hcash⟩, fun f hf => ⟨h2 _, ?_⟩⟩, rfl⟩
    rw [hinst outcome f hf]
    exact hlots (List.ne_nil_of_mem hf)

end FairCross
