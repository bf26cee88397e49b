import FairCross.Engine.Proofs.ExecutionProofs
import FairCross.Engine.Proofs.FundingProofs

/-!
# Dependence on the intake order and on `std::sort`

Of the three sorts on the path, the batch order and the remainder order separate all orders they
meet. The priority of in-the-money orders does not: orders of one side with the same price and the
same sequence number tie. A tie shows exactly when the clearing volume ends inside it
(`SplitTie`).
-/

namespace FairCross

open Apportion

/-- `Batch::create` followed by `execute_batch`. -/
def createAndExecute [StdSort] (batchId : BatchId) (instrument : InstrumentId) (orders : List Order)
    (pre : Ledger) : Result BatchExecutionResult := do
  let batch ← Batch.create batchId instrument orders
  executeBatch pre batch

/-! ## Clearing -/

theorem candidatePrices_sort (s s' : StdSort) (orders : List Order) :
    @candidatePricesFromOrders s orders = @candidatePricesFromOrders s' orders := by
  have h := @candidatePrices_sorted s orders
  have h' := @candidatePrices_sorted s' orders
  have hnd : ∀ {l : List Price}, l.Pairwise (· < ·) → l.Nodup := fun h => h.imp ne_of_lt
  have hp := (List.perm_ext_iff_of_nodup (hnd h) (hnd h')).mpr fun p =>
    (@mem_candidatePrices s orders p).trans (@mem_candidatePrices s' orders p).symm
  exact hp.eq_of_pairwise (fun a b _ _ hab hba => absurd (hab.trans hba) (lt_irrefl _)) h h'

theorem determineClearingOutcome_sort (s s' : StdSort) (batch : Batch) :
    @determineClearingOutcome s batch = @determineClearingOutcome s' batch := by
  unfold determineClearingOutcome computeVolumeMaximizersFromOrders
  rw [candidatePrices_sort s s']

/-! ## At-the-money shares -/

theorem atmFill_sort (s s' : StdSort) (v : ℕ) {atm : List Order} (hnd : (atm.map (·.id)).Nodup)
    (o : Order) : @atmFill s v atm o = @atmFill s' v atm o := by
  unfold atmFill
  rw [@StdSort.sort_eq s _ _ _ remainderKey remainderLess remainderLess_iff _ _ (remainderKey_inj hnd)
    (s'.sort_perm remainderLess _)
    (@StdSort.sort_sorted_of_key s' _ _ _ remainderKey remainderLess remainderLess_iff _)]

/-! ## In-the-money priority -/

/-- The lots of the orders that come before `o` on its side. -/
def aheadLots (orders : List Order) (o : Order) : ℕ :=
  totalLots (orders.filter fun a => a.side = o.side ∧ itmLess o.side a o)

/-- The lots of the orders that tie with `o` on its side, `o` included. -/
def tiedLots (orders : List Order) (o : Order) : ℕ :=
  totalLots (orders.filter fun a => a.side = o.side ∧ a.price = o.price ∧ a.seq = o.seq)

/-- Two in-the-money orders tie, and the volume ends inside the tie. -/
structure TieAt (orders : List Order) (cp : Price) (v : ℕ) (o o' : Order) : Prop where
  mem : o ∈ orders
  mem' : o' ∈ orders
  ne : o ≠ o'
  side : o'.side = o.side
  price : o'.price = o.price
  seq : o'.seq = o.seq
  inTheMoney : classifyOrder o cp = .inTheMoney
  ahead_lt : aheadLots orders o < v
  lt_tied : v < aheadLots orders o + tiedLots orders o

/-- An order before an in-the-money order of the same side is in the money, and so is one that ties
with it. -/
theorem inTheMoney_of_priority {cp : Price} {a o : Order} (hs : a.side = o.side)
    (hside : o.side = .buy ∨ o.side = .sell) (ho : classifyOrder o cp = .inTheMoney)
    (h : priorityKey o.side a ≤ priorityKey o.side o) : classifyOrder a cp = .inTheMoney := by
  have hle : (if o.side = .buy then 2 ^ 64 - (a.price.raw : ℕ) else (a.price.raw : ℕ)) ≤
      if o.side = .buy then 2 ^ 64 - (o.price.raw : ℕ) else (o.price.raw : ℕ) := by
    unfold priorityKey at h
    rw [Prod.Lex.toLex_le_toLex] at h
    omega
  have ha := a.price.raw.isLt
  have ho' := o.price.raw.isLt
  rcases hside with hb | hb
  · rw [(classifyOrder_buy hb cp).1, Price.lt_def] at ho
    rw [(classifyOrder_buy (hs.trans hb) cp).1, Price.lt_def]
    simp only [hb, if_true] at hle
    omega
  · rw [(classifyOrder_sell hb cp).1, Price.lt_def] at ho
    rw [(classifyOrder_sell (hs.trans hb) cp).1, Price.lt_def]
    simp only [hb, reduceCtorEq, if_false] at hle
    omega

section Priority

variable {orders : List Order} {cp : Price} {o : Order}
  (hside : o.side = .buy ∨ o.side = .sell) (hitm : classifyOrder o cp = .inTheMoney)
include hside hitm

/-- Among the in-the-money orders of the side of `o`, those before `o` are `aheadLots`. -/
theorem filter_before : ((moneynessOrders .inTheMoney cp o.side orders).filter
      fun a => priorityKey o.side a < priorityKey o.side o) =
    orders.filter fun a => a.side = o.side ∧ itmLess o.side a o := by
  rw [moneynessOrders, List.filter_filter]
  refine List.filter_congr fun a _ => ?_
  rw [← Bool.decide_and, decide_eq_decide, itmLess_iff]
  constructor
  · rintro ⟨hlt, hs, -⟩
    exact ⟨hs, hlt⟩
  · rintro ⟨hs, hlt⟩
    exact ⟨hlt, hs, inTheMoney_of_priority hs hside hitm hlt.le⟩

/-- Among the in-the-money orders of the side of `o`, those that tie with `o` are `tiedLots`. -/
theorem filter_tied : ((moneynessOrders .inTheMoney cp o.side orders).filter
      fun a => priorityKey o.side a = priorityKey o.side o) =
    orders.filter fun a => a.side = o.side ∧ a.price = o.price ∧ a.seq = o.seq := by
  rw [moneynessOrders, List.filter_filter]
  refine List.filter_congr fun a _ => ?_
  rw [← Bool.decide_and, decide_eq_decide, priorityKey_eq_iff]
  constructor
  · rintro ⟨heq, hs, -⟩
    exact ⟨hs, heq⟩
  · rintro ⟨hs, heq⟩
    exact ⟨heq, hs, inTheMoney_of_priority hs hside hitm
      ((priorityKey_eq_iff o.side a o).mpr heq).le⟩

/-- Without a tie at the volume, an in-the-money order receives the same from every `std::sort`. -/
theorem itmFill_sort (s s' : StdSort) {v : ℕ} (hnd : orders.Nodup) (ho : o ∈ orders)
    (htie : ∀ o', ¬ TieAt orders cp v o o') :
    @itmFill s o.side v (moneynessOrders .inTheMoney cp o.side orders) o =
      @itmFill s' o.side v (moneynessOrders .inTheMoney cp o.side orders) o := by
  have hkey := itmLess_iff o.side
  have hmem : o ∈ moneynessOrders .inTheMoney cp o.side orders :=
    mem_moneynessOrders.mpr ⟨ho, rfl, hitm⟩
  have hp := s.sort_perm (itmLess o.side) (moneynessOrders .inTheMoney cp o.side orders)
  have hp' := s'.sort_perm (itmLess o.side) (moneynessOrders .inTheMoney cp o.side orders)
  have hbefore := (((hp'.filter fun a => decide (priorityKey o.side a < priorityKey o.side o)).map
    Order.lots).sum_eq).trans (congrArg totalLots (filter_before hside hitm))
  have htied := (((hp'.filter fun a => decide (priorityKey o.side a = priorityKey o.side o)).map
    Order.lots).sum_eq).trans (congrArg totalLots (filter_tied hside hitm))
  unfold itmFill
  split_ifs
  · refine greedyFill_sorted_eq (priorityKey o.side) Order.lots (hp.trans hp'.symm)
      (hp'.nodup_iff.mpr (hnd.filter _))
      (@StdSort.sort_sorted_of_key s' _ _ _ (priorityKey o.side) _ hkey _)
      (@StdSort.sort_sorted_of_key s _ _ _ (priorityKey o.side) _ hkey _)
      (hp'.mem_iff.mpr hmem) ?_
    rw [hbefore, htied]
    by_cases h1 : v ≤ aheadLots orders o
    · exact Or.inl h1
    by_cases h2 : aheadLots orders o + tiedLots orders o ≤ v
    · exact Or.inr (Or.inl h2)
    refine Or.inr (Or.inr fun a ha hk => ?_)
    by_contra hne
    obtain ⟨ha, hs, -⟩ := mem_moneynessOrders.mp (hp'.mem_iff.mp ha)
    obtain ⟨hprice, hseq⟩ := (priorityKey_eq_iff _ _ _).mp hk
    exact htie a ⟨ho, ha, Ne.symm hne, hs, hprice, hseq, hitm, not_le.mp h1, not_le.mp h2⟩
  · rfl

end Priority

/-- Without a tie at the clearing volume, the canonical fills do not depend on `std::sort`. -/
theorem canonicalFill_sort (s s' : StdSort) {orders : List Order} {outcome : ClearingOutcome}
    (hids : (orders.map (·.id)).Nodup) {o : Order} (ho : o ∈ orders)
    (hside : o.side = .buy ∨ o.side = .sell)
    (htie : ∀ cp, outcome.clearingPrice = some cp →
      ∀ o', ¬ TieAt orders cp outcome.executableVolume.raw o o') :
    @canonicalFill s outcome orders o = @canonicalFill s' outcome orders o := by
  unfold canonicalFill
  cases hcp : outcome.clearingPrice with
  | none => rfl
  | some cp =>
    simp only [sideFill]
    cases hc : classifyOrder o cp with
    | inTheMoney => exact itmFill_sort hside hc s s' hids.of_map ho (htie cp hcp)
    | atTheMoney => exact atmFill_sort s s' _ (hids.sublist (List.filter_sublist.map _)) o
    | outOfTheMoney => rfl

theorem executeBatch_sort (s s' : StdSort) {batch : Batch} (hb : batch.Accepted) (pre : Ledger)
    (htie : ∀ outcome, @determineClearingOutcome s batch = .ok outcome →
      ∀ cp, outcome.clearingPrice = some cp →
        ∀ o o', ¬ TieAt batch.orders cp outcome.executableVolume.raw o o') :
    @executeBatch s pre batch = @executeBatch s' pre batch := by
  unfold executeBatch
  cases ho : @determineClearingOutcome s batch with
  | error e => rw [← determineClearingOutcome_sort s s', ho]; rfl
  | ok outcome =>
    have ho' : @determineClearingOutcome s' batch = .ok outcome :=
      (determineClearingOutcome_sort s' s batch).trans ho
    have halloc : @canonicalAllocation s outcome batch = @canonicalAllocation s' outcome batch := by
      unfold canonicalAllocation
      congr 1
      refine List.map_congr_left fun o hmem => ?_
      rw [canonicalFill_sort s s' hb.orders.ids_nodup hmem (hb.side o hmem)
        fun cp hcp => htie outcome ho cp hcp o]
    have ha := @Batch.Accepted.allocateBatch_eq batch hb s outcome ho
    have ha' := @Batch.Accepted.allocateBatch_eq batch hb s' outcome ho'
    rw [ho']
    simp only [Result.convert, bind, Except.bind, ha, ha', halloc]

/-! ## A tie at the volume shows -/

/-- Two implementations of `std::sort` that leave a tie in opposite orders fill its first order
differently. -/
theorem exists_itmFill_ne {orders : List Order} {cp : Price} {v : ℕ} {o o' : Order}
    (hside : o.side = .buy ∨ o.side = .sell) (hpos : ∀ o ∈ orders, 0 < o.lots)
    (hnd : orders.Nodup) (htie : TieAt orders cp v o o') :
    ∃ a ∈ orders, a.side = o.side ∧ classifyOrder a cp = .inTheMoney ∧
      @itmFill .stable o.side v (moneynessOrders .inTheMoney cp o.side orders) a ≠
        @itmFill .reversing o.side v (moneynessOrders .inTheMoney cp o.side orders) a := by
  obtain ⟨ho, ho', hne, hs', hprice, hseq, hitm, hahead, hlt⟩ := htie
  have hkey := itmLess_iff o.side
  set itm := moneynessOrders .inTheMoney cp o.side orders with hitmdef
  have hmem' : o' ∈ itm.filter fun a => priorityKey o.side a = priorityKey o.side o := by
    rw [hitmdef, filter_tied hside hitm]
    simp [ho', hs', hprice, hseq]
  have hmem : o ∈ itm.filter fun a => priorityKey o.side a = priorityKey o.side o := by
    rw [hitmdef, filter_tied hside hitm]
    simp [ho]
  have htied : ((itm.filter fun a => priorityKey o.side a = priorityKey o.side o).map
      Order.lots).sum = tiedLots orders o := congrArg totalLots (filter_tied hside hitm)
  have hbefore : ((itm.filter fun a => priorityKey o.side a < priorityKey o.side o).map
      Order.lots).sum = aheadLots orders o := congrArg totalLots (filter_before hside hitm)
  -- the tie has a first order `a`, and others after it
  cases hc : itm.filter (fun a => priorityKey o.side a = priorityKey o.side o) with
  | nil => rw [hc] at hmem; cases hmem
  | cons a rest =>
    have hrest : 0 < (rest.map Order.lots).sum := by
      have hex : ∃ b, b ∈ rest := by
        rw [hc] at hmem hmem'
        by_cases hoa : o = a
        · exact ⟨o', (List.mem_cons.mp hmem').resolve_left fun h => hne (hoa.trans h.symm)⟩
        · exact ⟨o, (List.mem_cons.mp hmem).resolve_left hoa⟩
      obtain ⟨b, hb⟩ := hex
      have hbm : b ∈ itm := (List.mem_filter.mp (hc ▸ List.mem_cons_of_mem a hb)).1
      exact lt_of_lt_of_le (hpos b (mem_moneynessOrders.mp hbm).1)
        (List.single_le_sum (fun _ _ => Nat.zero_le _) _ (List.mem_map.mpr ⟨b, hb, rfl⟩))
    have ha : a ∈ itm.filter fun a => priorityKey o.side a = priorityKey o.side o :=
      hc ▸ List.mem_cons_self ..
    obtain ⟨haitm, hak⟩ := List.mem_filter.mp ha
    have hak : priorityKey o.side a = priorityKey o.side o := by simpa using hak
    obtain ⟨haorders, has, hac⟩ := mem_moneynessOrders.mp haitm
    refine ⟨a, haorders, has, hac, ?_⟩
    have hal := hpos a haorders
    have harest : a ∉ rest := by
      have : (a :: rest).Nodup := hc ▸ (hnd.filter _).filter _
      exact (List.nodup_cons.mp this).1
    -- the claims ahead of `a` in the two arrangements
    have haheadOf : ∀ (s : StdSort), ahead Order.lots (s.sort (itmLess o.side) itm) a =
        aheadLots orders o + ahead Order.lots ((s.sort (itmLess o.side) itm).filter
          fun b => priorityKey o.side b = priorityKey o.side o) a := by
      intro s
      have hp := s.sort_perm (itmLess o.side) itm
      rw [ahead_sorted (priorityKey o.side) Order.lots
        (@StdSort.sort_sorted_of_key s _ _ _ (priorityKey o.side) _ hkey itm)
        (hp.mem_iff.mpr haitm), hak, ← hbefore,
        ((hp.filter fun b => decide (priorityKey o.side b < priorityKey o.side o)).map
          Order.lots).sum_eq]
    have hstable := haheadOf .stable
    rw [StdSort.filter_stable hkey, hc, ahead_cons_self] at hstable
    have hrev := haheadOf .reversing
    have hlast : ahead Order.lots (rest.reverse ++ [a]) a = (rest.map Order.lots).sum := by
      rw [ahead, List.takeWhile_append_of_pos]
      · simp
      · intro b hb
        simp only [ne_eq, decide_not, Bool.not_eq_eq_eq_not, Bool.not_true, decide_eq_false_iff_not]
        rintro rfl
        exact harest (List.mem_reverse.mp hb)
    rw [StdSort.filter_reversing hkey, hc, List.reverse_cons, hlast] at hrev
    have hsum : a.lots + (rest.map Order.lots).sum = tiedLots orders o := by
      rw [← htied, hc, List.map_cons, List.sum_cons]
    have htotal : aheadLots orders o + tiedLots orders o ≤ totalLots itm := by
      have hp := StdSort.reversing.sort_perm (itmLess o.side) itm
      have := ahead_add_claim_le Order.lots (hp.mem_iff.mpr haitm)
      rw [hrev, (hp.map Order.lots).sum_eq] at this
      unfold totalLots
      omega
    have hv : v ≤ totalLots itm := by omega
    simp only [itmFill, hv, if_true, greedyFill, hstable, hrev]
    omega

/-- A tie at the clearing volume makes executions differ. -/
theorem exists_executeBatch_ne {batch : Batch} (hb : batch.Accepted) {outcome : ClearingOutcome}
    (h : @determineClearingOutcome .stable batch = .ok outcome) {cp : Price}
    (hcp : outcome.clearingPrice = some cp) {o o' : Order}
    (htie : TieAt batch.orders cp outcome.executableVolume.raw o o') :
    ∃ pre, @executeBatch .stable pre batch ≠ @executeBatch .reversing pre batch := by
  obtain ⟨a, ha, has, hac, hne⟩ := exists_itmFill_ne (hb.side o htie.mem) hb.lots_pos
    hb.orders_nodup htie
  obtain ⟨pre, r, hr, halloc⟩ := @Batch.Accepted.exists_executing .stable _ hb _ h
  refine ⟨pre, fun heq => hne ?_⟩
  rw [hr] at heq
  obtain ⟨outcome', post, ho', -, -, -, hr'⟩ :=
    (@Batch.Accepted.executeBatch_eq_ok .reversing _ hb pre r).mp heq.symm
  rw [determineClearingOutcome_sort .reversing .stable, h] at ho'
  obtain rfl := Except.ok.inj ho'
  have hcanon : @canonicalAllocation .stable outcome batch =
      @canonicalAllocation .reversing outcome batch := by
    rw [← halloc, ← hr']
  have hmap := congrArg BatchAllocation.allocations hcanon
  unfold canonicalAllocation at hmap
  have hfill := congrArg (fun x : OrderAllocation => (x.allocatedQty.raw : ℕ))
    (List.map_inj_left.mp hmap a ha)
  have h1 := toU64_fill (@Batch.Accepted.isAllocation _ hb .stable _ h) ha
  have h2 := toU64_fill (@Batch.Accepted.isAllocation _ hb .reversing outcome
    ((determineClearingOutcome_sort _ _ _).trans h)) ha
  simp only [OrderAllocation.of] at hfill
  rw [h1, h2] at hfill
  simpa only [canonicalFill, hcp, sideFill, hac, has] using hfill

/-! ## The exact condition -/

/-- The clearing volume and price of a list of orders, from the curves alone: the largest volume, and
the midpoint of the lowest and the highest order price that executes it. -/
structure ClearsAt (orders : List Order) (cp : Price) (v : ℕ) : Prop where
  optimal : IsGreatest (executableVolumes orders) v
  pos : 0 < v
  midpoint : ∃ lo hi,
    IsLeast {p : Price | (∃ o ∈ orders, o.price = p) ∧ executableAt orders p = v} lo ∧
    IsGreatest {p : Price | (∃ o ∈ orders, o.price = p) ∧ executableAt orders p = v} hi ∧
    (cp.raw : ℕ) = (lo.raw + hi.raw : ℕ) / 2

/-- The batch clears, and its volume ends inside a tie of in-the-money orders. -/
def SplitTie (orders : List Order) : Prop :=
  (totalLots (sideOrders .buy orders) < 2 ^ 64 ∧ totalLots (sideOrders .sell orders) < 2 ^ 64) ∧
    ∃ cp v, ClearsAt orders cp v ∧ ∃ o o', TieAt orders cp v o o'

theorem Batch.Accepted.clearsAt_iff [StdSort] {batch : Batch} (hb : batch.Accepted)
    {outcome : ClearingOutcome} (h : determineClearingOutcome batch = .ok outcome) {cp : Price}
    {v : ℕ} : ClearsAt batch.orders cp v ↔
      outcome.clearingPrice = some cp ∧ (outcome.executableVolume.raw : ℕ) = v := by
  have hclears := hb.clears h
  obtain ⟨m, hm, rfl⟩ := determineClearingOutcome_eq_ok.mp h
  have hs := computeVolumeMaximizers_spec hb.side hm
  have hset : {p : Price | (∃ o ∈ batch.orders, o.price = p) ∧
      executableAt batch.orders p = m.maxVolume.raw} = {p | p ∈ m.maximizingPrices} :=
    Set.ext fun p => hs.mem_maximizing_iff.symm
  constructor
  · rintro ⟨hopt, hpos, lo, hi, hlo, hhi, hcp⟩
    obtain rfl : (m.maxVolume.raw : ℕ) = v := hclears.optimal.unique hopt
    refine ⟨?_, rfl⟩
    rw [hset] at hlo hhi
    rcases hs.resolve_eq fun o ho => (hb.orders.order o ho).price_pos with
      ⟨-, h0⟩ | ⟨pMin, hmin, pMax, hmax, hbounds, -, he⟩
    · omega
    · have h1 : lo = pMin := hlo.unique ⟨hmin, fun q hq => (hbounds q hq).1⟩
      have h2 : hi = pMax := hhi.unique ⟨hmax, fun q hq => (hbounds q hq).2⟩
      subst h1 h2
      simp only [he, Option.some.injEq]
      exact Price.ext (Fin.ext ((midpoint_val (hbounds _ hmin).2).trans hcp.symm))
  · rintro ⟨hcp, rfl⟩
    refine ⟨hclears.optimal, by rw [← hclears.isSome_iff, hcp]; rfl, ?_⟩
    rw [hset]
    rcases hs.resolve_eq fun o ho => (hb.orders.order o ho).price_pos with
      ⟨hn, -⟩ | ⟨pMin, hmin, pMax, hmax, hbounds, -, he⟩
    · simp only [hn] at hcp; cases hcp
    · obtain rfl := Option.some.inj (he.symm.trans hcp)
      exact ⟨pMin, pMax, ⟨hmin, fun q hq => (hbounds q hq).1⟩, ⟨hmax, fun q hq => (hbounds q hq).2⟩,
        midpoint_val (hbounds _ hmin).2⟩

section Perm

variable {l l' : List Order} (hp : l'.Perm l)
include hp

theorem totalLots_filter_perm (q : Order → Bool) : totalLots (l'.filter q) = totalLots (l.filter q) :=
  ((hp.filter q).map _).sum_eq

theorem executableAt_perm (p : Price) : executableAt l' p = executableAt l p := by
  unfold executableAt demandAt supplyAt
  rw [totalLots_filter_perm hp, totalLots_filter_perm hp]

theorem TieAt.perm {cp : Price} {v : ℕ} {o o' : Order} (h : TieAt l cp v o o') :
    TieAt l' cp v o o' := by
  have h1 := h.ahead_lt
  have h2 := h.lt_tied
  unfold aheadLots at h1
  unfold aheadLots tiedLots at h2
  refine ⟨hp.mem_iff.mpr h.mem, hp.mem_iff.mpr h.mem', h.ne, h.side, h.price, h.seq, h.inTheMoney,
    ?_, ?_⟩
  · rw [aheadLots, totalLots_filter_perm hp]; exact h1
  · rw [aheadLots, tiedLots, totalLots_filter_perm hp, totalLots_filter_perm hp]; exact h2

theorem SplitTie.perm (h : SplitTie l) : SplitTie l' := by
  obtain ⟨⟨hbuy, hsell⟩, cp, v, ⟨hopt, hpos, hmid⟩, o, o', htie⟩ := h
  have hexec : ∀ p, executableAt l' p = executableAt l p := executableAt_perm hp
  refine ⟨⟨?_, ?_⟩, cp, v, ⟨?_, hpos, ?_⟩, o, o', htie.perm hp⟩
  · rw [sideOrders, totalLots_filter_perm hp]; exact hbuy
  · rw [sideOrders, totalLots_filter_perm hp]; exact hsell
  · simpa only [executableVolumes, hexec] using hopt
  · simpa only [hexec, hp.mem_iff] using hmid

end Perm

/-- **Execution depends only on the set of orders, unless a tie is split.** The result is one and the
same for every intake order and every `std::sort` exactly when the clearing volume does not end inside
a group of in-the-money orders of one side that share price and sequence number. -/
theorem createAndExecute_deterministic_iff [StdSort] {batchId : BatchId} {instrument : InstrumentId}
    {orders : List Order} {batch : Batch}
    (hb : Batch.create batchId instrument orders = .ok batch) :
    (∀ (s s' : StdSort) (orders' : List Order) (pre : Ledger), orders'.Perm orders →
      @createAndExecute s batchId instrument orders' pre =
        @createAndExecute s' batchId instrument orders pre) ↔ ¬ SplitTie orders := by
  obtain ⟨hacc, hnew⟩ := Batch.create_eq_ok.mp hb
  have haccepted := Batch.accepted_of_create hb
  have hrun : ∀ (s : StdSort) (orders' : List Order) (pre : Ledger), orders'.Perm orders →
      @createAndExecute s batchId instrument orders' pre = @executeBatch s pre batch :=
    fun s orders' pre hp => by
      have hcreate : @Batch.create s batchId instrument orders' = .ok batch :=
        (Batch.create_perm _ s batchId instrument hp hacc).symm.trans hb
      rw [createAndExecute, hcreate]
      rfl
  have hperm : batch.orders.Perm orders := hnew ▸ StdSort.sort_perm _ _
  constructor
  · intro hall hsplit
    obtain ⟨htot, cp, v, hclear, o, o', htie⟩ := hsplit.perm hperm
    obtain ⟨m, hm⟩ := (@computeVolumeMaximizers_isOk _ .stable haccepted.side).mpr htot
    have ho := (@determineClearingOutcome_eq_ok .stable _ _).mpr ⟨m, hm, rfl⟩
    obtain ⟨hcp, rfl⟩ := (@Batch.Accepted.clearsAt_iff .stable _ haccepted _ ho _ _).mp hclear
    obtain ⟨pre, hne⟩ := exists_executeBatch_ne haccepted ho hcp htie
    refine hne ?_
    have := hall .stable .reversing orders pre (.refl _)
    rwa [hrun _ _ _ (.refl _), hrun _ _ _ (.refl _)] at this
  · intro hno s s' orders' pre hp
    rw [hrun s orders' pre hp, hrun s' orders pre (.refl _)]
    refine executeBatch_sort s s' haccepted pre fun outcome ho cp hcp o o' htie => hno ?_
    refine SplitTie.perm hperm.symm ⟨⟨?_, ?_⟩, cp, _,
      (@Batch.Accepted.clearsAt_iff s _ haccepted _ ho _ _).mpr ⟨hcp, rfl⟩, o, o', htie⟩
    · exact @Batch.Accepted.totals_lt _ haccepted s _ ho _ (Or.inl rfl)
    · exact @Batch.Accepted.totals_lt _ haccepted s _ ho _ (Or.inr rfl)

/-- Two buys of 10 with one price and one sequence number against a sell of 10. -/
def tiedOrders : List Order :=
  [exampleOrder 1 1 .buy 110 10 0, exampleOrder 2 2 .buy 110 10 0, exampleOrder 3 3 .sell 100 10 1]

/-- The buyers can both pay. -/
def tiedLedger : Ledger :=
  ((Ledger.empty.insertAccount (exampleAccount 1 2000 [])).insertAccount
    (exampleAccount 2 2000 [])).insertAccount (exampleAccount 3 0 [(7, 10)])

theorem createAndExecute_deterministic_example : SplitTie tiedOrders := by
  by_contra hno
  have := (@createAndExecute_deterministic_iff .stable ⟨1⟩ ⟨7⟩ tiedOrders ⟨⟨1⟩, ⟨7⟩, tiedOrders⟩
    (by decide +kernel)).mpr hno .stable .reversing tiedOrders tiedLedger (.refl _)
  revert this
  decide +kernel

/-- Two permitted outcomes of `std::sort` fill different buyers. -/
theorem createAndExecute_not_deterministic :
    @createAndExecute .stable ⟨1⟩ ⟨7⟩ tiedOrders tiedLedger ≠
      @createAndExecute .reversing ⟨1⟩ ⟨7⟩ tiedOrders tiedLedger := by
  decide +kernel

end FairCross
