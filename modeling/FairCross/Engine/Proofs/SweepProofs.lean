import FairCross.Engine.Market
import FairCross.Engine.Proofs.BatchProofs
import FairCross.Library.BoundedSum

/-!
# The sweep

The buckets and the two cumulative passes of `computeVolumeMaximizersFromOrders` compute the demand
and the supply of every candidate price, and fail exactly when a side's total leaves 64 bits.
-/

namespace FairCross

open StdAlgorithm

/-! ## Candidate prices -/

theorem mem_candidatePrices [StdSort] {orders : List Order} {p : Price} :
    p ∈ candidatePricesFromOrders orders ↔ ∃ o ∈ orders, o.price = p := by
  unfold candidatePricesFromOrders
  rw [mem_unique, StdSort.mem_sort, List.mem_map]

theorem candidatePrices_sorted [StdSort] (orders : List Order) :
    (candidatePricesFromOrders orders).Pairwise (· < ·) := by
  have hkey : ∀ a b : Price, decide (a < b) = true ↔ id a < id b := by simp
  exact unique_sorted (StdSort.sort_sorted_of_key id hkey _)

theorem length_candidatePrices [StdSort] (orders : List Order) :
    (candidatePricesFromOrders orders).length ≤ orders.length := by
  have hlen := (unique_sublist (StdSort.sort (fun a b => decide (a < b))
    (orders.map (·.price)))).length_le
  rwa [(StdSort.sort_perm _ _).length_eq, List.length_map] at hlen

/-! ## Buckets -/

/-- The number in bucket `i.2` of the buy side (`i.1`) or of the sell side. -/
def Buckets.at (b : Buckets) (i : Bool × ℕ) : ℕ :=
  ((if i.1 then b.buyQtyAtPrice else b.sellQtyAtPrice).getD i.2 .zero).raw

/-- Both arrays have one bucket per candidate. -/
def Buckets.WellFormed (n : ℕ) (b : Buckets) : Prop :=
  b.buyQtyAtPrice.length = n ∧ b.sellQtyAtPrice.length = n

theorem ext_of_getD {l l' : List Qty} (hl : l.length = l'.length)
    (h : ∀ k, ((l.getD k .zero).raw : ℕ) = (l'.getD k .zero).raw) : l = l' := by
  refine List.ext_getElem hl fun k h1 h2 => ?_
  have := h k
  rw [List.getD_eq_getElem _ _ h1, List.getD_eq_getElem _ _ h2] at this
  exact Qty.ext_val this

/-- Arrays with any 64-bit numbers in them exist. -/
theorem exists_qtys (n : ℕ) {f : ℕ → ℕ} (hlt : ∀ k, f k < 2 ^ 64) (h0 : ∀ k, n ≤ k → f k = 0) :
    ∃ l : List Qty, l.length = n ∧ ∀ k, ((l.getD k .zero).raw : ℕ) = f k := by
  refine ⟨(List.range n).map fun k => ⟨⟨f k, hlt k⟩⟩, by simp, fun k => ?_⟩
  by_cases hk : k < n
  · rw [List.getD_eq_getElem _ _ (by simpa using hk)]; simp
  · rw [List.getD_eq_default _ _ (by simp; omega), h0 k (by omega)]; rfl

theorem exists_buckets (n : ℕ) {f : Bool × ℕ → ℕ} (hlt : ∀ i, f i < 2 ^ 64)
    (h0 : ∀ i, n ≤ i.2 → f i = 0) : ∃ b : Buckets, b.WellFormed n ∧ b.at = f := by
  obtain ⟨buy, hb, hb'⟩ := exists_qtys n (fun k => hlt (true, k)) fun k => h0 (true, k)
  obtain ⟨sell, hs, hs'⟩ := exists_qtys n (fun k => hlt (false, k)) fun k => h0 (false, k)
  refine ⟨⟨buy, sell⟩, ⟨hb, hs⟩, funext fun i => ?_⟩
  obtain ⟨i1, i2⟩ := i
  cases i1
  · exact hs' i2
  · exact hb' i2

theorem Buckets.WellFormed.at_eq_zero {n : ℕ} {b : Buckets} (hb : b.WellFormed n) {i : Bool × ℕ}
    (hi : n ≤ i.2) : b.at i = 0 := by
  obtain ⟨h1, h2⟩ := hb
  unfold Buckets.at
  split_ifs <;> rw [List.getD_eq_default _ _ (by omega)] <;> rfl

theorem bucketsReading (n : ℕ) : BoundedSum.Reading (Buckets.WellFormed n) Buckets.at where
  inj {s t} hs ht h := by
    obtain ⟨hs1, hs2⟩ := hs
    obtain ⟨ht1, ht2⟩ := ht
    cases s; cases t
    rw [Buckets.mk.injEq]
    exact ⟨ext_of_getD (hs1.trans ht1.symm) fun k => congrFun h (true, k),
      ext_of_getD (hs2.trans ht2.symm) fun k => congrFun h (false, k)⟩
  down {s m} hs hm := exists_buckets n
    (fun i => lt_of_le_of_lt (hm i) (by unfold Buckets.at; exact Fin.isLt _))
    fun i hi => Nat.le_zero.mp (hs.at_eq_zero hi ▸ hm i)

/-- What order `o` adds to bucket `i`. -/
def bucketWeight (candidates : List Price) (o : Order) (i : Bool × ℕ) : ℕ :=
  if decide (o.side = .buy) = i.1 ∧ candidates[i.2]? = some o.price then o.lots else 0

/-- Adding `q` to entry `idx` of an array. -/
theorem set_eq_ok (l l' : List Qty) (q : Qty) {idx : ℕ} (hidx : idx < l.length) :
    (∃ c, (l.getD idx .zero).checkedAdd q = .ok c ∧ l.set idx c = l') ↔
      l'.length = l.length ∧ ∀ k, ((l'.getD k .zero).raw : ℕ) =
        (l.getD k .zero).raw + if k = idx then (q.raw : ℕ) else 0 := by
  constructor
  · rintro ⟨c, hc, rfl⟩
    refine ⟨List.length_set .., fun k => ?_⟩
    rw [Qty.checkedAdd_eq_ok] at hc
    by_cases hk : k = idx
    · subst hk
      rw [List.getD_eq_getElem _ _ (by simpa using hidx)]
      simp [hc]
    · simp [List.getD_eq_getElem?_getD, Ne.symm hk, hk]
  · rintro ⟨hl, h⟩
    refine ⟨l'.getD idx .zero, ?_, ?_⟩
    · rw [Qty.checkedAdd_eq_ok, h idx, if_pos rfl]
    · refine ext_of_getD (by simp [hl]) fun k => ?_
      by_cases hk : k = idx
      · subst hk
        rw [List.getD_eq_getElem _ _ (by simpa using hidx)]
        simp
      · rw [h k, if_neg hk]
        simp [List.getD_eq_getElem?_getD, Ne.symm hk]

theorem addToBucket_eq_ok {candidates : List Price} (hsorted : candidates.Pairwise (· < ·))
    {b b' : Buckets} {o : Order} (ho : o.price ∈ candidates)
    (hb : b.WellFormed candidates.length) :
    addToBucket candidates b o = .ok b' ↔
      b'.WellFormed candidates.length ∧ b'.at = b.at + bucketWeight candidates o := by
  obtain ⟨idx, hidx, hp⟩ := List.getElem_of_mem ho
  have hlb : lowerBound candidates o.price = idx := by rw [← hp]; exact lowerBound_getElem hsorted hidx
  have hat : candidates[idx]? = some o.price := by rw [List.getElem?_eq_getElem hidx, hp]
  have hk : ∀ k, candidates[k]? = some o.price ↔ k = idx := by
    intro k
    constructor
    · intro hk
      obtain ⟨hlt, he⟩ := List.getElem?_eq_some_iff.mp hk
      rw [← hp] at he
      exact (List.Nodup.getElem_inj_iff (hsorted.imp ne_of_lt)).mp he
    · rintro rfl; exact hat
  obtain ⟨hb1, hb2⟩ := hb
  obtain ⟨buy, sell⟩ := b
  obtain ⟨buy', sell'⟩ := b'
  simp only at hb1 hb2
  simp only [addToBucket, hlb, hat, if_true]
  have hext : ∀ f : Bool × ℕ → ℕ, (⟨buy', sell'⟩ : Buckets).at = f ↔
      (∀ k, ((buy'.getD k .zero).raw : ℕ) = f (true, k)) ∧
        ∀ k, ((sell'.getD k .zero).raw : ℕ) = f (false, k) := by
    intro f
    constructor
    · rintro rfl; exact ⟨fun _ => rfl, fun _ => rfl⟩
    · rintro ⟨h1, h2⟩
      funext ⟨i, k⟩
      cases i
      · exact h2 k
      · exact h1 k
  rw [hext]
  have hself : ∀ {l l' : List Qty}, l'.length = l.length →
      ((∀ k, ((l'.getD k .zero).raw : ℕ) = (l.getD k .zero).raw) ↔ l = l') := by
    intro l l' hl
    exact ⟨fun h => (ext_of_getD hl h).symm, by rintro rfl; simp⟩
  split_ifs with hside
  · have h := set_eq_ok buy buy' o.qty (show idx < buy.length by omega)
    simp only [Result.map_eq_ok, Result.convert_eq_ok, Buckets.mk.injEq, bind_pure_comp,
      Buckets.WellFormed, bucketWeight, Buckets.at, Pi.add_apply, hside, hk, decide_true,
      true_and, Bool.true_eq_false, false_and, if_false, if_true, add_zero, Bool.false_eq_true]
    constructor
    · rintro ⟨c, hc, hset, rfl⟩
      obtain ⟨h1, h2⟩ := h.mp ⟨c, hc, hset⟩
      exact ⟨⟨h1.trans hb1, hb2⟩, h2, fun _ => rfl⟩
    · rintro ⟨⟨h1, h2⟩, h3, h4⟩
      obtain ⟨c, hc, hset⟩ := h.mpr ⟨h1.trans hb1.symm, h3⟩
      exact ⟨c, hc, hset, (hself (h2.trans hb2.symm)).mp h4⟩
  · have h := set_eq_ok sell sell' o.qty (show idx < sell.length by omega)
    simp only [Result.map_eq_ok, Result.convert_eq_ok, Buckets.mk.injEq, bind_pure_comp,
      Buckets.WellFormed, bucketWeight, Buckets.at, Pi.add_apply, hside, hk, decide_false,
      true_and, Bool.false_eq_true, false_and, if_false, if_true, add_zero]
    constructor
    · rintro ⟨c, hc, rfl, hset⟩
      obtain ⟨h1, h2⟩ := h.mp ⟨c, hc, hset⟩
      exact ⟨⟨hb1, h1.trans hb2⟩, fun _ => rfl, h2⟩
    · rintro ⟨⟨h1, h2⟩, h3, h4⟩
      obtain ⟨c, hc, hset⟩ := h.mpr ⟨h2.trans hb2.symm, h4⟩
      exact ⟨c, hc, (hself (h1.trans hb1.symm)).mp h3, hset⟩

variable {orders : List Order}

/-- The interests of one side, as the sweep tells them apart. -/
theorem sum_bucketWeight (hside : ∀ o ∈ orders, o.side = .buy ∨ o.side = .sell)
    {candidates : List Price} {k : ℕ} (hk : k < candidates.length) :
    (orders.map (bucketWeight candidates)).sum (true, k) =
        CallMarket.bucket Order.price Order.lots (sideOrders .buy orders) candidates[k] ∧
      (orders.map (bucketWeight candidates)).sum (false, k) =
        CallMarket.bucket Order.price Order.lots (sideOrders .sell orders) candidates[k] := by
  induction orders with
  | nil => simp [CallMarket.bucket, sideOrders]
  | cons o orders ih =>
    obtain ⟨ih1, ih2⟩ := ih fun o ho => hside o (List.mem_cons_of_mem _ ho)
    have hw : ∀ i, bucketWeight candidates o (i, k) =
        if decide (o.side = .buy) = i ∧ o.price = candidates[k] then o.lots else 0 := by
      intro i
      simp [bucketWeight, List.getElem?_eq_getElem hk, eq_comm]
    rw [List.map_cons, List.sum_cons, Pi.add_apply, Pi.add_apply, ih1, ih2, hw, hw]
    simp only [CallMarket.bucket, sideOrders, List.filter_cons]
    rcases hside o (List.mem_cons_self ..) with hs | hs <;>
      by_cases hp : o.price = candidates[k] <;>
      simp [hs, hp]

theorem bucketWeight_eq_zero {candidates : List Price} {o : Order} {i : Bool × ℕ}
    (hi : candidates.length ≤ i.2) : bucketWeight candidates o i = 0 := by
  simp [bucketWeight, List.getElem?_eq_none hi]

theorem sum_eq_zero_of_length_le {candidates : List Price} {i : Bool × ℕ}
    (hi : candidates.length ≤ i.2) : (orders.map (bucketWeight candidates)).sum i = 0 := by
  induction orders with
  | nil => rfl
  | cons o orders ih =>
    rw [List.map_cons, List.sum_cons, Pi.add_apply, ih, bucketWeight_eq_zero hi]

/-- The bucket loop succeeds exactly with the exact bucket sums. -/
theorem foldlM_addToBucket {b : Buckets} {candidates : List Price}
    (hsorted : candidates.Pairwise (· < ·)) (hmem : ∀ o ∈ orders, o.price ∈ candidates) :
    orders.foldlM (addToBucket candidates)
        ⟨List.replicate candidates.length .zero, List.replicate candidates.length .zero⟩ = .ok b ↔
      b.WellFormed candidates.length ∧ b.at = (orders.map (bucketWeight candidates)).sum := by
  have hz : Buckets.at ⟨List.replicate candidates.length .zero,
      List.replicate candidates.length .zero⟩ = 0 := by
    funext i
    simp only [Buckets.at, ite_self, List.getD_eq_getElem?_getD, List.getElem?_replicate,
      Pi.zero_apply]
    split_ifs <;> rfl
  rw [BoundedSum.foldlM_eq_ok (bucketsReading candidates.length) (w := bucketWeight candidates)
    (fun s o s' ho hs => addToBucket_eq_ok hsorted (hmem o ho) hs) ⟨by simp, by simp⟩, hz, zero_add]

/-! ## The cumulative passes -/

/-- The sum of a list of quantities. -/
def rawSum (l : List Qty) : ℕ := (l.map fun q => (q.raw : ℕ)).sum

theorem runningTotals_exists {s : Qty} {l : List Qty} :
    (∃ r, runningTotals s l = .ok r) ↔ (s.raw : ℕ) + rawSum l < 2 ^ 64 := by
  induction l generalizing s with
  | nil => simp [runningTotals, rawSum]
  | cons q l ih =>
    simp only [runningTotals, Result.bind_eq_ok, Result.convert_eq_ok, Result.pure_eq_ok,
      Qty.checkedAdd_eq_ok, rawSum, List.map_cons, List.sum_cons]
    constructor
    · rintro ⟨r, t, ht, r', hr', -⟩
      have := ih.mp ⟨r', hr'⟩
      unfold rawSum at this
      omega
    · intro h
      let t : Qty := ⟨⟨s.raw + q.raw, by omega⟩⟩
      obtain ⟨r', hr'⟩ := ih.mpr (show (t.raw : ℕ) + rawSum l < 2 ^ 64 by
        simp only [rawSum, t]; omega)
      exact ⟨t :: r', t, rfl, r', hr', rfl⟩

theorem runningTotals_spec {s : Qty} {l r : List Qty} (h : runningTotals s l = .ok r) :
    r.length = l.length ∧
      ∀ k (hk : k < r.length), (r[k].raw : ℕ) = s.raw + rawSum (l.take (k + 1)) := by
  induction l generalizing s r with
  | nil =>
    obtain rfl : [] = r := by simpa [runningTotals] using h
    simp
  | cons q l ih =>
    simp only [runningTotals, Result.bind_eq_ok, Result.convert_eq_ok, Result.pure_eq_ok,
      Qty.checkedAdd_eq_ok] at h
    obtain ⟨t, ht, r', hr', rfl⟩ := h
    obtain ⟨h1, h2⟩ := ih hr'
    refine ⟨by simp [h1], fun k hk => ?_⟩
    cases k with
    | zero => simp [ht, rawSum]
    | succ k =>
      rw [List.getElem_cons_succ, h2 k (by simpa using hk), ht]
      simp [rawSum, Nat.add_assoc]

/-! ## The result of the sweep -/

/-- The sweep computes demand, supply and volume of every candidate, and their maximum. -/
structure Sweep [StdSort] (orders : List Order) (m : VolumeMaximizers) : Prop where
  prices : m.evaluations.map (·.price) = candidatePricesFromOrders orders
  demand : ∀ e ∈ m.evaluations, (e.demand.raw : ℕ) = demandAt orders e.price
  supply : ∀ e ∈ m.evaluations, (e.supply.raw : ℕ) = supplyAt orders e.price
  volume : ∀ e ∈ m.evaluations, (e.executableVolume.raw : ℕ) = executableAt orders e.price
  le_max : ∀ e ∈ m.evaluations, e.executableVolume.raw ≤ m.maxVolume.raw
  max_attained : m.maxVolume = .zero ∨ ∃ e ∈ m.evaluations, e.executableVolume = m.maxVolume
  maximizing : m.maximizingPrices =
    (m.evaluations.filter (·.executableVolume = m.maxVolume)).map (·.price)

/-- The maximum loop of the sweep. -/
theorem foldl_max_spec (l : List CandidateEvaluation) (init : Qty) :
    let best := l.foldl
      (fun best e => if e.executableVolume.raw > best.raw then e.executableVolume else best) init
    init.raw ≤ best.raw ∧ (∀ e ∈ l, e.executableVolume.raw ≤ best.raw) ∧
      (best = init ∨ ∃ e ∈ l, e.executableVolume = best) := by
  induction l generalizing init with
  | nil => simp
  | cons e l ih =>
    obtain ⟨h1, h2, h3⟩ := ih (if e.executableVolume.raw > init.raw then e.executableVolume else init)
    have hle : init.raw ≤ (if e.executableVolume.raw > init.raw then e.executableVolume else init).raw ∧
        e.executableVolume.raw ≤
          (if e.executableVolume.raw > init.raw then e.executableVolume else init).raw := by
      split_ifs with h
      · exact ⟨le_of_lt h, le_refl _⟩
      · exact ⟨le_refl _, not_lt.mp h⟩
    simp only [List.foldl_cons]
    refine ⟨hle.1.trans h1, fun e' he' => ?_, ?_⟩
    · rcases List.mem_cons.mp he' with rfl | he'
      · exact hle.2.trans h1
      · exact h2 e' he'
    · rcases h3 with h3 | ⟨e', he', h3⟩
      · rw [h3]
        split_ifs with h
        · exact Or.inr ⟨e, List.mem_cons_self .., rfl⟩
        · exact Or.inl rfl
      · exact Or.inr ⟨e', List.mem_cons_of_mem _ he', h3⟩

theorem evaluateCandidate_volume (p : Price) (d s : Qty) :
    ((evaluateCandidate p d s).executableVolume.raw : ℕ) = min (d.raw : ℕ) s.raw := by
  unfold evaluateCandidate
  by_cases h : d.raw < s.raw
  · have h' : (d.raw : ℕ) < s.raw := h
    simp only [h, if_true]
    exact (Nat.min_eq_left h'.le).symm
  · have h' : (s.raw : ℕ) ≤ d.raw := not_lt.mp h
    simp only [h, if_false]
    exact (Nat.min_eq_right h').symm

/-- The bucket arrays, read as the bucket sums of the two sides. -/
theorem buckets_spec (hside : ∀ o ∈ orders, o.side = .buy ∨ o.side = .sell)
    {candidates : List Price} {b : Buckets} (hb : b.WellFormed candidates.length)
    (hat : b.at = (orders.map (bucketWeight candidates)).sum) :
    b.buyQtyAtPrice.map (fun q => (q.raw : ℕ)) = candidates.map
        (CallMarket.bucket Order.price Order.lots (sideOrders .buy orders)) ∧
      b.sellQtyAtPrice.map (fun q => (q.raw : ℕ)) = candidates.map
        (CallMarket.bucket Order.price Order.lots (sideOrders .sell orders)) := by
  obtain ⟨h1, h2⟩ := hb
  constructor
  · refine List.ext_getElem (by simp [h1]) fun k hk hk' => ?_
    have hk'' : k < candidates.length := by simpa using hk'
    have := congrFun hat (true, k)
    rw [(sum_bucketWeight hside hk'').1] at this
    rw [List.getElem_map, List.getElem_map, ← this]
    simp only [Buckets.at, if_true]
    rw [List.getD_eq_getElem]
  · refine List.ext_getElem (by simp [h2]) fun k hk hk' => ?_
    have hk'' : k < candidates.length := by simpa using hk'
    have := congrFun hat (false, k)
    rw [(sum_bucketWeight hside hk'').2] at this
    rw [List.getElem_map, List.getElem_map, ← this]
    simp only [Buckets.at, Bool.false_eq_true, if_false]
    rw [List.getD_eq_getElem]

theorem sideOrders_price_mem [StdSort] (side : Side) :
    ∀ o ∈ sideOrders side orders, o.price ∈ candidatePricesFromOrders orders := fun o ho =>
  mem_candidatePrices.mpr ⟨o, (mem_sideOrders.mp ho).1, rfl⟩

/-- The demand array: the running totals from the highest price down. -/
theorem demandTotals_spec [StdSort] {b : Buckets} {r : List Qty}
    (hb : b.buyQtyAtPrice.map (fun q => (q.raw : ℕ)) = (candidatePricesFromOrders orders).map
        (CallMarket.bucket Order.price Order.lots (sideOrders .buy orders)))
    (hr : runningTotals .zero b.buyQtyAtPrice.reverse = .ok r) :
    r.reverse.length = (candidatePricesFromOrders orders).length ∧
      ∀ k (hk : k < r.reverse.length) (hk' : k < (candidatePricesFromOrders orders).length),
        (r.reverse[k].raw : ℕ) = demandAt orders (candidatePricesFromOrders orders)[k] := by
  obtain ⟨hlen, hget⟩ := runningTotals_spec hr
  have hn : b.buyQtyAtPrice.length = (candidatePricesFromOrders orders).length := by
    simpa using congrArg List.length hb
  refine ⟨by simp [hlen, hn], fun k hk hk' => ?_⟩
  rw [List.getElem_reverse, hget, ← market_demand, Qty.zero_raw, zero_add]
  have hdrop : b.buyQtyAtPrice.reverse.take (r.length - 1 - k + 1) =
      (b.buyQtyAtPrice.drop k).reverse := by
    rw [List.take_reverse]
    congr 2
    simp only [List.length_reverse] at hk hlen
    omega
  rw [hdrop, rawSum, List.map_reverse, List.sum_reverse, List.map_drop, hb, ← List.map_drop]
  exact CallMarket.sum_drop_bucket _ _ (candidatePrices_sorted orders) (sideOrders_price_mem .buy) hk'

/-- The supply array: the running totals from the lowest price up. -/
theorem supplyTotals_spec [StdSort] {b : Buckets} {r : List Qty}
    (hb : b.sellQtyAtPrice.map (fun q => (q.raw : ℕ)) = (candidatePricesFromOrders orders).map
        (CallMarket.bucket Order.price Order.lots (sideOrders .sell orders)))
    (hr : runningTotals .zero b.sellQtyAtPrice = .ok r) :
    r.length = (candidatePricesFromOrders orders).length ∧
      ∀ k (hk : k < r.length) (hk' : k < (candidatePricesFromOrders orders).length),
        (r[k].raw : ℕ) = supplyAt orders (candidatePricesFromOrders orders)[k] := by
  obtain ⟨hlen, hget⟩ := runningTotals_spec hr
  have hn : b.sellQtyAtPrice.length = (candidatePricesFromOrders orders).length := by
    simpa using congrArg List.length hb
  refine ⟨hlen.trans hn, fun k hk hk' => ?_⟩
  rw [hget, ← market_supply, Qty.zero_raw, zero_add, rawSum, List.map_take, hb, ← List.map_take]
  exact CallMarket.sum_take_bucket _ _ (candidatePrices_sorted orders) (sideOrders_price_mem .sell) hk'

/-- The evaluations, one per candidate. -/
theorem evaluations_spec {candidates : List Price} {d s : List Qty}
    (hd : d.length = candidates.length) (hs : s.length = candidates.length)
    (hd' : ∀ k (hk : k < d.length) (hk' : k < candidates.length),
      (d[k].raw : ℕ) = demandAt orders candidates[k])
    (hs' : ∀ k (hk : k < s.length) (hk' : k < candidates.length),
      (s[k].raw : ℕ) = supplyAt orders candidates[k]) :
    let evs := List.zipWith (fun price (q : Qty × Qty) => evaluateCandidate price q.1 q.2)
      candidates (d.zip s)
    evs.map (·.price) = candidates ∧ ∀ e ∈ evs, (e.demand.raw : ℕ) = demandAt orders e.price ∧
      (e.supply.raw : ℕ) = supplyAt orders e.price ∧
      (e.executableVolume.raw : ℕ) = executableAt orders e.price := by
  intro evs
  have hlen : evs.length = candidates.length := by simp [evs, hd, hs]
  have hget : ∀ k (hk : k < evs.length) (hc : k < candidates.length) (hkd : k < d.length)
      (hks : k < s.length), evs[k] = evaluateCandidate candidates[k] d[k] s[k] := by
    intro k hk hc hkd hks
    simp [evs]
  constructor
  · refine List.ext_getElem (by simpa using hlen) fun k hk hk' => ?_
    rw [List.getElem_map, hget k (by omega) hk' (by omega) (by omega)]
    rfl
  · intro e he
    obtain ⟨k, hk, rfl⟩ := List.getElem_of_mem he
    rw [hget k hk (by omega) (by omega) (by omega)]
    have h1 := hd' k (by omega) (by omega)
    have h2 := hs' k (by omega) (by omega)
    refine ⟨h1, h2, ?_⟩
    rw [evaluateCandidate_volume, h1, h2]
    rfl

/-- **The sweep.** What it returns is demand, supply, volume and maximum as they are. -/
theorem computeVolumeMaximizers_spec [StdSort] (hside : ∀ o ∈ orders, o.side = .buy ∨ o.side = .sell)
    {m : VolumeMaximizers} (h : computeVolumeMaximizersFromOrders orders = .ok m) :
    Sweep orders m := by
  unfold computeVolumeMaximizersFromOrders at h
  simp only at h
  split_ifs at h with hempty
  · have hnil := List.length_eq_zero_iff.mp hempty
    obtain rfl := Except.ok.inj h
    exact ⟨by simp [hnil], by simp, by simp, by simp, by simp, Or.inl rfl, by simp⟩
  · simp only [Result.bind_eq_ok, Result.pure_eq_ok] at h
    obtain ⟨b, hb, s, hs, d, hd, rfl⟩ := h
    obtain ⟨hwf, hat⟩ := (foldlM_addToBucket (candidatePrices_sorted orders)
      fun o ho => mem_candidatePrices.mpr ⟨o, ho, rfl⟩).mp hb
    obtain ⟨hbuy, hsell⟩ := buckets_spec hside hwf hat
    obtain ⟨hdl, hd'⟩ := demandTotals_spec hbuy hd
    obtain ⟨hsl, hs'⟩ := supplyTotals_spec hsell hs
    obtain ⟨hprices, hevs⟩ := evaluations_spec hdl hsl hd' hs'
    obtain ⟨-, hle, hmax⟩ := foldl_max_spec (List.zipWith
      (fun price (q : Qty × Qty) => evaluateCandidate price q.1 q.2)
      (candidatePricesFromOrders orders) (d.reverse.zip s)) Qty.zero
    exact ⟨hprices, fun e he => (hevs e he).1, fun e he => (hevs e he).2.1,
      fun e he => (hevs e he).2.2, hle, hmax, rfl⟩

/-- The sum of an array whose entries are the buckets of one side is the side's total. -/
theorem rawSum_bucket [StdSort] {side : Side} {l : List Qty}
    (hl : l.map (fun q => (q.raw : ℕ)) = (candidatePricesFromOrders orders).map
      (CallMarket.bucket Order.price Order.lots (sideOrders side orders))) :
    rawSum l = totalLots (sideOrders side orders) := by
  rw [rawSum, hl]
  exact CallMarket.sum_all_bucket _ _ (candidatePrices_sorted orders) (sideOrders_price_mem side)

/-- **The sweep fails on the side totals only.** -/
theorem computeVolumeMaximizers_isOk [StdSort]
    (hside : ∀ o ∈ orders, o.side = .buy ∨ o.side = .sell) :
    (∃ m, computeVolumeMaximizersFromOrders orders = .ok m) ↔
      totalLots (sideOrders .buy orders) < 2 ^ 64 ∧
        totalLots (sideOrders .sell orders) < 2 ^ 64 := by
  unfold computeVolumeMaximizersFromOrders
  simp only
  split_ifs with hempty
  · have hnil : orders = [] := by
      rw [List.eq_nil_iff_forall_not_mem]
      intro o ho
      have := mem_candidatePrices.mpr ⟨o, ho, rfl⟩
      rw [List.length_eq_zero_iff.mp hempty] at this
      cases this
    subst hnil
    simp [sideOrders, totalLots]
  · simp only [Result.bind_eq_ok, Result.pure_eq_ok]
    have hfold := fun b => foldlM_addToBucket (b := b) (candidatePrices_sorted orders)
      fun o (ho : o ∈ orders) => mem_candidatePrices.mpr ⟨o, ho, rfl⟩
    constructor
    · rintro ⟨-, b, hb, s, hs, d, hd, -⟩
      obtain ⟨hwf, hat⟩ := (hfold b).mp hb
      obtain ⟨hbuy, hsell⟩ := buckets_spec hside hwf hat
      have h1 := runningTotals_exists.mp ⟨_, hd⟩
      have h2 := runningTotals_exists.mp ⟨_, hs⟩
      rw [rawSum, List.map_reverse, List.sum_reverse, ← rawSum, rawSum_bucket hbuy] at h1
      rw [rawSum_bucket hsell] at h2
      simp only [Qty.zero_raw, zero_add] at h1 h2
      exact ⟨h1, h2⟩
    · rintro ⟨hbuys, hsells⟩
      have hlt : ∀ i, (orders.map (bucketWeight (candidatePricesFromOrders orders))).sum i <
          2 ^ 64 := by
        rintro ⟨i, k⟩
        by_cases hk : k < (candidatePricesFromOrders orders).length
        · obtain ⟨h1, h2⟩ := sum_bucketWeight hside hk
          cases i
          · rw [h2]; exact lt_of_le_of_lt (CallMarket.bucket_le _ _ _ _) hsells
          · rw [h1]; exact lt_of_le_of_lt (CallMarket.bucket_le _ _ _ _) hbuys
        · rw [sum_eq_zero_of_length_le (not_lt.mp hk)]; norm_num
      obtain ⟨b, hwf, hat⟩ := exists_buckets _ hlt fun i hi => sum_eq_zero_of_length_le hi
      obtain ⟨hbuy, hsell⟩ := buckets_spec hside hwf hat
      have h1 : ∃ d, runningTotals .zero b.buyQtyAtPrice.reverse = .ok d := by
        rw [runningTotals_exists, rawSum, List.map_reverse, List.sum_reverse, ← rawSum,
          rawSum_bucket hbuy, Qty.zero_raw, zero_add]
        exact hbuys
      have h2 : ∃ s, runningTotals .zero b.sellQtyAtPrice = .ok s := by
        rw [runningTotals_exists, rawSum_bucket hsell, Qty.zero_raw, zero_add]
        exact hsells
      obtain ⟨d, hd⟩ := h1
      obtain ⟨s, hs⟩ := h2
      exact ⟨_, b, (hfold b).mpr ⟨hwf, hat⟩, s, hs, d, hd, rfl⟩

/-! ## The plain sums -/

/-- A checked sum over the orders that satisfy `p`. -/
theorem foldlM_checkedAdd (p : Order → Prop) [DecidablePred p] {orders : List Order} {t : Qty}
    (h : (t.raw : ℕ) + totalLots (orders.filter p) < 2 ^ 64) :
    ∃ q, orders.foldlM (fun total order => if p order then total.checkedAdd order.qty
        else (.ok total : Result Qty)) t = .ok q ∧
      (q.raw : ℕ) = t.raw + totalLots (orders.filter p) := by
  induction orders generalizing t with
  | nil => exact ⟨t, rfl, rfl⟩
  | cons o orders ih =>
    rw [List.foldlM_cons]
    by_cases ho : p o
    · rw [List.filter_cons_of_pos (by simpa using ho)] at h ⊢
      have hsum : totalLots (o :: orders.filter p) = o.lots + totalLots (orders.filter p) := by
        rw [totalLots, List.map_cons, List.sum_cons, totalLots]
      rw [hsum] at h ⊢
      have hlots : o.lots = o.qty.raw := rfl
      obtain ⟨t', ht', hv⟩ := Qty.exists_checkedAdd (a := t) (b := o.qty) (by omega)
      obtain ⟨q, hq, hqv⟩ := ih (t := t') (by omega)
      refine ⟨q, ?_, by omega⟩
      rw [if_pos ho, ht']
      exact hq
    · rw [List.filter_cons_of_neg (by simpa using ho)] at h ⊢
      obtain ⟨q, hq, hqv⟩ := ih h
      refine ⟨q, ?_, hqv⟩
      rw [if_neg ho]
      exact hq

/-- Demand is computed exactly when the buys fit 64 bits. -/
theorem demandFromOrders_eq {orders : List Order} (price : Price)
    (h : totalLots (sideOrders .buy orders) < 2 ^ 64) :
    ∃ d, demandFromOrders orders price = .ok d ∧ (d.raw : ℕ) = demandAt orders price := by
  have hfilter : orders.filter (fun o => decide (o.side = .buy ∧ o.price.raw ≥ price.raw)) =
      orders.filter fun o => o.side = .buy ∧ price ≤ o.price := List.filter_congr fun _ _ => rfl
  have hle := lt_of_le_of_lt (demandAt_le orders price) h
  rw [demandAt, ← hfilter] at hle ⊢
  obtain ⟨d, hd, hv⟩ := foldlM_checkedAdd (fun o : Order => o.side = .buy ∧ o.price.raw ≥ price.raw)
    (t := .zero) (by rw [Qty.zero_raw, Nat.zero_add]; exact hle)
  exact ⟨d, hd, by rw [hv, Qty.zero_raw, Nat.zero_add]⟩

/-- Supply is computed exactly when the sells fit 64 bits. -/
theorem supplyFromOrders_eq {orders : List Order} (price : Price)
    (h : totalLots (sideOrders .sell orders) < 2 ^ 64) :
    ∃ s, supplyFromOrders orders price = .ok s ∧ (s.raw : ℕ) = supplyAt orders price := by
  have hfilter : orders.filter (fun o => decide (o.side = .sell ∧ o.price.raw ≤ price.raw)) =
      orders.filter fun o => o.side = .sell ∧ o.price ≤ price := List.filter_congr fun _ _ => rfl
  have hle := lt_of_le_of_lt (supplyAt_le orders price) h
  rw [supplyAt, ← hfilter] at hle ⊢
  obtain ⟨s, hs, hv⟩ := foldlM_checkedAdd (fun o : Order => o.side = .sell ∧ o.price.raw ≤ price.raw)
    (t := .zero) (by rw [Qty.zero_raw, Nat.zero_add]; exact hle)
  exact ⟨s, hs, by rw [hv, Qty.zero_raw, Nat.zero_add]⟩

end FairCross
