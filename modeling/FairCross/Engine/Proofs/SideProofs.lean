import FairCross.Engine.Allocation
import FairCross.Engine.Market
import FairCross.Engine.Proofs.BatchProofs
import FairCross.Library.Apportion

/-!
# The allocation of one side

`sideFill` says in exact numbers what one side's orders receive. The machine arithmetic of
`allocateSide` computes it (`allocateSide_eq`), and it hands out exactly the target volume
(`sum_sideFill`).
-/

namespace FairCross

open Apportion

variable {orders : List Order}

/-! ## Moneyness -/

/-- The orders of one side with one moneyness, in batch order. -/
def moneynessOrders (k : OrderMoneyness) (cp : Price) (side : Side) (orders : List Order) :
    List Order :=
  orders.filter fun o => o.side = side ∧ classifyOrder o cp = k

theorem mem_moneynessOrders {k : OrderMoneyness} {cp : Price} {side : Side} {o : Order} :
    o ∈ moneynessOrders k cp side orders ↔ o ∈ orders ∧ o.side = side ∧ classifyOrder o cp = k := by
  simp [moneynessOrders]

/-- A sum over one side, by moneyness. -/
theorem sum_sideOrders (f : Order → ℕ) (cp : Price) (side : Side) (orders : List Order) :
    ((sideOrders side orders).map f).sum =
      ((moneynessOrders .inTheMoney cp side orders).map f).sum +
        ((moneynessOrders .atTheMoney cp side orders).map f).sum +
        ((moneynessOrders .outOfTheMoney cp side orders).map f).sum := by
  induction orders with
  | nil => rfl
  | cons o orders ih =>
    simp only [sideOrders, moneynessOrders, Bool.decide_and] at ih ⊢
    by_cases hs : o.side = side
    · cases hc : classifyOrder o cp <;> simp [hs, hc, ih] <;> omega
    · simp [hs, ih]

theorem classifyOrder_buy {o : Order} (hs : o.side = .buy) (cp : Price) :
    (classifyOrder o cp = .inTheMoney ↔ cp < o.price) ∧
      (classifyOrder o cp = .atTheMoney ↔ o.price = cp) ∧
      (classifyOrder o cp = .outOfTheMoney ↔ o.price < cp) := by
  simp only [classifyOrder, hs, if_true, Price.lt_def, Price.ext_iff, Fin.ext_iff, gt_iff_lt,
    Fin.lt_def]
  split_ifs <;> simp <;> omega

/-- Every order that is not a buy is classified as a sell. -/
theorem classifyOrder_of_ne_buy {o : Order} (hs : o.side ≠ .buy) (cp : Price) :
    (classifyOrder o cp = .inTheMoney ↔ o.price < cp) ∧
      (classifyOrder o cp = .atTheMoney ↔ o.price = cp) ∧
      (classifyOrder o cp = .outOfTheMoney ↔ cp < o.price) := by
  simp only [classifyOrder, hs, if_false, Price.lt_def, Price.ext_iff, Fin.ext_iff, Fin.lt_def]
  split_ifs <;> simp <;> omega

theorem classifyOrder_sell {o : Order} (hs : o.side = .sell) (cp : Price) :
    (classifyOrder o cp = .inTheMoney ↔ o.price < cp) ∧
      (classifyOrder o cp = .atTheMoney ↔ o.price = cp) ∧
      (classifyOrder o cp = .outOfTheMoney ↔ cp < o.price) :=
  classifyOrder_of_ne_buy (by rw [hs]; simp) cp

/-- The quantity of one side that can trade at `cp`. -/
def marketableLots (cp : Price) (side : Side) (orders : List Order) : ℕ :=
  totalLots (moneynessOrders .inTheMoney cp side orders) +
    totalLots (moneynessOrders .atTheMoney cp side orders)

theorem marketableLots_le (cp : Price) (side : Side) (orders : List Order) :
    marketableLots cp side orders ≤ totalLots (sideOrders side orders) := by
  have h := sum_sideOrders Order.lots cp side orders
  unfold marketableLots totalLots
  omega

/-- An order can trade unless it is out of the money. -/
theorem marketableLots_eq (cp : Price) (side : Side) (orders : List Order) :
    marketableLots cp side orders =
      totalLots (orders.filter fun o => o.side = side ∧ classifyOrder o cp ≠ .outOfTheMoney) := by
  induction orders with
  | nil => rfl
  | cons o orders ih =>
    simp only [marketableLots, moneynessOrders, totalLots, Bool.decide_and, ne_eq, decide_not] at ih ⊢
    by_cases hs : o.side = side
    · cases hc : classifyOrder o cp <;> simp [hs, hc, ← ih] <;> omega
    · simp [hs, ih]

theorem marketableLots_buy (cp : Price) (orders : List Order) :
    marketableLots cp .buy orders = demandAt orders cp := by
  rw [marketableLots_eq, demandAt]
  refine congrArg totalLots (List.filter_congr fun o _ => decide_eq_decide.mpr ?_)
  exact and_congr_right fun hs => by rw [ne_eq, (classifyOrder_buy hs cp).2.2, not_lt]

theorem marketableLots_sell (cp : Price) (orders : List Order) :
    marketableLots cp .sell orders = supplyAt orders cp := by
  rw [marketableLots_eq, supplyAt]
  refine congrArg totalLots (List.filter_congr fun o _ => decide_eq_decide.mpr ?_)
  exact and_congr_right fun hs => by rw [ne_eq, (classifyOrder_sell hs cp).2.2, not_lt]

/-- The partition loop splits the side and adds its two totals up, when they fit. -/
theorem foldlM_partitionStep (cp : Price) (side : Side) (orders : List Order) {p : SidePartition}
    (hitm : (p.qItm.raw : ℕ) + totalLots (moneynessOrders .inTheMoney cp side orders) < 2 ^ 64)
    (hatm : (p.qAtm.raw : ℕ) + totalLots (moneynessOrders .atTheMoney cp side orders) < 2 ^ 64) :
    ∃ p', orders.foldlM (partitionStep cp side) p = .ok p' ∧
      p'.itmOrders = p.itmOrders ++ moneynessOrders .inTheMoney cp side orders ∧
      p'.atmOrders = p.atmOrders ++ moneynessOrders .atTheMoney cp side orders ∧
      (p'.qItm.raw : ℕ) = p.qItm.raw + totalLots (moneynessOrders .inTheMoney cp side orders) ∧
      (p'.qAtm.raw : ℕ) = p.qAtm.raw + totalLots (moneynessOrders .atTheMoney cp side orders) := by
  induction orders generalizing p with
  | nil => exact ⟨p, rfl, by simp [moneynessOrders, totalLots]⟩
  | cons o orders ih =>
    simp only [List.foldlM_cons, partitionStep, moneynessOrders, totalLots] at hitm hatm ih ⊢
    by_cases hs : o.side = side
    · cases hc : classifyOrder o cp <;>
        simp only [hs, hc, true_and, reduceCtorEq, decide_false, decide_true, List.filter_cons,
          if_true, if_false, List.map_cons, List.sum_cons, Bool.false_eq_true, ne_eq,
          not_true_eq_false] at hitm hatm ⊢
      · have hq : p.qItm.checkedAdd o.qty = .ok ⟨⟨p.qItm.raw + o.qty.raw, by
            unfold Order.lots at hitm; omega⟩⟩ := Qty.checkedAdd_eq_ok.mpr rfl
        obtain ⟨p', hp', h1, h2, h3, h4⟩ := ih (p := { p with
          qItm := ⟨⟨p.qItm.raw + o.qty.raw, by unfold Order.lots at hitm; omega⟩⟩
          itmOrders := p.itmOrders ++ [o] }) (by simp only [Order.lots] at hitm ⊢; omega) hatm
        refine ⟨p', ?_, ?_, h2, ?_, h4⟩
        · rw [hq]; exact hp'
        · rw [h1]; simp
        · rw [h3]; simp only [Order.lots]; omega
      · have hq : p.qAtm.checkedAdd o.qty = .ok ⟨⟨p.qAtm.raw + o.qty.raw, by
            unfold Order.lots at hatm; omega⟩⟩ := Qty.checkedAdd_eq_ok.mpr rfl
        obtain ⟨p', hp', h1, h2, h3, h4⟩ := ih (p := { p with
          qAtm := ⟨⟨p.qAtm.raw + o.qty.raw, by unfold Order.lots at hatm; omega⟩⟩
          atmOrders := p.atmOrders ++ [o] }) hitm (by simp only [Order.lots] at hatm ⊢; omega)
        refine ⟨p', ?_, h1, ?_, h3, ?_⟩
        · rw [hq]; exact hp'
        · rw [h2]; simp
        · rw [h4]; simp only [Order.lots]; omega
      · obtain ⟨p', hp', h⟩ := ih (p := { p with otmOrders := p.otmOrders ++ [o] }) hitm hatm
        exact ⟨p', hp', h⟩
    · simp only [hs, false_and, decide_false, List.filter_cons, Bool.false_eq_true, if_false, ne_eq,
        not_false_eq_true, if_true] at hitm hatm ⊢
      exact ih hitm hatm

theorem partitionSide_spec {cp : Price} {side : Side}
    (ht : marketableLots cp side orders < 2 ^ 64) :
    ∃ p, partitionSide orders cp side = .ok p ∧
      p.itmOrders = moneynessOrders .inTheMoney cp side orders ∧
      p.atmOrders = moneynessOrders .atTheMoney cp side orders ∧
      (p.qItm.raw : ℕ) = totalLots (moneynessOrders .inTheMoney cp side orders) ∧
      (p.qAtm.raw : ℕ) = totalLots (moneynessOrders .atTheMoney cp side orders) := by
  unfold marketableLots at ht
  obtain ⟨p, hp, h1, h2, h3, h4⟩ := foldlM_partitionStep cp side orders
    (p := ⟨[], [], [], .zero, .zero⟩)
    (by rw [Qty.zero_raw]; omega) (by rw [Qty.zero_raw]; omega)
  simp only [List.nil_append, Qty.zero_raw, Nat.zero_add] at h1 h2 h3 h4
  exact ⟨p, hp, h1, h2, h3, h4⟩

/-! ## In-the-money fills -/

/-- The key of the priority order: the better price, then the lower sequence number. -/
def priorityKey (side : Side) (o : Order) : ℕ ×ₗ U64 :=
  toLex (if side = .buy then 2 ^ 64 - o.price.raw else o.price.raw, o.seq)

theorem itmLess_iff (side : Side) (a b : Order) :
    itmLess side a b = true ↔ priorityKey side a < priorityKey side b := by
  have ha := a.price.raw.isLt
  have hb := b.price.raw.isLt
  unfold itmLess priorityKey
  rw [Prod.Lex.toLex_lt_toLex]
  simp only [Price.lt_def, Price.ext_iff, Fin.ext_iff, Fin.lt_def, gt_iff_lt, ne_eq]
  split_ifs with h1 h2 h3 <;> simp only [decide_eq_true_eq] <;> omega

theorem priorityKey_eq_iff (side : Side) (a b : Order) :
    priorityKey side a = priorityKey side b ↔ a.price = b.price ∧ a.seq = b.seq := by
  have ha := a.price.raw.isLt
  have hb := b.price.raw.isLt
  unfold priorityKey
  rw [toLex_inj, Prod.mk.injEq, Price.ext_iff, Fin.ext_iff (a := a.price.raw)]
  split_ifs <;> constructor <;> rintro ⟨h1, h2⟩ <;> exact ⟨by omega, h2⟩

theorem min_val (a b : U64) : ((min a b : U64) : ℕ) = min (a : ℕ) b := by
  rcases le_total a b with h | h
  · rw [min_eq_left h, Nat.min_eq_left h]
  · rw [min_eq_right h, Nat.min_eq_right h]

/-- What is left of the target after some orders took their fill. -/
theorem foldl_target_val (l : List Order) (r : U64) :
    ((l.foldl (fun r o => r - min o.qty.raw r) r : U64) : ℕ) = r - totalLots l := by
  have hval : ∀ (l : List Order) (r : U64), ((l.foldl (fun r o => r - min o.qty.raw r) r : U64) : ℕ) =
      l.foldl (fun r o => r - min o.lots r) (r : ℕ) := by
    intro l
    induction l with
    | nil => intro r; rfl
    | cons o l ih =>
      intro r
      rw [List.foldl_cons, ih, List.foldl_cons, Fin.sub_val_of_le (min_le_right _ _), min_val]
      rfl
  rw [hval, foldl_serve]
  rfl

/-- What an in-the-money order receives from the target `v`. -/
def itmFill [StdSort] (side : Side) (v : ℕ) (itm : List Order) (o : Order) : ℕ :=
  if v ≤ totalLots itm then greedyFill Order.lots (StdSort.sort (itmLess side) itm) v o else o.lots

theorem itmFill_le [StdSort] (side : Side) (v : ℕ) (itm : List Order) (o : Order) :
    itmFill side v itm o ≤ o.lots := by
  unfold itmFill
  split_ifs
  · exact greedyFill_le _ _ _ _
  · exact le_refl _

theorem ids_nodup_raw {l : List Order} (hnd : (l.map (·.id)).Nodup) :
    (l.map fun o => o.id.raw).Nodup := by
  have := List.Nodup.map (fun _ _ h => OrderId.ext h) hnd (f := OrderId.raw)
  rwa [List.map_map] at this

theorem fillInTheMoney_spec [StdSort] {p : SidePartition} (v : Qty) (side : Side)
    (hnd : (p.itmOrders.map (·.id)).Nodup) (hq : (p.qItm.raw : ℕ) = totalLots p.itmOrders) :
    (∀ o ∈ p.itmOrders, ∃ f : U64, (fillInTheMoney p v side).1.find o.id.raw = some f ∧
        (f : ℕ) = itmFill side v.raw p.itmOrders o) ∧
      ((fillInTheMoney p v side).2 : ℕ) = v.raw - totalLots p.itmOrders := by
  have hle : v.raw ≤ p.qItm.raw ↔ (v.raw : ℕ) ≤ totalLots p.itmOrders := by rw [← hq]; rfl
  unfold fillInTheMoney itmFill
  by_cases h : (v.raw : ℕ) ≤ totalLots p.itmOrders
  · simp only [hle.mpr h, h, if_true]
    refine ⟨fun o ho => ?_, by rw [Fin.val_zero]; omega⟩
    have hperm := StdSort.sort_perm (itmLess side) p.itmOrders
    have hnd' := ids_nodup_raw ((hperm.map (·.id)).nodup_iff.mpr hnd)
    have hfind := SortedMap.find_foldl_insertCarry (fun o : Order => o.id.raw)
      (fun r o => min o.qty.raw r) (fun r o => r - min o.qty.raw r) (.empty, v.raw) hnd'
      (StdSort.mem_sort.mpr ho)
    refine ⟨_, hfind, ?_⟩
    rw [min_val, foldl_target_val]
    rfl
  · simp only [hle.not.mpr h, h, if_false]
    refine ⟨fun o ho => ⟨o.qty.raw, ?_, rfl⟩, ?_⟩
    · exact SortedMap.find_foldl_insert _ _ _ (ids_nodup_raw hnd) ho
    · rw [Fin.sub_val_of_le (not_le.mp (hle.not.mpr h)).le, hq]

theorem sum_itmFill [StdSort] (side : Side) (v : ℕ) {itm : List Order} (hnd : itm.Nodup) :
    (itm.map (itmFill side v itm)).sum = min v (totalLots itm) := by
  by_cases h : v ≤ totalLots itm
  · have hperm := StdSort.sort_perm (itmLess side) itm
    have := sum_greedyFill Order.lots (hperm.nodup_iff.mpr hnd) v
    rw [(hperm.map _).sum_eq, (hperm.map Order.lots).sum_eq] at this
    have heq : itm.map (itmFill side v itm) =
        itm.map (greedyFill Order.lots (StdSort.sort (itmLess side) itm) v) :=
      List.map_congr_left fun o _ => by simp only [itmFill, h, if_true]
    rw [heq, this]
    rfl
  · have : itm.map (itmFill side v itm) = itm.map Order.lots :=
      List.map_congr_left fun o _ => by simp only [itmFill, h, if_false]
    rw [this, Nat.min_eq_right (by omega)]
    rfl

/-! ## At-the-money fills -/

/-- The candidates among whom `v` is shared, as the source builds them. -/
def atmCandidate (v : ℕ) (atm : List Order) (o : Order) : AtTheMoneyCandidate :=
  proRataCandidate (toU64 v) ⟨toU64 (totalLots atm)⟩ o

/-- The claim of a candidate is its order's quantity. -/
def AtTheMoneyCandidate.lots (c : AtTheMoneyCandidate) : ℕ := c.order.lots

/-- The lots the floors leave over. -/
def surplusLots (v : ℕ) (atm : List Order) : ℕ :=
  v - (atm.map (baseShare Order.lots v (totalLots atm))).sum

/-- What an at-the-money order receives from the volume `v` that the in-the-money orders left. -/
def atmFill [StdSort] (v : ℕ) (atm : List Order) (o : Order) : ℕ :=
  if totalLots atm ≤ v then o.lots
  else baseShare Order.lots v (totalLots atm) o +
    extraLot (StdSort.sort remainderLess (atm.map (atmCandidate v atm))) (surplusLots v atm)
      (atmCandidate v atm o)

/-- The candidate's fields are the exact floor and remainder. -/
theorem atmCandidate_val {v : ℕ} {atm : List Order} (hv : v < totalLots atm)
    (ht : totalLots atm < 2 ^ 64) (o : Order) :
    ((atmCandidate v atm o).baseFill : ℕ) = baseShare Order.lots v (totalLots atm) o ∧
      ((atmCandidate v atm o).remainder : ℕ) = shareRemainder Order.lots v (totalLots atm) o := by
  have h1 : v % 2 ^ 64 = v := Nat.mod_eq_of_lt (by omega)
  have h2 : totalLots atm % 2 ^ 64 = totalLots atm := Nat.mod_eq_of_lt ht
  have hbase : o.lots * v / totalLots atm < 2 ^ 64 := by
    have : o.lots * v / totalLots atm ≤ o.lots := by
      rw [Nat.div_le_iff_le_mul_add_pred (by omega)]
      calc o.lots * v ≤ o.lots * totalLots atm := Nat.mul_le_mul_left _ hv.le
        _ ≤ totalLots atm * o.lots + (totalLots atm - 1) := by rw [Nat.mul_comm]; omega
    exact lt_of_le_of_lt this o.qty.raw.isLt
  have hrem : o.lots * v % totalLots atm < 2 ^ 64 := lt_trans (Nat.mod_lt _ (by omega)) ht
  unfold baseShare shareRemainder atmCandidate proRataCandidate
  simp only [toU64_val, h1, h2]
  exact ⟨Nat.mod_eq_of_lt hbase, Nat.mod_eq_of_lt hrem⟩

theorem atmCandidate_inj (v : ℕ) (atm : List Order) : Function.Injective (atmCandidate v atm) :=
  fun _ _ h => congrArg AtTheMoneyCandidate.order h

/-- The key of the remainder order. -/
def remainderKey (c : AtTheMoneyCandidate) : ℕ ×ₗ U64 ×ₗ U64 :=
  toLex (2 ^ 64 - c.remainder, toLex (c.order.seq, c.order.id.raw))

theorem remainderLess_iff (a b : AtTheMoneyCandidate) :
    remainderLess a b = true ↔ remainderKey a < remainderKey b := by
  have ha := a.remainder.isLt
  have hb := b.remainder.isLt
  unfold remainderLess remainderKey
  rw [Prod.Lex.toLex_lt_toLex, Prod.Lex.toLex_lt_toLex]
  simp only [Fin.ext_iff, Fin.lt_def, gt_iff_lt, ne_eq]
  split_ifs with h1 h2 <;> simp only [decide_eq_true_eq] <;> omega

/-- `a` comes before `b` when the surplus of `v` out of `q` is given out: the larger remainder, then
the smaller sequence number, then the smaller id. -/
def SurplusBefore (v q : ℕ) (a b : Order) : Prop :=
  shareRemainder Order.lots v q b < shareRemainder Order.lots v q a ∨
    shareRemainder Order.lots v q a = shareRemainder Order.lots v q b ∧
      (a.seq < b.seq ∨ a.seq = b.seq ∧ a.id.raw < b.id.raw)

instance (v q : ℕ) (a b : Order) : Decidable (SurplusBefore v q a b) := by
  unfold SurplusBefore; infer_instance

/-- The key of the candidates puts their orders in that order. -/
theorem remainderKey_lt_iff {v : ℕ} {atm : List Order} (hv : v < totalLots atm)
    (ht : totalLots atm < 2 ^ 64) (a b : Order) :
    remainderKey (atmCandidate v atm a) < remainderKey (atmCandidate v atm b) ↔
      SurplusBefore v (totalLots atm) a b := by
  have ha := (atmCandidate_val hv ht a).2
  have hb := (atmCandidate_val hv ht b).2
  have hal := (atmCandidate v atm a).remainder.isLt
  have hbl := (atmCandidate v atm b).remainder.isLt
  unfold remainderKey SurplusBefore
  rw [Prod.Lex.toLex_lt_toLex, Prod.Lex.toLex_lt_toLex, ← ha, ← hb]
  show _ ∨ _ ∧ (a.seq < b.seq ∨ a.seq = b.seq ∧ a.id.raw < b.id.raw) ↔ _
  constructor
  · rintro (h | ⟨h, h'⟩)
    · left; omega
    · right; exact ⟨by omega, h'⟩
  · rintro (h | ⟨h, h'⟩)
    · left; omega
    · right; exact ⟨by omega, h'⟩

theorem remainderKey_inj {v : ℕ} {atm : List Order} (hnd : (atm.map (·.id)).Nodup) :
    ∀ a ∈ atm.map (atmCandidate v atm), ∀ b ∈ atm.map (atmCandidate v atm),
      remainderKey a = remainderKey b → a = b := by
  intro a ha b hb h
  obtain ⟨x, hx, rfl⟩ := List.mem_map.mp ha
  obtain ⟨y, hy, rfl⟩ := List.mem_map.mp hb
  have hid : x.id = y.id := OrderId.ext (congrArg (fun k => (ofLex (ofLex k).2).2) h)
  rw [List.inj_on_of_nodup_map hnd hx hy hid]

/-- Whether an at-the-money order gets a surplus lot. -/
theorem extraLot_atm [StdSort] {v : ℕ} {atm : List Order} (hnd : (atm.map (·.id)).Nodup)
    (hv : v < totalLots atm) (ht : totalLots atm < 2 ^ 64) {o : Order} (ho : o ∈ atm) (n : ℕ) :
    extraLot (StdSort.sort remainderLess (atm.map (atmCandidate v atm))) n (atmCandidate v atm o) =
      if (atm.filter fun a => SurplusBefore v (totalLots atm) a o).length < n then 1 else 0 := by
  have hp := StdSort.sort_perm remainderLess (atm.map (atmCandidate v atm))
  have hmem : atmCandidate v atm o ∈ atm.map (atmCandidate v atm) := List.mem_map.mpr ⟨o, ho, rfl⟩
  have hcount : ((StdSort.sort remainderLess (atm.map (atmCandidate v atm))).filter fun c =>
      remainderKey c < remainderKey (atmCandidate v atm o)).length =
      (atm.filter fun a => SurplusBefore v (totalLots atm) a o).length := by
    rw [(hp.filter _).length_eq, List.filter_map, List.length_map]
    congr 1
    refine List.filter_congr fun a _ => ?_
    exact decide_eq_decide.mpr (remainderKey_lt_iff hv ht a o)
  rw [extraLot_sorted remainderKey (hp.nodup_iff.mpr (hnd.of_map.map (atmCandidate_inj v atm)))
    (StdSort.sort_sorted_of_key remainderKey remainderLess_iff _) (StdSort.mem_sort.mpr hmem)
    (fun c hc h => remainderKey_inj hnd c (StdSort.mem_sort.mp hc) _ hmem h), hcount]

/-- The floor and the surplus lot never exceed the quantity: the surplus is used up before an order
without a remainder is reached. -/
theorem base_add_extraLot_le [StdSort] {v : ℕ} {atm : List Order} (hnd : (atm.map (·.id)).Nodup)
    (hv : v < totalLots atm) (ht : totalLots atm < 2 ^ 64) {o : Order} (ho : o ∈ atm) :
    baseShare Order.lots v (totalLots atm) o +
      extraLot (StdSort.sort remainderLess (atm.map (atmCandidate v atm))) (surplusLots v atm)
        (atmCandidate v atm o) ≤ o.lots := by
  by_cases hr : 0 < shareRemainder Order.lots v (totalLots atm) o
  · have hpos : 0 < o.lots := by
      rcases Nat.eq_zero_or_pos o.lots with h | h
      · simp [shareRemainder, h] at hr
      · exact h
    have h1 := baseShare_lt Order.lots hv hpos
    have h2 := extraLot_le_one (StdSort.sort remainderLess (atm.map (atmCandidate v atm)))
      (surplusLots v atm) (atmCandidate v atm o)
    omega
  · have hle := baseShare_le Order.lots hv.le (i := o)
    have hsur : surplusLots v atm ≤
        (atm.filter fun i => 0 < shareRemainder Order.lots v (totalLots atm) i).length :=
      surplus_le_length_filter rfl (by omega)
    have hsub : (atm.filter fun i => 0 < shareRemainder Order.lots v (totalLots atm) i).length ≤
        (atm.filter fun a => SurplusBefore v (totalLots atm) a o).length := by
      refine (List.monotone_filter_right atm fun a ha => ?_).length_le
      have ha' : 0 < shareRemainder Order.lots v (totalLots atm) a := by simpa using ha
      exact decide_eq_true (Or.inl (by omega))
    rw [extraLot_atm hnd hv ht ho, if_neg (by omega)]
    exact hle

theorem atmFill_le [StdSort] {v : ℕ} {atm : List Order} (hnd : (atm.map (·.id)).Nodup)
    (ht : totalLots atm < 2 ^ 64) {o : Order} (ho : o ∈ atm) : atmFill v atm o ≤ o.lots := by
  unfold atmFill
  split_ifs with h
  · exact le_refl _
  · exact base_add_extraLot_le hnd (not_le.mp h) ht ho

/-- Nothing is left for the at-the-money orders. -/
theorem atmFill_zero [StdSort] {atm : List Order} {o : Order} (ho : o ∈ atm) :
    atmFill 0 atm o = 0 := by
  unfold atmFill
  split_ifs with h
  · have hle : o.lots ≤ totalLots atm :=
      List.single_le_sum (fun _ _ => Nat.zero_le _) _ (List.mem_map.mpr ⟨o, ho, rfl⟩)
    omega
  · simp [baseShare, extraLot, greedyFill, surplusLots]

/-- An unchecked 64-bit sum that does not wrap. -/
theorem foldl_add_val {α : Type} (f : α → U64) (l : List α) (a : U64)
    (h : (a : ℕ) + (l.map fun x => (f x : ℕ)).sum < 2 ^ 64) :
    ((l.foldl (fun s x => s + f x) a : U64) : ℕ) = a + (l.map fun x => (f x : ℕ)).sum := by
  induction l generalizing a with
  | nil => rfl
  | cons x l ih =>
    simp only [List.map_cons, List.sum_cons, List.foldl_cons] at h ⊢
    have hax : ((a + f x : U64) : ℕ) = a + f x := by
      rw [Fin.val_add, Nat.mod_eq_of_lt (by omega)]
    rw [ih _ (by omega), hax, Nat.add_assoc]

/-- The surplus lot that is given out while there are any. -/
def extra (n : U64) : U64 := if n > 0 then 1 else 0

theorem extra_val (n : U64) : (extra n : ℕ) = min 1 (n : ℕ) := by
  unfold extra
  by_cases h : n > 0
  · have h' : 0 < (n : ℕ) := h
    rw [if_pos h, Nat.min_eq_left h']
    rfl
  · have h' : (n : ℕ) = 0 := by
      have : ¬ 0 < (n : ℕ) := h
      omega
    rw [if_neg h, h']
    rfl

theorem surplusStep_eq : surplusStep = SortedMap.insertCarry
    (fun c : AtTheMoneyCandidate => c.order.id.raw)
    (fun n c => min (c.baseFill + extra n) c.order.qty.raw) fun n _ => n - extra n := rfl

/-- The surplus that is left after some candidates were served. -/
theorem foldl_surplus_val (l : List AtTheMoneyCandidate) (n : U64) :
    ((l.foldl (fun n _ => n - extra n) n : U64) : ℕ) = n - (l.map fun _ => 1).sum := by
  induction l generalizing n with
  | nil => rfl
  | cons c l ih =>
    have hle : extra n ≤ n := by
      have : (extra n : ℕ) ≤ n := by rw [extra_val]; exact min_le_right _ _
      exact this
    rw [List.foldl_cons, ih, Fin.sub_val_of_le hle, extra_val, List.map_cons, List.sum_cons]
    omega

theorem fillAtTheMoney_spec [StdSort] {p : SidePartition} {v : U64}
    (hnd : (p.atmOrders.map (·.id)).Nodup) (hq : (p.qAtm.raw : ℕ) = totalLots p.atmOrders)
    {o : Order} (ho : o ∈ p.atmOrders) :
    ((((fillAtTheMoney p v).find o.id.raw).getD 0 : U64) : ℕ) = atmFill v p.atmOrders o := by
  have hne : p.atmOrders ≠ [] := List.ne_nil_of_mem ho
  have hlt : totalLots p.atmOrders < 2 ^ 64 := hq ▸ p.qAtm.raw.isLt
  have hge : v ≥ p.qAtm.raw ↔ totalLots p.atmOrders ≤ (v : ℕ) := by rw [← hq]; rfl
  by_cases hv : (v : ℕ) = 0
  · have hv' : ¬ (v > 0 ∧ p.atmOrders ≠ []) := fun h => by
      have : 0 < (v : ℕ) := h.1
      omega
    rw [fillAtTheMoney, if_neg hv', hv, atmFill_zero ho]
    rfl
  · have hv' : v > 0 ∧ p.atmOrders ≠ [] := ⟨Nat.pos_of_ne_zero hv, hne⟩
    rw [fillAtTheMoney, if_pos hv', atmFill]
    by_cases h : totalLots p.atmOrders ≤ (v : ℕ)
    · rw [if_pos (hge.mpr h), if_pos h, fillAll,
        SortedMap.find_foldl_insert _ _ _ (ids_nodup_raw hnd) ho]
      rfl
    · rw [if_neg (hge.not.mpr h), if_neg h]
      have hcand : ∀ o, proRataCandidate v p.qAtm o = atmCandidate v p.atmOrders o := by
        intro o
        rw [atmCandidate, toU64_coe, ← hq, toU64_coe]
      have hcs : p.atmOrders.map (proRataCandidate v p.qAtm) =
          p.atmOrders.map (atmCandidate v p.atmOrders) := List.map_congr_left fun o _ => hcand o
      have hbase := fun o => (atmCandidate_val (not_le.mp h) hlt o).1
      have htot : 0 < totalLots p.atmOrders := lt_of_le_of_lt (Nat.zero_le _) (not_le.mp h)
      have hsum := sum_base_le Order.lots (v := v) (l := p.atmOrders) rfl htot
      -- the unchecked sum of the floors stays below the volume, so nothing wraps
      have hbaseSum : (((p.atmOrders.map (atmCandidate v p.atmOrders)).foldl
          (fun sum c => sum + c.baseFill) 0 : U64) : ℕ) =
          (p.atmOrders.map (baseShare Order.lots v (totalLots p.atmOrders))).sum := by
        have hmap : (p.atmOrders.map (atmCandidate v p.atmOrders)).map
            (fun c => (c.baseFill : ℕ)) =
            p.atmOrders.map (baseShare Order.lots v (totalLots p.atmOrders)) := by
          rw [List.map_map]
          exact List.map_congr_left fun o _ => hbase o
        have := foldl_add_val AtTheMoneyCandidate.baseFill
          (p.atmOrders.map (atmCandidate v p.atmOrders)) 0
        rw [hmap, Fin.val_zero, Nat.zero_add] at this
        exact this (lt_of_le_of_lt hsum v.isLt)
      have hmem : atmCandidate v p.atmOrders o ∈
          StdSort.sort remainderLess (p.atmOrders.map (atmCandidate v p.atmOrders)) :=
        StdSort.mem_sort.mpr (List.mem_map.mpr ⟨o, ho, rfl⟩)
      have hnd' : ((StdSort.sort remainderLess (p.atmOrders.map (atmCandidate v p.atmOrders))).map
          fun c => c.order.id.raw).Nodup := by
        rw [((StdSort.sort_perm _ _).map _).nodup_iff, List.map_map]
        exact ids_nodup_raw hnd
      have hfind := SortedMap.find_foldl_insertCarry (fun c : AtTheMoneyCandidate => c.order.id.raw)
        (fun n c => min (c.baseFill + extra n) c.order.qty.raw) (fun n _ => n - extra n)
        (.empty, v - (p.atmOrders.map (atmCandidate v p.atmOrders)).foldl
          (fun sum c => sum + c.baseFill) 0) hnd' hmem
      rw [← surplusStep_eq] at hfind
      simp only [hcs]
      rw [show o.id.raw = (atmCandidate v p.atmOrders o).order.id.raw from rfl, hfind,
        Option.getD_some, min_val, Fin.val_add, extra_val, foldl_surplus_val,
        Fin.sub_val_of_le (by rw [Fin.le_def, hbaseSum]; exact hsum), hbaseSum, hbase]
      have hclamp := base_add_extraLot_le hnd (not_le.mp h) hlt ho
      have hoq : o.lots < 2 ^ 64 := o.qty.raw.isLt
      have hqty : ((atmCandidate v p.atmOrders o).order.qty.raw : ℕ) = o.lots := rfl
      rw [hqty]
      have hex : extraLot (StdSort.sort remainderLess (p.atmOrders.map (atmCandidate v p.atmOrders)))
          (surplusLots v p.atmOrders) (atmCandidate v p.atmOrders o) =
          min 1 (surplusLots v p.atmOrders - (((StdSort.sort remainderLess (p.atmOrders.map
            (atmCandidate v p.atmOrders))).takeWhile
              (· ≠ atmCandidate v p.atmOrders o)).map fun _ => 1).sum) := rfl
      rw [hex, surplusLots] at hclamp ⊢
      rw [Nat.mod_eq_of_lt (by omega)]
      omega

/-- The candidates share the whole volume, when it is at most their claim. -/
theorem sum_atmFill [StdSort] {v : ℕ} {atm : List Order} (hnd : atm.Nodup)
    (hv : v ≤ totalLots atm) : (atm.map (atmFill v atm)).sum = v := by
  by_cases h : totalLots atm ≤ v
  · have heq : atm.map (atmFill v atm) = atm.map Order.lots :=
      List.map_congr_left fun o _ => by simp only [atmFill, h, if_true]
    rw [heq]
    exact le_antisymm h hv
  · have hmap : ∀ f : AtTheMoneyCandidate → ℕ,
        (atm.map (atmCandidate v atm)).map f = atm.map fun o => f (atmCandidate v atm o) :=
      fun f => List.map_map
    have hsum := sum_largestRemainder AtTheMoneyCandidate.lots (v := v)
      (q := totalLots atm) (StdSort.sort_perm remainderLess (atm.map (atmCandidate v atm)))
      (hnd.map (atmCandidate_inj v atm)) (by rw [hmap]; rfl) (by omega)
    rw [hmap, hmap] at hsum
    have heq : atm.map (atmFill v atm) = atm.map fun o => baseShare Order.lots v (totalLots atm) o +
        extraLot (StdSort.sort remainderLess (atm.map (atmCandidate v atm))) (surplusLots v atm)
          (atmCandidate v atm o) :=
      List.map_congr_left fun o _ => by simp only [atmFill, h, if_false]
    rw [heq]
    exact hsum

/-! ## The side -/

/-- What an order of `side` receives when `v` is allocated to its side at `cp`. -/
def sideFill [StdSort] (cp : Price) (side : Side) (v : ℕ) (orders : List Order) (o : Order) : ℕ :=
  match classifyOrder o cp with
  | .inTheMoney => itmFill side v (moneynessOrders .inTheMoney cp side orders) o
  | .atTheMoney => atmFill (v - totalLots (moneynessOrders .inTheMoney cp side orders))
      (moneynessOrders .atTheMoney cp side orders) o
  | .outOfTheMoney => 0

theorem sideFill_le [StdSort] {cp : Price} {side : Side} (v : ℕ) (hnd : (orders.map (·.id)).Nodup)
    (ht : marketableLots cp side orders < 2 ^ 64) {o : Order} (ho : o ∈ sideOrders side orders) :
    sideFill cp side v orders o ≤ o.lots := by
  obtain ⟨ho, hs⟩ := mem_sideOrders.mp ho
  unfold sideFill
  cases hc : classifyOrder o cp with
  | inTheMoney => exact itmFill_le _ _ _ _
  | atTheMoney =>
    have hatm : totalLots (moneynessOrders .atTheMoney cp side orders) < 2 ^ 64 :=
      lt_of_le_of_lt (Nat.le_add_left _ _) ht
    exact atmFill_le (hnd.sublist (List.filter_sublist.map _)) hatm
      (mem_moneynessOrders.mpr ⟨ho, hs, hc⟩)
  | outOfTheMoney => exact Nat.zero_le _

theorem sum_sideFill [StdSort] {cp : Price} {side : Side} {v : ℕ} (hnd : orders.Nodup)
    (hv : v ≤ marketableLots cp side orders) :
    ((sideOrders side orders).map (sideFill cp side v orders)).sum = v := by
  have hclass : ∀ k, ∀ o ∈ moneynessOrders k cp side orders, classifyOrder o cp = k :=
    fun k o ho => (mem_moneynessOrders.mp ho).2.2
  have hitm : (moneynessOrders .inTheMoney cp side orders).map (sideFill cp side v orders) =
      (moneynessOrders .inTheMoney cp side orders).map
        (itmFill side v (moneynessOrders .inTheMoney cp side orders)) :=
    List.map_congr_left fun o ho => by simp only [sideFill, hclass _ o ho]
  have hatm : (moneynessOrders .atTheMoney cp side orders).map (sideFill cp side v orders) =
      (moneynessOrders .atTheMoney cp side orders).map
        (atmFill (v - totalLots (moneynessOrders .inTheMoney cp side orders))
          (moneynessOrders .atTheMoney cp side orders)) :=
    List.map_congr_left fun o ho => by simp only [sideFill, hclass _ o ho]
  have hotm : ((moneynessOrders .outOfTheMoney cp side orders).map
      (sideFill cp side v orders)).sum = 0 :=
    List.sum_eq_zero fun x hx => by
      obtain ⟨o, ho, rfl⟩ := List.mem_map.mp hx
      simp only [sideFill, hclass _ o ho]
  have hnd' : ∀ k, (moneynessOrders k cp side orders).Nodup := fun k => hnd.filter _
  unfold marketableLots at hv
  rw [sum_sideOrders _ cp, hitm, hatm, hotm, sum_itmFill side v (hnd' _),
    sum_atmFill (hnd' _) (by omega)]
  omega

/-- Nothing is handed out of nothing. -/
theorem sideFill_zero [StdSort] {cp : Price} {side : Side} {o : Order} (ho : o ∈ orders)
    (hs : o.side = side) : sideFill cp side 0 orders o = 0 := by
  unfold sideFill
  cases hc : classifyOrder o cp with
  | inTheMoney => simp [itmFill, greedyFill]
  | atTheMoney =>
    simp only [Nat.zero_sub]
    exact atmFill_zero (mem_moneynessOrders.mpr ⟨ho, hs, hc⟩)
  | outOfTheMoney => rfl

/-- The allocation list of one side. -/
def sideAllocations [StdSort] (cp : Price) (side : Side) (v : ℕ) (orders : List Order) :
    List OrderAllocation :=
  (sideOrders side orders).map fun o => .of o ⟨toU64 (sideFill cp side v orders o)⟩

/-- **One side's allocation.** When what the side can trade fits, `allocateSide` succeeds, and no step
of its machine arithmetic wraps or clamps. -/
theorem allocateSide_eq [StdSort] {cp : Price} {side : Side} {v : Qty}
    (hnd : (orders.map (·.id)).Nodup) (ht : marketableLots cp side orders < 2 ^ 64) :
    allocateSide orders cp v side = .ok (sideAllocations cp side v.raw orders) := by
  by_cases hz : v.isZero = true
  · have heq : (orders.filter (·.side = side)).map (fun o => OrderAllocation.of o .zero) =
        sideAllocations cp side v.raw orders := by
      refine List.map_congr_left fun o ho => ?_
      obtain ⟨ho, hs⟩ := mem_sideOrders.mp ho
      rw [Qty.isZero_iff.mp hz, sideFill_zero ho hs]
      rfl
    simp only [allocateSide, hz, if_true]
    exact congrArg Except.ok heq
  obtain ⟨p, hp, hitm, hatm, hqi, hqa⟩ := partitionSide_spec ht
  have hnd' : ∀ k, ((moneynessOrders k cp side orders).map (·.id)).Nodup := fun k =>
    hnd.sublist (List.filter_sublist.map _)
  obtain ⟨hfind, hrem⟩ := fillInTheMoney_spec (p := p) v side
    (hitm ▸ hnd' .inTheMoney) (by rw [hitm, hqi])
  have hlook : ∀ o ∈ orders, o.side = side →
      lookupFill (fillInTheMoney p v side).1 (fillAtTheMoney p (fillInTheMoney p v side).2) cp o =
        toU64 (sideFill cp side v.raw orders o) := by
    intro o ho hs
    unfold lookupFill sideFill
    cases hc : classifyOrder o cp with
    | inTheMoney =>
      obtain ⟨f, hf, hval⟩ := hfind o (hitm ▸ mem_moneynessOrders.mpr ⟨ho, hs, hc⟩)
      simp only [hf, Option.getD_some]
      rw [← hitm, ← hval, toU64_coe]
    | atTheMoney =>
      have hmem : o ∈ p.atmOrders := hatm ▸ mem_moneynessOrders.mpr ⟨ho, hs, hc⟩
      have := fillAtTheMoney_spec (v := (fillInTheMoney p v side).2) (hatm ▸ hnd' .atTheMoney)
        (by rw [hatm, hqa]) hmem
      simp only
      rw [← hitm, ← hatm, ← hrem, ← this, toU64_coe]
    | outOfTheMoney => rfl
  simp only [allocateSide, hz, hp]
  have heq : (orders.filter (·.side = side)).map (fun o => OrderAllocation.of o
      ⟨lookupFill (fillInTheMoney p v side).1 (fillAtTheMoney p (fillInTheMoney p v side).2) cp o⟩) =
      sideAllocations cp side v.raw orders := by
    refine List.map_congr_left fun o ho => ?_
    obtain ⟨ho, hs⟩ := mem_sideOrders.mp ho
    rw [hlook o ho hs]
  exact congrArg Except.ok heq

/-! ## Price priority and largest remainders -/

/-- `q` is a strictly worse limit than `p`: less to buy at, more to sell at. -/
def WorseLimit (side : Side) (p q : Price) : Prop := if side = .buy then q < p else p < q

/-- Every order with a worse limit than one that is not in the money is out of the money. -/
theorem classifyOrder_worse {cp : Price} {side : Side} {a b : Order} (ha : a.side = side)
    (hb : b.side = side) (h : WorseLimit side a.price b.price)
    (hc : classifyOrder a cp ≠ .inTheMoney) : classifyOrder b cp = .outOfTheMoney := by
  unfold WorseLimit at h
  by_cases hs : side = .buy
  · rw [if_pos hs] at h
    have hle := not_lt.mp ((classifyOrder_buy (ha.trans hs) cp).1.not.mp hc)
    exact (classifyOrder_buy (hb.trans hs) cp).2.2.mpr (lt_of_lt_of_le h hle)
  · rw [if_neg hs] at h
    have hle := not_lt.mp ((classifyOrder_of_ne_buy (ha ▸ hs) cp).1.not.mp hc)
    exact (classifyOrder_of_ne_buy (hb ▸ hs) cp).2.2.mpr (lt_of_le_of_lt hle h)

theorem priorityKey_lt_of_worse {side : Side} {a b : Order} (h : WorseLimit side a.price b.price) :
    priorityKey side a < priorityKey side b := by
  have ha := a.price.raw.isLt
  have hb := b.price.raw.isLt
  unfold WorseLimit at h
  unfold priorityKey
  rw [Prod.Lex.toLex_lt_toLex]
  left
  simp only [Price.lt_def] at h
  split_ifs at h ⊢ <;> simp only <;> omega

/-- Among the in-the-money orders, one with a worse limit than an order that is not filled gets
nothing. -/
theorem itmFill_worse [StdSort] {side : Side} {v : ℕ} {itm : List Order} {a b : Order} (ha : a ∈ itm)
    (hb : b ∈ itm) (h : WorseLimit side a.price b.price) (hlt : itmFill side v itm a < a.lots) :
    itmFill side v itm b = 0 := by
  unfold itmFill at hlt ⊢
  by_cases hv : v ≤ totalLots itm
  · rw [if_pos hv] at hlt ⊢
    have hahead := ahead_add_claim_le_ahead (priorityKey side) Order.lots
      (StdSort.sort_sorted_of_key (priorityKey side) (itmLess_iff side) itm)
      (StdSort.mem_sort.mpr ha) (StdSort.mem_sort.mpr hb) (priorityKey_lt_of_worse h)
    unfold greedyFill at hlt ⊢
    omega
  · rw [if_neg hv] at hlt
    exact absurd hlt (lt_irrefl _)

/-- An in-the-money order that is not filled leaves nothing for the at-the-money orders. -/
theorem le_totalLots_of_itmFill_lt [StdSort] {side : Side} {v : ℕ} {itm : List Order} {a : Order}
    (hlt : itmFill side v itm a < a.lots) : v ≤ totalLots itm := by
  by_contra hv
  rw [itmFill, if_neg hv] at hlt
  exact lt_irrefl _ hlt

/-- **Price priority.** An order with a worse limit than one that is not filled gets nothing. -/
theorem sideFill_worse [StdSort] {cp : Price} {side : Side} {v : ℕ} {a b : Order}
    (ha : a ∈ sideOrders side orders) (hb : b ∈ sideOrders side orders)
    (h : WorseLimit side a.price b.price) (hlt : sideFill cp side v orders a < a.lots) :
    sideFill cp side v orders b = 0 := by
  obtain ⟨ha, has⟩ := mem_sideOrders.mp ha
  obtain ⟨hb, hbs⟩ := mem_sideOrders.mp hb
  by_cases hca : classifyOrder a cp = .inTheMoney
  · simp only [sideFill, hca] at hlt
    unfold sideFill
    cases hcb : classifyOrder b cp with
    | inTheMoney =>
      exact itmFill_worse (mem_moneynessOrders.mpr ⟨ha, has, hca⟩)
        (mem_moneynessOrders.mpr ⟨hb, hbs, hcb⟩) h hlt
    | atTheMoney =>
      have hv := le_totalLots_of_itmFill_lt hlt
      simp only [Nat.sub_eq_zero_of_le hv]
      exact atmFill_zero (mem_moneynessOrders.mpr ⟨hb, hbs, hcb⟩)
    | outOfTheMoney => rfl
  · simp only [sideFill, classifyOrder_worse has hbs h hca]

/-- **The allocation rule.** One side's allocation hands out exactly the target. An order with a worse
limit than one that is not filled gets nothing. When the at-the-money orders are rationed, each
receives the floor of its share, and the first ones by remainder, sequence number and id receive one
lot more, which is never more than the order's quantity. -/
theorem allocateSide_rule [StdSort] {cp : Price} {side : Side} {target : Qty}
    (hnd : (orders.map (·.id)).Nodup) (hle : (target.raw : ℕ) ≤ marketableLots cp side orders)
    (ht : marketableLots cp side orders < 2 ^ 64) :
    ∃ fill : Order → Qty,
      allocateSide orders cp target side =
        .ok ((sideOrders side orders).map fun o => .of o (fill o)) ∧
      ((sideOrders side orders).map fun o => ((fill o).raw : ℕ)).sum = target.raw ∧
      (∀ a ∈ sideOrders side orders, ∀ b ∈ sideOrders side orders,
        ((fill a).raw : ℕ) < a.lots → WorseLimit side a.price b.price → fill b = .zero) ∧
      ∀ v q : ℕ, ∀ atm : List Order,
        v = target.raw - totalLots (moneynessOrders .inTheMoney cp side orders) →
        atm = moneynessOrders .atTheMoney cp side orders → q = totalLots atm → 0 < v → v < q →
        ∀ o ∈ atm, ((fill o).raw : ℕ) = o.lots * v / q +
            (if (atm.filter fun a => SurplusBefore v q a o).length <
              v - (atm.map fun a => a.lots * v / q).sum then 1 else 0) ∧
          ((fill o).raw : ℕ) ≤ o.lots := by
  have hval : ∀ o ∈ sideOrders side orders,
      (toU64 (sideFill cp side target.raw orders o) : ℕ) = sideFill cp side target.raw orders o :=
    fun o ho => Nat.mod_eq_of_lt (lt_of_le_of_lt (sideFill_le _ hnd ht ho) o.qty.raw.isLt)
  refine ⟨fun o => ⟨toU64 (sideFill cp side target.raw orders o)⟩, allocateSide_eq hnd ht, ?_, ?_, ?_⟩
  · rw [List.map_congr_left hval]
    exact sum_sideFill hnd.of_map hle
  · intro a ha b hb hlt hworse
    have hlt' : sideFill cp side target.raw orders a < a.lots := by rwa [← hval a ha]
    refine Qty.ext_val ?_
    show (toU64 (sideFill cp side target.raw orders b) : ℕ) = _
    rw [hval b hb, sideFill_worse ha hb hworse hlt', Qty.zero_raw]
  · rintro v q atm rfl rfl rfl hv hq o ho
    obtain ⟨hmem, hs, hc⟩ := mem_moneynessOrders.mp ho
    have hside : o ∈ sideOrders side orders := mem_sideOrders.mpr ⟨hmem, hs⟩
    have hatm : totalLots (moneynessOrders .atTheMoney cp side orders) < 2 ^ 64 :=
      lt_of_le_of_lt (Nat.le_add_left _ _) ht
    have hids : ((moneynessOrders .atTheMoney cp side orders).map (·.id)).Nodup :=
      hnd.sublist (List.filter_sublist.map _)
    show (toU64 (sideFill cp side target.raw orders o) : ℕ) = _ ∧
      (toU64 (sideFill cp side target.raw orders o) : ℕ) ≤ _
    refine ⟨?_, (hval o hside).le.trans (sideFill_le _ hnd ht hside)⟩
    rw [hval o hside]
    simp only [sideFill, hc, atmFill, if_neg (not_le.mpr hq)]
    rw [extraLot_atm hids hq hatm ho]
    rfl

/-- A sell of 4 at 100, and sells of 8 and 5 at 105. -/
def rationedOrders : List Order :=
  [exampleOrder 1 1 .sell 100 4 0, exampleOrder 2 2 .sell 105 8 1, exampleOrder 3 3 .sell 105 5 2]

/-- Of 10 lots at 105, 6 are left for the 13 at the money: their floors are 3 and 2, and the lot over
goes to the greater remainder. -/
theorem allocateSide_rule_example : ∃ fill : Order → Qty,
    @allocateSide .stable rationedOrders ⟨105⟩ ⟨10⟩ .sell =
      .ok ((sideOrders .sell rationedOrders).map fun o => .of o (fill o)) ∧
    ((sideOrders .sell rationedOrders).map fun o => ((fill o).raw : ℕ)).sum = 10 ∧
    ((fill (exampleOrder 2 2 .sell 105 8 1)).raw : ℕ) = 8 * 6 / 13 + 1 ∧
    ((fill (exampleOrder 3 3 .sell 105 5 2)).raw : ℕ) = 5 * 6 / 13 := by
  obtain ⟨fill, h, hsum, -, hatm⟩ := @allocateSide_rule rationedOrders .stable ⟨105⟩ .sell ⟨10⟩
    (by decide +kernel) (by decide +kernel) (by decide +kernel)
  have hfill := hatm 6 13 [exampleOrder 2 2 .sell 105 8 1, exampleOrder 3 3 .sell 105 5 2]
    (by decide +kernel) (by decide +kernel) (by decide +kernel) (by decide) (by decide)
  refine ⟨fill, h, hsum, ?_, ?_⟩
  · rw [(hfill (exampleOrder 2 2 .sell 105 8 1) (by decide +kernel)).1]
    decide +kernel
  · rw [(hfill (exampleOrder 3 3 .sell 105 5 2) (by decide +kernel)).1]
    decide +kernel

end FairCross
