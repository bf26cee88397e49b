import FairCross.Proof.Proofs.HonestProofs

/-!
# What the circuit accepts of an execution

The subrelations on the execution of a created batch. Clearing and allocation satisfy their constraints
as they are. Considerations and cash enter with their low 64 bits, so the fills and the balances do so
only as long as the high bits have nothing to say.
-/

namespace FairCross

/-! ## Low halves -/

theorem toScalar_toU64 (n : ℕ) : toScalar (toU64 n) = ((n % 2 ^ 64 : ℕ) : Scalar) := by
  rw [toScalar_eq_cast, toU64_val]

/-- A 128-bit number is its low half only if it fits 64 bits. -/
theorem toScalar_low_iff {n : ℕ} (hn : n < 2 ^ 128) :
    (n : Scalar) = toScalar (toU64 n) ↔ n < 2 ^ 64 := by
  rw [toScalar_toU64, scalar_natCast_inj hn (by omega)]
  omega

/-- A scalar is its high half, shifted, and its low half. -/
theorem scalar_split (n : ℕ) :
    (n : Scalar) = ((2 ^ 64 * (n / 2 ^ 64) : ℕ) : Scalar) + toScalar (toU64 n) := by
  rw [toScalar_toU64, ← Nat.cast_add, Nat.div_add_mod]

/-- A sum of which only the low halves are known still adds up if the high half stays, and only then. -/
theorem toScalar_low_add_iff {x y : ℕ} {n : ℤ} (hx : x < 2 ^ 128) (hy : y < 2 ^ 128)
    (h : (y : ℤ) = x + n) :
    toScalar (toU64 y) = toScalar (toU64 x) + (n : Scalar) ↔ y / 2 ^ 64 = x / 2 ^ 64 := by
  have hcast : (y : Scalar) = (x : Scalar) + (n : Scalar) := by
    have := congrArg (Int.cast : ℤ → Scalar) h
    push_cast at this
    exact this
  rw [scalar_split x, scalar_split y, add_assoc] at hcast
  rw [← Nat.mul_right_inj (a := 2 ^ 64) (by decide), ← scalar_natCast_inj (by omega) (by omega)]
  constructor
  · intro hlow
    rw [hlow] at hcast
    exact add_right_cancel hcast
  · intro hhigh
    rw [hhigh] at hcast
    exact add_left_cancel hcast

/-! ## Allocation -/

/-- The circuit's totals are the traded quantities of the two sides. -/
theorem foldl_addAllocated {orders : List Order} {as : List OrderAllocation} {t : Scalar × Scalar}
    (hside : ∀ a ∈ as, ∃ o, orders.find? (·.id = a.orderId) = some o ∧ o.side = a.side ∧
      (a.side = .buy ∨ a.side = .sell)) :
    as.foldl (addAllocated orders) t =
      (t.1 + (tradedLots .buy as : ℕ), t.2 + (tradedLots .sell as : ℕ)) := by
  induction as generalizing t with
  | nil => simp
  | cons a as ih =>
    obtain ⟨o, ho, hos, hs⟩ := hside a (List.mem_cons_self ..)
    rw [List.foldl_cons, ih fun b hb => hside b (List.mem_cons_of_mem _ hb), tradedLots_cons,
      tradedLots_cons, addAllocated, ho]
    simp only [hos]
    rcases hs with hs | hs
    · simp only [hs, if_true, reduceCtorEq, if_false, toScalar_eq_cast, Nat.cast_add, add_assoc,
        Nat.zero_add]
    · simp only [hs, if_true, reduceCtorEq, if_false, toScalar_eq_cast, Nat.cast_add, add_assoc,
        Nat.zero_add]

section Accepted

variable [StdSort] {batch : Batch} (hb : batch.Accepted) {outcome : ClearingOutcome}
  (h : determineClearingOutcome batch = .ok outcome)
include hb h

namespace Batch.Accepted

/-- No candidate price executes more than the clearing volume. -/
theorem candidate_le {price : Price} (hprice : price ∈ candidatePricesFromOrders batch.orders) :
    ∃ d s, demandFromOrders batch.orders price = .ok d ∧
      supplyFromOrders batch.orders price = .ok s ∧ min d.raw s.raw ≤ outcome.executableVolume.raw := by
  obtain ⟨d, hd, hdv⟩ := demandFromOrders_eq price (hb.totals_lt h (.inl rfl))
  obtain ⟨s, hs, hsv⟩ := supplyFromOrders_eq price (hb.totals_lt h (.inr rfl))
  refine ⟨d, s, hd, hs, ?_⟩
  obtain ⟨o, ho, rfl⟩ := mem_candidatePrices.mp hprice
  have hopt := (hb.clears h).optimal.2 ⟨o.price, (hb.orders.order o ho).price_pos, rfl⟩
  show ((min d.raw s.raw : U64) : ℕ) ≤ _
  rw [min_val, hdv, hsv]
  exact hopt

/-- An allocation of the batch is within its order, and nothing for an order out of the money. -/
theorem orderAllocationAsserts {cp : Price} (hcp : outcome.clearingPrice = some cp) :
    ∀ a ∈ (canonicalAllocation outcome batch).allocations, OrderAllocationAsserts batch.orders cp a := by
  have hfill := hb.isAllocation h
  intro a ha order horder
  obtain ⟨o, ho, rfl⟩ := List.mem_map.mp ha
  obtain rfl := Option.some.inj ((find?_id hb.orders.ids_nodup ho).symm.trans horder)
  show if _ then toU64 (canonicalFill outcome batch.orders o) = 0
    else toU64 (canonicalFill outcome batch.orders o) ≤ o.qty.raw
  split_ifs with hclass
  · have hno : o.side = .buy ∧ o.price < cp ∨ o.side = .sell ∧ cp < o.price := by
      rcases hb.side o ho with hs | hs
      · exact .inl ⟨hs, (classifyOrder_buy hs cp).2.2.mp hclass⟩
      · exact .inr ⟨hs, (classifyOrder_sell hs cp).2.2.mp hclass⟩
    rw [hfill.not_crossing cp hcp o ho hno]
    rfl
  · exact (toU64_fill hfill ho).le.trans (hfill.le_lots o ho)

/-- The canonical allocation satisfies its constraints. -/
theorem allocationAsserts {cp : Price} (hcp : outcome.clearingPrice = some cp) :
    (∀ a ∈ (canonicalAllocation outcome batch).allocations,
      (batch.orders.find? (·.id = a.orderId)).isSome) ∧
    AllocationAsserts batch cp (canonicalAllocation outcome batch)
      (toScalar outcome.executableVolume.raw) := by
  have horder : ∀ a ∈ (canonicalAllocation outcome batch).allocations,
      ∃ o, batch.orders.find? (·.id = a.orderId) = some o ∧ o.side = a.side ∧
        (a.side = .buy ∨ a.side = .sell) := by
    intro a ha
    obtain ⟨o, ho, rfl⟩ := List.mem_map.mp ha
    exact ⟨o, find?_id hb.orders.ids_nodup ho, rfl, hb.side o ho⟩
  refine ⟨fun a ha => ?_, hb.orderAllocationAsserts h hcp, ?_, ?_⟩
  · obtain ⟨o, ho, -⟩ := horder a ha
    rw [ho]
    rfl
  · rw [foldl_addAllocated horder, hb.tradedLots_canonical h (.inl rfl), zero_add, toScalar_eq_cast]
  · rw [foldl_addAllocated horder, hb.tradedLots_canonical h (.inr rfl), toScalar_eq_cast]
    exact zero_add _

/-! ## Fills -/

/-- A canonical fill passes the checks of its constraints; the constraints themselves hold if its
consideration fits 64 bits, and only then. -/
theorem fillAsserts_iff {cp : Price} (hcp : outcome.clearingPrice = some cp) {f : Fill}
    (hf : f ∈ canonicalFills outcome batch) :
    FillChecked batch.orders cp.raw f ∧
      (FillAsserts batch.orders cp.raw f ↔ (f.consideration.raw : ℕ) < 2 ^ 64) := by
  obtain ⟨cp', id, hcp', a, ha, hz, rfl⟩ := mem_canonicalFills hf
  obtain rfl := Option.some.inj (hcp.symm.trans hcp')
  obtain ⟨o, ho, rfl⟩ := List.mem_map.mp ha
  have hfind := find?_id hb.orders.ids_nodup ho
  obtain ⟨⟨o', ho', hqty, hbuy, hsell⟩, -⟩ := hb.fillableAt h hcp ha hz
  obtain rfl := Option.some.inj ((find_orderMap hb.orders.ids_nodup ho).symm.trans ho')
  have hlimit : if o.side = .buy then cp.raw ≤ o.price.raw else o.price.raw ≤ cp.raw := by
    rcases hb.side o ho with hs | hs
    · rw [if_pos hs]
      exact hbuy hs
    · rw [if_neg (by rw [hs]; decide)]
      exact hsell hs
  have hproduct := fillOf_consideration batch.instrument cp id
    (.of o ⟨toU64 (canonicalFill outcome batch.orders o)⟩)
  refine ⟨⟨o, hfind, hqty, ?_⟩, ?_⟩
  · split_ifs at hlimit ⊢
    · exact fun hlt => absurd hlt.1 (not_lt.mpr hlimit)
    · exact fun hlt => absurd hlt.1 (not_lt.mpr hlimit)
  · have hproduct' : toScalar cp.raw * toScalar (toU64 (canonicalFill outcome batch.orders o)) =
        (((fillOf batch.instrument cp id
          (.of o ⟨toU64 (canonicalFill outcome batch.orders o)⟩)).consideration.raw : ℕ) : Scalar) := by
      rw [hproduct, toScalar_eq_cast, toScalar_eq_cast, Nat.cast_mul]
      rfl
    rw [← toScalar_low_iff (Fin.isLt _), ← hproduct']
    constructor
    · intro hasserts
      exact (hasserts o hfind).1
    · intro hlow order horder
      obtain rfl := Option.some.inj (hfind.symm.trans horder)
      exact ⟨hlow, hlimit⟩

end Batch.Accepted

end Accepted

/-! ## Conservation -/

/-- What the fills add to an account in the circuit, if the low halves of the considerations are all
there is to them. -/
theorem foldl_addAccountFill {fills : List Fill}
    (hfits : ∀ f ∈ fills, (f.consideration.raw : ℕ) < 2 ^ 64) (a : AccountId) (t : Scalar × Scalar) :
    fills.foldl (addAccountFill a) t =
      (t.1 + ((netFills fills a).1 : ℤ), t.2 + ((netFills fills a).2 : ℤ)) := by
  induction fills generalizing t with
  | nil => simp [netFills]
  | cons f fills ih =>
    have hlow := (toScalar_low_iff (Fin.isLt _)).mpr (hfits f (List.mem_cons_self ..))
    have hnet : netFills (f :: fills) a = (if f.accountId = a then f.delta else 0) + netFills fills a :=
      Postings.net_cons _ _ f fills a
    rw [List.foldl_cons, ih fun g hg => hfits g (List.mem_cons_of_mem _ hg), hnet, addAccountFill]
    by_cases ha : f.accountId = a
    · rw [if_neg (not_not.mpr ha), if_pos ha, Prod.fst_add, Prod.snd_add, ← hlow, toScalar_eq_cast,
        Fill.delta]
      split_ifs
      · refine Prod.ext ?_ ?_
        · push_cast
          ring
        · push_cast
          ring
      · refine Prod.ext ?_ ?_
        · push_cast
          ring
        · push_cast
          ring
    · rw [if_pos ha, if_neg ha, zero_add]

section Balances

variable {pre post : Ledger} {inst : InstrumentId}

theorem Ledger.cashOf_lt (l : Ledger) (a : AccountId) : l.cashOf a < 2 ^ 128 := by
  have h := (l.balance_storable ⟨0⟩ a).2.1
  exact Nat.cast_lt.mp h

/-- The scalars of an account are its balances, cash with its low half. -/
theorem accountScalars_eq {e : AccountId × AccountState} (he : e ∈ pre.accounts.entries) :
    accountScalars post inst e = ⟨toScalar (toU64 (pre.cashOf e.1)), toScalar (toU64 (post.cashOf e.1)),
      (pre.lotsOf inst e.1 : Scalar), (post.lotsOf inst e.1 : Scalar)⟩ := by
  have hget : pre.getAccount e.1 = some e.2 := SortedMap.mem_entries.mp he
  unfold accountScalars Ledger.cashOf Ledger.lotsOf
  rw [hget]
  cases post.getAccount e.1 with
  | none => simp [toScalar_eq_cast]
  | some y => simp [toScalar_eq_cast]

/-- The sums of the circuit are sums over the accounts. -/
theorem accountSums_eq : accountSums pre post inst =
    ⟨(pre.accounts.entries.map fun e => toScalar (toU64 (pre.cashOf e.1))).sum,
      (pre.accounts.entries.map fun e => toScalar (toU64 (post.cashOf e.1))).sum,
      (pre.accounts.entries.map fun e => ((pre.lotsOf inst e.1 : ℕ) : Scalar)).sum,
      (pre.accounts.entries.map fun e => ((post.lotsOf inst e.1 : ℕ) : Scalar)).sum⟩ := by
  have hfold : ∀ (l : List (AccountId × AccountState)) (t : AccountScalars),
      (∀ e ∈ l, e ∈ pre.accounts.entries) → l.foldl (addAccount post inst) t =
        ⟨t.preCash + (l.map fun e => toScalar (toU64 (pre.cashOf e.1))).sum,
          t.postCash + (l.map fun e => toScalar (toU64 (post.cashOf e.1))).sum,
          t.preInv + (l.map fun e => ((pre.lotsOf inst e.1 : ℕ) : Scalar)).sum,
          t.postInv + (l.map fun e => ((post.lotsOf inst e.1 : ℕ) : Scalar)).sum⟩ := by
    intro l
    induction l with
    | nil =>
      intro t _
      simp
    | cons e l ih =>
      intro t hl
      rw [List.foldl_cons, ih _ fun e' he' => hl e' (List.mem_cons_of_mem _ he')]
      simp only [addAccount, accountScalars_eq (hl e (List.mem_cons_self ..)), List.map_cons,
        List.sum_cons, add_assoc]
  rw [accountSums, hfold _ _ fun _ he => he]
  simp only [zero_add]

theorem Ledger.cashSum_eq (h : ∀ a, (post.getAccount a).isSome = (pre.getAccount a).isSome) :
    post.cashSum = (pre.accounts.entries.map fun e => post.cashOf e.1).sum :=
  SortedMap.sum_of_isSome h _

theorem Ledger.lotsSum_eq (h : ∀ a, (post.getAccount a).isSome = (pre.getAccount a).isSome) :
    post.lotsSum inst = (pre.accounts.entries.map fun e => post.lotsOf inst e.1).sum :=
  SortedMap.sum_of_isSome h _

/-- Low halves add up like the whole, if the high halves stay. -/
theorem sum_low_cash (hsame : pre.SameTotals inst post)
    (hhigh : ∀ a, post.cashOf a / 2 ^ 64 = pre.cashOf a / 2 ^ 64) :
    (pre.accounts.entries.map fun e => toScalar (toU64 (pre.cashOf e.1))).sum =
      (pre.accounts.entries.map fun e => toScalar (toU64 (post.cashOf e.1))).sum := by
  have hone : ∀ e : AccountId × AccountState,
      toScalar (toU64 (pre.cashOf e.1)) + ((post.cashOf e.1 : ℕ) : Scalar) =
        toScalar (toU64 (post.cashOf e.1)) + ((pre.cashOf e.1 : ℕ) : Scalar) := by
    intro e
    rw [scalar_split (post.cashOf e.1), scalar_split (pre.cashOf e.1), hhigh e.1]
    ring
  have hcast : ∀ l : Ledger, (pre.accounts.entries.map fun e => ((l.cashOf e.1 : ℕ) : Scalar)).sum =
      (((pre.accounts.entries.map fun e => l.cashOf e.1).sum : ℕ) : Scalar) := by
    intro l
    rw [Nat.cast_list_sum, List.map_map]
    rfl
  have hsums : (pre.accounts.entries.map fun e => toScalar (toU64 (pre.cashOf e.1))).sum +
        (pre.accounts.entries.map fun e => ((post.cashOf e.1 : ℕ) : Scalar)).sum =
      (pre.accounts.entries.map fun e => toScalar (toU64 (post.cashOf e.1))).sum +
        (pre.accounts.entries.map fun e => ((pre.cashOf e.1 : ℕ) : Scalar)).sum := by
    rw [← List.sum_map_add, ← List.sum_map_add]
    exact congrArg List.sum (List.map_congr_left fun e _ => hone e)
  rw [hcast, hcast, ← Ledger.cashSum_eq hsame.isSome, ← Ledger.cashSum_eq fun _ => rfl,
    hsame.cash] at hsums
  exact add_right_cancel hsums

/-- Inventories enter as they are. -/
theorem sum_lots (hsame : pre.SameTotals inst post) :
    (pre.accounts.entries.map fun e => ((pre.lotsOf inst e.1 : ℕ) : Scalar)).sum =
      (pre.accounts.entries.map fun e => ((post.lotsOf inst e.1 : ℕ) : Scalar)).sum := by
  have hcast : ∀ l : Ledger,
      (pre.accounts.entries.map fun e => ((l.lotsOf inst e.1 : ℕ) : Scalar)).sum =
        (((pre.accounts.entries.map fun e => l.lotsOf inst e.1).sum : ℕ) : Scalar) := by
    intro l
    rw [Nat.cast_list_sum, List.map_map]
    rfl
  rw [hcast, hcast, ← Ledger.lotsSum_eq hsame.isSome, ← Ledger.lotsSum_eq fun _ => rfl, hsame.lots]

variable {fills : List Fill} (hfits : ∀ f ∈ fills, (f.consideration.raw : ℕ) < 2 ^ 64)
  (hbal : ∀ a, post.balance inst a = pre.balance inst a + netFills fills a)
include hfits hbal

/-- The transition of an account is proved if its cash keeps its high half, and only then. -/
theorem accountAsserts_iff {e : AccountId × AccountState} (he : e ∈ pre.accounts.entries) :
    AccountAsserts post fills inst e ↔ post.cashOf e.1 / 2 ^ 64 = pre.cashOf e.1 / 2 ^ 64 := by
  obtain ⟨hcash, hlots⟩ := Prod.ext_iff.mp (hbal e.1)
  have hinv : ((post.lotsOf inst e.1 : ℕ) : Scalar) =
      ((pre.lotsOf inst e.1 : ℕ) : Scalar) + ((netFills fills e.1).2 : ℤ) := by
    have := congrArg (Int.cast : ℤ → Scalar) hlots
    simpa [Ledger.balance] using this
  unfold AccountAsserts
  simp only [accountScalars_eq he, foldl_addAccountFill hfits]
  rw [and_iff_left hinv]
  exact toScalar_low_add_iff (pre.cashOf_lt _) (post.cashOf_lt _) hcash

/-- **Conservation.** It is proved of settled fills if every account keeps the high half of its cash,
and only then. -/
theorem conservationAsserts_iff (hsame : pre.SameTotals inst post) :
    ConservationAsserts pre post fills inst ↔
      ∀ a, post.cashOf a / 2 ^ 64 = pre.cashOf a / 2 ^ 64 := by
  constructor
  · rintro ⟨haccounts, -, -⟩ a
    have hsome := hsame.isSome a
    cases hget : pre.getAccount a with
    | none =>
      rw [hget, Option.isSome_none, Option.isSome_eq_false_iff, Option.isNone_iff_eq_none] at hsome
      rw [Ledger.cashOf, Ledger.cashOf, hsome, hget]
    | some x =>
      have he : (a, x) ∈ pre.accounts.entries := SortedMap.mem_entries.mpr hget
      exact (accountAsserts_iff hfits hbal he).mp (haccounts _ he)
  · intro hhigh
    refine ⟨fun e he => (accountAsserts_iff hfits hbal he).mpr (hhigh e.1), ?_, ?_⟩
    · rw [accountSums_eq]
      exact sum_low_cash hsame hhigh
    · rw [accountSums_eq]
      exact sum_lots hsame

end Balances

/-! ## Honest transitions -/

/-- What the circuit needs of an execution: considerations of 64 bits, and cash that keeps its high
half. -/
structure BatchExecutionResult.FitsCircuit (pre : Ledger) (r : BatchExecutionResult) : Prop where
  consideration : ∀ f ∈ r.fills, (f.consideration.raw : ℕ) < 2 ^ 64
  cash : ∀ a, r.postState.cashOf a / 2 ^ 64 = pre.cashOf a / 2 ^ 64

/-- Sequence numbers that count the orders are their positions. -/
theorem seq_of_positions {b : Batch} (h : b.orders.map (fun o => (o.seq : ℕ)) = List.range b.len) :
    ∀ k o, b.orders[k]? = some o → (o.seq : ℕ) = k := by
  intro k o ho
  have hk : k < b.len := (List.getElem?_eq_some_iff.mp ho).1
  have hget : (b.orders.map fun o => (o.seq : ℕ))[k]? = some (o.seq : ℕ) := by
    rw [List.getElem?_map, ho]
    rfl
  rw [h, List.getElem?_range hk] at hget
  exact (Option.some.inj hget).symm

namespace SingleBatchProver

variable {D : Type} [DecidableEq D] [CommitmentScheme D] [StdSort]

omit [DecidableEq D] in
/-- The statement of an execution carries its clearing price. -/
theorem clearingPriceOf_cli {pre : Ledger} {batch : Batch} {preimages : List SaltedOrderPreimage}
    {cutoff : U64} {exec : BatchExecutionResult}
    (h : determineClearingOutcome batch = .ok exec.clearingOutcome) :
    clearingPriceOf (Cli.publicInputs (D := D) pre batch preimages cutoff exec) =
      exec.clearingOutcome.clearingPrice :=
  congrArg (fun r => r.clearingOutcome.clearingPrice) (executionOf_cli h)

omit [DecidableEq D] in
/-- The market conditions of an execution hold if it fits the circuit, and only then. -/
theorem marketHolds_cli_iff {pre : Ledger} {batch : Batch} (hb : batch.Accepted)
    (hseq : ∀ k o, batch.orders[k]? = some o → (o.seq : ℕ) = k) {r : BatchExecutionResult}
    (hexec : executeBatch pre batch = .ok r) (hver : verifyTransition pre batch r = .ok ())
    (preimages : List SaltedOrderPreimage) (cutoff : U64) :
    MarketHolds (Cli.publicInputs (D := D) pre batch preimages cutoff r)
      (Cli.witness pre batch preimages cutoff r) ↔ r.FitsCircuit pre := by
  have hsame := verifyTransition_sameTotals hver
  obtain ⟨outcome, post, ho, hrun, -, -, rfl⟩ := hb.executeBatch_eq_ok.mp hexec
  have hprice : clearingPriceOf (Cli.publicInputs (D := D) pre batch preimages cutoff ⟨outcome,
      canonicalAllocation outcome batch, canonicalFills outcome batch, post⟩) = outcome.clearingPrice :=
    clearingPriceOf_cli ho
  have hbal := foldlM_applyFill_balance (canonicalFills_instrument outcome batch) hrun
  constructor
  · intro hm
    have hfits : ∀ f ∈ canonicalFills outcome batch, (f.consideration.raw : ℕ) < 2 ^ 64 := by
      intro f hf
      obtain ⟨cp, -, hcp, -⟩ := mem_canonicalFills hf
      exact (hb.fillAsserts_iff ho hcp hf).2.mp (hm.fills cp (hprice.trans hcp) f hf).2
    exact ⟨hfits, (conservationAsserts_iff hfits hbal hsame).mp hm.conservation⟩
  · rintro ⟨hfits, hcash⟩
    refine ⟨fun p hp => ?_, fun price hp => hb.candidate_le ho hp,
      fun cp hcp => hb.allocationAsserts ho (hprice.symm.trans hcp), fun cp hcp f hf => ?_,
      (conservationAsserts_iff hfits hbal hsame).mpr hcash, fun _ _ _ hs => by cases hs⟩
    · have hget := List.mem_zipIdx_iff_getElem?.mp hp
      refine ⟨congrArg InstrumentId.raw (hb.orders.order p.1 (List.mem_of_getElem? hget)).instrument_eq, ?_⟩
      rw [toScalar, hseq p.2 p.1 hget]
    · obtain ⟨hchecked, hasserts⟩ := hb.fillAsserts_iff ho (hprice.symm.trans hcp) hf
      exact ⟨hchecked, hasserts.mpr (hfits f hf)⟩

omit [DecidableEq D] in
/-- The input of the honest prover is built from its batch. -/
theorem built_honest {pre : Ledger} {batch : Batch} (hb : batch.Accepted) (hlen : batch.len < 2 ^ 32)
    {r : BatchExecutionResult} (hexec : executeBatch pre batch = .ok r)
    (hver : verifyTransition pre batch r = .ok ()) (nonce : ℕ → Bytes32) (cutoff : U64) :
    Built (Cli.publicInputs (D := D) pre batch (Cli.preimagesWith nonce batch) cutoff r)
      (Cli.witness pre batch (Cli.preimagesWith nonce batch) cutoff r) := by
  obtain ⟨outcome, post, ho, -, -, -, rfl⟩ := hb.executeBatch_eq_ok.mp hexec
  have hfill := hb.isAllocation ho
  have hpre : (Cli.preimagesWith nonce batch).map (·.order) = batch.orders := by
    rw [Cli.preimagesWith, List.map_map]
    exact List.zipIdx_map_fst 0 batch.orders
  refine built_cli hpre hlen hb.orders.ids_nodup (fun o ho' => (hb.orders.order o ho').qty_pos)
    (fun o ho' => ?_) hver
  exact ⟨_, (toU64_fill hfill ho').le.trans (hfill.le_lots o ho'),
    find?_orderId hb.orders.ids_nodup _ ho'⟩

/-- An accepted execution is proved if it fits the circuit, and only then. -/
theorem prove_cli_iff {pre : Ledger} {batch : Batch} (hb : batch.Accepted) (hlen : batch.len < 2 ^ 32)
    (hseq : ∀ k o, batch.orders[k]? = some o → (o.seq : ℕ) = k) {r : BatchExecutionResult}
    (hexec : executeBatch pre batch = .ok r) (hver : verifyTransition pre batch r = .ok ())
    (nonce : ℕ → Bytes32) (cutoff : U64) :
    (∃ proof, prove (Cli.publicInputs (D := D) pre batch (Cli.preimagesWith nonce batch) cutoff r)
      (Cli.witness pre batch (Cli.preimagesWith nonce batch) cutoff r) = .ok proof) ↔
    r.FitsCircuit pre := by
  rw [(built_honest hb hlen hexec hver nonce cutoff).prove_iff]
  exact marketHolds_cli_iff hb hseq hexec hver _ cutoff

/-- **Honest transitions.** The execution of a created batch, accepted by the checker, is proved if
its considerations fit 64 bits and no account's cash changes its high half, and only then. -/
theorem prove_honest_iff {batchId : BatchId} {instrument : InstrumentId} {orders : List Order}
    {pre : Ledger} {batch : Batch} {r : BatchExecutionResult}
    (hb : Batch.create batchId instrument orders = .ok batch) (hlen : batch.len < 2 ^ 32)
    (hseq : ∀ k o, batch.orders[k]? = some o → (o.seq : ℕ) = k)
    (hexec : executeBatch pre batch = .ok r) (hver : verifyTransition pre batch r = .ok ())
    (nonce : ℕ → Bytes32) (cutoff : U64) :
    (∃ proof, prove (Cli.publicInputs (D := D) pre batch (Cli.preimagesWith nonce batch) cutoff r)
      (Cli.witness pre batch (Cli.preimagesWith nonce batch) cutoff r) = .ok proof) ↔
    (∀ f ∈ r.fills, (f.consideration.raw : ℕ) < 2 ^ 64) ∧
      ∀ a, r.postState.cashOf a / 2 ^ 64 = pre.cashOf a / 2 ^ 64 := by
  rw [prove_cli_iff (Batch.accepted_of_create hb) hlen hseq hexec hver nonce cutoff]
  exact ⟨fun h => ⟨h.consideration, h.cash⟩, fun h => ⟨h.1, h.2⟩⟩

end SingleBatchProver

/-- All considerations and all cash of the example are below 2^64. -/
theorem exampleResult_fitsCircuit : exampleResult.FitsCircuit exampleLedger := by
  refine ⟨by decide +kernel, fun a => ?_⟩
  have hsmall : ∀ l : Ledger, (∀ e ∈ l.accounts.entries, (e.2.cash.raw : ℕ) < 2 ^ 64) →
      l.cashOf a / 2 ^ 64 = 0 := by
    intro l hl
    refine Nat.div_eq_of_lt ?_
    unfold Ledger.cashOf
    cases hget : l.getAccount a with
    | none => exact Nat.two_pow_pos 64
    | some x => exact hl (a, x) (SortedMap.mem_entries.mpr hget)
  rw [hsmall exampleResult.postState (by decide +kernel), hsmall exampleLedger (by decide +kernel)]

theorem prove_honest_example :
    ∃ proof, @SingleBatchProver.prove Commitment _ _ .stable
      (Cli.publicInputs exampleLedger exampleBatch (Cli.derivePreimages exampleBatch 0) 1700000000
        exampleResult)
      (Cli.witness exampleLedger exampleBatch (Cli.derivePreimages exampleBatch 0) 1700000000
        exampleResult) = .ok proof := by
  have hseq := seq_of_positions (b := exampleBatch) (by decide)
  have hfits := exampleResult_fitsCircuit
  exact (@SingleBatchProver.prove_honest_iff Commitment _ _ .stable ⟨1⟩ ⟨7⟩ exampleBatch.orders
    exampleLedger exampleBatch exampleResult (by decide +kernel) (by decide) hseq (by decide +kernel)
    (by decide +kernel) _ 1700000000).mpr ⟨hfits.consideration, hfits.cash⟩

/-! ## A consideration of 65 bits -/

/-- A buy and a sell of 2^32 lots at 2^32. -/
def wideBatch : Batch where
  batchId := ⟨1⟩
  instrument := ⟨7⟩
  orders := [exampleOrder 1 1 .buy (2 ^ 32) (2 ^ 32) 0, exampleOrder 2 2 .sell (2 ^ 32) (2 ^ 32) 1]

/-- The buyer has exactly what it has to pay. -/
def wideLedger : Ledger :=
  (Ledger.empty.insertAccount (exampleAccount 1 (2 ^ 64) [])).insertAccount
    (exampleAccount 2 0 [(7, 2 ^ 32)])

/-- The execution of the wide batch. -/
def wideResult : BatchExecutionResult where
  clearingOutcome := ⟨some ⟨2 ^ 32⟩, ⟨2 ^ 32⟩⟩
  allocation := @canonicalAllocation .stable ⟨some ⟨2 ^ 32⟩, ⟨2 ^ 32⟩⟩ wideBatch
  fills := @canonicalFills .stable ⟨some ⟨2 ^ 32⟩, ⟨2 ^ 32⟩⟩ wideBatch
  postState := (Ledger.empty.insertAccount (exampleAccount 1 0 [(7, 2 ^ 32)])).insertAccount
    (exampleAccount 2 (2 ^ 64) [])

/-- **An honest transition that is not proved.** The batch executes and the checker accepts it, but
its consideration is 2^64. -/
theorem prove_rejects_wide :
    @Batch.create .stable ⟨1⟩ ⟨7⟩ wideBatch.orders = .ok wideBatch ∧
    @executeBatch .stable wideLedger wideBatch = .ok wideResult ∧
    @verifyTransition .stable wideLedger wideBatch wideResult = .ok () ∧
    ¬ ∃ proof, @SingleBatchProver.prove Commitment _ _ .stable
      (Cli.publicInputs wideLedger wideBatch (Cli.derivePreimages wideBatch 0) 1700000000 wideResult)
      (Cli.witness wideLedger wideBatch (Cli.derivePreimages wideBatch 0) 1700000000 wideResult) =
        .ok proof := by
  have hcreate : @Batch.create .stable ⟨1⟩ ⟨7⟩ wideBatch.orders = .ok wideBatch := by decide +kernel
  have hexec : @executeBatch .stable wideLedger wideBatch = .ok wideResult := by decide +kernel
  have hver : @verifyTransition .stable wideLedger wideBatch wideResult = .ok () := by decide +kernel
  refine ⟨hcreate, hexec, hver, ?_⟩
  have hseq := seq_of_positions (b := wideBatch) (by decide)
  intro hproof
  have hfits := (@SingleBatchProver.prove_cli_iff Commitment _ _ .stable _ _
    (@Batch.accepted_of_create .stable _ _ _ _ hcreate) (by decide) hseq _ hexec hver _ _).mp hproof
  have hwide : ∃ f ∈ wideResult.fills, ¬ (f.consideration.raw : ℕ) < 2 ^ 64 := by decide +kernel
  obtain ⟨f, hf, hnot⟩ := hwide
  exact hnot (hfits.consideration f hf)

end FairCross
