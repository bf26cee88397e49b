import FairCross.Engine.Proofs.CheckerProofs

/-!
# Conservation under the checker

What an accepted proposal conserves, for any batch, also one that never went through `create`. Clearing
prices are positive whatever the orders are, so every canonical fill has something to pay on both
sides, and settling it does not open an account.
-/

namespace FairCross

theorem resolveClearingPriceTie_pos {m : VolumeMaximizers} {p : Price}
    (h : resolveClearingPriceTie m = some p) : 0 < (p.raw : ℕ) := by
  unfold resolveClearingPriceTie at h
  split at h
  · split_ifs at h
    unfold Price.create at h
    split_ifs at h with h0
    obtain rfl := Option.some.inj h
    exact Nat.pos_of_ne_zero fun hz => h0 (Fin.ext hz)
  · cases h

theorem determineClearingOutcome_price_pos [StdSort] {batch : Batch} {outcome : ClearingOutcome}
    (h : determineClearingOutcome batch = .ok outcome) {p : Price}
    (hp : outcome.clearingPrice = some p) : 0 < (p.raw : ℕ) := by
  obtain ⟨m, -, rfl⟩ := determineClearingOutcome_eq_ok.mp h
  exact resolveClearingPriceTie_pos hp

/-- An allocation has no price but the one it was made at. -/
theorem allocateBatch_clearingPrice [StdSort] {batch : Batch} {cp : Option Price} {v : Qty}
    {a : BatchAllocation} (h : allocateBatch batch cp v = .ok a) {p : Price}
    (hp : a.clearingPrice = some p) : cp = some p := by
  unfold allocateBatch at h
  split at h
  · obtain rfl := Except.ok.inj h
    cases hp
  · split_ifs at h
    · obtain rfl := Except.ok.inj h
      cases hp
    · simp only [allocateAt, Result.bind_eq_ok, Result.pure_eq_ok] at h
      obtain ⟨_, -, _, -, rfl⟩ := h
      exact hp

/-- The fills of an allocation are made at its price, and there are none without one. -/
theorem generateCanonicalFills_ok {batch : Batch} {a : BatchAllocation} {fills : List Fill}
    (h : generateCanonicalFills batch a = .ok fills) : fills = [] ∨
      ∃ cp, a.clearingPrice = some cp ∧ fills = fillsFrom batch.instrument cp 0 a.allocations := by
  unfold generateCanonicalFills at h
  split at h
  · exact .inl (Except.ok.inj h).symm
  · rename_i cp hcp
    split_ifs at h
    · exact .inl (Except.ok.inj h).symm
    · obtain ⟨id', hfold⟩ := foldlM_fillStep batch.instrument cp a.allocations [] 0
      simp only [hfold, Result.bind_eq_ok, Result.pure_eq_ok, Except.ok.injEq, List.nil_append,
        exists_eq_left'] at h
      exact .inr ⟨cp, hcp, h.symm⟩

theorem mem_generateCanonicalFills {batch : Batch} {a : BatchAllocation} {fills : List Fill}
    (h : generateCanonicalFills batch a = .ok fills) {f : Fill} (hf : f ∈ fills) :
    ∃ cp id, a.clearingPrice = some cp ∧ ∃ x ∈ a.allocations, x.allocatedQty.isZero = false ∧
      f = fillOf batch.instrument cp id x := by
  rcases generateCanonicalFills_ok h with rfl | ⟨cp, hcp, rfl⟩
  · cases hf
  · obtain ⟨id, x, hx, hz, rfl⟩ := mem_fillsFrom hf
    exact ⟨cp, id, hcp, x, hx, hz, rfl⟩

theorem length_generateCanonicalFills {batch : Batch} {a : BatchAllocation} {fills : List Fill}
    (h : generateCanonicalFills batch a = .ok fills) : fills.length ≤ a.allocations.length := by
  rcases generateCanonicalFills_ok h with rfl | ⟨cp, -, rfl⟩
  · exact Nat.zero_le _
  · exact length_fillsFrom batch.instrument cp 0 a.allocations

/-- The checker recomputes what is proposed up to the post-state. -/
theorem verifyTransition_iff [StdSort] {batch : Batch} {pre : Ledger}
    {proposed : BatchExecutionResult} : verifyTransition pre batch proposed = .ok () ↔
      determineClearingOutcome batch = .ok proposed.clearingOutcome ∧
      allocateBatch batch proposed.clearingOutcome.clearingPrice
        proposed.clearingOutcome.executableVolume = .ok proposed.allocation ∧
      generateCanonicalFills batch proposed.allocation = .ok proposed.fills ∧
      verifySettlement pre batch proposed = .ok () := by
  simp only [verifyTransition, Result.bind_eq_ok, Result.orFail_eq_ok, Result.ite_failure_eq_ok, ne_eq,
    not_not]
  constructor
  · rintro ⟨_, h1, rfl, _, h2, rfl, _, h3, rfl, h4⟩
    exact ⟨h1, h2, h3, h4⟩
  · rintro ⟨h1, h2, h3, h4⟩
    exact ⟨_, h1, rfl, _, h2, rfl, _, h3, rfl, h4⟩

/-- The same accounts with the same totals of cash and of instrument `inst`. -/
structure Ledger.SameTotals (inst : InstrumentId) (l l' : Ledger) : Prop where
  isSome : ∀ a, (l'.getAccount a).isSome = (l.getAccount a).isSome
  cash : l'.cashSum = l.cashSum
  lots : l'.lotsSum inst = l.lotsSum inst

theorem Ledger.SameTotals.trans {inst : InstrumentId} {l l' l'' : Ledger}
    (h : l.SameTotals inst l') (h' : l'.SameTotals inst l'') : l.SameTotals inst l'' :=
  ⟨fun a => (h'.isSome a).trans (h.isSome a), h'.cash.trans h.cash, h'.lots.trans h.lots⟩

/-- An accepted settlement keeps the totals, and its post-state is the one the fills lead to. -/
theorem verifySettlement_ok {batch : Batch} {pre : Ledger} {proposed : BatchExecutionResult}
    (h : verifySettlement pre batch proposed = .ok ()) : ∃ post,
      proposed.fills.foldlM applyFill pre = .ok post ∧ proposed.postState.cashSum = pre.cashSum ∧
      proposed.postState.lotsSum batch.instrument = pre.lotsSum batch.instrument ∧
      post.Matches batch.instrument proposed.postState := by
  simp only [verifySettlement, Result.bind_eq_ok, Result.orFail_eq_ok, Result.ite_failure_eq_ok,
    ne_eq, not_not, Bool.not_eq_true', Bool.not_eq_false, sameTotal_cash, sameTotal_inventory,
    applyBatchTransition_eq_ok, ← matches_iff] at h
  obtain ⟨t, -, -, hcash, hlots, post, ⟨hrun, -, -⟩, hm⟩ := h
  exact ⟨post, hrun, hcash.1, hlots.1, hm⟩

/-- Post-states that match the same ledger match each other. -/
theorem Ledger.Matches.agree {inst : InstrumentId} {expected l l' : Ledger}
    (h : expected.Matches inst l) (h' : expected.Matches inst l') : l.Matches inst l' := by
  refine ⟨h'.size.trans h.size.symm, fun a x hx => ?_⟩
  have hsome : (expected.getAccount a).isSome := by
    rw [← h.isSome a, hx]
    rfl
  obtain ⟨z, hz⟩ := Option.isSome_iff_exists.mp hsome
  obtain ⟨x', hx', hcash, hinv⟩ := h.account a z hz
  obtain ⟨y, hy, hcash', hinv'⟩ := h'.account a z hz
  obtain rfl := Option.some.inj (hx.symm.trans hx')
  exact ⟨y, hy, hcash'.trans hcash.symm, hinv'.trans hinv.symm⟩

/-- **Two accepted proposals** agree in everything the checker compares. -/
theorem verifyTransition_agree [StdSort] {batch : Batch} {pre : Ledger}
    {proposed proposed' : BatchExecutionResult} (h : verifyTransition pre batch proposed = .ok ())
    (h' : verifyTransition pre batch proposed' = .ok ()) :
    proposed'.clearingOutcome = proposed.clearingOutcome ∧
      proposed.postState.Matches batch.instrument proposed'.postState := by
  obtain ⟨ho, ha, hf, hs⟩ := verifyTransition_iff.mp h
  obtain ⟨ho', ha', hf', hs'⟩ := verifyTransition_iff.mp h'
  have hoeq : proposed'.clearingOutcome = proposed.clearingOutcome := by
    rw [ho] at ho'
    exact (Except.ok.inj ho').symm
  have haeq : proposed'.allocation = proposed.allocation := by
    rw [hoeq, ha] at ha'
    exact (Except.ok.inj ha').symm
  have hfeq : proposed'.fills = proposed.fills := by
    rw [haeq, hf] at hf'
    exact (Except.ok.inj hf').symm
  obtain ⟨post, hrun, -, -, hm⟩ := verifySettlement_ok hs
  obtain ⟨post', hrun', -, -, hm'⟩ := verifySettlement_ok hs'
  rw [hfeq, hrun] at hrun'
  obtain rfl := Except.ok.inj hrun'
  exact ⟨hoeq, hm.agree hm'⟩

/-- **Conservation.** An accepted proposal keeps the accounts and the totals. -/
theorem verifyTransition_sameTotals [StdSort] {batch : Batch} {pre : Ledger}
    {proposed : BatchExecutionResult} (h : verifyTransition pre batch proposed = .ok ()) :
    pre.SameTotals batch.instrument proposed.postState := by
  obtain ⟨ho, ha, hf, h⟩ := verifyTransition_iff.mp h
  obtain ⟨post, hrun, hcash, hlots, hm⟩ := verifySettlement_ok h
  have hinst : ∀ f ∈ proposed.fills, f.instrumentId = batch.instrument := by
    intro f hfm
    obtain ⟨cp, id, -, x, -, -, rfl⟩ := mem_generateCanonicalFills hf hfm
    rfl
  have hpos : ∀ f ∈ proposed.fills, f.Positive := by
    intro f hfm
    obtain ⟨cp, id, hcp, x, -, hz, rfl⟩ := mem_generateCanonicalFills hf hfm
    have hq : 0 < (x.allocatedQty.raw : ℕ) := by
      rw [Bool.eq_false_iff, ne_eq, Qty.isZero_iff] at hz
      omega
    have hp := determineClearingOutcome_price_pos ho (allocateBatch_clearingPrice ha hcp)
    refine ⟨?_, hq⟩
    rw [fillOf_consideration]
    exact Nat.mul_pos hp hq
  have hsame := foldlM_applyFill_sameAccounts hinst hpos hrun
  exact ⟨fun a => (hm.isSome a).trans (hsame.isSome a), hcash, hlots⟩

end FairCross
