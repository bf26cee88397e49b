import FairCross.MarketData.Replay
import FairCross.MarketData.Proofs.RestingProofs
import FairCross.Proof.Proofs.ConstraintProofs

/-!
# Reference prices from a replay

The mid price is between the best bid and the best ask, also in a crossed book, and a replay publishes
it under the time of the last message it looked at, applied or rejected.
-/

namespace FairCross

namespace OrderBook

variable {b : OrderBook}

/-- The middle of two positive prices, computed without overflow, is a price. -/
theorem create_middle {low high : U64} (hlow : 0 < (low : ℕ)) (hle : (low : ℕ) ≤ high) :
    ∃ mid, Price.create (low + (high - low) / 2) = .ok mid ∧
      (mid.raw : ℕ) = ((low : ℕ) + high) / 2 := by
  have hhigh := high.isLt
  have hsub : ((high - low : U64) : ℕ) = high - low := Fin.sub_val_of_le hle
  have hhalf : (((high - low) / 2 : U64) : ℕ) = ((high : ℕ) - low) / 2 :=
    congrArg (· / 2) hsub
  have hval : ((low + (high - low) / 2 : U64) : ℕ) = ((low : ℕ) + high) / 2 := by
    rw [Fin.val_add, hhalf, Nat.mod_eq_of_lt (by omega)]
    omega
  have hne : low + (high - low) / 2 ≠ 0 := by
    intro h0
    rw [h0] at hval
    have h0' : ((0 : U64) : ℕ) = 0 := rfl
    omega
  exact ⟨⟨low + (high - low) / 2⟩, if_neg hne, hval⟩

/-- A book has a mid price when something rests on both sides. -/
theorem WellFormed.midPrice_cases (hb : b.WellFormed) :
    (b.midPrice = none ∧ (b.bestBid = none ∨ b.bestAsk = none)) ∨
    ∃ mid bid ask, b.midPrice = some mid ∧ b.bestBid = some bid ∧ b.bestAsk = some ask ∧
      (mid.raw : ℕ) = ((bid.raw : ℕ) + ask.raw) / 2 := by
  have hc := hb.consistent
  unfold midPrice
  rcases hbid : b.bestBid with - | bid
  · exact .inl ⟨rfl, .inl rfl⟩
  rcases hask : b.bestAsk with - | ask
  · exact .inl ⟨rfl, .inr rfl⟩
  right
  obtain ⟨⟨r, o, ho, -, rfl⟩, -⟩ := hc.best_bid _ hbid
  obtain ⟨⟨r', o', ho', -, rfl⟩, -⟩ := hc.best_ask _ hask
  have hpos := (hb.resting _ _ ho).price_pos
  have hpos' := (hb.resting _ _ ho').price_pos
  dsimp only
  by_cases hlt : o.price.raw < o'.price.raw
  · obtain ⟨mid, hmid, hval⟩ := create_middle hpos (le_of_lt hlt)
    rw [if_pos hlt, if_pos hlt, hmid]
    exact ⟨mid, _, _, rfl, rfl, rfl, hval⟩
  · obtain ⟨mid, hmid, hval⟩ := create_middle hpos' (not_lt.mp hlt)
    rw [if_neg hlt, if_neg hlt, hmid]
    exact ⟨mid, _, _, rfl, rfl, rfl, hval.trans (by rw [Nat.add_comm])⟩

end OrderBook

/-- The prices of the resting orders of a side. -/
def restingPrices (orders : SortedMap U64 BookOrder) (side : Side) : Set Price :=
  {q | ∃ r o, orders.find r = some o ∧ o.side = side ∧ o.price = q}

theorem restingPrices_eq_empty {orders : SortedMap U64 BookOrder} {side : Side} :
    restingPrices orders side = ∅ ↔ ∀ r o, orders.find r = some o → o.side ≠ side := by
  rw [Set.eq_empty_iff_forall_notMem]
  constructor
  · intro h r o ho hside
    exact h o.price ⟨r, o, ho, hside, rfl⟩
  · rintro h q ⟨r, o, ho, hside, -⟩
    exact h r o ho hside

/-- What the policy asks of a snapshot of the batch's instrument. -/
theorem validate_own_instrument_iff {policy : ReferencePricePolicy} {snap : ReferencePriceSnapshot}
    {cutoff : U64} {clearing : Price} :
    validateReferencePriceSnapshot policy snap snap.instrumentId cutoff (some clearing) = .ok () ↔
      ((snap.timestampNanos : ℕ) ≤ cutoff ∧
        (cutoff : ℕ) ≤ snap.timestampNanos + policy.maxStalenessNanos) ∧
      (clearing.raw : ℕ) ≤ snap.referencePrice.raw + policy.maxDeviationTicks ∧
        (snap.referencePrice.raw : ℕ) ≤ clearing.raw + policy.maxDeviationTicks := by
  rw [validateReferencePriceSnapshot_eq_ok]
  constructor
  · intro h
    exact ⟨⟨h.not_future, h.fresh⟩, h.collar clearing rfl⟩
  · rintro ⟨⟨hfuture, hfresh⟩, hcollar⟩
    refine ⟨rfl, hfuture, hfresh, fun cp hcp => ?_⟩
    obtain rfl := Option.some.inj hcp
    exact hcollar

/-- **The reference price of a replay.** Behind a replay from a reachable book there is a snapshot when
an order rests on either side. Its price is the middle of the highest resting bid and the lowest resting
ask, rounded down, and its time that of the last message the replay looked at. A batch of the same
instrument may then clear at a price exactly when its cutoff is not before that time and not beyond the
staleness bound, and the price is within the collar around the middle. -/
theorem currentReferencePriceSnapshot_exact (calls : List BookCall) (history : List BboQuote)
    (ms : List ItchMessage) (oracleId : U32) (instrument : InstrumentId) (sequence : U64) :
    let e := (ItchReplayEngine.replayMessages ⟨OrderBook.run calls, history⟩ ms).1
    let orders := e.book.ordersByRef
    let snapshot := e.currentReferencePriceSnapshot oracleId instrument sequence
    (snapshot = none ↔ restingPrices orders .buy = ∅ ∨ restingPrices orders .sell = ∅) ∧
    ∀ snap, snapshot = some snap → ∃ bid ask k, IsGreatest (restingPrices orders .buy) bid ∧
      IsLeast (restingPrices orders .sell) ask ∧
      StopsBehind (OrderBook.run calls) ms history
        (ItchReplayEngine.replayMessages ⟨OrderBook.run calls, history⟩ ms) k ∧
      snap.timestampNanos = ((ms.take (k + 1)).getLast?.map ItchMessage.timestampNanos).getD
        (OrderBook.run calls).lastTimestampNanos ∧
      (snap.referencePrice.raw : ℕ) = ((bid.raw : ℕ) + ask.raw) / 2 ∧
      ∀ (policy : ReferencePricePolicy) (cutoff : U64) (clearing : Price),
        validateReferencePriceSnapshot policy snap instrument cutoff (some clearing) = .ok () ↔
          ((snap.timestampNanos : ℕ) ≤ cutoff ∧
            (cutoff : ℕ) ≤ snap.timestampNanos + policy.maxStalenessNanos) ∧
          (clearing.raw : ℕ) ≤ ((bid.raw : ℕ) + ask.raw) / 2 + policy.maxDeviationTicks ∧
            ((bid.raw : ℕ) + ask.raw) / 2 ≤ clearing.raw + policy.maxDeviationTicks := by
  obtain ⟨k, hk⟩ := replayMessages_stopsBehind (e := ⟨OrderBook.run calls, history⟩)
    (OrderBook.run_wellFormed calls) ms
  intro e orders snapshot
  have hb : e.book.WellFormed := hk.wellFormed
  have hc := hb.consistent
  rcases hb.midPrice_cases with ⟨hmid, hside⟩ | ⟨mid, bid, ask, hmid, hbid, hask, hval⟩
  · have hnone : snapshot = none := by
      show OracleBridge.snapshotFromBook e.book _ _ _ _ = none
      rw [OracleBridge.snapshotFromBook, hmid]
    refine ⟨iff_of_true hnone ?_, fun snap h => absurd (hnone.symm.trans h) (by simp)⟩
    rcases hside with h | h
    · exact .inl (restingPrices_eq_empty.mpr (hc.best_bid_none h))
    · exact .inr (restingPrices_eq_empty.mpr (hc.best_ask_none h))
  · have hsome : snapshot =
        some ⟨oracleId, instrument, mid, e.book.lastTimestampNanos, sequence⟩ := by
      show OracleBridge.snapshotFromBook e.book _ _ _ _ = _
      rw [OracleBridge.snapshotFromBook, hmid]
    have hgreatest := hc.best_bid _ hbid
    have hleast := hc.best_ask _ hask
    refine ⟨iff_of_false (by simp [hsome]) ?_, fun snap h => ?_⟩
    · rintro (h | h)
      · exact Set.eq_empty_iff_forall_notMem.mp h _ hgreatest.1
      · exact Set.eq_empty_iff_forall_notMem.mp h _ hleast.1
    · obtain rfl := Option.some.inj (hsome.symm.trans h)
      refine ⟨bid, ask, k, hgreatest, hleast, hk, hk.clock, hval, fun policy cutoff clearing => ?_⟩
      rw [← hval]
      exact validate_own_instrument_iff

end FairCross
