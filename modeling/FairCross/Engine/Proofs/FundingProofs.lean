import FairCross.Engine.Proofs.TransitionProofs

/-!
# Ledgers on which fills settle

Every account starts with exactly what its own fills need. Then no debit fails, and as the fills of a
batch take no more than they give, no credit and no total overflows either: for every batch that
clears there is a ledger on which it executes (`exists_executing`).
-/

namespace FairCross

open Postings

/-- What the fills add to the cash of `a`, one by one. -/
def cashAmounts (fills : List Fill) (a : AccountId) : List ℤ :=
  (fills.filter fun f => f.accountId = a).map fun f => f.delta.1

/-- What the fills add to the inventory of `a`, one by one. -/
def lotsAmounts (fills : List Fill) (a : AccountId) : List ℤ :=
  (fills.filter fun f => f.accountId = a).map fun f => f.delta.2

/-- The account `a` with what its fills need. -/
def fundedAccount (i : InstrumentId) (fills : List Fill) (a : AccountId) : AccountState where
  id := a
  cash := ⟨Fin.ofNat _ (need (cashAmounts fills a)).toNat⟩
  inventory := SortedMap.empty.insert i ⟨toU64 (need (lotsAmounts fills a)).toNat⟩
  commitmentSalt := .fill 0

/-- The accounts of the fills, funded. -/
def fundedLedger (i : InstrumentId) (fills : List Fill) : Ledger :=
  ⟨fills.foldl (fun m f => m.insert f.accountId (fundedAccount i fills f.accountId)) .empty⟩

/-- The fills take and give amounts that can be stored. -/
structure Moderate (fills : List Fill) : Prop where
  cash_losses : losses (fills.map fun f => f.delta.1) < 2 ^ 128
  cash_gains : gains (fills.map fun f => f.delta.1) < 2 ^ 128
  lots_losses : losses (fills.map fun f => f.delta.2) < 2 ^ 64
  lots_gains : gains (fills.map fun f => f.delta.2) < 2 ^ 64

section Funded

variable {i : InstrumentId} {fills : List Fill}

theorem getAccount_funded {a : AccountId} {x : AccountState}
    (h : (fundedLedger i fills).getAccount a = some x) : x = fundedAccount i fills a := by
  have hfold : ∀ (l : List Fill) (m : SortedMap AccountId AccountState),
      (∀ x, m.find a = some x → x = fundedAccount i fills a) → ∀ x,
      (l.foldl (fun m f => m.insert f.accountId (fundedAccount i fills f.accountId)) m).find a =
        some x → x = fundedAccount i fills a := by
    intro l
    induction l with
    | nil => exact fun m hm => hm
    | cons f l ih =>
      intro m hm
      refine ih _ fun x hx => ?_
      rw [SortedMap.find_insert] at hx
      split_ifs at hx with ha
      · rw [← Option.some.inj hx, ha]
      · exact hm x hx
  exact hfold fills .empty (fun x hx => by cases hx) x h

theorem isSome_funded {f : Fill} (hf : f ∈ fills) :
    ((fundedLedger i fills).getAccount f.accountId).isSome := by
  have hfold : ∀ (l : List Fill) (m : SortedMap AccountId AccountState),
      (m.find f.accountId).isSome ∨ f ∈ l →
      ((l.foldl (fun m f => m.insert f.accountId (fundedAccount i fills f.accountId)) m).find
        f.accountId).isSome := by
    intro l
    induction l with
    | nil =>
      rintro m (h | h)
      · exact h
      · cases h
    | cons g l ih =>
      intro m h
      refine ih _ ?_
      rw [SortedMap.find_insert]
      by_cases hg : g.accountId = f.accountId
      · simp [hg]
      · rw [if_neg hg]
        rcases h with h | h
        · exact Or.inl h
        · rcases List.mem_cons.mp h with rfl | h
          · exact absurd rfl hg
          · exact Or.inr h
  exact hfold fills .empty (Or.inr hf)

theorem losses_account_le (w : Fill → ℤ) (fills : List Fill) (a : AccountId) :
    losses ((fills.filter fun f => f.accountId = a).map w) ≤ losses (fills.map w) := by
  have := sum_net_le Fill.accountId (w := fun f => max (-w f) 0)
    (fun f => le_max_right _ _) (List.nodup_singleton a) fills
  simpa [losses, net, Function.comp_def] using this

theorem gains_account_le (w : Fill → ℤ) (fills : List Fill) (a : AccountId) :
    gains ((fills.filter fun f => f.accountId = a).map w) ≤ gains (fills.map w) := by
  have := sum_net_le Fill.accountId (w := fun f => max (w f) 0)
    (fun f => le_max_right _ _) (List.nodup_singleton a) fills
  simpa [gains, net, Function.comp_def] using this

/-- The stored amounts are the needed ones. -/
theorem fundedAccount_val (hm : Moderate fills) (a : AccountId) :
    ((fundedAccount i fills a).cash.raw : ℤ) = need (cashAmounts fills a) ∧
      (((fundedAccount i fills a).inventoryOf i).raw : ℤ) = need (lotsAmounts fills a) := by
  have h1 := need_nonneg (cashAmounts fills a)
  have h2 := (need_le_losses (cashAmounts fills a)).trans (losses_account_le _ fills a)
  have h3 := need_nonneg (lotsAmounts fills a)
  have h4 := (need_le_losses (lotsAmounts fills a)).trans (losses_account_le _ fills a)
  have h5 := hm.cash_losses
  have h6 := hm.lots_losses
  constructor
  · have : (need (cashAmounts fills a)).toNat % 2 ^ 128 = (need (cashAmounts fills a)).toNat :=
      Nat.mod_eq_of_lt (by omega)
    show (((need (cashAmounts fills a)).toNat % 2 ^ 128 : ℕ) : ℤ) = _
    rw [this]
    omega
  · have hinv : (fundedAccount i fills a).inventoryOf i =
        ⟨toU64 (need (lotsAmounts fills a)).toNat⟩ := by
      simp [AccountState.inventoryOf, fundedAccount]
    have : (need (lotsAmounts fills a)).toNat % 2 ^ 64 = (need (lotsAmounts fills a)).toNat :=
      Nat.mod_eq_of_lt (by omega)
    rw [hinv, toU64_val, this]
    omega

/-- No balance of the replay leaves the range. -/
theorem funded_storable (hm : Moderate fills) {k : ℕ} (hk : k < fills.length) :
    Storable (runningBalance i (fundedLedger i fills) fills k fills[k].accountId +
      fills[k].delta) := by
  obtain ⟨x, hx⟩ := Option.isSome_iff_exists.mp
    (isSome_funded (i := i) (List.getElem_mem hk))
  have hbal : (fundedLedger i fills).balance i fills[k].accountId =
      (need (cashAmounts fills fills[k].accountId), need (lotsAmounts fills fills[k].accountId)) := by
    obtain ⟨h1, h2⟩ := fundedAccount_val (i := i) hm fills[k].accountId
    simp only [Ledger.balance, Ledger.cashOf, Ledger.lotsOf, hx, getAccount_funded hx,
      Option.map_some, Option.getD_some, h1, h2]
  have hnext : runningBalance i (fundedLedger i fills) fills k fills[k].accountId + fills[k].delta =
      (need (cashAmounts fills fills[k].accountId), need (lotsAmounts fills fills[k].accountId)) +
        netFills (fills.take (k + 1)) fills[k].accountId := by
    rw [runningBalance, hbal, netFills, netFills, net_take_succ _ _ _ hk, if_pos rfl, add_assoc]
  have hsplit : ∀ w : Fill → ℤ, (fills.filter fun f => f.accountId = fills[k].accountId).map w =
      ((fills.take (k + 1)).filter fun f => f.accountId = fills[k].accountId).map w ++
        ((fills.drop (k + 1)).filter fun f => f.accountId = fills[k].accountId).map w := by
    intro w
    rw [← List.map_append, ← List.filter_append, List.take_append_drop]
  have hc := losses_account_le (fun f => f.delta.1) fills fills[k].accountId
  have hc' := gains_account_le (fun f => f.delta.1) fills fills[k].accountId
  have hl := losses_account_le (fun f => f.delta.2) fills fills[k].accountId
  have hl' := gains_account_le (fun f => f.delta.2) fills fills[k].accountId
  obtain ⟨hm1, hm2, hm3, hm4⟩ := hm
  rw [hnext, netFills, net, sum_components]
  unfold Storable cashAmounts lotsAmounts
  rw [hsplit] at hc hc' hl hl' ⊢
  rw [hsplit fun f => f.delta.2]
  have h1 := need_add_sum (b := 2 ^ 128 - 1) (by omega) (hc'.trans (by omega))
  have h2 := need_add_sum (b := 2 ^ 64 - 1) (by omega) (hl'.trans (by omega))
  simp only [Prod.mk_add_mk]
  omega

/-- The funds add up to at most what the fills take. -/
theorem funded_sums (hm : Moderate fills) : (fundedLedger i fills).cashSum < 2 ^ 128 ∧
    (fundedLedger i fills).lotsSum i < 2 ^ 64 := by
  have hsum : ∀ (g : AccountState → ℕ) (w : Fill → ℤ),
      (∀ a, (g (fundedAccount i fills a) : ℤ) ≤
        net Fill.accountId (fun f => max (-w f) 0) fills a) →
      (((fundedLedger i fills).accounts.sum g : ℕ) : ℤ) ≤ losses (fills.map w) := by
    intro g w hg
    have hmap : (fundedLedger i fills).accounts.entries.map (fun e => g e.2) =
        (fundedLedger i fills).accounts.keys.map fun a => g (fundedAccount i fills a) := by
      rw [SortedMap.keys, List.map_map]
      refine List.map_congr_left fun e he => ?_
      rw [getAccount_funded (SortedMap.mem_entries.mp he)]
      rfl
    have hle := sum_net_le Fill.accountId (w := fun f => max (-w f) 0)
      (fun f => le_max_right _ _) (fundedLedger i fills).accounts.keys_nodup fills
    rw [SortedMap.sum, hmap, Nat.cast_list_sum, List.map_map]
    refine (List.sum_le_sum fun a _ => hg a).trans ?_
    simpa [losses, Function.comp_def] using hle
  have hloss : ∀ (w : Fill → ℤ) (a : AccountId),
      losses ((fills.filter fun f => f.accountId = a).map w) =
        net Fill.accountId (fun f => max (-w f) 0) fills a := by
    intro w a
    simp [losses, net, Function.comp_def]
  have h1 := hsum (fun x => x.cash.raw) (fun f => f.delta.1) fun a => by
    rw [(fundedAccount_val hm a).1, ← hloss]
    exact need_le_losses _
  have h2 := hsum (fun x => (x.inventoryOf i).raw) (fun f => f.delta.2) fun a => by
    rw [(fundedAccount_val hm a).2, ← hloss]
    exact need_le_losses _
  have h3 := hm.cash_losses
  have h4 := hm.lots_losses
  unfold Ledger.cashSum Ledger.lotsSum
  omega

end Funded

/-! ## The fills of a batch -/

/-- What allocations take and give is one side's lots, or what they cost. -/
theorem sum_delta_parts (cp : Price) {as : List OrderAllocation}
    (hs : ∀ a ∈ as, a.side = .buy ∨ a.side = .sell) :
    (as.map fun a => max (-(a.delta cp).1) 0).sum = ((cp.raw * tradedLots .buy as : ℕ) : ℤ) ∧
    (as.map fun a => max (a.delta cp).1 0).sum = ((cp.raw * tradedLots .sell as : ℕ) : ℤ) ∧
    (as.map fun a => max (-(a.delta cp).2) 0).sum = ((tradedLots .sell as : ℕ) : ℤ) ∧
    (as.map fun a => max (a.delta cp).2 0).sum = ((tradedLots .buy as : ℕ) : ℤ) := by
  induction as with
  | nil => simp
  | cons a as ih =>
    obtain ⟨h1, h2, h3, h4⟩ := ih fun b hb => hs b (List.mem_cons_of_mem _ hb)
    simp only [List.map_cons, List.sum_cons, h1, h2, h3, h4, tradedLots_cons, Nat.mul_add]
    have hnn : (0 : ℤ) ≤ ((cp.raw * a.allocatedQty.raw : ℕ) : ℤ) := Int.natCast_nonneg _
    rcases hs a (List.mem_cons_self ..) with h | h
    · simp only [OrderAllocation.delta, h, if_true, reduceCtorEq, if_false]
      omega
    · simp only [OrderAllocation.delta, h, if_true, reduceCtorEq, if_false]
      omega

theorem canonicalFills_moderate [StdSort] {batch : Batch} (hb : batch.Accepted)
    {outcome : ClearingOutcome} (h : determineClearingOutcome batch = .ok outcome) :
    Moderate (canonicalFills outcome batch) := by
  cases hcp : outcome.clearingPrice with
  | none =>
    have hnil : canonicalFills outcome batch = [] := by rw [canonicalFills, hcp]
    rw [hnil]
    exact ⟨by decide, by decide, by decide, by decide⟩
  | some cp =>
    have hbuy := hb.tradedLots_canonical h (.inl rfl)
    have hsell := hb.tradedLots_canonical h (.inr rfl)
    have hv := outcome.executableVolume.raw.isLt
    have hpv := Money.price_qty_lt cp outcome.executableVolume
    obtain ⟨h1, h2, h3, h4⟩ := sum_delta_parts cp hb.allocations_side
    rw [hbuy] at h1 h4
    rw [hsell] at h2 h3
    constructor
    · rw [losses, List.map_map]
      show ((canonicalFills outcome batch).map fun f => max (-f.delta.1) 0).sum < _
      rw [sum_canonicalFills hcp (fun d => max (-d.1) 0) rfl, h1]
      exact_mod_cast hpv
    · rw [gains, List.map_map]
      show ((canonicalFills outcome batch).map fun f => max f.delta.1 0).sum < _
      rw [sum_canonicalFills hcp (fun d => max d.1 0) rfl, h2]
      exact_mod_cast hpv
    · rw [losses, List.map_map]
      show ((canonicalFills outcome batch).map fun f => max (-f.delta.2) 0).sum < _
      rw [sum_canonicalFills hcp (fun d => max (-d.2) 0) rfl, h3]
      exact_mod_cast hv
    · rw [gains, List.map_map]
      show ((canonicalFills outcome batch).map fun f => max f.delta.2 0).sum < _
      rw [sum_canonicalFills hcp (fun d => max d.2 0) rfl, h4]
      exact_mod_cast hv

/-- **Every batch that clears executes on some ledger.** -/
theorem Batch.Accepted.exists_executing [StdSort] {batch : Batch} (hb : batch.Accepted)
    {outcome : ClearingOutcome} (h : determineClearingOutcome batch = .ok outcome) :
    ∃ pre r, executeBatch pre batch = .ok r ∧ r.allocation = canonicalAllocation outcome batch := by
  have hmod := canonicalFills_moderate hb h
  obtain ⟨post, hpost⟩ := (foldlM_applyFill_isOk (canonicalFills_instrument outcome batch)).mpr
    fun k hk => funded_storable (i := batch.instrument) hmod hk
  obtain ⟨h1, h2⟩ := funded_sums (i := batch.instrument) hmod
  exact ⟨_, _, hb.executeBatch_eq_ok.mpr ⟨outcome, post, h, hpost, h1, fun _ => h2, rfl⟩, rfl⟩

end FairCross
