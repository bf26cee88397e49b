import FairCross.Engine.Proofs.ExecutionProofs

/-!
# The order of the fills

The settlement loop books one fill after another and checks every running balance. The result does not
depend on the order of the fills, but whether the loop gets through does: an account that buys and
sells can need the proceeds of one fill to pay for another.
-/

namespace FairCross

open Postings

/-! ## One account at a time -/

/-- The balances a fill changes can be stored. -/
def Fill.Admits (f : Fill) (b : Balances) : Prop := Storable (b.1, b.2 f.instrumentId)

theorem applyFill_isOk_iff (l : Ledger) (f : Fill) :
    (∃ l', applyFill l f = .ok l') ↔ f.Admits (l.balances f.accountId + f.amounts) := by
  have hsame : f.amounts.2 f.instrumentId = f.delta.2 := Pi.single_eq_same _ _
  rw [applyFill_isOk rfl, Fill.Admits, Prod.snd_add, Pi.add_apply, hsame]
  rfl

/-- The fills `l` of an account with balances `b` can be settled in this order. -/
def Settles (b : Balances) (l : List Fill) : Prop := Runs Fill.Admits Fill.amounts b l

/-- The loop gets through exactly when it gets through for every account by itself. -/
theorem foldlM_applyFill_isOk_iff {fills : List Fill} {l : Ledger} :
    (∃ l', fills.foldlM applyFill l = .ok l') ↔
      ∀ a, Settles (l.balances a) (fills.filter fun f => f.accountId = a) :=
  foldlM_isOk_iff_runs Fill.Admits (fun f _ => applyFill_posts_amounts f)
    fun f _ l => applyFill_isOk_iff l f

theorem Ledger.balances_storable (l : Ledger) (a : AccountId) (i : InstrumentId) :
    Storable ((l.balances a).1, (l.balances a).2 i) :=
  l.balance_storable i a

/-! ## Accounts that cover their fills -/

/-- The cash the buys of `l` pay. -/
def spent (l : List Fill) : ℤ :=
  (l.map fun f => if f.side = .buy then (f.consideration.raw : ℤ) else 0).sum

/-- The cash the sells of `l` bring in. -/
def earned (l : List Fill) : ℤ :=
  (l.map fun f => if f.side = .buy then 0 else (f.consideration.raw : ℤ)).sum

/-- The lots of `i` the buys of `l` bring in. -/
def bought (i : InstrumentId) (l : List Fill) : ℤ :=
  (l.map fun f => if f.side = .buy ∧ f.instrumentId = i then (f.fillQty.raw : ℤ) else 0).sum

/-- The lots of `i` the sells of `l` deliver. -/
def sold (i : InstrumentId) (l : List Fill) : ℤ :=
  (l.map fun f => if f.side ≠ .buy ∧ f.instrumentId = i then (f.fillQty.raw : ℤ) else 0).sum

/-- The account can pay all its buys without the proceeds of its sells, deliver all its sells without
the lots of its buys, and hold either. -/
structure Covers (b : Balances) (l : List Fill) : Prop where
  pays : spent l ≤ b.1
  cash_fits : b.1 + earned l < 2 ^ 128
  delivers : ∀ i, sold i l ≤ b.2 i
  lots_fit : ∀ i, b.2 i + bought i l < 2 ^ 64

theorem Covers.perm {b : Balances} {l l' : List Fill} (hp : l'.Perm l) (h : Covers b l) :
    Covers b l' := by
  obtain ⟨h1, h2, h3, h4⟩ := h
  refine ⟨?_, ?_, fun i => ?_, fun i => ?_⟩
  · rw [spent, (hp.map _).sum_eq]; exact h1
  · rw [earned, (hp.map _).sum_eq]; exact h2
  · rw [sold, (hp.map _).sum_eq]; exact h3 i
  · rw [bought, (hp.map _).sum_eq]; exact h4 i

theorem gross_nonneg (l : List Fill) (i : InstrumentId) :
    0 ≤ spent l ∧ 0 ≤ earned l ∧ 0 ≤ bought i l ∧ 0 ≤ sold i l := by
  have hnonneg : ∀ (p : Fill → Prop) [DecidablePred p] (w : Fill → ℕ),
      0 ≤ (l.map fun f => if p f then (w f : ℤ) else 0).sum := by
    intro p _ w
    refine List.sum_nonneg fun x hx => ?_
    obtain ⟨f, -, rfl⟩ := List.mem_map.mp hx
    split_ifs
    · exact Int.natCast_nonneg _
    · exact le_refl _
  refine ⟨hnonneg _ _, ?_, hnonneg _ _, hnonneg _ _⟩
  have := hnonneg (fun f => f.side ≠ .buy) fun f => f.consideration.raw
  simpa only [earned, ne_eq, ite_not] using this

theorem Covers.storable {b : Balances} {l : List Fill} (h : Covers b l) (i : InstrumentId) :
    Storable (b.1, b.2 i) := by
  obtain ⟨h1, h2, h3, h4⟩ := gross_nonneg l i
  have hp := h.pays
  have hc := h.cash_fits
  have hd := h.delivers i
  have hl := h.lots_fit i
  exact ⟨by simp only; omega, by simp only; omega, by simp only; omega, by simp only; omega⟩

/-- Settling a fill leaves an account that covers the rest. -/
theorem Covers.tail {b : Balances} {f : Fill} {l : List Fill} (h : Covers b (f :: l)) :
    Covers (b + f.amounts) l := by
  obtain ⟨h1, h2, h3, h4⟩ := h
  simp only [spent, earned, sold, bought, List.map_cons, List.sum_cons] at h1 h2 h3 h4
  by_cases hs : f.side = .buy
  · simp only [hs, if_true, true_and, ne_eq, not_true_eq_false, false_and, if_false] at h1 h2 h3 h4
    refine ⟨?_, ?_, fun i => ?_, fun i => ?_⟩
    all_goals simp only [spent, earned, sold, bought, Prod.fst_add, Prod.snd_add, Pi.add_apply,
      Fill.amounts, Fill.delta, hs, if_true, Pi.single_apply, ne_eq]
    · omega
    · omega
    · have := h3 i
      split_ifs <;> omega
    · have := h4 i
      by_cases hi : f.instrumentId = i
      · simp only [hi, if_true] at this ⊢
        omega
      · simp only [hi, Ne.symm hi, if_false] at this ⊢
        omega
  · simp only [hs, if_false, false_and, ne_eq, not_false_eq_true, true_and] at h1 h2 h3 h4
    refine ⟨?_, ?_, fun i => ?_, fun i => ?_⟩
    all_goals simp only [spent, earned, sold, bought, Prod.fst_add, Prod.snd_add, Pi.add_apply,
      Fill.amounts, Fill.delta, hs, if_false, Pi.single_apply, ne_eq]
    · omega
    · omega
    · have := h3 i
      by_cases hi : f.instrumentId = i
      · simp only [hi, if_true] at this ⊢
        omega
      · simp only [hi, Ne.symm hi, if_false] at this ⊢
        omega
    · have := h4 i
      split_ifs <;> omega

theorem Covers.settles {b : Balances} {l : List Fill} (h : Covers b l) : Settles b l := by
  induction l generalizing b with
  | nil => trivial
  | cons f l ih => exact ⟨h.tail.storable f.instrumentId, ih h.tail⟩

/-- Balances in range stay in range while the fills settle. -/
theorem Settles.storable {b : Balances} {l l' : List Fill} (hb : ∀ i, Storable (b.1, b.2 i))
    (h : Settles b (l ++ l')) (i : InstrumentId) :
    Storable ((b + (l.map Fill.amounts).sum).1, (b + (l.map Fill.amounts).sum).2 i) := by
  induction l generalizing b with
  | nil => simpa using hb i
  | cons f l ih =>
    obtain ⟨hf, hrest⟩ := h
    rw [List.map_cons, List.sum_cons, ← add_assoc]
    refine ih (fun j => ?_) hrest
    by_cases hj : j = f.instrumentId
    · rw [hj]
      exact hf
    · obtain ⟨h1, h2, -, -⟩ := hf
      obtain ⟨-, -, h3, h4⟩ := hb j
      have hnone : f.amounts.2 j = 0 := Pi.single_eq_of_ne hj _
      have hsame : (b + f.amounts).2 j = b.2 j := by
        rw [Prod.snd_add, Pi.add_apply, hnone, add_zero]
      exact ⟨h1, h2, by rw [hsame]; exact h3, by rw [hsame]; exact h4⟩

/-- The buys of a list, added up. -/
theorem sum_amounts_buys (l : List Fill) :
    ((l.filter fun f => f.side = .buy).map Fill.amounts).sum = (-spent l, fun i => bought i l) := by
  induction l with
  | nil => rfl
  | cons f l ih =>
    by_cases hs : f.side = .buy
    · rw [List.filter_cons_of_pos (by simpa using hs), List.map_cons, List.sum_cons, ih]
      refine Prod.ext ?_ (funext fun i => ?_)
      · simp [Fill.amounts, Fill.delta, spent, hs]
        omega
      · simp [Fill.amounts, Fill.delta, bought, hs, Pi.single_apply, eq_comm]
    · rw [List.filter_cons_of_neg (by simpa using hs), ih]
      simp [spent, bought, hs]

/-- The sells of a list, added up. -/
theorem sum_amounts_sells (l : List Fill) :
    ((l.filter fun f => ¬ f.side = .buy).map Fill.amounts).sum = (earned l, fun i => -sold i l) := by
  induction l with
  | nil => rfl
  | cons f l ih =>
    by_cases hs : f.side = .buy
    · rw [List.filter_cons_of_neg (by simpa using hs), ih]
      simp [earned, sold, hs]
    · rw [List.filter_cons_of_pos (by simpa using hs), List.map_cons, List.sum_cons, ih]
      refine Prod.ext ?_ (funext fun i => ?_)
      · simp [Fill.amounts, Fill.delta, earned, hs]
      · simp only [Fill.amounts, Fill.delta, sold, hs, if_false, Prod.snd_add, Pi.add_apply,
          Pi.single_apply, List.map_cons, List.sum_cons, ne_eq, not_false_eq_true, true_and,
          eq_comm (a := i)]
        split_ifs <;> omega

/-- An account can settle its fills in every order exactly when it covers them. -/
theorem forall_perm_settles_iff {b : Balances} {l : List Fill} (hb : ∀ i, Storable (b.1, b.2 i)) :
    (∀ m : List Fill, m.Perm l → Settles b m) ↔ Covers b l := by
  constructor
  · intro h
    have hp := List.filter_append_perm (fun f : Fill => decide (f.side = .buy)) l
    have hbuys := Settles.storable hb (h _ hp)
    have hsells := Settles.storable hb (h _ (List.perm_append_comm.trans hp))
    have hs := sum_amounts_sells l
    simp only [decide_not] at hs
    rw [sum_amounts_buys] at hbuys
    rw [hs] at hsells
    refine ⟨?_, ?_, fun i => ?_, fun i => ?_⟩
    · have := (hbuys ⟨0⟩).1
      simp only [Prod.fst_add] at this
      omega
    · have := (hsells ⟨0⟩).2.1
      simpa only [Prod.fst_add] using this
    · have := (hsells i).2.2.1
      simp only [Prod.snd_add, Pi.add_apply] at this
      omega
    · have := (hbuys i).2.2.2
      simpa only [Prod.snd_add, Pi.add_apply] using this
  · intro h m hm
    exact (h.perm hm).settles

/-! ## The ledger afterwards -/

/-- How the inventory map stores an amount that was settled. -/
def Qty.stored (q : Qty) : Option Qty := if q.isZero then none else some q

theorem settle_stored {acc acc' : AccountState} {f : Fill} (hpos : f.Positive)
    (h : settle acc f = .ok acc') :
    acc'.inventory.find f.instrumentId = (acc'.inventoryOf f.instrumentId).stored := by
  by_cases hs : f.side = .buy
  · obtain ⟨c, q, -, hq, rfl⟩ := (settle_buy_eq_ok hs).mp h
    have hq0 : ¬ q.isZero = true := by
      rw [Qty.isZero_iff]
      have := hpos.2
      omega
    rw [AccountState.inventoryOf_insert rfl, if_pos rfl, Qty.stored, if_neg hq0]
    exact SortedMap.find_insert_self _ _ _
  · obtain ⟨c, q, -, -, rfl⟩ := (settle_sell_eq_ok hs).mp h
    rw [AccountState.inventoryOf_debit rfl, if_pos rfl, Qty.stored]
    show (if q.isZero = true then _ else _ : SortedMap InstrumentId Qty).find f.instrumentId = _
    split_ifs
    · rw [SortedMap.find_erase, if_pos rfl]
    · exact SortedMap.find_insert_self _ _ _

/-- What settling `fills` leaves of a ledger, apart from the balances. -/
structure SettledBy (fills : List Fill) (l l' : Ledger) : Prop where
  isSome : ∀ a, (l'.getAccount a).isSome = (l.getAccount a).isSome
  same : ∀ a x y, l.getAccount a = some x → l'.getAccount a = some y →
    y.id = x.id ∧ y.commitmentSalt = x.commitmentSalt
  touched : ∀ f ∈ fills, ∀ y, l'.getAccount f.accountId = some y →
    y.inventory.find f.instrumentId = (y.inventoryOf f.instrumentId).stored
  untouched : ∀ a x y, l.getAccount a = some x → l'.getAccount a = some y →
    ∀ i, (∀ f ∈ fills, f.accountId = a → f.instrumentId ≠ i) →
      y.inventory.find i = x.inventory.find i

namespace SettledBy

variable {fills fills' : List Fill} {l m l' l'' : Ledger}

theorem refl (l : Ledger) : SettledBy [] l l := by
  refine ⟨fun _ => rfl, fun a x y hx hy => ?_, by simp, fun a x y hx hy i _ => ?_⟩
  · obtain rfl := Option.some.inj (hx.symm.trans hy)
    exact ⟨rfl, rfl⟩
  · obtain rfl := Option.some.inj (hx.symm.trans hy)
    rfl

theorem trans (h : SettledBy fills l m) (h' : SettledBy fills' m l') :
    SettledBy (fills ++ fills') l l' := by
  have hmid : ∀ a y, l'.getAccount a = some y → ∃ z, m.getAccount a = some z := fun a y hy =>
    Option.isSome_iff_exists.mp ((h'.isSome a).symm.trans (by rw [hy]; rfl))
  refine ⟨fun a => (h'.isSome a).trans (h.isSome a), fun a x y hx hy => ?_, fun f hf y hy => ?_,
    fun a x y hx hy i hi => ?_⟩
  · obtain ⟨z, hz⟩ := hmid a y hy
    obtain ⟨h1, h2⟩ := h.same a x z hx hz
    obtain ⟨h3, h4⟩ := h'.same a z y hz hy
    exact ⟨h3.trans h1, h4.trans h2⟩
  · by_cases hg : ∃ g ∈ fills', g.accountId = f.accountId ∧ g.instrumentId = f.instrumentId
    · obtain ⟨g, hg, ha, hi⟩ := hg
      rw [← hi]
      exact h'.touched g hg y (by rw [ha]; exact hy)
    · -- only the earlier fills touched this inventory
      have hf' : f ∈ fills := (List.mem_append.mp hf).resolve_right fun hf => hg ⟨f, hf, rfl, rfl⟩
      obtain ⟨z, hz⟩ := hmid _ y hy
      have hsame := h'.untouched _ z y hz hy f.instrumentId fun g hm ha hi => hg ⟨g, hm, ha, hi⟩
      rw [AccountState.inventoryOf, hsame]
      exact h.touched f hf' z hz
  · obtain ⟨z, hz⟩ := hmid a y hy
    rw [h'.untouched a z y hz hy i fun f hf => hi f (List.mem_append_right _ hf),
      h.untouched a x z hx hz i fun f hf => hi f (List.mem_append_left _ hf)]

theorem of_applyFill {f : Fill} (hpos : f.Positive) (h : applyFill l f = .ok l') :
    SettledBy [f] l l' := by
  have hsame := applyFill_sameAccounts hpos h
  refine ⟨hsame.isSome, fun a x y hx hy => ?_, fun g hg y hy => ?_, fun a x y hx hy i hi => ?_⟩
  · have hmoved := hsame.moved a x y hx hy
    exact ⟨hmoved.id, hmoved.salt⟩
  · obtain rfl := List.mem_singleton.mp hg
    obtain ⟨acc, hacc, rfl⟩ := applyFill_eq_ok.mp h
    rw [Ledger.getAccount_setAccount, if_pos rfl] at hy
    obtain rfl := Option.some.inj hy
    exact settle_stored hpos hacc
  · by_cases ha : f.accountId = a
    · exact (hsame.moved a x y hx hy).other i (Ne.symm (hi f (List.mem_singleton_self f) ha))
    · obtain ⟨acc, -, rfl⟩ := applyFill_eq_ok.mp h
      rw [Ledger.getAccount_setAccount, if_neg ha] at hy
      obtain rfl := Option.some.inj (hx.symm.trans hy)
      rfl

theorem of_foldlM (hpos : ∀ f ∈ fills, f.Positive) (h : fills.foldlM applyFill l = .ok l') :
    SettledBy fills l l' := by
  induction fills generalizing l with
  | nil =>
    obtain rfl : l = l' := by simpa [pure, Except.pure] using h
    exact .refl l
  | cons f fills ih =>
    rw [List.foldlM_cons, Result.bind_eq_ok] at h
    obtain ⟨m, hm, h⟩ := h
    have h1 := of_applyFill (hpos f (List.mem_cons_self ..)) hm
    exact h1.trans (ih (fun f hf => hpos f (List.mem_cons_of_mem _ hf)) h)

/-- Two ledgers that the same fills leave with the same balances are the same. -/
theorem ledger_eq (hmem : ∀ f, f ∈ fills' ↔ f ∈ fills) (h : SettledBy fills l l')
    (h' : SettledBy fills' l l'') (hbal : ∀ a, l''.balances a = l'.balances a) : l'' = l' := by
  have hfind : ∀ a, l''.getAccount a = l'.getAccount a := by
    intro a
    cases hx : l.getAccount a with
    | none =>
      have h1 := h.isSome a
      have h2 := h'.isSome a
      rw [hx, Option.isSome_none] at h1 h2
      rw [Option.isSome_eq_false_iff.mp h1 |> Option.isNone_iff_eq_none.mp,
        Option.isSome_eq_false_iff.mp h2 |> Option.isNone_iff_eq_none.mp]
    | some x =>
      obtain ⟨y, hy⟩ := Option.isSome_iff_exists.mp ((h.isSome a).trans (by rw [hx]; rfl))
      obtain ⟨z, hz⟩ := Option.isSome_iff_exists.mp ((h'.isSome a).trans (by rw [hx]; rfl))
      obtain ⟨h1, h2⟩ := h.same a x y hx hy
      obtain ⟨h3, h4⟩ := h'.same a x z hx hz
      have hb := hbal a
      simp only [Ledger.balances, Ledger.cashOf, Ledger.lotsOf, hy, hz, Option.map_some,
        Option.getD_some, Prod.mk.injEq] at hb
      have hcash : z.cash = y.cash := Money.ext_val (by exact_mod_cast hb.1)
      have hlots : ∀ i, z.inventoryOf i = y.inventoryOf i := fun i =>
        Qty.ext_val (by exact_mod_cast congrFun hb.2 i)
      have hinv : z.inventory = y.inventory := by
        refine SortedMap.ext_find fun i => ?_
        by_cases hi : ∃ f ∈ fills, f.accountId = a ∧ f.instrumentId = i
        · obtain ⟨f, hf, rfl, rfl⟩ := hi
          rw [h.touched f hf y hy, h'.touched f ((hmem f).mpr hf) z hz, hlots]
        · have hno : ∀ f ∈ fills, f.accountId = a → f.instrumentId ≠ i :=
            fun f hf ha hfi => hi ⟨f, hf, ha, hfi⟩
          rw [h.untouched a x y hx hy i hno,
            h'.untouched a x z hx hz i fun f hf => hno f ((hmem f).mp hf)]
      rw [hy, hz]
      cases y
      cases z
      simp only at h1 h2 h3 h4 hcash hinv
      rw [hcash, hinv, h1, h2, h3, h4]
  cases l'
  cases l''
  exact congrArg Ledger.mk (SortedMap.ext_find hfind)

end SettledBy

/-- The loop leaves the same ledger for every order of the fills it gets through. -/
theorem foldlM_applyFill_perm {fills fills' : List Fill} (hp : fills'.Perm fills)
    (hpos : ∀ f ∈ fills, f.Positive) {l l' l'' : Ledger} (h : fills.foldlM applyFill l = .ok l')
    (h' : fills'.foldlM applyFill l = .ok l'') : l'' = l' := by
  have hpos' : ∀ f ∈ fills', f.Positive := fun f hf => hpos f (hp.mem_iff.mp hf)
  refine (SettledBy.of_foldlM hpos h).ledger_eq (fun f => hp.mem_iff)
    (SettledBy.of_foldlM hpos' h') fun a => ?_
  rw [foldlM_read (fun f _ => applyFill_posts_amounts f) h a,
    foldlM_read (fun f _ => applyFill_posts_amounts f) h' a, net_perm hp]

/-! ## The whole transition -/

/-- The fills create and destroy nothing: neither cash nor lots of an instrument. -/
def Balanced (fills : List Fill) : Prop :=
  (fills.map fun f => f.delta.1).sum = 0 ∧ ∀ f ∈ fills,
    (fills.map fun g => if f.instrumentId = g.instrumentId then g.delta.2 else 0).sum = 0

theorem Balanced.perm {fills fills' : List Fill} (hp : fills'.Perm fills) (h : Balanced fills) :
    Balanced fills' := by
  obtain ⟨h1, h2⟩ := h
  refine ⟨?_, fun f hf => ?_⟩
  · rw [(hp.map _).sum_eq]
    exact h1
  · rw [(hp.map _).sum_eq]
    exact h2 f (hp.mem_iff.mp hf)

theorem applyBatchTransition_isOk_iff {pre : Ledger} {fills : List Fill}
    (hcash : pre.cashSum < 2 ^ 128) (hlots : ∀ f ∈ fills, pre.lotsSum f.instrumentId < 2 ^ 64) :
    (∃ l, applyBatchTransition pre fills = .ok l) ↔
      Balanced fills ∧ ∀ a, Settles (pre.balances a) (fills.filter fun f => f.accountId = a) := by
  rw [← foldlM_applyFill_isOk_iff]
  constructor
  · rintro ⟨l, h⟩
    obtain ⟨hrun, ⟨h1, -⟩, h2⟩ := applyBatchTransition_eq_ok.mp h
    obtain ⟨h3, h4⟩ := foldlM_applyFill_sums hrun
    refine ⟨⟨by omega, fun f hf => ?_⟩, l, hrun⟩
    have h5 := (h2 f hf).1
    have h6 := h4 f.instrumentId
    omega
  · rintro ⟨⟨h1, h2⟩, l, hrun⟩
    obtain ⟨h3, h4⟩ := foldlM_applyFill_sums hrun
    refine ⟨l, applyBatchTransition_eq_ok.mpr
      ⟨hrun, ⟨by omega, hcash⟩, fun f hf => ⟨?_, hlots f hf⟩⟩⟩
    have h5 := h2 f hf
    have h6 := h4 f.instrumentId
    omega

/-- The same ledger, or an error both times. -/
def SameOutcome (r r' : Result Ledger) : Prop :=
  (∃ l, r = .ok l ∧ r' = .ok l) ∨ (∃ e, r = .error e) ∧ ∃ e, r' = .error e

/-- Two orders of the fills have the same outcome when one succeeds exactly when the other does. -/
theorem sameOutcome_iff {pre : Ledger} {fills fills' : List Fill} (hp : fills'.Perm fills)
    (hpos : ∀ f ∈ fills, f.Positive) :
    SameOutcome (applyBatchTransition pre fills) (applyBatchTransition pre fills') ↔
      ((∃ l, applyBatchTransition pre fills = .ok l) ↔
        ∃ l, applyBatchTransition pre fills' = .ok l) := by
  have heq : ∀ l l', applyBatchTransition pre fills = .ok l →
      applyBatchTransition pre fills' = .ok l' → l' = l := fun l l' h h' =>
    foldlM_applyFill_perm hp hpos (applyBatchTransition_eq_ok.mp h).1
      (applyBatchTransition_eq_ok.mp h').1
  unfold SameOutcome
  cases h : applyBatchTransition pre fills with
  | error e => cases h' : applyBatchTransition pre fills' <;> simp
  | ok l =>
    cases h' : applyBatchTransition pre fills' with
    | error e => simp
    | ok l' => simp [heq l l' h h']

/-- **When the order of the fills does not matter.** All orders have the same outcome exactly when the
fills do not balance, or every account covers its own fills, or some account can settle its own fills in
no order. -/
theorem applyBatchTransition_simultaneous_iff {pre : Ledger} {fills : List Fill}
    (hpos : ∀ f ∈ fills, f.Positive) (hcash : pre.cashSum < 2 ^ 128)
    (hlots : ∀ f ∈ fills, pre.lotsSum f.instrumentId < 2 ^ 64) :
    (∀ fills' : List Fill, fills'.Perm fills →
      SameOutcome (applyBatchTransition pre fills) (applyBatchTransition pre fills')) ↔
      ¬ Balanced fills ∨
      (∀ a, Covers (pre.balances a) (fills.filter fun f => f.accountId = a)) ∨
      ∃ a, ∀ l : List Fill, l.Perm (fills.filter fun f => f.accountId = a) →
        ¬ Settles (pre.balances a) l := by
  have hok : ∀ fills' : List Fill, fills'.Perm fills →
      ((∃ l, applyBatchTransition pre fills' = .ok l) ↔ Balanced fills ∧
        ∀ a, Settles (pre.balances a) (fills'.filter fun f => f.accountId = a)) := by
    intro fills' hp
    rw [applyBatchTransition_isOk_iff hcash fun f hf => hlots f (hp.mem_iff.mp hf)]
    exact and_congr_left' ⟨Balanced.perm hp.symm, Balanced.perm hp⟩
  have hall : (∀ fills' : List Fill, fills'.Perm fills →
      ∀ a, Settles (pre.balances a) (fills'.filter fun f => f.accountId = a)) ↔
      ∀ a, Covers (pre.balances a) (fills.filter fun f => f.accountId = a) := by
    rw [forall_perm_filter_iff Fill.accountId (P := fun a l => Settles (pre.balances a) l)]
    exact forall_congr' fun a => forall_perm_settles_iff (pre.balances_storable a)
  have hnone : (∃ fills' : List Fill, fills'.Perm fills ∧
      ∀ a, Settles (pre.balances a) (fills'.filter fun f => f.accountId = a)) ↔
      ¬ ∃ a, ∀ l : List Fill, l.Perm (fills.filter fun f => f.accountId = a) →
        ¬ Settles (pre.balances a) l := by
    rw [exists_perm_filter_iff Fill.accountId (P := fun a l => Settles (pre.balances a) l)]
    simp only [not_exists, not_forall, not_not, exists_prop]
  rw [← hall]
  constructor
  · intro h
    by_cases hb : Balanced fills
    · refine .inr (or_iff_not_imp_right.mpr fun hex fills' hp => ?_)
      -- some order gets through, so the given one does, and with it all the others
      obtain ⟨good, hgood, hrun⟩ := hnone.mpr hex
      have hgiven := ((sameOutcome_iff hgood hpos).mp (h good hgood)).mpr
        ((hok good hgood).mpr ⟨hb, hrun⟩)
      exact ((hok fills' hp).mp (((sameOutcome_iff hp hpos).mp (h fills' hp)).mp hgiven)).2
    · exact .inl hb
  · intro h fills' hp
    rw [sameOutcome_iff hp hpos, hok fills (.refl _), hok fills' hp]
    rcases h with hb | hcov | hno
    · simp only [hb, false_and]
    · simp only [hcov fills (.refl _), hcov fills' hp]
    · have hfail : ∀ fills' : List Fill, fills'.Perm fills →
          ¬ ∀ a, Settles (pre.balances a) (fills'.filter fun f => f.accountId = a) :=
        fun fills' hp hrun => hnone.mp ⟨fills', hp, hrun⟩ hno
      simp only [hfail fills (.refl _), hfail fills' hp]

/-- One account with some cash and a lot of instrument 7. -/
def exampleTrader (cash : U128) : Ledger := Ledger.empty.insertAccount (exampleAccount 1 cash [(7, 1)])

/-- The account trades a lot with itself: its sell comes first. -/
def exampleSelfTrade : List Fill :=
  [⟨0, ⟨1⟩, ⟨1⟩, ⟨7⟩, .sell, ⟨5⟩, ⟨1⟩, ⟨5⟩⟩, ⟨1, ⟨2⟩, ⟨1⟩, ⟨7⟩, .buy, ⟨5⟩, ⟨1⟩, ⟨5⟩⟩]

/-- With the cash for the buy the order of the two fills does not matter. -/
theorem applyBatchTransition_simultaneous_example :
    SameOutcome (applyBatchTransition (exampleTrader 5) exampleSelfTrade)
      (applyBatchTransition (exampleTrader 5) exampleSelfTrade.reverse) := by
  refine (@applyBatchTransition_simultaneous_iff (exampleTrader 5) exampleSelfTrade
    (by unfold Fill.Positive; decide +kernel) (by decide +kernel) (by decide +kernel)).mpr
    (.inr (.inl fun a => ?_)) _ (List.reverse_perm _)
  by_cases ha : (⟨1⟩ : AccountId) = a
  · subst ha
    refine ⟨by decide +kernel, by decide +kernel, fun i => ?_, fun i => ?_⟩
    all_goals by_cases hi : (⟨7⟩ : InstrumentId) = i
    · subst hi
      decide +kernel
    · have := ((exampleTrader 5).balances_storable ⟨1⟩ i).2.2.1
      simpa [sold, exampleSelfTrade, hi] using this
    · subst hi
      decide +kernel
    · have := ((exampleTrader 5).balances_storable ⟨1⟩ i).2.2.2
      simpa [bought, exampleSelfTrade, hi] using this
  · have hnone : exampleSelfTrade.filter (fun f => f.accountId = a) = [] := by
      simp [exampleSelfTrade, ha]
    rw [hnone]
    have hb := (exampleTrader 5).balances_storable a
    refine ⟨(hb ⟨7⟩).1, ?_, fun i => (hb i).2.2.1, fun i => ?_⟩
    · have := (hb ⟨7⟩).2.1
      simpa [earned] using this
    · have := (hb i).2.2.2
      simpa [bought] using this

/-- Without cash the sell has to pay for the buy. -/
theorem applyBatchTransition_order_matters : ¬ ∀ (pre : Ledger) (fills fills' : List Fill),
    pre.cashSum < 2 ^ 128 → (∀ i, pre.lotsSum i < 2 ^ 64) → (∀ f ∈ fills, f.Positive) →
    fills'.Perm fills →
    SameOutcome (applyBatchTransition pre fills) (applyBatchTransition pre fills') := by
  intro h
  have hlots : ∀ i, (exampleTrader 0).lotsSum i < 2 ^ 64 := fun i =>
    ((exampleAccount 1 0 [(7, 1)]).inventoryOf i).raw.isLt
  have hsame := h (exampleTrader 0) exampleSelfTrade exampleSelfTrade.reverse (by decide +kernel) hlots
    (by unfold Fill.Positive; decide +kernel) (List.reverse_perm _)
  have hok : applyBatchTransition (exampleTrader 0) exampleSelfTrade = .ok (exampleTrader 0) := by
    decide +kernel
  have hfail : (applyBatchTransition (exampleTrader 0) exampleSelfTrade.reverse).isOk = false := by
    decide +kernel
  rcases hsame with ⟨l, -, h'⟩ | ⟨⟨e, h'⟩, -⟩
  · rw [h'] at hfail
    cases hfail
  · rw [hok] at h'
    cases h'

end FairCross
