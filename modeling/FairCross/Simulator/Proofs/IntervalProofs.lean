import FairCross.Engine.Proofs.BatchProofs
import FairCross.Simulator.Interval

/-!
# What a partition into intervals keeps

Interval `k` ends at `start + k * interval`. While the cutoffs are what they are meant to be, the round
for interval `k` takes the pending submissions of that interval and no other (`takeInterval_progress`),
so that no submission is pending behind the last round. The cutoffs and the number of rounds are
computed in 64 bits: a submission at the end of the clock can have a cutoff that wraps around to a time
before it, and is then in no bundle. The bundles are reserved for all rounds before the first one, which
throws when the rounds are more than a vector holds, however few submissions there are.
-/

namespace FairCross

namespace BatchIntervalPartitionEngine

open CountedLoop

/-- The interval of an arrival. What arrives before the start is in the first. -/
def intervalOf (start interval arrival : ℕ) : ℕ :=
  if arrival < start then 1 else (arrival - start) / interval + 1

/-- The bundle holds the submissions `subs`, in the order of the list. -/
structure BundleHolds (start interval : ℕ) (bundle : SyntheticBatchBundle)
    (subs : List TimestampedOrderSubmission) : Prop where
  interval_eq : ∀ sub ∈ subs, (bundle.batch.batchId.raw : ℕ) = intervalOf start interval sub.arrivalNanos
  canonical : subs.Pairwise fun a b => a.tie ≤ b.tie
  orders : bundle.batch.orders = subs.mapIdx fun seq sub => sub.orderAt seq
  nonces : bundle.preimages.map (·.nonce) = subs.map (·.salt)
  seqs : bundle.batch.orders.map (fun o => (o.seq : ℕ)) = List.range bundle.batch.orders.length
  preimages : bundle.preimages.map (·.order) = bundle.batch.orders

/-- The bundles hold the submissions between them, each as often as it was submitted. -/
structure Partitions (start interval : ℕ) (subs : List TimestampedOrderSubmission)
    (bundles : List SyntheticBatchBundle) : Prop where
  placed : ∃ parts, List.Forall₂ (BundleHolds start interval) bundles parts ∧ parts.flatten.Perm subs
  cutoffs : bundles.Pairwise fun a b => a.cutoffNanos < b.cutoffNanos

/-- Bundles can be reserved up to the interval of an arrival, and its cutoff is after the arrival. -/
def Fits (start interval arrival : ℕ) : Prop :=
  intervalOf start interval arrival ≤ maxSize SyntheticBatchBundle.sizeof ∧
    (start + intervalOf start interval arrival * interval < 2 ^ 64 ∨ arrival + 2 ^ 64 < start + interval)

instance (start interval arrival : ℕ) : Decidable (Fits start interval arrival) :=
  inferInstanceAs (Decidable (_ ∧ (_ ∨ _)))

theorem maxSize_bundles_lt : maxSize SyntheticBatchBundle.sizeof + 1 < 2 ^ 64 := by decide

/-! ## Intervals -/

section Intervals

variable {start interval : ℕ}

theorem intervalOf_eq (arrival : ℕ) :
    intervalOf start interval arrival = (arrival - start) / interval + 1 := by
  unfold intervalOf
  split_ifs with h
  · rw [Nat.sub_eq_zero_of_le h.le, Nat.zero_div]
  · rfl

theorem intervalOf_pos (arrival : ℕ) : 1 ≤ intervalOf start interval arrival := by
  rw [intervalOf_eq]
  exact Nat.le_add_left 1 _

theorem intervalOf_mono {a b : ℕ} (h : a ≤ b) :
    intervalOf start interval a ≤ intervalOf start interval b := by
  rw [intervalOf_eq, intervalOf_eq]
  have := Nat.div_le_div_right (c := interval) (Nat.sub_le_sub_right h start)
  omega

/-- An arrival is before the cutoff of its interval, and of the later ones. -/
theorem lt_cutoff_iff (hpos : 0 < interval) {k : ℕ} (hk : 1 ≤ k) (arrival : ℕ) :
    arrival < start + k * interval ↔ intervalOf start interval arrival ≤ k := by
  have hki : interval ≤ k * interval := Nat.le_mul_of_pos_left _ hk
  rw [intervalOf_eq, Nat.succ_le_iff, Nat.div_lt_iff_lt_mul hpos]
  omega

theorem Fits.mono {a b : ℕ} (h : a ≤ b) (hb : Fits start interval b) : Fits start interval a := by
  have hk := @intervalOf_mono start interval _ _ h
  refine ⟨by have := hb.1; omega, ?_⟩
  rcases hb.2 with hb | hb
  · left
    have := Nat.mul_le_mul_right interval hk
    omega
  · right
    omega

/-- Cutoffs computed in 64 bits separate an interval from the later ones, up to the interval of an
arrival that fits. -/
theorem cutoff_separates (hpos : 0 < interval) (hstart : start < 2 ^ 64) (hinterval : interval < 2 ^ 64)
    {last arrival k : ℕ} (hfits : Fits start interval last)
    (hle : arrival ≤ last) (hk : 1 ≤ k) (hlast : k ≤ intervalOf start interval last) :
    arrival < (start + k * interval) % 2 ^ 64 ↔ intervalOf start interval arrival ≤ k := by
  rcases hfits.2 with hfit | hwrap
  · have hmul := Nat.mul_le_mul_right interval hlast
    rw [Nat.mod_eq_of_lt (by omega), lt_cutoff_iff hpos hk]
  · -- the one cutoff wraps around to a time that is still after every arrival
    have hfirst : intervalOf start interval last = 1 := by
      unfold intervalOf
      rw [if_pos (by omega)]
    obtain rfl : k = 1 := by omega
    have hmono := @intervalOf_mono start interval _ _ hle
    constructor
    · intro _
      omega
    · intro _
      omega

theorem cutoff_lt_cutoff (hpos : 0 < interval) (hinterval : interval < 2 ^ 64) {last k : ℕ} (hfits : Fits start interval last)
    (hk : 1 ≤ k) (hlast : k + 1 ≤ intervalOf start interval last) :
    (start + k * interval) % 2 ^ 64 < (start + (k + 1) * interval) % 2 ^ 64 := by
  rcases hfits.2 with hfit | hwrap
  · have hmul := Nat.mul_le_mul_right interval hlast
    have hsucc : (k + 1) * interval = k * interval + interval := Nat.succ_mul k interval
    rw [Nat.mod_eq_of_lt (by omega), Nat.mod_eq_of_lt (by omega)]
    omega
  · unfold intervalOf at hlast
    rw [if_pos (by omega)] at hlast
    omega

/-- An arrival that does not fit is before no cutoff up to that of its interval. -/
theorem cutoff_le_of_not_fits (hpos : 0 < interval) (hstart : start < 2 ^ 64)
    (hinterval : interval < 2 ^ 64) {last k : ℕ} (hlast : last < 2 ^ 64)
    (hreach : intervalOf start interval last ≤ maxSize SyntheticBatchBundle.sizeof)
    (hfits : ¬ Fits start interval last)
    (hk : 1 ≤ k) (hle : k ≤ intervalOf start interval last) :
    (start + k * interval) % 2 ^ 64 ≤ last := by
  have hwrap : 2 ^ 64 ≤ start + intervalOf start interval last * interval :=
    not_lt.mp fun h => hfits ⟨hreach, Or.inl h⟩
  have hnot : start + interval ≤ last + 2 ^ 64 := not_lt.mp fun h => hfits ⟨hreach, Or.inr h⟩
  by_cases hbefore : last < start
  · have hfirst : intervalOf start interval last = 1 := if_pos hbefore
    obtain rfl : k = 1 := by omega
    rw [hfirst] at hwrap
    omega
  have hquot : (last - start) / interval * interval ≤ last - start := Nat.div_mul_le_self _ _
  rw [intervalOf_eq] at hle hwrap
  by_cases hklast : k = (last - start) / interval + 1
  · rw [hklast]
    rw [Nat.succ_mul] at hwrap ⊢
    omega
  · have hmul := Nat.mul_le_mul_right interval (show k ≤ (last - start) / interval by omega)
    omega

end Intervals

/-! ## The bundle of an interval -/

section Bundles

variable [StdSort] {instrumentId : InstrumentId} {batchK cutoffNanos : U64}
  {subs : List TimestampedOrderSubmission}

omit [StdSort] in
theorem seqs_orderAt (hlen : subs.length < 2 ^ 64) :
    (subs.mapIdx fun seq sub => sub.orderAt seq).map (fun o => (o.seq : ℕ)) =
      List.range (subs.mapIdx fun seq sub => sub.orderAt seq).length := by
  apply List.ext_getElem
  · simp
  · intro i hi _
    have hi : i < subs.length := by simpa using hi
    simp [TimestampedOrderSubmission.orderAt]
    omega

theorem bundleOf_holds (instrumentId : InstrumentId) (cutoffNanos : U64) {start interval : ℕ}
    (hlen : subs.length < 2 ^ 64)
    (hsorted : subs.Pairwise fun a b => a.tie ≤ b.tie)
    (hk : ∀ sub ∈ subs, (batchK : ℕ) = intervalOf start interval sub.arrivalNanos) :
    BundleHolds start interval (bundleOf instrumentId batchK cutoffNanos subs) subs := by
  have hseqs := seqs_orderAt hlen
  have horders : (bundleOf instrumentId batchK cutoffNanos subs).batch.orders =
      subs.mapIdx fun seq sub => sub.orderAt seq := Batch.new_orders_of_seqs hseqs
  refine ⟨hk, hsorted, horders, ?_, ?_, ?_⟩
  · apply List.ext_getElem <;> simp [bundleOf]
  · rw [horders, hseqs]
  · rw [horders]
    apply List.ext_getElem <;> simp [bundleOf]

end Bundles

/-! ## One round -/

section Round

/-- The state before the round for interval `k`: the earlier submissions are in bundles. -/
structure Progress (start interval : ℕ) (subs : List TimestampedOrderSubmission) (k : ℕ)
    (st : IntervalState) : Prop where
  placed : ∃ parts, List.Forall₂ (BundleHolds start interval) st.batches parts ∧
    parts.flatten ++ st.pending = subs
  pending : ∀ sub ∈ st.pending, k ≤ intervalOf start interval sub.arrivalNanos
  cutoffs : st.batches.Pairwise fun a b => a.cutoffNanos < b.cutoffNanos

/-- On a list where `p` holds of a first part, nothing behind that part has `p`. -/
theorem not_of_mem_dropWhile {α : Type} {p : α → Bool} {l : List α}
    (hl : l.Pairwise fun a b => p b = true → p a = true) {a : α} (h : a ∈ l.dropWhile p) :
    ¬ p a = true := by
  induction l with
  | nil => simp at h
  | cons b l ih =>
    obtain ⟨hb, hl⟩ := List.pairwise_cons.mp hl
    by_cases hp : p b = true
    · rw [List.dropWhile_cons_of_pos hp] at h
      exact ih hl h
    · rw [List.dropWhile_cons_of_neg hp] at h
      rcases List.mem_cons.mp h with rfl | h
      · exact hp
      · exact fun ha => hp (hb a h ha)

theorem arrival_le_of_tie_le {a b : TimestampedOrderSubmission} (h : a.tie ≤ b.tie) :
    a.arrivalNanos ≤ b.arrivalNanos := by
  rcases Prod.Lex.toLex_le_toLex.mp h with h | h
  · exact le_of_lt h
  · exact le_of_eq h.1

variable [StdSort] {instrumentId : InstrumentId} {start interval : U64}
  {subs : List TimestampedOrderSubmission} {k : U64} {st : IntervalState}

/-- A round splits the pending submissions at the cutoff. Those before it make a bundle, if there are
any. -/
theorem takeInterval_cases (instrumentId : InstrumentId) (start interval k : U64)
    (hsorted : st.pending.Pairwise fun a b => a.arrivalNanos ≤ b.arrivalNanos) :
    ∃ due rest, due ++ rest = st.pending ∧
      (∀ sub ∈ due, sub.arrivalNanos < start + k * interval) ∧
      (∀ sub ∈ rest, ¬ sub.arrivalNanos < start + k * interval) ∧
      ((due = [] ∧ takeInterval instrumentId start interval k st = ⟨st.batches, rest⟩) ∨
        takeInterval instrumentId start interval k st =
          ⟨st.batches ++ [bundleOf instrumentId k (start + k * interval) due], rest⟩) := by
  refine ⟨st.pending.takeWhile fun sub => sub.arrivalNanos < start + k * interval,
    st.pending.dropWhile fun sub => sub.arrivalNanos < start + k * interval,
    List.takeWhile_append_dropWhile, fun sub hsub => ?_, fun sub hsub => ?_, ?_⟩
  · have hlt := List.mem_takeWhile_imp hsub
    simpa using hlt
  · have hge := not_of_mem_dropWhile (hsorted.imp fun {a b} hab hb => ?_) hsub
    · simpa using hge
    · simp only [decide_eq_true_eq] at hb ⊢
      exact hab.trans_lt hb
  · by_cases hnil : (st.pending.takeWhile fun sub => sub.arrivalNanos < start + k * interval).isEmpty
    · exact Or.inl ⟨List.isEmpty_iff.mp hnil, if_pos hnil⟩
    · exact Or.inr (if_neg hnil)

/-- The round for interval `k`, when its cutoff separates the interval from the later ones. -/
theorem takeInterval_progress (instrumentId : InstrumentId) (hlen : subs.length < 2 ^ 64)
    (hsorted : subs.Pairwise fun a b => a.tie ≤ b.tie) (h : Progress start interval subs k st)
    (hcut : ∀ sub ∈ st.pending,
      (sub.arrivalNanos < start + k * interval ↔ intervalOf start interval sub.arrivalNanos ≤ k))
    (hbelow : ∀ b ∈ st.batches, b.cutoffNanos < start + k * interval) :
    Progress start interval subs (k + 1) (takeInterval instrumentId start interval k st) ∧
      ∀ b ∈ (takeInterval instrumentId start interval k st).batches,
        b ∈ st.batches ∨ b.cutoffNanos = start + k * interval := by
  obtain ⟨parts, hparts, hsubs⟩ := h.placed
  have hpending : st.pending.Sublist subs := hsubs ▸ List.sublist_append_right _ _
  obtain ⟨due, rest, hsplit, hdue, hrest, hround⟩ := takeInterval_cases instrumentId start
    interval k ((hsorted.sublist hpending).imp arrival_le_of_tie_le)
  have hdueSub : due.Sublist subs := by
    refine List.Sublist.trans ?_ hpending
    rw [← hsplit]
    exact List.sublist_append_left _ _
  have hdueK : ∀ sub ∈ due, (k : ℕ) = intervalOf start interval sub.arrivalNanos := by
    intro sub hsub
    have hmem : sub ∈ st.pending := hsplit ▸ List.mem_append_left _ hsub
    exact le_antisymm (h.pending sub hmem) ((hcut sub hmem).mp (hdue sub hsub))
  have hrestK : ∀ sub ∈ rest, (k : ℕ) + 1 ≤ intervalOf start interval sub.arrivalNanos := by
    intro sub hsub
    have hmem : sub ∈ st.pending := hsplit ▸ List.mem_append_right _ hsub
    exact not_le.mp fun hle => hrest sub hsub ((hcut sub hmem).mpr hle)
  rcases hround with ⟨rfl, hround⟩ | hround
  · rw [hround]
    refine ⟨⟨⟨parts, hparts, ?_⟩, hrestK, h.cutoffs⟩, fun b hb => Or.inl hb⟩
    rw [← hsubs, ← hsplit, List.nil_append]
  · rw [hround]
    have hbundle := bundleOf_holds instrumentId (start + k * interval)
      (hdueSub.length_le.trans_lt hlen) (hsorted.sublist hdueSub) hdueK
    refine ⟨⟨⟨parts ++ [due], List.rel_append hparts (.cons hbundle .nil), ?_⟩, hrestK, ?_⟩, ?_⟩
    · rw [← hsubs, ← hsplit, List.flatten_append, List.flatten_singleton, List.append_assoc]
    · refine List.pairwise_append.mpr ⟨h.cutoffs, List.pairwise_singleton _ _, fun a ha b hb => ?_⟩
      rw [List.mem_singleton.mp hb]
      exact hbelow a ha
    · intro b hb
      rcases List.mem_append.mp hb with hb | hb
      · exact Or.inl hb
      · right
        rw [List.mem_singleton.mp hb]
        rfl

end Round

/-! ## What a partition says of its bundles -/

/-- Every submission is in one bundle, so the preimages are as many as the submissions. -/
theorem Partitions.count {start interval : ℕ} {subs : List TimestampedOrderSubmission}
    {bundles : List SyntheticBatchBundle}
    (h : Partitions start interval subs bundles) :
    (bundles.map fun b => b.preimages.length).sum = subs.length := by
  obtain ⟨parts, hparts, hperm⟩ := h.placed
  rw [← hperm.length_eq, List.length_flatten]
  clear hperm h
  induction hparts with
  | nil => rfl
  | @cons b part bundles parts hb _ ih =>
    have hlen := congrArg List.length hb.nonces
    rw [List.length_map, List.length_map] at hlen
    simp only [List.map_cons, List.sum_cons, ih, hlen]

theorem Partitions.perm {start interval : ℕ} {subs subs' : List TimestampedOrderSubmission}
    {bundles : List SyntheticBatchBundle} (hp : subs.Perm subs')
    (h : Partitions start interval subs bundles) : Partitions start interval subs' bundles := by
  obtain ⟨parts, hparts, hperm⟩ := h.placed
  exact ⟨⟨parts, hparts, hperm.trans hp⟩, h.cutoffs⟩

/-! ## The loop over the intervals -/

section Loop

theorem cutoff_val (start interval k : U64) :
    ((start + k * interval : U64) : ℕ) = (start + (k : ℕ) * interval) % 2 ^ 64 := by
  rw [Fin.val_add, Fin.val_mul, Nat.add_mod_mod]

/-- The number of rounds is the interval of the last arrival, in 64 bits. -/
theorem calculatedBatches_val (maxArrival start interval : U64) :
    (calculatedBatches maxArrival start interval : ℕ) = intervalOf start interval maxArrival % 2 ^ 64 := by
  have hspan : ((if maxArrival > start then maxArrival - start else 0 : U64) : ℕ) = maxArrival - start := by
    split_ifs with h
    · exact Fin.sub_val_of_le (le_of_lt h)
    · have hle : (maxArrival : ℕ) ≤ start := not_lt.mp h
      rw [Nat.sub_eq_zero_of_le hle]
      rfl
  unfold calculatedBatches
  rw [intervalOf_eq, Fin.val_add, Fin.div_val, hspan]
  rfl

variable [StdSort] {instrumentId : InstrumentId} {start interval : U64}
  {subs : List TimestampedOrderSubmission} {last : TimestampedOrderSubmission}

/-- The rounds of `partition_stream`. -/
abbrev rounds (instrumentId : InstrumentId) (start interval : U64) (batchK : U64) (st : IntervalState) :
    Except NoResult IntervalState := .ok (takeInterval instrumentId start interval batchK st)

theorem rounds_of_fits (hpos : 0 < (interval : ℕ)) (hlen : subs.length < 2 ^ 64)
    (hsorted : subs.Pairwise fun a b => a.tie ≤ b.tie)
    (hlast : ∀ sub ∈ subs, sub.arrivalNanos ≤ last.arrivalNanos)
    (hfits : Fits start interval last.arrivalNanos) :
    ∃ st, forUpTo .endless (calculatedBatches last.arrivalNanos start interval)
      (rounds instrumentId start interval) 1 ⟨[], subs⟩ = .ok st ∧
        Partitions start interval subs st.batches := by
  have hlimit := maxSize_bundles_lt
  have hreach := hfits.1
  have hK := calculatedBatches_val last.arrivalNanos start interval
  rw [Nat.mod_eq_of_lt (by omega)] at hK
  set K := calculatedBatches last.arrivalNanos start interval with hKdef
  have hpos1 := @intervalOf_pos start interval last.arrivalNanos
  let I (k : ℕ) (st : IntervalState) : Prop := 1 ≤ k ∧ Progress start interval subs k st ∧
    (k ≤ K → ∀ b ∈ st.batches, (b.cutoffNanos : ℕ) < (start + k * interval) % 2 ^ 64)
  have hinit : I 1 ⟨[], subs⟩ := by
    refine ⟨le_refl 1, ⟨⟨[], .nil, rfl⟩, fun sub _ => intervalOf_pos _, List.Pairwise.nil⟩, ?_⟩
    intro _ b hb
    cases hb
  have hround : ∀ (k : U64) (st : IntervalState), k ≤ K → I k st →
      Finishes (I (k + 1)) (fun _ => False) (rounds instrumentId start interval k st) := by
    rintro k st hk ⟨hk1, hst, hbelow⟩
    have hkK : (k : ℕ) ≤ intervalOf start interval last.arrivalNanos := by rw [← hK]; exact hk
    have hcut : ∀ sub ∈ st.pending, (sub.arrivalNanos < start + k * interval ↔
        intervalOf start interval sub.arrivalNanos ≤ k) := by
      intro sub hsub
      obtain ⟨parts, -, hsubs⟩ := hst.placed
      have hmem : sub ∈ subs := hsubs ▸ List.mem_append_right _ hsub
      rw [Fin.lt_def, cutoff_val]
      exact cutoff_separates hpos start.isLt interval.isLt hfits (hlast sub hmem) hk1 hkK
    have hearlier : ∀ b ∈ st.batches, b.cutoffNanos < start + k * interval := by
      intro b hb
      rw [Fin.lt_def, cutoff_val]
      exact hbelow hk b hb
    obtain ⟨hst', hnew⟩ := takeInterval_progress instrumentId hlen hsorted hst hcut
      hearlier
    refine .ok ⟨Nat.le_add_left 1 _, hst', fun hk' b hb => ?_⟩
    have hlt := cutoff_lt_cutoff hpos interval.isLt hfits hk1 (by omega)
    rcases hnew b hb with hb | hb
    · exact (hbelow hk b hb).trans hlt
    · rw [hb, cutoff_val]
      exact hlt
  have hend : (K : ℕ) + 1 < 2 ^ 64 := by omega
  obtain ⟨st, hrun, -, hst, -⟩ := (Finishes.forUpTo I hend hround (k := 1)
    (by rw [hK]; exact Nat.le_add_left 1 _) hinit).exists_ok
  obtain ⟨parts, hparts, hsubs⟩ := hst.placed
  -- a submission still pending would belong to an interval after the last one
  have hnil : st.pending = [] := by
    rw [List.eq_nil_iff_forall_not_mem]
    intro sub hsub
    have hlate := hst.pending sub hsub
    have hle := @intervalOf_mono start interval _ _
      (hlast sub (hsubs ▸ List.mem_append_right _ hsub))
    omega
  rw [hnil, List.append_nil] at hsubs
  exact ⟨st, hrun, ⟨parts, hparts, hsubs ▸ List.Perm.refl _⟩, hst.cutoffs⟩

/-- A submission that is before no cutoff stays pending. -/
theorem rounds_of_not_fits (hpos : 0 < (interval : ℕ))
    (hsorted : subs.Pairwise fun a b => a.arrivalNanos ≤ b.arrivalNanos) (hmem : last ∈ subs)
    (hreach : intervalOf start interval last.arrivalNanos ≤ maxSize SyntheticBatchBundle.sizeof)
    (hfits : ¬ Fits start interval last.arrivalNanos) {st : IntervalState}
    (hrun : forUpTo .endless (calculatedBatches last.arrivalNanos start interval)
      (rounds instrumentId start interval) 1 ⟨[], subs⟩ = .ok st) :
    (st.batches.map fun b => b.preimages.length).sum < subs.length := by
  have hlimit := maxSize_bundles_lt
  have hK := calculatedBatches_val last.arrivalNanos start interval
  rw [Nat.mod_eq_of_lt (by omega)] at hK
  let I (k : ℕ) (st : IntervalState) : Prop := 1 ≤ k ∧ last ∈ st.pending ∧
    (st.pending.Pairwise fun a b => a.arrivalNanos ≤ b.arrivalNanos) ∧
    (st.batches.map fun b => b.preimages.length).sum + st.pending.length = subs.length
  have hround : ∀ (k : U64) (st : IntervalState), k ≤ calculatedBatches last.arrivalNanos start interval →
      I k st → Finishes (I (k + 1)) (fun _ => False) (rounds instrumentId start interval k st) := by
    rintro k st hk ⟨hk1, hlast, hsorted, hcount⟩
    obtain ⟨due, rest, hsplit, hdue, -, hround⟩ := takeInterval_cases instrumentId start
      interval k hsorted
    have hrest : last ∈ rest := by
      rw [← hsplit] at hlast
      rcases List.mem_append.mp hlast with h | h
      · have hlt := hdue last h
        rw [Fin.lt_def, cutoff_val] at hlt
        have hle := cutoff_le_of_not_fits hpos start.isLt interval.isLt last.arrivalNanos.isLt hreach
          hfits hk1 (by rw [← hK]; exact hk)
        omega
      · exact h
    have hlen := congrArg List.length hsplit
    rw [List.length_append] at hlen
    refine .ok ⟨Nat.le_add_left 1 _, ?_⟩
    have hrestSorted : rest.Pairwise fun a b => a.arrivalNanos ≤ b.arrivalNanos := by
      rw [← hsplit] at hsorted
      exact (List.pairwise_append.mp hsorted).2.1
    rcases hround with ⟨rfl, hround⟩ | hround
    · rw [hround]
      refine ⟨hrest, hrestSorted, ?_⟩
      rw [List.length_nil] at hlen
      show (st.batches.map _).sum + rest.length = _
      omega
    · rw [hround]
      refine ⟨hrest, hrestSorted, ?_⟩
      rw [List.map_append, List.sum_append, List.map_singleton, List.sum_singleton]
      show _ + (due.mapIdx _).length + rest.length = _
      rw [List.length_mapIdx]
      omega
  obtain ⟨st', hrun', -, hlast, -, hcount⟩ := (Finishes.forUpTo I (by omega) hround (k := 1)
    (s := ⟨[], subs⟩) (by rw [hK]; exact Nat.le_add_left 1 _) ⟨le_refl 1, hmem, hsorted, by simp⟩).exists_ok
  obtain rfl : st = st' := Except.ok.inj (hrun.symm.trans hrun')
  have hne : 0 < st.pending.length := List.length_pos_of_mem hlast
  omega

end Loop

/-! ## The partition -/

section Partition

variable [StdSort]

theorem partitionStream_eq {stream : OrderInputStream} {start interval : U64}
    {last : TimestampedOrderSubmission} (hpos : 0 < (interval : ℕ))
    (hlast : stream.submissions.getLast? = some last) :
    partitionStream stream start interval none =
      reserve SyntheticBatchBundle.sizeof (calculatedBatches last.arrivalNanos start interval) >>=
        fun _ => (forUpTo .endless (calculatedBatches last.arrivalNanos start interval)
          (rounds stream.instrumentId start interval) 1 ⟨[], stream.submissions⟩) >>=
        fun st => .ok st.batches := by
  have hne : ¬ interval = 0 := by
    rintro rfl
    exact absurd hpos (lt_irrefl 0)
  unfold partitionStream
  simp only [hlast, if_neg hne]
  rfl

omit [StdSort] in
/-- The last submission of a stream arrives last. -/
theorem le_last {stream : OrderInputStream} {last : TimestampedOrderSubmission}
    (hlast : stream.submissions.getLast? = some last) : last ∈ stream.submissions ∧
      ∀ sub ∈ stream.submissions, sub.arrivalNanos ≤ last.arrivalNanos := by
  have hsorted := stream.canonical.imp arrival_le_of_tie_le
  obtain ⟨earlier, hsplit⟩ := List.getLast?_eq_some_iff.mp hlast
  rw [hsplit] at hsorted ⊢
  refine ⟨List.mem_append_right _ (List.mem_singleton_self _), fun sub hsub => ?_⟩
  rcases List.mem_append.mp hsub with hsub | hsub
  · exact (List.pairwise_append.mp hsorted).2.2 sub hsub last (List.mem_singleton_self _)
  · rw [List.mem_singleton.mp hsub]

/-- A partition that loses nothing reaches the cutoff behind the last submission. -/
theorem fits_last {stream : OrderInputStream} {start interval : U64} {last : TimestampedOrderSubmission}
    {bundles : List SyntheticBatchBundle} (hpos : 0 < (interval : ℕ))
    (hlast : stream.submissions.getLast? = some last)
    (hrun : partitionStream stream start interval none = .ok bundles)
    (hpart : Partitions start interval stream.submissions bundles) :
    Fits start interval last.arrivalNanos := by
  have hsorted := stream.canonical.imp arrival_le_of_tie_le
  have hmem := (le_last hlast).1
  have hlimit := maxSize_bundles_lt
  have hK := calculatedBatches_val last.arrivalNanos start interval
  have hcount := hpart.count
  have hmost : intervalOf start interval last.arrivalNanos ≤ 2 ^ 64 := by
    rw [intervalOf_eq]
    have := Nat.div_le_self ((last.arrivalNanos : ℕ) - start) interval
    have := last.arrivalNanos.isLt
    omega
  rw [partitionStream_eq hpos hlast, reserve] at hrun
  by_contra hfits
  split_ifs at hrun with hthrow
  · cases hrun
  obtain ⟨-, -, hrun⟩ := bind_eq_ok.mp hrun
  obtain ⟨st, hloop, hbundles⟩ := bind_eq_ok.mp hrun
  obtain rfl := Except.ok.inj hbundles
  by_cases hwrap : intervalOf start interval last.arrivalNanos = 2 ^ 64
  · -- the number of rounds wraps around to zero
    rw [forUpTo_of_not_le (by rw [Fin.le_def]; simp [hK, hwrap])] at hloop
    obtain rfl := Except.ok.inj hloop
    have := List.length_pos_of_mem hmem
    simp only [List.map_nil, List.sum_nil] at hcount
    omega
  · rw [Nat.mod_eq_of_lt (by omega)] at hK
    have hless := rounds_of_not_fits hpos hsorted hmem (by omega) hfits hloop
    omega

theorem exists_partition_iff {stream : OrderInputStream} {start interval : U64}
    (hpos : 0 < (interval : ℕ)) (hlen : stream.submissions.length < 2 ^ 64) :
    (∃ bundles, partitionStream stream start interval none = .ok bundles ∧
      Partitions start interval stream.submissions bundles) ↔
        ∀ sub ∈ stream.submissions, Fits start interval sub.arrivalNanos := by
  cases hlast : stream.submissions.getLast? with
  | none =>
    have hnil := List.getLast?_eq_none_iff.mp hlast
    rw [hnil]
    refine iff_of_true ⟨[], ?_, ⟨[], .nil, List.Perm.refl _⟩, List.Pairwise.nil⟩ (by simp)
    unfold partitionStream
    simp only [hlast]
  | some last =>
    obtain ⟨hmem, hle⟩ := le_last hlast
    constructor
    · rintro ⟨bundles, hrun, hpart⟩ sub hsub
      exact Fits.mono (hle sub hsub) (fits_last hpos hlast hrun hpart)
    · intro hfits
      obtain ⟨st, hrun, hpart⟩ := rounds_of_fits hpos hlen stream.canonical hle (hfits last hmem)
      have hlimit := maxSize_bundles_lt
      have hreach := (hfits last hmem).1
      have hK := calculatedBatches_val last.arrivalNanos start interval
      rw [Nat.mod_eq_of_lt (by omega)] at hK
      rw [partitionStream_eq hpos hlast, reserve, if_neg (by omega), hrun]
      exact ⟨st.batches, rfl, hpart⟩

theorem submissions_perm (inst : InstrumentId) (subs : List TimestampedOrderSubmission) :
    (OrderInputStream.new inst subs).submissions.Perm subs := StdSort.sort_perm _ _

/-- The partition places every submission, exactly when each arrives before the cutoff of its interval
as the machine computes it, and a vector holds as many bundles as there are intervals up to it. -/
theorem partitionStream_partitions_iff (inst : InstrumentId) (subs : List TimestampedOrderSubmission)
    (start interval : U64) (hpos : 0 < (interval : ℕ)) (hlen : subs.length < 2 ^ 64) :
    (∃ bundles, partitionStream (.new inst subs) start interval none = .ok bundles ∧
      Partitions start interval subs bundles) ↔
        ∀ sub ∈ subs, Fits start interval sub.arrivalNanos := by
  have hperm := submissions_perm inst subs
  have hiff := @exists_partition_iff _ (.new inst subs) start _ hpos
    (by rw [hperm.length_eq]; exact hlen)
  constructor
  · rintro ⟨bundles, hrun, hpart⟩ sub hsub
    exact hiff.mp ⟨bundles, hrun, hpart.perm hperm.symm⟩ sub (hperm.mem_iff.mpr hsub)
  · intro hfits
    obtain ⟨bundles, hrun, hpart⟩ := hiff.mpr fun sub hsub => hfits sub (hperm.mem_iff.mp hsub)
    exact ⟨bundles, hrun, hpart.perm hperm⟩

end Partition

/-! ## Examples -/

/-- An order of instrument 7 that arrives at `arrivalNanos`. -/
def exampleSubmission (id arrivalNanos : U64) : TimestampedOrderSubmission :=
  { order := exampleOrder id id .buy 100 1 99, arrivalNanos, salt := .fill 0 }

/-- One arrival before the start, one at the end of the first interval, one after an empty interval. -/
theorem partitionStream_partitions_example :
    ∃ bundles, @partitionStream .stable (@OrderInputStream.new .stable ⟨7⟩
      [exampleSubmission 1 260, exampleSubmission 2 150, exampleSubmission 3 99]) 100 50 none =
        .ok bundles ∧ Partitions 100 50
          [exampleSubmission 1 260, exampleSubmission 2 150, exampleSubmission 3 99] bundles :=
  (@partitionStream_partitions_iff .stable ⟨7⟩
    [exampleSubmission 1 260, exampleSubmission 2 150, exampleSubmission 3 99] 100 50 (by decide)
    (by decide)).mpr (by decide)

/-- In the last 100 nanoseconds of the clock the cutoff wraps around, and the order is lost. -/
theorem partitionStream_loses_late :
    ¬ ∃ bundles, @partitionStream .stable (@OrderInputStream.new .stable ⟨7⟩
      [exampleSubmission 1 18446744073709551611]) 18446744073709551606 100 none = .ok bundles ∧
        Partitions 18446744073709551606 100 [exampleSubmission 1 18446744073709551611] bundles := by
  have hperm := @submissions_perm .stable ⟨7⟩ [exampleSubmission 1 18446744073709551611]
  rintro ⟨bundles, hrun, hpart⟩
  have hfits := (@exists_partition_iff .stable (@OrderInputStream.new .stable ⟨7⟩ _)
    18446744073709551606 100 (by decide) (by rw [hperm.length_eq]; decide)).mp ⟨bundles, hrun, hpart.perm hperm.symm⟩ _
      (hperm.mem_iff.mpr (List.mem_singleton_self _))
  exact absurd hfits (by decide)

end BatchIntervalPartitionEngine

end FairCross
