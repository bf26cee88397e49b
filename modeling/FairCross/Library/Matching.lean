import FairCross.Library.CallMarket

/-!
# Matchings of a call market

A matching gives every interest a part of its quantity, the same total to bids and asks. Two facts
about a matching of the largest volume with price priority (`IsPrioritised`): no bid and ask that are
left over can trade (`IsPrioritised.uncrossed`), and no matching has a larger surplus
(`IsPrioritised.surplus_le`), whatever price it was made at.
-/

namespace CallMarket

variable {α ι : Type}

/-- `fill` gives no interest more than its quantity, and `v` to either side. -/
structure IsMatching (qty : ι → ℕ) (bids asks : List ι) (fill : ι → ℕ) (v : ℕ) : Prop where
  bid_le : ∀ b ∈ bids, fill b ≤ qty b
  ask_le : ∀ a ∈ asks, fill a ≤ qty a
  bid_sum : (bids.map fill).sum = v
  ask_sum : (asks.map fill).sum = v

section Order

variable [LinearOrder α] {price : ι → α} {qty : ι → ℕ} {bids asks : List ι} {fill : ι → ℕ} {v : ℕ}

/-- A matching of the largest volume in which an interest that is not filled shuts out the worse ones
of its side. -/
structure IsPrioritised (price : ι → α) (qty : ι → ℕ) (bids asks : List ι) (fill : ι → ℕ) (v : ℕ) :
    Prop extends IsMatching qty bids asks fill v where
  maximal : ∀ p, (ofInterests price qty bids asks).executable p ≤ v
  bid_priority : ∀ a ∈ bids, ∀ b ∈ bids, price b < price a → fill a < qty a → fill b = 0
  ask_priority : ∀ a ∈ asks, ∀ b ∈ asks, price a < price b → fill a < qty a → fill b = 0

/-- The largest volume is looked for among the prices of the bids. -/
theorem executable_le_of_bids (h : ∀ b ∈ bids, (ofInterests price qty bids asks).executable (price b) ≤ v)
    (p : α) : (ofInterests price qty bids asks).executable p ≤ v := by
  rcases Nat.eq_zero_or_pos ((ofInterests price qty bids asks).executable p) with hzero | hpos
  · omega
  · obtain ⟨b, hb, hle⟩ := exists_interest price qty hpos
    exact hle.trans (h b hb)

/-- A part of the interests that takes the whole total, not all of it filled, has more than the total. -/
theorem sum_lt_of_unfilled {P : ι → Prop} [DecidablePred P] {l : List ι} {i : ι} (hi : i ∈ l) (hP : P i)
    (hlt : fill i < qty i) (hle : ∀ j ∈ l, fill j ≤ qty j) (hout : ∀ j ∈ l, ¬ P j → fill j = 0) :
    (l.map fill).sum < ((l.filter P).map qty).sum := by
  have htotal : (l.map fill).sum = ((l.filter P).map fill).sum := by
    clear hi hle
    induction l with
    | nil => rfl
    | cons j l ih =>
      obtain ⟨hj, hl⟩ := List.forall_mem_cons.mp hout
      rw [List.map_cons, List.sum_cons, ih hl]
      by_cases h : P j
      · simp [h]
      · simp [h, hj h]
  rw [htotal]
  refine List.sum_lt_sum fill qty (fun j hj => hle j (List.mem_filter.mp hj).1) ⟨i, ?_, hlt⟩
  exact List.mem_filter.mpr ⟨hi, decide_eq_true hP⟩

/-- **The leftovers do not cross.** -/
theorem IsPrioritised.uncrossed (h : IsPrioritised price qty bids asks fill v) {b a : ι} (hb : b ∈ bids)
    (ha : a ∈ asks) (hlb : fill b < qty b) (hla : fill a < qty a) : price b < price a := by
  by_contra hcross
  have hab : price a ≤ price b := not_lt.mp hcross
  -- at the limit of the bid both sides could trade more than `v`
  have hdemand : v < above price qty bids (price b) := by
    rw [← h.bid_sum]
    exact sum_lt_of_unfilled hb le_rfl hlb h.bid_le fun j hj hlt =>
      h.bid_priority b hb j hj (not_le.mp hlt) hlb
  have hsupply : v < below price qty asks (price a) := by
    rw [← h.ask_sum]
    exact sum_lt_of_unfilled ha le_rfl hla h.ask_le fun j hj hlt =>
      h.ask_priority a ha j hj (not_le.mp hlt) hla
  have hsupply' : v < below price qty asks (price b) := hsupply.trans_le (below_mono price qty asks hab)
  exact absurd (h.maximal (price b)) (not_le.mpr (lt_min hdemand hsupply'))

theorem exists_of_sum_pos {f : ι → ℕ} {l : List ι} (h : 0 < (l.map f).sum) : ∃ i ∈ l, 0 < f i := by
  by_contra hno
  have hzero : ∀ i ∈ l, f i = 0 := fun i hi =>
    Nat.eq_zero_of_not_pos fun hpos => hno ⟨i, hi, hpos⟩
  rw [List.map_congr_left hzero] at h
  simp at h

/-- Between finitely many prices and the prices above all of them there is a price. -/
theorem exists_separating [Nonempty α] {low high : List α} (h : ∀ s ∈ low, ∀ t ∈ high, s ≤ t) :
    ∃ p, (∀ s ∈ low, s ≤ p) ∧ ∀ t ∈ high, p ≤ t := by
  induction low with
  | nil =>
    clear h
    induction high with
    | nil => exact ⟨Classical.arbitrary α, by simp, by simp⟩
    | cons t high ih =>
      obtain ⟨p, -, hp⟩ := ih
      refine ⟨min t p, by simp, fun u hu => ?_⟩
      rcases List.mem_cons.mp hu with rfl | hu
      · exact min_le_left _ _
      · exact (min_le_right _ _).trans (hp u hu)
  | cons s low ih =>
    obtain ⟨hs, hlow⟩ := List.forall_mem_cons.mp h
    obtain ⟨p, hp1, hp2⟩ := ih hlow
    refine ⟨max s p, fun u hu => ?_, fun t ht => max_le (hs t ht) (hp2 t ht)⟩
    rcases List.mem_cons.mp hu with rfl | hu
    · exact le_max_left _ _
    · exact (hp1 u hu).trans (le_max_right _ _)

end Order

/-! ## Surplus -/

section Surplus

variable {price : ι → ℤ} {qty : ι → ℕ} {bids asks : List ι} {fill : ι → ℕ} {v : ℕ}

/-- What the bids would pay for their fills beyond what the asks want for theirs. -/
def surplus (price : ι → ℤ) (bids asks : List ι) (fill : ι → ℕ) : ℤ :=
  (bids.map fun b => price b * fill b).sum - (asks.map fun a => price a * fill a).sum

/-- A constant price moves nothing between two sides with the same total. -/
theorem IsMatching.surplus_eq (h : IsMatching qty bids asks fill v) (p : ℤ) :
    surplus price bids asks fill =
      (bids.map fun b => (price b - p) * fill b).sum + (asks.map fun a => (p - price a) * fill a).sum := by
  have hshift : ∀ l : List ι, (l.map fun i => (price i - p) * (fill i : ℤ)).sum =
      (l.map fun i => price i * (fill i : ℤ)).sum - p * ((l.map fill).sum : ℕ) := by
    intro l
    induction l with
    | nil => simp
    | cons i l ih =>
      simp only [List.map_cons, List.sum_cons, Nat.cast_add]
      rw [ih]
      ring
  have hneg : ∀ l : List ι, (l.map fun i => (p - price i) * (fill i : ℤ)).sum =
      -(l.map fun i => (price i - p) * (fill i : ℤ)).sum := by
    intro l
    induction l with
    | nil => simp
    | cons i l ih =>
      simp only [List.map_cons, List.sum_cons]
      rw [ih]
      ring
  rw [hneg, hshift, hshift, h.bid_sum, h.ask_sum, surplus]
  ring

/-- A price between what is filled and what is left over. -/
theorem IsPrioritised.exists_separating (h : IsPrioritised price qty bids asks fill v)
    (htrades : ∀ b ∈ bids, ∀ a ∈ asks, 0 < fill b → 0 < fill a → price a ≤ price b) :
    ∃ p, (∀ b ∈ bids, (fill b < qty b → price b ≤ p) ∧ (0 < fill b → p ≤ price b)) ∧
      ∀ a ∈ asks, (fill a < qty a → p ≤ price a) ∧ (0 < fill a → price a ≤ p) := by
  have hsplit : ∀ s ∈ ((bids.filter fun b => fill b < qty b) ++ asks.filter fun a => 0 < fill a).map
      price, ∀ t ∈ ((asks.filter fun a => fill a < qty a) ++ bids.filter fun b => 0 < fill b).map price,
      s ≤ t := by
    simp only [List.mem_map, List.mem_append, List.mem_filter, decide_eq_true_eq]
    rintro _ ⟨i, hi, rfl⟩ _ ⟨j, hj, rfl⟩
    rcases hi with ⟨hi, hlow⟩ | ⟨hi, hlow⟩ <;> rcases hj with ⟨hj, hhigh⟩ | ⟨hj, hhigh⟩
    · exact (h.uncrossed hi hj hlow hhigh).le
    · by_contra hlt
      exact absurd (h.bid_priority i hi j hj (not_le.mp hlt) hlow) hhigh.ne'
    · by_contra hlt
      exact absurd (h.ask_priority j hj i hi (not_le.mp hlt) hhigh) hlow.ne'
    · exact htrades j hj i hi hhigh hlow
  obtain ⟨p, hlow, hhigh⟩ := CallMarket.exists_separating hsplit
  simp only [List.mem_map, List.mem_append, List.mem_filter, decide_eq_true_eq] at hlow hhigh
  refine ⟨p, fun b hb => ⟨fun hl => ?_, fun hf => ?_⟩, fun a ha => ⟨fun hl => ?_, fun hf => ?_⟩⟩
  · exact hlow _ ⟨b, .inl ⟨hb, hl⟩, rfl⟩
  · exact hhigh _ ⟨b, .inr ⟨hb, hf⟩, rfl⟩
  · exact hhigh _ ⟨a, .inl ⟨ha, hl⟩, rfl⟩
  · exact hlow _ ⟨a, .inr ⟨ha, hf⟩, rfl⟩

/-- An interest that gains `c` by the unit does best with all of its quantity, or with none. -/
theorem gain_le {c : ℤ} {f g q : ℕ} (hg : g ≤ q) (hf : f ≤ q) (hleft : f < q → c ≤ 0)
    (hfilled : 0 < f → 0 ≤ c) : c * g ≤ c * f := by
  rcases Nat.lt_or_ge f q with hlt | hge
  · rcases Nat.eq_zero_or_pos f with rfl | hpos
    · simpa using mul_nonpos_of_nonpos_of_nonneg (hleft hlt) (Nat.cast_nonneg g)
    · rw [le_antisymm (hleft hlt) (hfilled hpos), zero_mul, zero_mul]
  · rcases Nat.eq_zero_or_pos f with rfl | hpos
    · rw [Nat.eq_zero_of_le_zero (hg.trans hge)]
    · exact mul_le_mul_of_nonneg_left (Nat.cast_le.mpr (hg.trans hge)) (hfilled hpos)

/-- **No matching has a larger surplus** than one with price priority and the largest volume. Of its
trades only that no ask is filled above a filled bid is needed. -/
theorem IsPrioritised.surplus_le (h : IsPrioritised price qty bids asks fill v)
    (htrades : ∀ b ∈ bids, ∀ a ∈ asks, 0 < fill b → 0 < fill a → price a ≤ price b) {g : ι → ℕ} {w : ℕ}
    (hg : IsMatching qty bids asks g w) :
    surplus price bids asks g ≤ surplus price bids asks fill := by
  obtain ⟨p, hbids, hasks⟩ := h.exists_separating htrades
  rw [hg.surplus_eq p, h.toIsMatching.surplus_eq p]
  refine add_le_add (List.sum_le_sum fun b hb => ?_) (List.sum_le_sum fun a ha => ?_)
  · obtain ⟨hleft, hfilled⟩ := hbids b hb
    exact gain_le (hg.bid_le b hb) (h.bid_le b hb) (fun hl => sub_nonpos.mpr (hleft hl))
      fun hf => sub_nonneg.mpr (hfilled hf)
  · obtain ⟨hleft, hfilled⟩ := hasks a ha
    exact gain_le (hg.ask_le a ha) (h.ask_le a ha) (fun hl => sub_nonpos.mpr (hleft hl))
      fun hf => sub_nonneg.mpr (hfilled hf)

end Surplus

end CallMarket
