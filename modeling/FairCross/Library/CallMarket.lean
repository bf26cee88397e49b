import Mathlib

/-!
# Call markets

A call market has a demand curve that falls and a supply curve that rises with the price; at a price
the smaller of the two can trade. Two facts carry every uniform-price rule: the optimal prices form
an interval (`IsOptimal.between`), and for curves that come from a list of limit interests the
prices of the interests are enough to find the optimum (`exists_interest`).

The curves of a list of interests are `above` and `below`: the quantity of the interests at or
above, at or below a price.
-/

/-- Demand and supply over prices `α`. -/
structure CallMarket (α : Type) [LinearOrder α] where
  demand : α → ℕ
  supply : α → ℕ
  demand_anti : Antitone demand
  supply_mono : Monotone supply

namespace CallMarket

variable {α : Type} [LinearOrder α]

/-- The quantity that can trade at price `p`. -/
def executable (m : CallMarket α) (p : α) : ℕ := min (m.demand p) (m.supply p)

/-- No price executes more than `p`. -/
def IsOptimal (m : CallMarket α) (p : α) : Prop := ∀ q, m.executable q ≤ m.executable p

/-- What executes at two prices executes at every price between them. -/
theorem le_executable_between {m : CallMarket α} {a b c : α} {v : ℕ} (ha : v ≤ m.executable a)
    (hb : v ≤ m.executable b) (hac : a ≤ c) (hcb : c ≤ b) : v ≤ m.executable c :=
  le_min (hb.trans ((min_le_left _ _).trans (m.demand_anti hcb)))
    (ha.trans ((min_le_right _ _).trans (m.supply_mono hac)))

/-- **The optimal prices form an interval.** -/
theorem IsOptimal.between {m : CallMarket α} {a b c : α} (ha : m.IsOptimal a) (hb : m.IsOptimal b)
    (hac : a ≤ c) (hcb : c ≤ b) : m.IsOptimal c := fun q =>
  le_executable_between (ha q) (hb q) hac hcb

/-! ## Curves of a list of interests -/

section Interests

variable {ι : Type} (price : ι → α) (qty : ι → ℕ)

/-- The quantity of the interests at or above `p`. -/
def above (l : List ι) (p : α) : ℕ := ((l.filter fun i => p ≤ price i).map qty).sum

/-- The quantity of the interests at or below `p`. -/
def below (l : List ι) (p : α) : ℕ := ((l.filter fun i => price i ≤ p).map qty).sum

/-- The quantity of the interests at `p`. -/
def bucket (l : List ι) (p : α) : ℕ := ((l.filter fun i => price i = p).map qty).sum

/-- A subset of the interests has at most the quantity. -/
theorem sum_filter_le_of_imp {p q : ι → Prop} [DecidablePred p] [DecidablePred q]
    (h : ∀ i, p i → q i) (l : List ι) :
    ((l.filter p).map qty).sum ≤ ((l.filter q).map qty).sum := by
  have hs : (l.filter p).Sublist (l.filter q) :=
    List.monotone_filter_right l fun i hi => by simpa using h i (by simpa using hi)
  exact (hs.map qty).sum_le_sum fun _ _ => Nat.zero_le _

theorem sum_filter_le (p : ι → Prop) [DecidablePred p] (l : List ι) :
    ((l.filter p).map qty).sum ≤ (l.map qty).sum :=
  ((List.filter_sublist (p := p)).map qty).sum_le_sum fun _ _ => Nat.zero_le _

theorem bucket_le (l : List ι) (p : α) : bucket price qty l p ≤ (l.map qty).sum :=
  sum_filter_le qty _ l

theorem above_anti (l : List ι) : Antitone (above price qty l) := fun _ _ h =>
  sum_filter_le_of_imp qty (fun _ hi => h.trans hi) l

theorem below_mono (l : List ι) : Monotone (below price qty l) := fun _ _ h =>
  sum_filter_le_of_imp qty (fun _ hi => hi.trans h) l

/-- The market of the interests `bids` and `asks`. -/
def ofInterests (bids asks : List ι) : CallMarket α where
  demand := above price qty bids
  supply := below price qty asks
  demand_anti := above_anti price qty bids
  supply_mono := below_mono price qty asks

/-- Above a price with demand there is an interest at whose price the demand is still the same. -/
theorem exists_above_eq {l : List ι} {p : α} (h : 0 < above price qty l p) :
    ∃ i ∈ l, p ≤ price i ∧ above price qty l (price i) = above price qty l p := by
  have hne : l.filter (fun i => p ≤ price i) ≠ [] := by
    intro he
    simp [above, he] at h
  obtain ⟨i, hi, hmin⟩ : ∃ i ∈ l.filter (fun i => p ≤ price i),
      ∀ j ∈ l.filter (fun i => p ≤ price i), price i ≤ price j := by
    obtain ⟨i, hi⟩ := Option.ne_none_iff_exists'.mp (mt (List.argmin_eq_none (f := price)).mp hne)
    exact ⟨i, List.argmin_mem hi, fun j hj => List.le_of_mem_argmin hj hi⟩
  have hmem := List.mem_filter.mp hi
  have hpi : p ≤ price i := by simpa using hmem.2
  refine ⟨i, hmem.1, hpi, ?_⟩
  unfold above
  rw [List.filter_congr fun j hj => ?_]
  rw [decide_eq_decide]
  constructor
  · exact fun hij => hpi.trans hij
  · exact fun hpj => hmin j (List.mem_filter.mpr ⟨hj, by simpa using hpj⟩)

/-- **The prices of the bids are enough to find the optimum.** -/
theorem exists_interest {bids asks : List ι} {p : α}
    (h : 0 < (ofInterests price qty bids asks).executable p) :
    ∃ i ∈ bids, (ofInterests price qty bids asks).executable p ≤
      (ofInterests price qty bids asks).executable (price i) := by
  obtain ⟨i, hi, hpi, he⟩ := exists_above_eq price qty (lt_of_lt_of_le h (min_le_left _ _))
  refine ⟨i, hi, le_min ?_ ?_⟩
  · exact (min_le_left _ _).trans he.ge
  · exact (min_le_right _ _).trans (below_mono price qty asks hpi)

/-! ## Cumulative sums over the distinct prices -/

/-- Buckets of distinct prices add up to the quantity of the interests at one of the prices. -/
theorem sum_bucket {cs : List α} (hnd : cs.Nodup) (l : List ι) :
    (cs.map (bucket price qty l)).sum = ((l.filter fun i => price i ∈ cs).map qty).sum := by
  induction cs with
  | nil => simp
  | cons c cs ih =>
    obtain ⟨hc, hnd'⟩ := List.nodup_cons.mp hnd
    rw [List.map_cons, List.sum_cons, ih hnd']
    clear ih
    induction l with
    | nil => simp [bucket]
    | cons i l ih =>
      simp only [bucket, List.mem_cons] at ih ⊢
      by_cases hi : price i = c
      · subst hi
        simp only [List.filter_cons, hc, true_or, decide_true, if_true,
          decide_false, Bool.false_eq_true, if_false, List.map_cons, List.sum_cons]
        omega
      · by_cases hi' : price i ∈ cs
        · simp only [List.filter_cons, hi, hi', or_true, decide_true, if_true,
            decide_false, Bool.false_eq_true, if_false, List.map_cons, List.sum_cons]
          omega
        · simp only [List.filter_cons, hi, hi', or_false, decide_false,
            Bool.false_eq_true, if_false]
          exact ih

/-- Lists with the same buckets have the same quantity on every set of prices. -/
theorem sum_filter_price_congr {l l' : List ι} (h : ∀ p, bucket price qty l p = bucket price qty l' p)
    (P : α → Prop) [DecidablePred P] :
    ((l.filter fun i => P (price i)).map qty).sum = ((l'.filter fun i => P (price i)).map qty).sum := by
  have hcs : (((l ++ l').map price).dedup.filter P).Nodup := (List.nodup_dedup _).filter _
  have hpart : ∀ m : List ι, (∀ i ∈ m, i ∈ l ++ l') →
      ((((l ++ l').map price).dedup.filter P).map (bucket price qty m)).sum =
        ((m.filter fun i => P (price i)).map qty).sum := by
    intro m hm
    rw [sum_bucket price qty hcs]
    refine congrArg (fun l : List ι => (l.map qty).sum) (List.filter_congr fun i hi => ?_)
    rw [decide_eq_decide, List.mem_filter, List.mem_dedup, decide_eq_true_iff]
    exact and_iff_right (List.mem_map.mpr ⟨i, hm i hi, rfl⟩)
  rw [← hpart l fun i hi => List.mem_append_left _ hi, ← hpart l' fun i hi => List.mem_append_right _ hi]
  exact congrArg List.sum (List.map_congr_left fun p _ => h p)

variable {cs : List α} (hcs : cs.Pairwise (· < ·)) {l : List ι} (hl : ∀ i ∈ l, price i ∈ cs)
include hcs hl

/-- Prefix sums of the buckets are the quantities at or below. -/
theorem sum_take_bucket {k : ℕ} (hk : k < cs.length) :
    ((cs.take (k + 1)).map (bucket price qty l)).sum = below price qty l cs[k] := by
  have hnd : cs.Nodup := hcs.imp ne_of_lt
  rw [sum_bucket price qty (hnd.sublist (List.take_sublist _ _)), below]
  rw [List.filter_congr fun i hi => ?_]
  obtain ⟨j, hj, hji⟩ := List.getElem_of_mem (hl i hi)
  rw [decide_eq_decide, ← hji, List.mem_take_iff_getElem]
  constructor
  · rintro ⟨n, hn, he⟩
    rw [← he]
    rcases Nat.lt_or_eq_of_le (show n ≤ k by omega) with h | rfl
    · exact (List.pairwise_iff_getElem.mp hcs n k _ hk h).le
    · exact le_refl _
  · intro h
    refine ⟨j, ?_, rfl⟩
    by_contra hlt
    have := List.pairwise_iff_getElem.mp hcs k j hk hj (by omega)
    exact absurd (lt_of_lt_of_le this h) (lt_irrefl _)

/-- Suffix sums of the buckets are the quantities at or above. -/
theorem sum_drop_bucket {k : ℕ} (hk : k < cs.length) :
    ((cs.drop k).map (bucket price qty l)).sum = above price qty l cs[k] := by
  have hnd : cs.Nodup := hcs.imp ne_of_lt
  rw [sum_bucket price qty (hnd.sublist (List.drop_sublist _ _)), above]
  rw [List.filter_congr fun i hi => ?_]
  obtain ⟨j, hj, hji⟩ := List.getElem_of_mem (hl i hi)
  rw [decide_eq_decide, ← hji, List.mem_drop_iff_getElem]
  constructor
  · rintro ⟨n, hn, he⟩
    rw [← he]
    rcases Nat.eq_zero_or_pos n with rfl | hpos
    · simp
    · exact (List.pairwise_iff_getElem.mp hcs k (k + n) hk (by omega) (by omega)).le
  · intro h
    have hkj : k ≤ j := by
      by_contra hlt
      have := List.pairwise_iff_getElem.mp hcs j k hj hk (by omega)
      exact absurd (lt_of_lt_of_le this h) (lt_irrefl _)
    exact ⟨j - k, by omega, by simp [Nat.add_sub_cancel' hkj]⟩

/-- The buckets hold every interest. -/
theorem sum_all_bucket : (cs.map (bucket price qty l)).sum = (l.map qty).sum := by
  rw [sum_bucket price qty (hcs.imp ne_of_lt), List.filter_eq_self.mpr fun i hi => ?_]
  simpa using hl i hi

end Interests

end CallMarket
