import FairCross.Simulator.Metrics

/-!
# When the report is exact

Each accumulator holds the true sum modulo its width (`Counted`). The report is the one of the published
formulas exactly when no sum leaves its width: a mean of a sum that wrapped is always too small, since
there are fewer orders than the sum lost.
-/

namespace FairCross

namespace I64

/-- A quotient by a positive count fits. -/
theorem exists_div_ofU64 (a : I64) {n : U64} (hpos : 0 < (n : ℕ)) (hn : (n : ℕ) < 2 ^ 63) :
    ∃ q, a.div (ofU64 n) = some q := by
  have hval : ((ofU64 n : I64) : ℤ) = n := by rw [ofU64_val, if_pos hn]
  have hfits : InI64 ((a : ℤ).tdiv n) := by
    obtain ⟨hlo, hhi⟩ := a.property
    have habs := Int.natAbs_tdiv_le_natAbs (a : ℤ) n
    rcases le_total 0 (a : ℤ) with ha | ha
    · have := Int.tdiv_nonneg ha (Int.natCast_nonneg n)
      constructor <;> omega
    · have := Int.tdiv_nonneg (Int.neg_nonneg_of_nonpos ha) (Int.natCast_nonneg n)
      rw [Int.neg_tdiv] at this
      constructor <;> omega
  refine ⟨⟨(a : ℤ).tdiv (ofU64 n), by rw [hval]; exact hfits⟩, ?_⟩
  unfold div
  rw [dif_pos ⟨by rw [hval]; omega, by rw [hval]; exact hfits⟩]

end I64

namespace MarketQualityCalculator

/-! ## The published formulas -/

/-- The orders with a fill. -/
def filled (metrics : List OrderExecutionMetric) : List OrderExecutionMetric :=
  metrics.filter fun m => ¬ m.filledQty.isZero

section Sums

variable (metrics : List OrderExecutionMetric)

def submittedSum : ℕ := (metrics.map fun m => (m.submittedQty.raw : ℕ)).sum

def lotsSum : ℕ := (metrics.map fun m => (m.filledQty.raw : ℕ)).sum

def delaySum : ℕ := (metrics.map fun m => (m.delayNanos : ℕ)).sum

def shortfallSum : ℕ := (metrics.map fun m => (m.implementationShortfall.raw : ℕ)).sum

/-- The greatest delay, zero if there is none. -/
def greatestDelay : ℕ := (metrics.map fun m => (m.delayNanos : ℕ)).foldl max 0

/-- The slippages that are known, in order. -/
def slippages : List ℤ := metrics.filterMap fun m => m.slippageTicks.map Subtype.val

end Sums

/-- The report holds the values of the formulas. -/
structure Exact (metrics : List OrderExecutionMetric) (r : MarketQualityReport) : Prop where
  volume : (r.totalSubmittedVolume : ℕ) = submittedSum metrics
  fillRate : (r.fillRatePermille : ℕ) = 1000 * lotsSum (filled metrics) / submittedSum metrics
  fillRate_le : (r.fillRatePermille : ℕ) ≤ 1000
  meanDelay : (r.meanTimeToFillNanos : ℕ) = delaySum (filled metrics) / (filled metrics).length
  maxDelay : (r.maxTimeToFillNanos : ℕ) = greatestDelay (filled metrics)
  meanDelay_le : r.meanTimeToFillNanos ≤ r.maxTimeToFillNanos
  shortfall : (r.totalImplementationShortfall.raw : ℕ) = shortfallSum (filled metrics)

/-- No sum leaves the width of its accumulator, the signed one also not on the way. -/
structure Fits (metrics : List OrderExecutionMetric) : Prop where
  submitted : submittedSum metrics < 2 ^ 64
  delay : delaySum (filled metrics) < 2 ^ 64
  shortfall : shortfallSum (filled metrics) < 2 ^ 128
  slippage : ∀ l, l <+: slippages (filled metrics) → InI64 l.sum

/-! ## The accumulators -/

section Accumulators

/-- What the accumulators hold behind the orders `fs` with a fill. -/
structure Counted (fs : List OrderExecutionMetric) (t : Totals) : Prop where
  fills : (t.fills : ℕ) = fs.length % 2 ^ 64
  filledLots : (t.filledLots : ℕ) = lotsSum fs % 2 ^ 64
  delay : (t.delay : ℕ) = delaySum fs % 2 ^ 64
  maxDelay : (t.maxDelay : ℕ) = greatestDelay fs
  slippage : (t.slippage : ℤ) = (slippages fs).sum
  slippageCount : (t.slippageCount : ℕ) = (slippages fs).length % 2 ^ 64
  shortfall : (t.shortfallRaw : ℕ) = shortfallSum fs % 2 ^ 128

theorem sum_concat (f : OrderExecutionMetric → ℕ) (fs : List OrderExecutionMetric)
    (m : OrderExecutionMetric) : ((fs ++ [m]).map f).sum = (fs.map f).sum + f m := by
  rw [List.map_append, List.sum_append, List.map_singleton, List.sum_singleton]

/-- Adding in `w` bits keeps the true sum modulo `2 ^ w`. -/
theorem val_add_eq_mod {n : ℕ} [NeZero n] {a b : Fin n} {s : ℕ} (h : (a : ℕ) = s % n) :
    ((a + b : Fin n) : ℕ) = (s + b) % n := by
  rw [Fin.val_add, h, Nat.mod_add_mod]

variable {t t' : Totals} {m : OrderExecutionMetric} {fs metrics : List OrderExecutionMetric}

theorem addMetric_unfilled (hm : m.filledQty.isZero = true) : addMetric t m = some t := if_pos hm

theorem slippages_concat (fs : List OrderExecutionMetric) (m : OrderExecutionMetric) :
    slippages (fs ++ [m]) = slippages fs ++ (m.slippageTicks.map Subtype.val).toList := by
  unfold slippages
  rw [List.filterMap_append]
  cases hticks : m.slippageTicks <;> simp [hticks]

/-- A filled order is counted, if its slippage can be added. -/
theorem addMetric_filled (hm : ¬ m.filledQty.isZero = true) (h : Counted fs t) :
    addMetric t m = some t' → Counted (fs ++ [m]) t' := by
  have hfills : ((t.fills + 1 : U64) : ℕ) = (fs ++ [m]).length % 2 ^ 64 := by
    rw [List.length_append]
    exact val_add_eq_mod h.fills
  have hlots : ((t.filledLots + m.filledQty.raw : U64) : ℕ) = lotsSum (fs ++ [m]) % 2 ^ 64 := by
    rw [lotsSum, sum_concat]
    exact val_add_eq_mod h.filledLots
  have hdelay : ((t.delay + m.delayNanos : U64) : ℕ) = delaySum (fs ++ [m]) % 2 ^ 64 := by
    rw [delaySum, sum_concat]
    exact val_add_eq_mod h.delay
  have hshortfall : ((t.shortfallRaw + m.implementationShortfall.raw : U128) : ℕ) =
      shortfallSum (fs ++ [m]) % 2 ^ 128 := by
    rw [shortfallSum, sum_concat]
    exact val_add_eq_mod h.shortfall
  have hmax : ((max t.maxDelay m.delayNanos : U64) : ℕ) = greatestDelay (fs ++ [m]) := by
    rw [greatestDelay, List.map_append, List.foldl_append]
    show _ = max (greatestDelay fs) (m.delayNanos : ℕ)
    rw [← h.maxDelay]
    exact Fin.coe_max _ _
  unfold addMetric
  rw [if_neg hm]
  cases hticks : m.slippageTicks with
  | none =>
    intro h'
    obtain rfl := Option.some.inj h'
    refine ⟨hfills, hlots, hdelay, hmax, ?_, ?_, hshortfall⟩
    · rw [slippages_concat, hticks]
      simpa using h.slippage
    · rw [slippages_concat, hticks]
      simpa using h.slippageCount
  | some ticks =>
    intro h'
    obtain ⟨slippage, hadd, rfl⟩ := Option.map_eq_some_iff.mp h'
    refine ⟨hfills, hlots, hdelay, hmax, ?_, ?_, hshortfall⟩
    · rw [slippages_concat, hticks, I64.add_eq_some.mp hadd, h.slippage]
      simp
    · rw [slippages_concat, hticks, List.length_append]
      exact val_add_eq_mod h.slippageCount

/-- The one way to fail is a slippage that cannot be added. -/
theorem exists_addMetric_iff (hm : ¬ m.filledQty.isZero = true) (h : Counted fs t) :
    (∃ t', addMetric t m = some t') ↔ ∀ ticks ∈ m.slippageTicks, InI64 ((slippages fs).sum + (ticks : ℤ)) := by
  unfold addMetric
  rw [if_neg hm]
  cases hticks : m.slippageTicks with
  | none => simp
  | some ticks =>
    simp only [Option.map_eq_some_iff, Option.mem_some_iff, forall_eq', ← h.slippage]
    constructor
    · rintro ⟨t', slippage, hadd, -⟩
      rw [← I64.add_eq_some.mp hadd]
      exact slippage.property
    · intro hfits
      exact ⟨_, ⟨_, hfits⟩, I64.add_eq_some.mpr rfl, rfl⟩

theorem filled_concat (metrics : List OrderExecutionMetric) (hm : ¬ m.filledQty.isZero = true) :
    filled (metrics ++ [m]) = filled metrics ++ [m] := by
  unfold filled
  rw [List.filter_append, List.filter_singleton]
  simp [hm]

theorem filled_concat_unfilled (metrics : List OrderExecutionMetric) (hm : m.filledQty.isZero = true) :
    filled (metrics ++ [m]) = filled metrics := by
  unfold filled
  rw [List.filter_append, List.filter_singleton]
  simp [hm]

theorem foldlM_concat (metrics : List OrderExecutionMetric) (m : OrderExecutionMetric) (t : Totals) :
    (metrics ++ [m]).foldlM addMetric t = (metrics.foldlM addMetric t).bind fun t' => addMetric t' m := by
  rw [List.foldlM_append]
  simp

theorem counted_of_foldlM (h : metrics.foldlM addMetric .zero = some t) : Counted (filled metrics) t := by
  induction metrics using List.reverseRecOn generalizing t with
  | nil =>
    obtain rfl := Option.some.inj h
    exact ⟨rfl, rfl, rfl, rfl, rfl, rfl, rfl⟩
  | append_singleton metrics m ih =>
    rw [foldlM_concat] at h
    obtain ⟨t₀, h₀, h⟩ := Option.bind_eq_some_iff.mp h
    by_cases hm : m.filledQty.isZero = true
    · rw [addMetric_unfilled hm] at h
      rw [filled_concat_unfilled metrics hm, ← Option.some.inj h]
      exact ih h₀
    · rw [filled_concat metrics hm]
      exact addMetric_filled hm (ih h₀) h

/-- The loop ends with totals as long as the running sum of the slippages fits. -/
theorem exists_foldlM_iff : (∃ t, metrics.foldlM addMetric .zero = some t) ↔
    ∀ l, l <+: slippages (filled metrics) → InI64 l.sum := by
  induction metrics using List.reverseRecOn with
  | nil =>
    refine iff_of_true ⟨_, rfl⟩ fun l hl => ?_
    rw [List.prefix_nil.mp hl]
    exact I64.zero.property
  | append_singleton metrics m ih =>
    simp only [foldlM_concat, Option.bind_eq_some_iff]
    by_cases hm : m.filledQty.isZero = true
    · rw [filled_concat_unfilled metrics hm, ← ih]
      simp only [addMetric_unfilled hm, Option.some.injEq]
      constructor
      · rintro ⟨-, t, h, -⟩
        exact ⟨t, h⟩
      · rintro ⟨t, h⟩
        exact ⟨t, t, h, rfl⟩
    · rw [filled_concat metrics hm, slippages_concat]
      constructor
      · rintro ⟨t', t, h, h'⟩ l hl
        have hticks := (exists_addMetric_iff hm (counted_of_foldlM h)).mp ⟨t', h'⟩
        have hearlier := ih.mp ⟨t, h⟩
        cases hsl : m.slippageTicks with
        | none =>
          rw [hsl] at hl
          exact hearlier l (by simpa using hl)
        | some ticks =>
          rw [hsl] at hl
          rcases List.prefix_concat_iff.mp hl with rfl | hl
          · rw [List.sum_append]
            simpa using hticks ticks hsl
          · exact hearlier l hl
      · intro hfits
        obtain ⟨t, h⟩ := ih.mpr fun l hl => hfits l (hl.trans (List.prefix_append _ _))
        have hstep := (exists_addMetric_iff hm (counted_of_foldlM h)).mpr fun ticks hticks => ?_
        · obtain ⟨t', h'⟩ := hstep
          exact ⟨t', t, h, h'⟩
        · have := hfits _ (List.prefix_refl _)
          rw [Option.mem_def.mp hticks, List.sum_append] at this
          simpa using this

theorem submittedVolume_val (metrics : List OrderExecutionMetric) :
    (submittedVolume metrics : ℕ) = submittedSum metrics % 2 ^ 64 := by
  induction metrics using List.reverseRecOn with
  | nil => rfl
  | append_singleton metrics m ih =>
    rw [submittedVolume, List.foldl_append, submittedSum, sum_concat]
    exact val_add_eq_mod ih

end Accumulators

/-! ## The report -/

section Report

variable {metrics : List OrderExecutionMetric} {r : MarketQualityReport} {totalBatches : U64}

/-- The report on given totals. -/
def reportOf (totalBatches : U64) (metrics : List OrderExecutionMetric) (t : Totals) (slippage : I64) :
    MarketQualityReport where
  totalBatches
  totalSubmittedOrders := toU64 metrics.length
  totalFills := t.fills
  totalSubmittedVolume := submittedVolume metrics
  totalClearedVolume := t.filledLots / 2
  fillRatePermille := fillRatePermille t.filledLots (submittedVolume metrics)
  meanTimeToFillNanos := meanTimeToFillNanos t
  maxTimeToFillNanos := t.maxDelay
  meanSlippageTicks := slippage
  totalImplementationShortfall := ⟨t.shortfallRaw⟩
  orderMetrics := metrics

theorem calculate_eq_some : calculate totalBatches metrics = some r ↔
    ∃ t, metrics.foldlM addMetric .zero = some t ∧
      ∃ slippage, meanSlippageTicks t = some slippage ∧ reportOf totalBatches metrics t slippage = r := by
  unfold calculate
  simp only [Option.bind_eq_bind, Option.bind_eq_some_iff, Option.pure_def, Option.some.injEq]
  rfl

theorem lotsSum_le (hfilled : ∀ m ∈ metrics, (m.filledQty.raw : ℕ) ≤ m.submittedQty.raw) :
    lotsSum (filled metrics) ≤ submittedSum metrics := by
  have hsub : lotsSum (filled metrics) ≤ lotsSum metrics :=
    (List.filter_sublist.map _).sum_le_sum fun _ _ => Nat.zero_le _
  exact hsub.trans (List.sum_le_sum hfilled)

theorem delay_le_greatest {fs : List OrderExecutionMetric} {m : OrderExecutionMetric} (hm : m ∈ fs) :
    (m.delayNanos : ℕ) ≤ greatestDelay fs := by
  unfold greatestDelay
  rw [List.foldl_eq_foldr]
  exact List.le_max_of_le' 0 (List.mem_map.mpr ⟨m, hm, rfl⟩) (le_refl _)

theorem delaySum_le (fs : List OrderExecutionMetric) : delaySum fs ≤ fs.length * greatestDelay fs := by
  have hle : ∀ n ∈ fs.map fun m => (m.delayNanos : ℕ), n ≤ greatestDelay fs := by
    intro n hn
    obtain ⟨m, hm, rfl⟩ := List.mem_map.mp hn
    exact delay_le_greatest hm
  have hsum := List.sum_le_card_nsmul _ _ hle
  rwa [List.length_map, smul_eq_mul] at hsum

/-- The mean of a sum that wrapped is too small. -/
theorem mod_div_eq_iff {w d n : ℕ} (hpos : 0 < n) (hn : n ≤ w) : d % w / n = d / n ↔ d < w := by
  constructor
  · intro h
    by_contra hge
    have hlost : d % w + n ≤ d := by
      have hdm := Nat.mod_add_div d w
      have hq : w ≤ w * (d / w) := Nat.le_mul_of_pos_right w (Nat.div_pos (not_lt.mp hge) (by omega))
      omega
    have hmean := Nat.div_le_div_right (c := n) hlost
    rw [Nat.add_div_right _ hpos] at hmean
    omega
  · intro h
    rw [Nat.mod_eq_of_lt h]

theorem fillRatePermille_val {filledLots volume : U64} (hle : filledLots ≤ volume) :
    (fillRatePermille filledLots volume : ℕ) = 1000 * filledLots / volume ∧
      1000 * (filledLots : ℕ) / volume ≤ 1000 := by
  have hle : (filledLots : ℕ) ≤ volume := hle
  have hrate : 1000 * (filledLots : ℕ) / volume ≤ 1000 := by
    rcases Nat.eq_zero_or_pos (volume : ℕ) with hzero | hpos
    · rw [hzero, Nat.div_zero]
      exact Nat.zero_le _
    · exact (Nat.div_le_iff_le_mul_add_pred hpos).mpr (by nlinarith)
  refine ⟨?_, hrate⟩
  unfold fillRatePermille
  by_cases hpos : volume > 0
  · rw [if_pos hpos, Nat.mul_comm]
    exact Nat.mod_eq_of_lt (by omega)
  · rw [if_neg hpos]
    have hzero : (volume : ℕ) = 0 := Nat.eq_zero_of_not_pos hpos
    rw [hzero, Nat.div_zero]
    rfl

theorem meanTimeToFillNanos_val (t : Totals) : (meanTimeToFillNanos t : ℕ) = t.delay / t.fills := by
  unfold meanTimeToFillNanos
  by_cases hpos : t.fills > 0
  · rw [if_pos hpos, Fin.div_val]
  · rw [if_neg hpos]
    have hzero : (t.fills : ℕ) = 0 := Nat.eq_zero_of_not_pos hpos
    rw [hzero, Nat.div_zero]
    rfl

theorem exists_meanSlippageTicks {t : Totals} (ht : Counted (filled metrics) t)
    (hlen : metrics.length < 2 ^ 63) : ∃ slippage, meanSlippageTicks t = some slippage := by
  unfold meanSlippageTicks
  by_cases hpos : t.slippageCount > 0
  · rw [if_pos hpos]
    have hcount : (slippages (filled metrics)).length ≤ metrics.length :=
      (List.length_filterMap_le _ _).trans (List.length_filter_le _ _)
    have hmod := Nat.mod_le (slippages (filled metrics)).length (2 ^ 64)
    exact t.slippage.exists_div_ofU64 hpos (by rw [ht.slippageCount]; omega)
  · exact ⟨_, if_neg hpos⟩

/-- The report is exact, exactly when no sum leaves the width of its accumulator. -/
theorem calculate_exact_iff (totalBatches : U64) (metrics : List OrderExecutionMetric)
    (hfilled : ∀ m ∈ metrics, (m.filledQty.raw : ℕ) ≤ m.submittedQty.raw) (hlen : metrics.length < 2 ^ 63) :
    (∃ r, calculate totalBatches metrics = some r ∧ Exact metrics r) ↔ Fits metrics := by
  have hfills : (filled metrics).length ≤ metrics.length := List.length_filter_le _ _
  constructor
  · rintro ⟨r, hr, hexact⟩
    obtain ⟨t, ht, slippage, -, rfl⟩ := calculate_eq_some.mp hr
    have hcounted := counted_of_foldlM ht
    have hfillsVal := hcounted.fills
    rw [Nat.mod_eq_of_lt (by omega)] at hfillsVal
    refine ⟨?_, ?_, ?_, exists_foldlM_iff.mp ⟨t, ht⟩⟩
    · rw [← hexact.volume]
      exact Fin.isLt _
    · rcases Nat.eq_zero_or_pos (filled metrics).length with hnone | hpos
      · rw [List.length_eq_zero_iff.mp hnone]
        exact Nat.two_pow_pos 64
      · have hmean := hexact.meanDelay
        have hval := meanTimeToFillNanos_val t
        rw [hcounted.delay, hfillsVal] at hval
        exact (mod_div_eq_iff hpos (by omega)).mp (hval.symm.trans hmean)
    · rw [← hexact.shortfall]
      exact Fin.isLt _
  · intro hfits
    obtain ⟨t, ht⟩ := exists_foldlM_iff.mpr hfits.slippage
    have hcounted := counted_of_foldlM ht
    obtain ⟨slippage, hslippage⟩ := exists_meanSlippageTicks hcounted hlen
    refine ⟨_, calculate_eq_some.mpr ⟨t, ht, slippage, hslippage, rfl⟩, ?_⟩
    have hvolume := submittedVolume_val metrics
    rw [Nat.mod_eq_of_lt hfits.submitted] at hvolume
    have hle := lotsSum_le hfilled
    have hlots := hcounted.filledLots
    rw [Nat.mod_eq_of_lt (lt_of_le_of_lt hle hfits.submitted)] at hlots
    obtain ⟨hrate, hrateLe⟩ := @fillRatePermille_val t.filledLots
      (submittedVolume metrics) (by rw [Fin.le_def, hlots, hvolume]; exact hle)
    rw [hlots, hvolume] at hrate hrateLe
    have hfillsVal := hcounted.fills
    rw [Nat.mod_eq_of_lt (by omega)] at hfillsVal
    have hmean := meanTimeToFillNanos_val t
    rw [hcounted.delay, Nat.mod_eq_of_lt hfits.delay, hfillsVal] at hmean
    have hshortfall := hcounted.shortfall
    rw [Nat.mod_eq_of_lt hfits.shortfall] at hshortfall
    refine ⟨hvolume, hrate, ?_, hmean, hcounted.maxDelay, ?_, hshortfall⟩
    · show (fillRatePermille t.filledLots (submittedVolume metrics) : ℕ) ≤ 1000
      rw [hrate]
      exact hrateLe
    · show (meanTimeToFillNanos t : ℕ) ≤ t.maxDelay
      rw [hmean, hcounted.maxDelay]
      exact Nat.div_le_of_le_mul (delaySum_le _)

end Report

/-! ## Examples -/

/-- An order of `submitted` lots with `lots` of them filled. -/
def exampleMetric (orderId submitted lots delayNanos : U64) (slippageTicks : Option I64)
    (shortfall : U128) : OrderExecutionMetric where
  orderId
  side := .buy
  submittedQty := ⟨submitted⟩
  filledQty := ⟨lots⟩
  arrivalNanos := 0
  batchCutoffNanos := delayNanos
  delayNanos
  arrivalReferencePrice := none
  clearingPrice := some ⟨100⟩
  slippageTicks
  implementationShortfall := ⟨shortfall⟩

/-- One order filled in full, one in part, one not at all. -/
def exampleMetrics : List OrderExecutionMetric :=
  [exampleMetric 1 10 10 50 (some ⟨3, by decide⟩) 30, exampleMetric 2 10 4 75 (some ⟨-1, by decide⟩) 4,
    exampleMetric 3 5 0 90 none 0]

theorem calculate_exact_example : ∃ r, calculate 2 exampleMetrics = some r ∧ Exact exampleMetrics r := by
  have hslippage : ∀ l ∈ (slippages (filled exampleMetrics)).inits, InI64 l.sum := by decide
  exact (calculate_exact_iff 2 exampleMetrics (by decide) (by decide)).mpr
    ⟨by decide, by decide, by decide, fun l hl => hslippage l ((List.mem_inits l _).mpr hl)⟩

/-- Two fills after `2 ^ 63` nanoseconds each. -/
def exampleDelays : List OrderExecutionMetric :=
  [exampleMetric 1 1 1 9223372036854775808 none 0, exampleMetric 2 1 1 9223372036854775808 none 0]

/-- The delays add up to `2 ^ 64`, and the reported mean is zero. -/
theorem calculate_wraps_delays :
    ¬ ∃ r, calculate 1 exampleDelays = some r ∧ Exact exampleDelays r := by
  rintro ⟨r, hr, hexact⟩
  have hzero : (calculate 1 exampleDelays).map (·.meanTimeToFillNanos) = some 0 := by decide
  rw [hr] at hzero
  have hmean := hexact.meanDelay
  have hzero : r.meanTimeToFillNanos = 0 := Option.some.inj hzero
  rw [hzero] at hmean
  exact absurd hmean (by decide)

end MarketQualityCalculator

end FairCross
