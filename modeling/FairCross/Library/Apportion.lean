import Mathlib

/-!
# Dividing a quantity among claimants

Two rules for handing out a quantity to a list of claimants:

* `greedyFill`: in list order, each claimant takes its claim or what is left;
* largest remainders: each takes the floor of its proportional share, and the lots the floors leave
  over go one each to the head of a list ordered by remainder, which is `greedyFill` again, with
  claims of one lot (`extraLot`).

Both hand out the whole quantity: `sum_greedyFill` and `sum_largestRemainder`.
-/

namespace Apportion

variable {ι : Type}

/-! ## Greedy filling -/

section Greedy

variable [DecidableEq ι]

/-- The claims listed before `i`. -/
def ahead (claim : ι → ℕ) (l : List ι) (i : ι) : ℕ := ((l.takeWhile (· ≠ i)).map claim).sum

/-- What `i` takes when the claimants of `l` are served in order from the quantity `r`. -/
def greedyFill (claim : ι → ℕ) (l : List ι) (r : ℕ) (i : ι) : ℕ :=
  min (claim i) (r - ahead claim l i)

theorem greedyFill_le (claim : ι → ℕ) (l : List ι) (r : ℕ) (i : ι) :
    greedyFill claim l r i ≤ claim i := min_le_left _ _

theorem ahead_cons_self (claim : ι → ℕ) (a : ι) (l : List ι) : ahead claim (a :: l) a = 0 := by
  simp [ahead]

theorem ahead_cons_ne (claim : ι → ℕ) {a i : ι} (l : List ι) (h : a ≠ i) :
    ahead claim (a :: l) i = claim a + ahead claim l i := by
  simp [ahead, h]

/-- Serving a list hands out the whole quantity, as far as there are claims. -/
theorem sum_greedyFill (claim : ι → ℕ) {l : List ι} (hnd : l.Nodup) (r : ℕ) :
    (l.map (greedyFill claim l r)).sum = min r (l.map claim).sum := by
  induction l generalizing r with
  | nil => simp
  | cons a l ih =>
    obtain ⟨ha, hnd'⟩ := List.nodup_cons.mp hnd
    have htail : l.map (greedyFill claim (a :: l) r) = l.map (greedyFill claim l (r - claim a)) := by
      apply List.map_congr_left
      intro i hi
      have hai : a ≠ i := fun e => ha (e ▸ hi)
      rw [greedyFill, greedyFill, ahead_cons_ne claim l hai, Nat.sub_sub]
    rw [List.map_cons, List.sum_cons, htail, ih hnd', List.map_cons, List.sum_cons, greedyFill,
      ahead_cons_self]
    omega

/-- Of two claimants, one has the other's claim ahead of it. -/
theorem ahead_total (claim : ι → ℕ) {l : List ι} {i j : ι} (hi : i ∈ l) (hj : j ∈ l) (hne : i ≠ j) :
    ahead claim l i + claim i ≤ ahead claim l j ∨ ahead claim l j + claim j ≤ ahead claim l i := by
  induction l with
  | nil => cases hi
  | cons a l ih =>
    by_cases hai : a = i
    · subst hai
      left
      rw [ahead_cons_self, ahead_cons_ne claim l hne]
      omega
    by_cases haj : a = j
    · subst haj
      right
      rw [ahead_cons_self, ahead_cons_ne claim l hai]
      omega
    have := ih ((List.mem_cons.mp hi).resolve_left (Ne.symm hai))
      ((List.mem_cons.mp hj).resolve_left (Ne.symm haj))
    rw [ahead_cons_ne claim l hai, ahead_cons_ne claim l haj]
    omega

/-- Two equal claims are filled more than one lot apart exactly when the quantity ends at least two
lots after the start of the first one and at least two lots before the end of the second one. -/
theorem greedyFill_apart_iff (claim : ι → ℕ) {l : List ι} {r : ℕ} {i j : ι} (hi : i ∈ l) (hj : j ∈ l)
    (hne : i ≠ j) (heq : claim i = claim j) :
    greedyFill claim l r j + 1 < greedyFill claim l r i ↔
      2 ≤ claim i ∧ ahead claim l i + 2 ≤ r ∧ r + 2 ≤ ahead claim l j + claim j := by
  unfold greedyFill
  rcases ahead_total claim hi hj hne with h | h <;> omega

/-! ### Greedy filling in the order of a key -/

section Sorted

variable {κ : Type} [LinearOrder κ] (key : ι → κ)

/-- In a list sorted by a key, the claims ahead of `i` are those with a lower key and those of its own
key that come first. -/
theorem ahead_sorted (claim : ι → ℕ) {l : List ι} (hs : l.Pairwise fun a b => key a ≤ key b) {i : ι}
    (hi : i ∈ l) : ahead claim l i = ((l.filter fun a => key a < key i).map claim).sum +
      ahead claim (l.filter fun a => key a = key i) i := by
  induction l with
  | nil => cases hi
  | cons a l ih =>
    obtain ⟨ha, hs'⟩ := List.pairwise_cons.mp hs
    by_cases hai : a = i
    · subst hai
      have hnone : (a :: l).filter (fun b => key b < key a) = [] := by
        rw [List.filter_eq_nil_iff]
        intro b hb
        rcases List.mem_cons.mp hb with rfl | hb
        · simp
        · simpa using ha b hb
      rw [hnone, ahead_cons_self, List.filter_cons_of_pos (by simp), ahead_cons_self]
      rfl
    · have hi' : i ∈ l := (List.mem_cons.mp hi).resolve_left (Ne.symm hai)
      rw [ahead_cons_ne claim l hai, ih hs' hi']
      rcases lt_or_eq_of_le (ha i hi') with hlt | heq
      · rw [List.filter_cons_of_pos (by simpa using hlt),
          List.filter_cons_of_neg (by simpa using hlt.ne)]
        simp only [List.map_cons, List.sum_cons]
        omega
      · rw [List.filter_cons_of_neg (by simp [heq]), List.filter_cons_of_pos (by simpa using heq),
          ahead_cons_ne claim _ hai]
        omega

theorem ahead_add_claim_le (claim : ι → ℕ) {l : List ι} {i : ι} (hi : i ∈ l) :
    ahead claim l i + claim i ≤ (l.map claim).sum := by
  induction l with
  | nil => cases hi
  | cons a l ih =>
    by_cases hai : a = i
    · subst hai
      rw [ahead_cons_self, List.map_cons, List.sum_cons]
      omega
    · have := ih ((List.mem_cons.mp hi).resolve_left (Ne.symm hai))
      rw [ahead_cons_ne claim l hai, List.map_cons, List.sum_cons]
      omega

/-- In a sorted list, a claimant with a higher key has the claim of the lower one ahead of it. -/
theorem ahead_add_claim_le_ahead (claim : ι → ℕ) {l : List ι}
    (hs : l.Pairwise fun a b => key a ≤ key b) {i j : ι} (hi : i ∈ l) (hj : j ∈ l)
    (hlt : key i < key j) : ahead claim l i + claim i ≤ ahead claim l j := by
  induction l with
  | nil => cases hi
  | cons a l ih =>
    obtain ⟨ha, hs'⟩ := List.pairwise_cons.mp hs
    have hij : i ≠ j := fun h => lt_irrefl _ (h ▸ hlt)
    by_cases hai : a = i
    · subst hai
      rw [ahead_cons_self, ahead_cons_ne claim l hij]
      omega
    · have hi' : i ∈ l := (List.mem_cons.mp hi).resolve_left (Ne.symm hai)
      have haj : a ≠ j := by
        rintro rfl
        exact absurd (ha i hi') (not_le.mpr hlt)
      have := ih hs' hi' ((List.mem_cons.mp hj).resolve_left (Ne.symm haj))
      rw [ahead_cons_ne claim l hai, ahead_cons_ne claim l haj]
      omega

/-- A claimant that is alone with its key has none of its own key ahead. -/
theorem ahead_alone (claim : ι → ℕ) {l : List ι} (hnd : l.Nodup) {i : ι} (hi : i ∈ l)
    (halone : ∀ a ∈ l, key a = key i → a = i) :
    ahead claim (l.filter fun a => key a = key i) i = 0 := by
  have hfil : l.filter (fun a => key a = key i) = [i] := by
    refine List.perm_singleton.mp
      ((List.perm_ext_iff_of_nodup (hnd.filter _) (by simp)).mpr fun a => ?_)
    rw [List.mem_filter, List.mem_singleton]
    constructor
    · rintro ⟨ha, hk⟩
      exact halone a ha (by simpa using hk)
    · rintro rfl
      exact ⟨hi, by simp⟩
  rw [hfil, ahead_cons_self]

/-- Claimants of one key are filled alike in every order when the quantity ends outside their claims,
or when there is only one of them. -/
theorem greedyFill_sorted_eq (claim : ι → ℕ) {l l' : List ι} (hp : l'.Perm l) (hnd : l.Nodup)
    (hs : l.Pairwise fun a b => key a ≤ key b) (hs' : l'.Pairwise fun a b => key a ≤ key b) {r : ℕ}
    {i : ι} (hi : i ∈ l)
    (hr : r ≤ ((l.filter fun a => key a < key i).map claim).sum ∨
      ((l.filter fun a => key a < key i).map claim).sum +
        ((l.filter fun a => key a = key i).map claim).sum ≤ r ∨
      ∀ a ∈ l, key a = key i → a = i) :
    greedyFill claim l' r i = greedyFill claim l r i := by
  have hi' : i ∈ l' := hp.mem_iff.mpr hi
  have htied : ∀ {m : List ι}, i ∈ m → i ∈ m.filter fun a => key a = key i := fun hm =>
    List.mem_filter.mpr ⟨hm, by simp⟩
  have hle := ahead_add_claim_le claim (htied hi)
  have hle' := ahead_add_claim_le claim (htied hi')
  have hbelow := ((hp.filter fun a => decide (key a < key i)).map claim).sum_eq
  have hown := ((hp.filter fun a => decide (key a = key i)).map claim).sum_eq
  rw [greedyFill, greedyFill, ahead_sorted key claim hs hi, ahead_sorted key claim hs' hi', hbelow]
  rcases hr with hr | hr | hr
  · omega
  · omega
  · rw [ahead_alone key claim (hp.nodup_iff.mpr hnd) hi' fun a ha => hr a (hp.mem_iff.mp ha),
      ahead_alone key claim hnd hi hr]

end Sorted

end Greedy

/-- What is left of `r` after the claimants of `l` have been served. -/
theorem foldl_serve (claim : ι → ℕ) (l : List ι) (r : ℕ) :
    l.foldl (fun r i => r - min (claim i) r) r = r - (l.map claim).sum := by
  induction l generalizing r with
  | nil => simp
  | cons a l ih => rw [List.foldl_cons, ih, List.map_cons, List.sum_cons]; omega

/-! ## Largest remainders -/

section LargestRemainder

variable (claim : ι → ℕ) (v q : ℕ)

/-- The floor of the share of `i` in `v` out of `q`. -/
def baseShare (i : ι) : ℕ := claim i * v / q

/-- The remainder of the share of `i`. -/
def shareRemainder (i : ι) : ℕ := claim i * v % q

theorem sum_base_add_sum_remainder (l : List ι) :
    q * (l.map (baseShare claim v q)).sum + (l.map (shareRemainder claim v q)).sum =
      (l.map claim).sum * v := by
  induction l with
  | nil => simp
  | cons a l ih =>
    have := Nat.div_add_mod (claim a * v) q
    simp only [List.map_cons, List.sum_cons, baseShare, shareRemainder, Nat.mul_add, Nat.add_mul] at *
    omega

variable {claim v q}

variable (claim) in
theorem sum_base_le {l : List ι} (hq : (l.map claim).sum = q) (hpos : 0 < q) :
    (l.map (baseShare claim v q)).sum ≤ v := by
  have h := sum_base_add_sum_remainder claim v q l
  rw [hq] at h
  exact Nat.le_of_mul_le_mul_left (by omega) hpos

/-- The remainders add up to `q` times the lots the floors leave over. -/
theorem sum_remainder_eq {l : List ι} (hq : (l.map claim).sum = q) (hpos : 0 < q) :
    (l.map (shareRemainder claim v q)).sum = q * (v - (l.map (baseShare claim v q)).sum) := by
  have h := sum_base_add_sum_remainder claim v q l
  have hle := sum_base_le claim (v := v) hq hpos
  rw [hq] at h
  rw [Nat.mul_sub]
  omega

/-- The floors leave over fewer lots than there are claimants. -/
theorem surplus_lt_length {l : List ι} (hq : (l.map claim).sum = q) (hpos : 0 < q) :
    v - (l.map (baseShare claim v q)).sum < l.length := by
  have hne : l ≠ [] := by rintro rfl; simp at hq; omega
  have hlt : (l.map (shareRemainder claim v q)).sum < (l.map fun _ => q).sum := by
    refine List.sum_lt_sum_of_ne_nil hne _ _ fun i _ => ?_
    exact Nat.mod_lt _ hpos
  rw [sum_remainder_eq hq hpos] at hlt
  simp only [List.map_const', List.sum_replicate, smul_eq_mul] at hlt
  rw [Nat.mul_comm] at hlt
  exact Nat.lt_of_mul_lt_mul_right hlt

/-- The floors leave over no more lots than there are claimants with a remainder. -/
theorem surplus_le_length_filter {l : List ι} (hq : (l.map claim).sum = q) (hpos : 0 < q) :
    v - (l.map (baseShare claim v q)).sum ≤
      (l.filter fun i => 0 < shareRemainder claim v q i).length := by
  have hle : ∀ l : List ι, (l.map (shareRemainder claim v q)).sum ≤
      q * (l.filter fun i => 0 < shareRemainder claim v q i).length := by
    intro l
    induction l with
    | nil => simp
    | cons a l ih =>
      have hlt : shareRemainder claim v q a < q := Nat.mod_lt _ hpos
      rw [List.map_cons, List.sum_cons]
      by_cases ha : 0 < shareRemainder claim v q a
      · rw [List.filter_cons_of_pos (by simpa using ha), List.length_cons, Nat.mul_add]
        omega
      · rw [List.filter_cons_of_neg (by simpa using ha)]
        omega
  have h := hle l
  rw [sum_remainder_eq hq hpos] at h
  exact Nat.le_of_mul_le_mul_left h hpos

variable (claim) in
theorem baseShare_le {i : ι} (hv : v ≤ q) : baseShare claim v q i ≤ claim i := by
  rcases Nat.eq_zero_or_pos q with rfl | hpos
  · simp [baseShare]
  · exact Nat.div_le_of_le_mul (by rw [Nat.mul_comm q]; exact Nat.mul_le_mul_left _ hv)

variable (claim) in
/-- A claimant's floor is below its claim when less than the whole claim is handed out. -/
theorem baseShare_lt {i : ι} (hv : v < q) (hi : 0 < claim i) : baseShare claim v q i < claim i := by
  unfold baseShare
  rw [Nat.div_lt_iff_lt_mul (by omega)]
  exact (Nat.mul_lt_mul_left hi).mpr hv

variable [DecidableEq ι]

/-- The surplus lot of `i`, when `n` of them go to the head of `l`. -/
def extraLot (l : List ι) (n : ℕ) (i : ι) : ℕ := greedyFill (fun _ => 1) l n i

theorem extraLot_le_one (l : List ι) (n : ℕ) (i : ι) : extraLot l n i ≤ 1 := greedyFill_le _ _ _ _

/-- In a list sorted by a key that separates its elements, the surplus goes to those with fewer than
`n` lower keys. -/
theorem extraLot_sorted {κ : Type} [LinearOrder κ] (key : ι → κ) {l : List ι} (hnd : l.Nodup)
    (hs : l.Pairwise fun a b => key a ≤ key b) {i : ι} (hi : i ∈ l)
    (halone : ∀ a ∈ l, key a = key i → a = i) (n : ℕ) :
    extraLot l n i = if (l.filter fun a => key a < key i).length < n then 1 else 0 := by
  have hahead : ahead (fun _ => 1) l i = (l.filter fun a => key a < key i).length := by
    rw [ahead_sorted key _ hs hi, ahead_alone key _ hnd hi halone]
    simp
  rw [extraLot, greedyFill, hahead]
  split_ifs <;> omega

variable (claim) in
/-- Floors and surplus lots together hand out exactly `v`; `l'` is the order the surplus goes in. -/
theorem sum_largestRemainder {l l' : List ι} (hp : l'.Perm l) (hnd : l.Nodup)
    (hq : (l.map claim).sum = q) (hpos : 0 < q) :
    (l.map fun i => baseShare claim v q i +
      extraLot l' (v - (l.map (baseShare claim v q)).sum) i).sum = v := by
  have hle := sum_base_le claim (v := v) hq hpos
  have hlt := surplus_lt_length (v := v) hq hpos
  set n := v - (l.map (baseShare claim v q)).sum with hn
  have hextra : (l.map (extraLot l' n)).sum = n := by
    rw [(hp.symm.map _).sum_eq]
    unfold extraLot
    rw [sum_greedyFill _ (hp.nodup_iff.mpr hnd)]
    simp only [List.map_const', List.sum_replicate, smul_eq_mul, mul_one, hp.length_eq]
    omega
  rw [List.sum_map_add, hextra]
  omega

end LargestRemainder

end Apportion
