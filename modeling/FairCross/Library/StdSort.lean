import Mathlib

/-!
# `std::sort`

`std::sort` promises a permutation of its input that is ordered by the comparator, and nothing about
the relative order of elements the comparator treats as equivalent. `StdSort` is any function that
keeps this promise; what is proved over an arbitrary `StdSort` holds for every outcome the standard
permits. `sort_eq` is the case without freedom: a comparator that separates the elements it meets.
-/

/-- An implementation of `std::sort`. The order is promised for strict weak orders only. -/
class StdSort where
  sort : {α : Type} → (α → α → Bool) → List α → List α
  sort_perm : ∀ {α : Type} (lt : α → α → Bool) (l : List α), (sort lt l).Perm l
  sort_sorted : ∀ {α : Type} (lt : α → α → Bool), IsStrictWeakOrder α (fun a b => lt a b = true) →
    ∀ l, (sort lt l).Pairwise fun a b => lt b a = false

namespace StdSort

/-- The order of a linearly ordered key is a strict weak order. -/
theorem strictWeakOrder_of_key {α κ : Type} [LinearOrder κ] (key : α → κ) {lt : α → α → Bool}
    (h : ∀ a b, lt a b = true ↔ key a < key b) : IsStrictWeakOrder α (fun a b => lt a b = true) where
  irrefl a := by rw [h]; exact lt_irrefl _
  trans a b c hab hbc := (h a c).mpr (lt_trans ((h a b).mp hab) ((h b c).mp hbc))
  incomp_trans a b c hab hbc := by
    simp only [h, not_lt] at *
    exact ⟨hbc.1.trans hab.1, hab.2.trans hbc.2⟩

theorem sort_sorted_of_key [StdSort] {α κ : Type} [LinearOrder κ] (key : α → κ) {lt : α → α → Bool}
    (h : ∀ a b, lt a b = true ↔ key a < key b) (l : List α) :
    (sort lt l).Pairwise fun a b => key a ≤ key b := by
  refine (sort_sorted lt (strictWeakOrder_of_key key h) l).imp fun {a b} hab => ?_
  have := (h b a).not.mp (by simp [hab])
  exact not_lt.mp this

@[simp] theorem mem_sort [StdSort] {α : Type} {lt : α → α → Bool} {l : List α} {a : α} :
    a ∈ sort lt l ↔ a ∈ l := (sort_perm lt l).mem_iff

/-- A comparator that separates the elements of `l` leaves `std::sort` no freedom: the result is the
one arrangement of `l` ordered by the key. -/
theorem sort_eq [StdSort] {α κ : Type} [LinearOrder κ] (key : α → κ) {lt : α → α → Bool}
    (h : ∀ a b, lt a b = true ↔ key a < key b) {l l' : List α}
    (hinj : ∀ a ∈ l, ∀ b ∈ l, key a = key b → a = b) (hp : l'.Perm l)
    (hs : l'.Pairwise fun a b => key a ≤ key b) : sort lt l = l' := by
  refine ((sort_perm lt l).trans hp.symm).eq_of_pairwise (fun a b ha hb hab hba => ?_)
    (sort_sorted_of_key key h l) hs
  exact hinj a (mem_sort.mp ha) b (hp.mem_iff.mp hb) (le_antisymm hab hba)

/-! ## Two implementations -/

section Instances

variable {α : Type} (lt : α → α → Bool)

theorem insertionSort_sorted (h : IsStrictWeakOrder α (fun a b => lt a b = true)) (l : List α) :
    (l.insertionSort fun a b => lt b a = false).Pairwise fun a b => lt b a = false := by
  have asymm : ∀ a b, lt a b = true → lt b a = true → False := fun a b hab hba =>
    h.irrefl a (h.trans a b a hab hba)
  have htot : Std.Total (fun a b => lt b a = false) := ⟨fun a b => by
    by_cases hab : lt a b = true
    · left
      rw [Bool.eq_false_iff]
      exact fun hba => asymm a b hab hba
    · exact Or.inr (by simpa using hab)⟩
  have htr : IsTrans α (fun a b => lt b a = false) := ⟨fun a b c hab hbc => by
    rw [Bool.eq_false_iff]
    intro hca
    by_cases hba : lt a b = true
    · have := h.trans c a b hca hba
      simp [hbc] at this
    by_cases hcb : lt b c = true
    · have := h.trans b c a hcb hca
      simp [hab] at this
    exact (h.incomp_trans a b c ⟨hba, by simp [hab]⟩ ⟨hcb, by simp [hbc]⟩).2 hca⟩
  exact List.pairwise_insertionSort _ l

/-- A stable `std::sort`: equivalent elements keep their order. -/
@[reducible] def stable : StdSort where
  sort lt l := l.insertionSort fun a b => lt b a = false
  sort_perm _ l := List.perm_insertionSort _ l
  sort_sorted lt h l := insertionSort_sorted lt h l

/-- A `std::sort` that reverses equivalent elements. -/
@[reducible] def reversing : StdSort where
  sort lt l := l.reverse.insertionSort fun a b => lt b a = false
  sort_perm _ l := (List.perm_insertionSort _ _).trans l.reverse_perm
  sort_sorted lt h l := insertionSort_sorted lt h l.reverse

/-- The elements of one key, in the order `stable` leaves them. -/
theorem filter_stable {κ : Type} [LinearOrder κ] {key : α → κ} {lt : α → α → Bool}
    (h : ∀ a b, lt a b = true ↔ key a < key b) (k : κ) (l : List α) :
    (stable.sort lt l).filter (fun a => key a = k) = l.filter fun a => key a = k := by
  have htied : ∀ a ∈ l.filter (fun a => key a = k), key a = k := fun a ha => by
    simpa using (List.mem_filter.mp ha).2
  have hsub : (l.filter fun a => key a = k).Sublist (stable.sort lt l) := by
    refine List.sublist_insertionSort ?_ List.filter_sublist
    refine List.pairwise_of_forall_mem_list fun a ha b hb => ?_
    rw [Bool.eq_false_iff, ne_eq, h, htied a ha, htied b hb]
    exact lt_irrefl k
  have hsub' := hsub.filter fun a => decide (key a = k)
  rw [List.filter_filter] at hsub'
  simp only [Bool.and_self] at hsub'
  exact (hsub'.eq_of_length ((stable.sort_perm lt l).filter _).length_eq.symm).symm

/-- The elements of one key, in the order `reversing` leaves them. -/
theorem filter_reversing {κ : Type} [LinearOrder κ] {key : α → κ} {lt : α → α → Bool}
    (h : ∀ a b, lt a b = true ↔ key a < key b) (k : κ) (l : List α) :
    (reversing.sort lt l).filter (fun a => key a = k) = (l.filter fun a => key a = k).reverse := by
  rw [← List.filter_reverse]
  exact filter_stable h k l.reverse

end Instances

end StdSort

/-! ## `std::unique` and `std::lower_bound` -/

namespace StdAlgorithm

/-- `std::unique`: of each run of equal neighbours one element stays. -/
def unique {α : Type} [DecidableEq α] : List α → List α
  | [] => []
  | [a] => [a]
  | a :: b :: l => if a = b then unique (b :: l) else a :: unique (b :: l)

/-- `std::lower_bound`: the position of the first element that is not below `x`. -/
def lowerBound {α : Type} [LT α] [DecidableLT α] (l : List α) (x : α) : ℕ :=
  l.findIdx fun a => ¬ a < x

theorem mem_unique {α : Type} [DecidableEq α] {l : List α} {a : α} : a ∈ unique l ↔ a ∈ l := by
  fun_induction unique l with
  | case1 => rfl
  | case2 b => rfl
  | case3 b l ih => rw [ih]; simp
  | case4 b c l h ih => rw [List.mem_cons, ih, List.mem_cons (b := b)]

theorem unique_sublist {α : Type} [DecidableEq α] (l : List α) : (unique l).Sublist l := by
  fun_induction unique l with
  | case1 => exact List.Sublist.refl _
  | case2 b => exact List.Sublist.refl _
  | case3 b l ih => exact ih.cons b
  | case4 b c l h ih => exact ih.cons_cons b

/-- `std::unique` on a sorted list leaves each element once. -/
theorem unique_sorted {α : Type} [DecidableEq α] [PartialOrder α] {l : List α} (h : l.Pairwise (· ≤ ·)) :
    (unique l).Pairwise (· < ·) := by
  fun_induction unique l with
  | case1 => exact List.Pairwise.nil
  | case2 a => exact List.pairwise_singleton _ _
  | case3 b l ih => exact ih (List.pairwise_cons.mp h).2
  | case4 a b l hab ih =>
    obtain ⟨h1, h2⟩ := List.pairwise_cons.mp h
    refine List.pairwise_cons.mpr ⟨fun c hc => ?_, ih h2⟩
    have hlt : a < b := lt_of_le_of_ne (h1 b (List.mem_cons_self ..)) hab
    rcases List.mem_cons.mp (mem_unique.mp hc) with rfl | hc
    · exact hlt
    · exact lt_of_lt_of_le hlt ((List.pairwise_cons.mp h2).1 c hc)

/-- `std::lower_bound` finds the position of an element of a strictly sorted list. -/
theorem lowerBound_getElem {α : Type} [LinearOrder α] {l : List α} (h : l.Pairwise (· < ·)) {k : ℕ}
    (hk : k < l.length) : lowerBound l l[k] = k := by
  unfold lowerBound
  rw [List.findIdx_eq hk]
  refine ⟨by simp, fun j hj => ?_⟩
  simpa using List.pairwise_iff_getElem.mp h j k (by omega) hk hj

end StdAlgorithm
