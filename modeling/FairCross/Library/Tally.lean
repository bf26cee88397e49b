import FairCross.Library.SortedMap

/-!
# Tallies

A tally is a map of counters that has an entry exactly where the count is not zero. It is determined
by what it counts (`Tallies.ext`), whatever order the entries were stored in.
-/

namespace SortedMap

variable {κ ν : Type} [LinearOrder κ] {val : ν → ℕ} {m m' : SortedMap κ ν} {f f' : κ → ℕ}

/-- `m` holds the nonzero values of `f`; `val` reads a stored counter. -/
def Tallies (val : ν → ℕ) (m : SortedMap κ ν) (f : κ → ℕ) : Prop :=
  ∀ k, (m.find k).map val = if f k = 0 then none else some (f k)

theorem Tallies.empty : Tallies val (SortedMap.empty : SortedMap κ ν) fun _ => 0 := by
  intro k
  rw [if_pos rfl]
  rfl

theorem Tallies.isSome_iff (h : Tallies val m f) {k : κ} : (m.find k).isSome ↔ f k ≠ 0 := by
  have hk := h k
  by_cases h0 : f k = 0
  · rw [if_pos h0, Option.map_eq_none_iff] at hk
    simp [hk, h0]
  · rw [if_neg h0] at hk
    obtain ⟨v, hv, -⟩ := Option.map_eq_some_iff.mp hk
    simp [hv, h0]

theorem Tallies.val_eq (h : Tallies val m f) {k : κ} {v : ν} (hv : m.find k = some v) :
    val v = f k ∧ f k ≠ 0 := by
  have h0 : f k ≠ 0 := h.isSome_iff.mp (by rw [hv]; rfl)
  have hk := h k
  rw [hv, if_neg h0] at hk
  exact ⟨Option.some.inj hk, h0⟩

theorem Tallies.exists_find (h : Tallies val m f) {k : κ} (h0 : f k ≠ 0) :
    ∃ v, m.find k = some v ∧ val v = f k := by
  obtain ⟨v, hv⟩ := Option.isSome_iff_exists.mp (h.isSome_iff.mpr h0)
  exact ⟨v, hv, (h.val_eq hv).1⟩

/-- The counter that is read, zero where there is no entry. -/
theorem Tallies.getD_eq (h : Tallies val m f) {zero : ν} (hz : val zero = 0) (k : κ) :
    val ((m.find k).getD zero) = f k := by
  cases hk : m.find k with
  | none =>
    have h0 : f k = 0 := by
      by_contra h0
      have := h.isSome_iff.mpr h0
      rw [hk] at this
      cases this
    rw [Option.getD_none, hz, h0]
  | some v => exact (h.val_eq hk).1

theorem Tallies.insert (h : Tallies val m f) {k : κ} {v : ν} (hv : val v ≠ 0)
    (hf : ∀ k', f' k' = if k = k' then val v else f k') : Tallies val (m.insert k v) f' := by
  intro k'
  rw [find_insert, hf]
  by_cases hk : k = k'
  · rw [if_pos hk, if_pos hk, if_neg hv]
    rfl
  · rw [if_neg hk, if_neg hk]
    exact h k'

theorem Tallies.erase (h : Tallies val m f) {k : κ}
    (hf : ∀ k', f' k' = if k = k' then 0 else f k') : Tallies val (m.erase k) f' := by
  intro k'
  rw [find_erase, hf]
  by_cases hk : k = k'
  · rw [if_pos hk, if_pos hk, if_pos rfl]
    rfl
  · rw [if_neg hk, if_neg hk]
    exact h k'

/-- Writing a counter, where a zero erases the entry. -/
theorem Tallies.write (h : Tallies val m f) {k : κ} {v : ν}
    (hf : ∀ k', f' k' = if k = k' then val v else f k') :
    Tallies val (if val v = 0 then m.erase k else m.insert k v) f' := by
  split_ifs with h0
  · rw [h0] at hf
    exact h.erase hf
  · exact h.insert h0 hf

/-- Two tallies of the same counts are equal. -/
theorem Tallies.ext (hval : Function.Injective val) (h : Tallies val m f) (h' : Tallies val m' f) :
    m = m' :=
  ext_find fun k => Option.map_injective hval ((h k).trans (h' k).symm)

end SortedMap
