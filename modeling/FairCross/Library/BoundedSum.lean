import Mathlib

/-!
# Checked summation

A loop that adds a weight per element to an accumulator of bounded range, and fails when the sum
leaves the range. `val` reads the accumulator as an exact number (or as a family of numbers, for a
loop that keeps several sums at once). The loop succeeds exactly when the exact sum is the reading
of some accumulator, and then returns that one; where in the loop a failure occurs does not matter.
-/

namespace BoundedSum

variable {ε σ α M : Type} [AddCommMonoid M] [PartialOrder M] [CanonicallyOrderedAdd M]

/-- The accumulators of a checked summation: read by `val`, well formed when `ok`. -/
structure Reading (ok : σ → Prop) (val : σ → M) : Prop where
  inj : ∀ {s t}, ok s → ok t → val s = val t → s = t
  down : ∀ {s} {m : M}, ok s → m ≤ val s → ∃ t, ok t ∧ val t = m

/-- **Checked summation.** If each step adds the weight of its element, or fails when the sum has no
accumulator, then the loop returns the accumulator of the whole sum, or fails when it has none. -/
theorem foldlM_eq_ok {ok : σ → Prop} {val : σ → M} (hr : Reading ok val) {w : α → M}
    {step : σ → α → Except ε σ} {l : List α}
    (hstep : ∀ s x s', x ∈ l → ok s → (step s x = .ok s' ↔ ok s' ∧ val s' = val s + w x)) {s s' : σ}
    (hs : ok s) : l.foldlM step s = .ok s' ↔ ok s' ∧ val s' = val s + (l.map w).sum := by
  induction l generalizing s with
  | nil =>
    simp only [List.foldlM_nil, List.map_nil, List.sum_nil, add_zero]
    constructor
    · intro h
      obtain rfl : s = s' := by simpa [pure, Except.pure] using h
      exact ⟨hs, rfl⟩
    · rintro ⟨hs', h⟩
      rw [hr.inj hs' hs h]; rfl
  | cons x l ih =>
    have ih' := fun {t} (ht : ok t) => ih (fun s x s' hx => hstep s x s' (List.mem_cons_of_mem _ hx)) (s := t) ht
    have hhead := fun t => hstep s x t (List.mem_cons_self ..) hs
    rw [List.foldlM_cons, List.map_cons, List.sum_cons]
    constructor
    · intro h
      cases hx : step s x with
      | error e => rw [hx] at h; cases h
      | ok t =>
        obtain ⟨ht, hv⟩ := (hhead t).mp hx
        rw [hx] at h
        obtain ⟨hs', h'⟩ := (ih' ht).mp h
        exact ⟨hs', by rw [h', hv, add_assoc]⟩
    · rintro ⟨hs', h⟩
      obtain ⟨t, ht, hv⟩ := hr.down (m := val s + w x) hs' (by
        rw [h, ← add_assoc]; exact le_self_add)
      rw [(hhead t).mpr ⟨ht, hv⟩]
      exact (ih' ht).mpr ⟨hs', by rw [h, hv, add_assoc]⟩

end BoundedSum
