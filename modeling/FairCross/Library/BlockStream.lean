import Mathlib

/-!
# Buffered blocks

A function that folds a string block by block is computed on a stream by a buffer: the elements are
taken in one by one, and a full buffer is folded and emptied.
-/

namespace BlockStream

variable {α σ : Type} (n : ℕ)

/-- The full blocks of `n` elements, from the front. -/
def blocks (l : List α) : List (List α) :=
  (List.range (l.length / n)).map fun i => (l.drop (n * i)).take n

/-- Take in one element. -/
def absorb (f : σ → List α → σ) (p : σ × List α) (x : α) : σ × List α :=
  if (p.2 ++ [x]).length = n then (f p.1 (p.2 ++ [x]), []) else (p.1, p.2 ++ [x])

variable {n}

theorem blocks_of_lt {l : List α} (h : l.length < n) : blocks n l = [] := by
  rw [blocks, Nat.div_eq_of_lt h]
  rfl

theorem blocks_of_length {l : List α} (hn : 0 < n) (h : l.length = n) : blocks n l = [l] := by
  rw [blocks, h, Nat.div_self hn]
  simp [← h]

theorem length_of_mem_blocks {l b : List α} (h : b ∈ blocks n l) : b.length = n := by
  obtain ⟨i, hi, rfl⟩ := List.mem_map.mp h
  rw [List.mem_range] at hi
  have hle : n * i + n ≤ l.length :=
    calc n * i + n = n * (i + 1) := (Nat.mul_succ n i).symm
      _ ≤ n * (l.length / n) := Nat.mul_le_mul_left n hi
      _ ≤ l.length := Nat.mul_div_le l.length n
  rw [List.length_take, List.length_drop]
  omega

theorem length_blocks (l : List α) : (blocks n l).length = l.length / n := by
  rw [blocks, List.length_map, List.length_range]

/-- Whole blocks come first. -/
theorem blocks_append (hn : 0 < n) {l l' : List α} (h : n ∣ l.length) :
    blocks n (l ++ l') = blocks n l ++ blocks n l' := by
  obtain ⟨k, hk⟩ := h
  have hdiv : l.length / n = k := by rw [hk, Nat.mul_div_cancel_left k hn]
  have hlen : (l ++ l').length / n = k + l'.length / n := by
    rw [List.length_append, hk, Nat.mul_add_div hn]
  rw [blocks, blocks, blocks, hlen, hdiv, List.range_add, List.map_append, List.map_map]
  congr 1
  · refine List.map_congr_left fun i hi => ?_
    have hle : n * i + n ≤ l.length := by
      rw [hk, ← Nat.mul_succ]
      exact Nat.mul_le_mul_left n (List.mem_range.mp hi)
    rw [List.drop_append_of_le_length (by omega),
      List.take_append_of_le_length (by rw [List.length_drop]; omega)]
  · refine List.map_congr_left fun i _ => ?_
    rw [Function.comp_apply, Nat.mul_add, ← hk, ← List.drop_drop, List.drop_left]

/-- **Buffering.** What has been taken in is a sequence of whole blocks, which are folded, and the
buffer. -/
theorem foldl_absorb (hn : 0 < n) (f : σ → List α → σ) (s : σ) (l : List α) :
    ∃ full, l = full ++ (l.foldl (absorb n f) (s, [])).2 ∧ n ∣ full.length ∧
      (l.foldl (absorb n f) (s, [])).2.length < n ∧
      (l.foldl (absorb n f) (s, [])).1 = (blocks n full).foldl f s := by
  induction l using List.reverseRecOn with
  | nil => exact ⟨[], rfl, Nat.dvd_zero n, hn, by rw [blocks_of_lt hn]; rfl⟩
  | append_singleton l x ih =>
    obtain ⟨full, hl, hfull, hlt, hstate⟩ := ih
    rw [List.foldl_append, List.foldl_cons, List.foldl_nil]
    generalize l.foldl (absorb n f) (s, []) = p at hl hlt hstate
    unfold absorb
    by_cases hlen : (p.2 ++ [x]).length = n
    · rw [if_pos hlen]
      refine ⟨full ++ (p.2 ++ [x]), ?_, ?_, hn, ?_⟩
      · rw [List.append_nil, ← List.append_assoc, ← hl]
      · rw [List.length_append, hlen]
        exact hfull.add (Nat.dvd_refl n)
      · rw [blocks_append hn hfull, blocks_of_length hn hlen, List.foldl_append, ← hstate]
        rfl
    · rw [if_neg hlen]
      refine ⟨full, ?_, hfull, ?_, hstate⟩
      · rw [← List.append_assoc, ← hl]
      · show (p.2 ++ [x]).length < n
        rw [List.length_append, List.length_singleton] at hlen ⊢
        omega

end BlockStream
