import Mathlib

/-!
# Records written by offset

A buffer of blanks is filled field by field, each field at its own offset. When the fields follow one
another without a gap, the buffer holds at the end what appending the fields gives.
-/

namespace RecordBuffer

variable {α : Type}

/-- `for (i = 0; i < n; ++i) buf[offset + i] = f(i)`. -/
def fillAt (buf : List α) (offset n : ℕ) (f : ℕ → α) : List α :=
  (List.range n).foldl (fun b i => b.set (offset + i) (f i)) buf

/-- A list is read position by position. -/
theorem map_range_getD (l : List α) (d : α) : (List.range l.length).map (l.getD · d) = l := by
  refine List.ext_getElem (by simp) fun i h h' => ?_
  rw [List.getElem_map, List.getElem_range, List.getD_eq_getElem]

/-- Filling starts where the part that is done ends. -/
theorem fillAt_frontier (done rest : List α) {n : ℕ} (hn : n ≤ rest.length) (f : ℕ → α) :
    fillAt (done ++ rest) done.length n f = done ++ (List.range n).map f ++ rest.drop n := by
  induction n with
  | zero => simp [fillAt]
  | succ n ih =>
    have hlt : n < rest.length := hn
    have hlen : done.length + n = (done ++ (List.range n).map f).length := by simp
    rw [fillAt, List.range_succ, List.foldl_append]
    show (fillAt (done ++ rest) done.length n f).set (done.length + n) (f n) = _
    rw [ih (Nat.le_of_lt hlt), hlen, List.set_append_right _ _ le_rfl, Nat.sub_self,
      List.drop_eq_getElem_cons hlt, List.set_cons_zero, List.map_append, List.map_singleton]
    simp only [List.append_assoc, List.singleton_append]

/-- The fields in `done` are written, and `m` blanks follow. -/
def Written (blank : α) (done : List α) (m : ℕ) (buf : List α) : Prop :=
  buf = done ++ List.replicate m blank

variable {blank : α} {done : List α} {m n offset : ℕ} {buf : List α}

theorem Written.start (blank : α) (n : ℕ) : Written blank [] n (List.replicate n blank) := rfl

/-- The next field is written at the offset where the fields before it end. -/
theorem Written.fill (h : Written blank done m buf) (f : ℕ → α) (ho : offset = done.length) (hn : n ≤ m) :
    Written blank (done ++ (List.range n).map f) (m - n) (fillAt buf offset n f) := by
  have hfill := fillAt_frontier done (List.replicate m blank) (n := n) (by simpa using hn) f
  rw [List.drop_replicate] at hfill
  rw [Written, h, ho, hfill]

/-- A field that is read from a list. -/
theorem Written.fillList (h : Written blank done m buf) (l : List α) (d : α) (ho : offset = done.length)
    (hn : l.length ≤ m) :
    Written blank (done ++ l) (m - l.length) (fillAt buf offset l.length (l.getD · d)) := by
  have := h.fill (l.getD · d) ho hn
  rwa [map_range_getD] at this

theorem Written.complete (h : Written blank done 0 buf) : buf = done := by
  rw [h, List.replicate_zero, List.append_nil]

end RecordBuffer
