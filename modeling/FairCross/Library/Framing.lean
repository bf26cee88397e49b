import Mathlib

/-!
# Length-prefixed frames

A frame is the length of its payload in a code of fixed width, followed by the payload. A stream of
frames can be cut up in one way only (`stream_inj`).
-/

/-- A code of fixed width for the lengths below `bound`. -/
structure LengthCode (α : Type) where
  bound : ℕ
  width : ℕ
  encode : ℕ → List α
  width_pos : 0 < width
  length_encode : ∀ n, (encode n).length = width
  encode_inj : ∀ {n m}, n < bound → m < bound → encode n = encode m → n = m

namespace LengthCode

variable {α : Type} (c : LengthCode α)

/-- The frame of a payload. -/
def frame (payload : List α) : List α := c.encode payload.length ++ payload

/-- The frames of the payloads, one after another. -/
def stream (payloads : List (List α)) : List α := (payloads.map c.frame).flatten

@[simp] theorem stream_nil : c.stream [] = [] := rfl

@[simp] theorem stream_cons (p : List α) (ps : List (List α)) :
    c.stream (p :: ps) = c.frame p ++ c.stream ps := rfl

theorem length_frame (p : List α) : (c.frame p).length = c.width + p.length := by
  rw [frame, List.length_append, c.length_encode]

theorem frame_append_ne_nil (p s : List α) : c.frame p ++ s ≠ [] := by
  intro h
  have := congrArg List.length h
  rw [List.length_append, length_frame, List.length_nil] at this
  have := c.width_pos
  omega

variable {c}

/-- The first frame of a string is determined by the string. -/
theorem frame_append_inj {p q s t : List α} (hp : p.length < c.bound) (hq : q.length < c.bound)
    (h : c.frame p ++ s = c.frame q ++ t) : p = q ∧ s = t := by
  unfold frame at h
  rw [List.append_assoc, List.append_assoc] at h
  obtain ⟨hlen, hrest⟩ := List.append_inj h (by rw [c.length_encode, c.length_encode])
  exact List.append_inj hrest (c.encode_inj hp hq hlen)

/-- A stream is cut up into frames in one way only. -/
theorem stream_inj {ps qs : List (List α)} (hp : ∀ p ∈ ps, p.length < c.bound)
    (hq : ∀ q ∈ qs, q.length < c.bound) (h : c.stream ps = c.stream qs) : ps = qs := by
  induction ps generalizing qs with
  | nil =>
    cases qs with
    | nil => rfl
    | cons q qs => exact absurd h.symm (c.frame_append_ne_nil q _)
  | cons p ps ih =>
    cases qs with
    | nil => exact absurd h (c.frame_append_ne_nil p _)
    | cons q qs =>
      obtain ⟨rfl, hrest⟩ :=
        frame_append_inj (hp p (List.mem_cons_self ..)) (hq q (List.mem_cons_self ..)) h
      rw [ih (fun p h => hp p (List.mem_cons_of_mem _ h))
        (fun q h => hq q (List.mem_cons_of_mem _ h)) hrest]

end LengthCode
