import Mathlib.Algebra.BigOperators.Group.List.Basic
import Mathlib.Algebra.Ring.Basic
import Mathlib.Tactic.Ring

/-!
# Linear forms

A linear form is a list of variables with coefficients in a commutative ring. Forms grow at the back,
and a term with coefficient zero may be left out.
-/

namespace FairCross

namespace LinearForm

variable {V R : Type} [CommRing R] (value : V → R)

/-- The value of a form, summed from the front. -/
def eval (terms : List (V × R)) : R := terms.foldl (fun sum t => sum + t.2 * value t.1) 0

theorem foldl_eq (terms : List (V × R)) (init : R) :
    terms.foldl (fun sum t => sum + t.2 * value t.1) init = init + eval value terms := by
  unfold eval
  induction terms generalizing init with
  | nil => simp
  | cons t terms ih =>
    rw [List.foldl_cons, List.foldl_cons, ih, ih (0 + _)]
    ring

@[simp] theorem eval_nil : eval value [] = 0 := rfl

theorem eval_append (terms terms' : List (V × R)) :
    eval value (terms ++ terms') = eval value terms + eval value terms' := by
  unfold eval
  rw [List.foldl_append, foldl_eq]
  rfl

@[simp] theorem eval_singleton (v : V) (c : R) : eval value [(v, c)] = c * value v := by
  simp [eval]

theorem eval_cons (v : V) (c : R) (terms : List (V × R)) :
    eval value ((v, c) :: terms) = c * value v + eval value terms := by
  rw [← List.singleton_append, eval_append, eval_singleton]

variable [DecidableEq R]

/-- Add a term, unless its coefficient is zero. -/
def addTerm (terms : List (V × R)) (v : V) (c : R) : List (V × R) :=
  if c ≠ 0 then terms ++ [(v, c)] else terms

/-- Leaving out a zero coefficient does not matter. -/
@[simp] theorem eval_addTerm (terms : List (V × R)) (v : V) (c : R) :
    eval value (addTerm terms v c) = eval value terms + c * value v := by
  unfold addTerm
  by_cases h : c = 0
  · simp [h]
  · rw [if_pos h, eval_append, eval_singleton]

/-- Adding the negated terms of a form subtracts it. -/
theorem eval_foldl_addTerm_neg (terms terms' : List (V × R)) :
    eval value (terms'.foldl (fun l t => addTerm l t.1 (-t.2)) terms) =
      eval value terms - eval value terms' := by
  induction terms' generalizing terms with
  | nil => simp
  | cons t terms' ih =>
    rw [List.foldl_cons, ih, eval_addTerm, eval_cons]
    ring

end LinearForm

end FairCross
