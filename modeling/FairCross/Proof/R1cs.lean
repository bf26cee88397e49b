import FairCross.Domain.Primitives

/-!
# The constraint system

`proof/r1cs.hpp`. Coefficients are `__int128` with wrapping arithmetic: a constraint is an equation
modulo 2^128. The subrelations emit constraints and witness scalars side by side; `Synth` is the
state they share.
-/

namespace FairCross

/-- `__int128`. -/
abbrev Scalar := BitVec 128

def wrappingAdd (a b : Scalar) : Scalar := a + b

def wrappingMul (a b : Scalar) : Scalar := a * b

/-- The decimal text of a scalar, read as a signed number. -/
def scalarToString (value : Scalar) : String := toString value.toInt

/-- The conversion of a witness or public entry. -/
def toScalar (value : U64) : Scalar := BitVec.ofNat 128 value

inductive Variable where
  | one
  | publicVar (index : ℕ)
  | witnessVar (index : ℕ)
deriving DecidableEq

/-- The value of a variable; an index past the end of its vector reads as zero. -/
def Variable.value (publicInputs witness : List U64) : Variable → Scalar
  | .one => 1
  | .publicVar index => ((publicInputs[index]?).map toScalar).getD 0
  | .witnessVar index => ((witness[index]?).map toScalar).getD 0

structure LinearCombination where
  terms : List (Variable × Scalar)

namespace LinearCombination

def zero : LinearCombination := ⟨[]⟩

def fromVar (v : Variable) : LinearCombination := ⟨[(v, 1)]⟩

def fromConstant (c : Scalar) : LinearCombination := ⟨[(.one, c)]⟩

/-- A term with coefficient zero is not stored. -/
def addTerm (lc : LinearCombination) (v : Variable) (coeff : Scalar) : LinearCombination :=
  if coeff ≠ 0 then ⟨lc.terms ++ [(v, coeff)]⟩ else lc

def evaluate (lc : LinearCombination) (publicInputs witness : List U64) : Scalar :=
  lc.terms.foldl (fun sum t =>
    wrappingAdd sum (wrappingMul t.2 (t.1.value publicInputs witness))) 0

end LinearCombination

/-- The constraint `a * b = c`. -/
structure R1CSConstraint where
  a : LinearCombination
  b : LinearCombination
  c : LinearCombination
  label : String

structure ConstraintSystem where
  numPublic : ℕ
  numWitness : ℕ
  constraints : List R1CSConstraint

namespace ConstraintSystem

def new : ConstraintSystem := ⟨0, 0, []⟩

def enforce (cs : ConstraintSystem) (a b c : LinearCombination) (label : String) :
    ConstraintSystem :=
  { cs with constraints := cs.constraints ++ [⟨a, b, c, label⟩] }

/-- `lc1 = lc2`, as `(lc1 - lc2) * 1 = 0`. -/
def enforceEqual (cs : ConstraintSystem) (lc1 lc2 : LinearCombination) (label : String) :
    ConstraintSystem :=
  cs.enforce (lc2.terms.foldl (fun lc t => lc.addTerm t.1 (-t.2)) lc1) (.fromVar .one) .zero label

/-- The check of one constraint. -/
def checkConstraint (publicInputs witness : List U64) (constraint : R1CSConstraint) : Result Unit :=
  let valA := constraint.a.evaluate publicInputs witness
  let valB := constraint.b.evaluate publicInputs witness
  let valC := constraint.c.evaluate publicInputs witness
  if wrappingMul valA valB ≠ valC then
    failure ("ConstraintNotSatisfied: " ++ constraint.label ++ " (expected " ++
      scalarToString valC ++ ", got " ++ scalarToString (wrappingMul valA valB) ++ ")")
  else pure ()

def isSatisfied (cs : ConstraintSystem) (publicInputs witness : List U64) : Result Unit :=
  cs.constraints.forM (checkConstraint publicInputs witness)

end ConstraintSystem

/-! ## Synthesis -/

/-- What a subrelation extends: the constraint system, and the scalars of its own variables. -/
structure Synthesis where
  cs : ConstraintSystem
  scalars : List U64

/-- A subrelation under synthesis. -/
abbrev Synth (α : Type) := StateT Synthesis Result α

namespace Synth

variable {α : Type}

def allocPublic : Synth Variable := fun s =>
  .ok (.publicVar s.cs.numPublic, { s with cs := { s.cs with numPublic := s.cs.numPublic + 1 } })

def allocWitness : Synth Variable := fun s =>
  .ok (.witnessVar s.cs.numWitness, { s with cs := { s.cs with numWitness := s.cs.numWitness + 1 } })

/-- `scalars.push_back`, for one scalar after another. -/
def push (values : List U64) : Synth Unit := fun s =>
  .ok ((), { s with scalars := s.scalars ++ values })

def enforce (a b c : LinearCombination) (label : String) : Synth Unit := fun s =>
  .ok ((), { s with cs := s.cs.enforce a b c label })

def enforceEqual (lc1 lc2 : LinearCombination) (label : String) : Synth Unit := fun s =>
  .ok ((), { s with cs := s.cs.enforceEqual lc1 lc2 label })

/-- The result of a computation outside the constraint system. -/
def lift (r : Result α) : Synth α := fun s =>
  match r with
  | .ok a => .ok (a, s)
  | .error e => .error e

def fail (message : String) : Synth α := lift (failure message)

/-- Synthesize a subrelation into `cs`, with scalars of its own. -/
def into (m : Synth α) (cs : ConstraintSystem) : Result Synthesis := do
  let r ← m ⟨cs, []⟩
  pure r.2

end Synth

end FairCross
