import Mathlib

/-!
# Errors and results

`domain/error.hpp`. A `Result<T>` holds a value, a `PrimitiveError` or a `DomainError`. Handing an
error on as a `Result` of another type keeps its text only (`Result.convert`).
-/

namespace FairCross

inductive PrimitiveErrorKind where
  | zeroValue
  | arithmeticOverflow
  | insufficientBalance
  | invalidSide
deriving DecidableEq, Repr

inductive DomainErrorKind where
  | orderValidationFailed
  | duplicateAccount
  | accountNotFound
  | instrumentMismatch
  | duplicateOrderId
deriving DecidableEq, Repr

/-- The two error alternatives of a `Result`. -/
inductive Error where
  | primitive (kind : PrimitiveErrorKind) (context : String)
  | domain (kind : DomainErrorKind) (message : String)
deriving DecidableEq, Repr

/-- `PrimitiveError::to_string` and `DomainError::to_string`. -/
def Error.message : Error → String
  | .primitive .zeroValue context => "ZeroValue: " ++ context ++ " must be strictly positive"
  | .primitive .arithmeticOverflow context => "ArithmeticOverflow in " ++ context
  | .primitive .insufficientBalance context => "InsufficientBalance for " ++ context
  | .primitive .invalidSide context => "InvalidSide: " ++ context
  | .domain _ message => message

abbrev Result (α : Type) := Except Error α

/-- An `OrderValidationFailed` error, the kind nearly every check reports. -/
def failure {α : Type} (message : String) : Result α := .error (.domain .orderValidationFailed message)

namespace Result

variable {α : Type}

/-- The converting constructor `Result(const Result<U>&)`: the error keeps its text and loses its
kind. -/
def convert (r : Result α) : Result α :=
  match r with
  | .ok a => .ok a
  | .error e => failure e.message

/-- An error of a callee reported under a text of the caller's. -/
def orFail (r : Result α) (message : Error → String) : Result α :=
  match r with
  | .ok a => .ok a
  | .error e => failure (message e)

def isOk (r : Result α) : Bool := Except.isOk r

@[simp] theorem convert_eq_ok {r : Result α} {a : α} : r.convert = .ok a ↔ r = .ok a := by
  cases r <;> simp [convert, failure]

@[simp] theorem orFail_eq_ok {r : Result α} {message : Error → String} {a : α} :
    r.orFail message = .ok a ↔ r = .ok a := by
  cases r <;> simp [orFail, failure]

/-- A `>>=` that succeeds has a first part that succeeds. -/
@[simp] theorem bind_eq_ok {β : Type} {r : Result α} {f : α → Result β} {b : β} :
    (r >>= f) = .ok b ↔ ∃ a, r = .ok a ∧ f a = .ok b := by
  cases r <;> simp [bind, Except.bind]

@[simp] theorem pure_eq_ok {a b : α} : (pure a : Result α) = .ok b ↔ a = b := by
  simp [pure, Except.pure]

@[simp] theorem map_eq_ok {β : Type} {r : Result α} {f : α → β} {b : β} :
    (f <$> r) = .ok b ↔ ∃ a, r = .ok a ∧ f a = b := by
  cases r <;> simp [Functor.map, Except.map]

@[simp] theorem failure_ne_ok {message : String} {a : α} : (failure message : Result α) ≠ .ok a := by
  simp [failure]

/-- A check that reports `message` passes exactly when its condition fails. -/
@[simp] theorem ite_failure_eq_ok {p : Prop} [Decidable p] {message : String} {r : Result α} {a : α} :
    (if p then failure message else r) = .ok a ↔ ¬ p ∧ r = .ok a := by
  by_cases h : p <;> simp [h]

@[simp] theorem ite_error_eq_ok {p : Prop} [Decidable p] {e : Error} {r : Result α} {a : α} :
    (if p then .error e else r) = .ok a ↔ ¬ p ∧ r = .ok a := by
  by_cases h : p <;> simp [h]

/-- `value()` has one exactly where there is no error. -/
@[simp] theorem toOption_eq_some {r : Result α} {a : α} : r.toOption = some a ↔ r = .ok a := by
  cases r <;> simp [Except.toOption]

theorem forM_eq_ok {l : List α} {f : α → Result Unit} :
    l.forM f = .ok () ↔ ∀ x ∈ l, f x = .ok () := by
  induction l with
  | nil => simp [List.forM, pure, Except.pure]
  | cons x l ih =>
    show (f x >>= fun _ => l.forM f) = _ ↔ _
    rw [bind_eq_ok]
    simp only [ih, List.mem_cons, forall_eq_or_imp]
    exact ⟨fun ⟨_, hx, h⟩ => ⟨hx, h⟩, fun ⟨hx, h⟩ => ⟨(), hx, h⟩⟩

theorem eq_error_iff {r : Result α} : (∃ e, r = .error e) ↔ ¬ ∃ a, r = .ok a := by
  cases r <;> simp

theorem isOk_iff {r : Result α} : r.isOk = true ↔ ∃ a, r = .ok a := by
  cases r <;> simp [isOk, Except.isOk, Except.toBool]

end Result

end FairCross
