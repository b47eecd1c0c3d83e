import Mathlib.Logic.Basic

/-!
# The storage of a Result

`Result<T, E>` has one member, a `std::variant<T, E>`, and `Result<void, E>` a
`std::variant<std::monostate, E>`.  The model of both is `Result`, with `Unit`
for `std::monostate`.  A variant has a third state, valueless, which the
observers do not expect: `has_error()` is defined as `!has_value()`.
-/

namespace VixStandard

/-- What an operation on a Result throws: the exception of `std::get`, or one of
the program. -/
inductive Thrown (X : Type) where
  | badVariantAccess
  | user (x : X)
  deriving DecidableEq, Repr

/-- A `Result<T, E>`, by the state of its `storage_`. -/
inductive Result (T E : Type) where
  | val (v : T)
  | err (e : E)
  | valueless
  deriving DecidableEq, Repr

namespace Result

variable {T E X : Type}

/-- `success()`, on the value that was constructed. -/
def success (v : T) : Result T E := .val v

/-- `failure()`, on the error that was constructed. -/
def failure (e : E) : Result T E := .err e

/-- `storage_.index()`, with `none` for `variant_npos`. -/
def index : Result T E → Option Nat
  | val _ => some 0
  | err _ => some 1
  | valueless => none

def hasValue (r : Result T E) : Bool := r.index == some 0

def hasError (r : Result T E) : Bool := !r.hasValue

/-- `value()`, that is `std::get<0>`. -/
def value : Result T E → Except (Thrown X) T
  | val v => .ok v
  | _ => .error .badVariantAccess

/-- `error()`, that is `std::get<1>`. -/
def error : Result T E → Except (Thrown X) E
  | err e => .ok e
  | _ => .error .badVariantAccess

/-- `value_if()`, that is `std::get_if<0>`. -/
def valueIf : Result T E → Option T
  | val v => some v
  | _ => none

/-- `error_if()`, that is `std::get_if<1>`. -/
def errorIf : Result T E → Option E
  | err e => some e
  | _ => none

@[simp] theorem hasValue_val (v : T) : (val v : Result T E).hasValue = true := rfl

@[simp] theorem hasValue_err (e : E) : (err e : Result T E).hasValue = false := rfl

@[simp] theorem hasValue_valueless : (valueless : Result T E).hasValue = false := rfl

@[simp] theorem value_val (v : T) :
    (val v : Result T E).value = (.ok v : Except (Thrown X) T) := rfl

@[simp] theorem error_err (e : E) :
    (err e : Result T E).error = (.ok e : Except (Thrown X) E) := rfl

/-! ## One alternative -/

/-- Exactly one alternative is held, and all observers agree on which. -/
structure ExactlyOne (X : Type) (r : Result T E) : Prop where
  value_iff : r.hasValue = true ↔ ∃ v, r.value = (.ok v : Except (Thrown X) T)
  valueIf_iff : r.hasValue = true ↔ r.valueIf ≠ none
  error_iff : r.hasError = true ↔ ∃ e, r.error = (.ok e : Except (Thrown X) E)
  errorIf_iff : r.hasError = true ↔ r.errorIf ≠ none
  one : r.hasError = !r.hasValue

theorem exactlyOne_val (v : T) : (val v : Result T E).ExactlyOne X := by
  constructor <;> simp [hasError, value, error, valueIf, errorIf]

theorem exactlyOne_err (e : E) : (err e : Result T E).ExactlyOne X := by
  constructor <;> simp [hasError, value, error, valueIf, errorIf]

/-- The third state of the variant is what breaks it: `has_error()` holds there,
but `error()` throws. -/
theorem exactlyOne_iff {r : Result T E} : r.ExactlyOne X ↔ r ≠ .valueless := by
  constructor
  · intro h hr
    subst hr
    have herr := h.error_iff.mp rfl
    simp [error] at herr
  · intro h
    cases r with
    | val v => exact exactlyOne_val v
    | err e => exact exactlyOne_err e
    | valueless => exact absurd rfl h

end Result

end VixStandard
