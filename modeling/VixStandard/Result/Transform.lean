import Mathlib.Control.Lawful
import VixStandard.Result.Storage

/-!
# `map` and `and_then`

The eight overloads of `Result<T, E>` and `Result<void, E>`.  They share one
text, `transform`: the callable is invoked if `has_value()`, and otherwise the
error is handed on.  An overload says what it wraps the callable's answer in,
whether the callable can change its argument, and whether the error is copied or
moved.

A callable acts on a `World`, which records every invocation.  It may throw, and
so does `error()` of a valueless Result.  Copies and moves of the error and the
construction of the new value are taken not to throw.
-/

namespace VixStandard

/-- The types a program uses: the object types that values can have, its error
type, its state, its exceptions, and what a move leaves of an error. -/
structure Types where
  Tag : Type
  Obj : Tag → Type
  Err : Type
  State : Type
  Exc : Type
  movedErr : Err → Err

variable {G : Types}

/-- A return type of C++, with `none` for `void`. -/
abbrev Types.Ret (G : Types) : Option G.Tag → Type
  | none => Unit
  | some t => G.Obj t

/-- One invocation of a callable, with its argument. -/
structure Invocation (G : Types) where
  callable : Nat
  type : Option G.Tag
  arg : G.Ret type

/-- The program's state and the invocations so far. -/
structure World (G : Types) where
  state : G.State
  log : List (Invocation G)

/-- Computations on a world that may throw. -/
abbrev Exec (G : Types) := ExceptT (Thrown G.Exc) (StateM (World G))

/-- An access of the storage that may throw. -/
def Exec.access {A : Type} (a : Except (Thrown G.Exc) A) : Exec G A := ExceptT.mk (pure a)

@[simp] theorem Exec.access_ok {A : Type} (a : A) :
    (Exec.access (.ok a) : Exec G A) = pure a := rfl

/-- A callable.  It answers with a `B` and with what it leaves in its argument. -/
structure Callable (G : Types) (t : Option G.Tag) (B : Type) where
  name : Nat
  body : G.Ret t → Exec G (B × G.Ret t)

/-- `std::invoke`. -/
def Callable.invoke {t : Option G.Tag} {B : Type} (f : Callable G t B) (v : G.Ret t) :
    Exec G (B × G.Ret t) := do
  modify fun w => { w with log := w.log ++ [⟨f.name, t, v⟩] }
  f.body v

/-- The Result types of a program. -/
abbrev Types.Res (G : Types) (t : Option G.Tag) := Result (G.Ret t) G.Err

variable {t u : Option G.Tag} {B : Type}

/-- The text of the overloads: the Result returned, and what is left of `*this`.  Copying or
moving the error and constructing the new value do not throw. -/
def transform (wrap : B → G.Res u) (keepArg : G.Ret t → G.Ret t → G.Ret t)
    (keepErr : G.Err → G.Err) (f : Callable G t B) (r : G.Res t) : Exec G (G.Res u × G.Res t) :=
  if r.hasValue then do
    let v ← Exec.access r.value
    let (b, v') ← f.invoke v
    pure (wrap b, .success (keepArg v v'))
  else do
    let e ← Exec.access r.error
    pure (.failure e, .failure (keepErr e))

/-- A reference to const keeps its object as it is. -/
def constArg (v _ : G.Ret t) : G.Ret t := v

/-- Through another reference the callable may change the object or move from it. -/
def mutableArg (_ v' : G.Ret t) : G.Ret t := v'

/-! ## `Result<T, E>` -/

section Value

variable {t : G.Tag}

/-- `map(F &&) &` -/
def mapLvalue (f : Callable G (some t) (G.Ret u)) (r : G.Res (some t)) :
    Exec G (G.Res u × G.Res (some t)) := transform .success mutableArg id f r

/-- `map(F &&) const &` -/
def mapConstLvalue (f : Callable G (some t) (G.Ret u)) (r : G.Res (some t)) :
    Exec G (G.Res u × G.Res (some t)) := transform .success constArg id f r

/-- `map(F &&) &&` -/
def mapRvalue (f : Callable G (some t) (G.Ret u)) (r : G.Res (some t)) :
    Exec G (G.Res u × G.Res (some t)) := transform .success mutableArg G.movedErr f r

/-- `and_then(F &&) &` -/
def andThenLvalue (f : Callable G (some t) (G.Res u)) (r : G.Res (some t)) :
    Exec G (G.Res u × G.Res (some t)) := transform id mutableArg id f r

/-- `and_then(F &&) &&` -/
def andThenRvalue (f : Callable G (some t) (G.Res u)) (r : G.Res (some t)) :
    Exec G (G.Res u × G.Res (some t)) := transform id mutableArg G.movedErr f r

end Value

/-! ## `Result<void, E>` -/

/-- `map(F &&) const &` -/
def voidMap (f : Callable G none (G.Ret u)) (r : G.Res none) : Exec G (G.Res u × G.Res none) :=
  transform .success constArg id f r

/-- `and_then(F &&) const &` -/
def voidAndThenConstLvalue (f : Callable G none (G.Res u)) (r : G.Res none) :
    Exec G (G.Res u × G.Res none) := transform id constArg id f r

/-- `and_then(F &&) &&` -/
def voidAndThenRvalue (f : Callable G none (G.Res u)) (r : G.Res none) :
    Exec G (G.Res u × G.Res none) := transform id constArg G.movedErr f r

/-! ## What an overload returns -/

section Returned

variable {wrap : B → G.Res u} {keepArg : G.Ret t → G.Ret t → G.Ret t} {keepErr : G.Err → G.Err}
  {f : Callable G t B}

/-- On a value, the callable is invoked once. -/
theorem transform_val (v : G.Ret t) :
    (do let p ← transform wrap keepArg keepErr f (.val v); pure p.1) =
      (do let p ← f.invoke v; pure (wrap p.1)) := by
  simp [transform]

/-- On an error, nothing is invoked and the error is returned. -/
theorem transform_err (e : G.Err) :
    (do let p ← transform wrap keepArg keepErr f (.err e); pure p.1) =
      (pure (.err e) : Exec G (G.Res u)) := by
  simp [transform, Result.failure]

theorem transform_valueless :
    (do let p ← transform wrap keepArg keepErr f .valueless; pure p.1) =
      (throw .badVariantAccess : Exec G (G.Res u)) := by
  simp [transform, Result.error]
  rfl

end Returned

end VixStandard
