import VixStandard.Result.Storage

/-!
# The special members of a Result

`Special` is what a type says about its copy and move operations: what they do,
on a program state `S`, and which of them it declares `noexcept`.  Each may
throw, and then leaves its operands in some state.

The copy and move operations of `std::variant` follow `[variant.ctor]` and
`[variant.assign]`.  An assignment that changes the alternative either constructs
the new one in place, after the old one is gone, or goes through a temporary.
If a construction in place throws, the variant is left valueless.

`Result` defaults its special members, and declares when the moves are
`noexcept`.  An exception that leaves a `noexcept` function ends the program.
-/

namespace VixStandard

/-- The copy and move operations of a type. -/
structure Special (S X A : Type) where
  /-- What is constructed from a source. -/
  copyConstruct : A → S → Except X A × S
  /-- What is constructed, and what is left in the source. -/
  moveConstruct : A → S → Except X A × A × S
  /-- From target and source, the new target. -/
  copyAssign : A → A → S → Except X Unit × A × S
  /-- From target and source, the new target and the new source. -/
  moveAssign : A → A → S → Except X Unit × A × A × S
  nothrowCopyConstructible : Bool
  nothrowMoveConstructible : Bool
  nothrowCopyAssignable : Bool
  nothrowMoveAssignable : Bool
  copyConstruct_ok : nothrowCopyConstructible = true → ∀ a s, ∃ b, (copyConstruct a s).1 = .ok b
  moveConstruct_ok : nothrowMoveConstructible = true → ∀ a s, ∃ b, (moveConstruct a s).1 = .ok b
  copyAssign_ok : nothrowCopyAssignable = true → ∀ a b s, (copyAssign a b s).1 = .ok ()
  moveAssign_ok : nothrowMoveAssignable = true → ∀ a b s, (moveAssign a b s).1 = .ok ()

/-- A type such as `int`, whose copies and moves only copy. -/
def Special.scalar (S X A : Type) : Special S X A where
  copyConstruct a s := (.ok a, s)
  moveConstruct a s := (.ok a, a, s)
  copyAssign _ b s := (.ok (), b, s)
  moveAssign _ b s := (.ok (), b, b, s)
  nothrowCopyConstructible := true
  nothrowMoveConstructible := true
  nothrowCopyAssignable := true
  nothrowMoveAssignable := true
  copyConstruct_ok _ a _ := ⟨a, rfl⟩
  moveConstruct_ok _ a _ := ⟨a, rfl⟩
  copyAssign_ok _ _ _ _ := rfl
  moveAssign_ok _ _ _ _ := rfl

/-- `std::monostate`, the value of a `Result<void, E>`. -/
def Special.monostate (S X : Type) : Special S X Unit := .scalar S X Unit

/-- The two types of a Result. -/
structure Specials (S X T E : Type) where
  value : Special S X T
  error : Special S X E

variable {S X T E A : Type}

/-! ## `std::variant` -/

namespace Variant

/-- The copy constructor. -/
def copyConstruct (D : Specials S X T E) (r : Result T E) (s : S) :
    Except X (Result T E) × S :=
  match r with
  | .val v => let (c, s) := D.value.copyConstruct v s; (c.map .val, s)
  | .err e => let (c, s) := D.error.copyConstruct e s; (c.map .err, s)
  | .valueless => (.ok .valueless, s)

/-- The move constructor. -/
def moveConstruct (D : Specials S X T E) (r : Result T E) (s : S) :
    Except X (Result T E) × Result T E × S :=
  match r with
  | .val v => let (c, v, s) := D.value.moveConstruct v s; (c.map .val, .val v, s)
  | .err e => let (c, e, s) := D.error.moveConstruct e s; (c.map .err, .err e, s)
  | .valueless => (.ok .valueless, .valueless, s)

/-- `emplace` of an alternative that is move-constructed: the new variant, and
what is left in the source. -/
def emplaceMove (D : Special S X A) (inj : A → Result T E) (a : A) (s : S) :
    Except X Unit × Result T E × A × S :=
  match D.moveConstruct a s with
  | (.ok b, a, s) => (.ok (), inj b, a, s)
  | (.error x, a, s) => (.error x, .valueless, a, s)

/-- Whether a copy assignment that changes to this alternative constructs it in
place. -/
def copiesInPlace (D : Special S X A) : Bool :=
  D.nothrowCopyConstructible || !D.nothrowMoveConstructible

/-- Copy assignment that changes the alternative. -/
def changeCopy (D : Special S X A) (inj : A → Result T E) (old : Result T E) (a : A) (s : S) :
    Except X Unit × Result T E × S :=
  if copiesInPlace D then
    match D.copyConstruct a s with
    | (.ok b, s) => (.ok (), inj b, s)
    | (.error x, s) => (.error x, .valueless, s)
  else
    match D.copyConstruct a s with
    | (.ok tmp, s) => let (r, new, _, s) := emplaceMove D inj tmp s; (r, new, s)
    | (.error x, s) => (.error x, old, s)

/-- `operator=(const variant &)`: from target and source, the new target. -/
def copyAssign (D : Specials S X T E) (r r' : Result T E) (s : S) :
    Except X Unit × Result T E × S :=
  match r, r' with
  | _, .valueless => (.ok (), .valueless, s)
  | .val v, .val v' => let (c, v, s) := D.value.copyAssign v v' s; (c, .val v, s)
  | .err e, .err e' => let (c, e, s) := D.error.copyAssign e e' s; (c, .err e, s)
  | old, .val v' => changeCopy D.value .val old v' s
  | old, .err e' => changeCopy D.error .err old e' s

/-- `operator=(variant &&)`: from target and source, both after it. -/
def moveAssign (D : Specials S X T E) (r r' : Result T E) (s : S) :
    Except X Unit × Result T E × Result T E × S :=
  match r, r' with
  | _, .valueless => (.ok (), .valueless, .valueless, s)
  | .val v, .val v' =>
    let (c, v, v', s) := D.value.moveAssign v v' s
    (c, .val v, .val v', s)
  | .err e, .err e' =>
    let (c, e, e', s) := D.error.moveAssign e e' s
    (c, .err e, .err e', s)
  | _, .val v' => let (c, r, v', s) := emplaceMove D.value .val v' s; (c, r, .val v', s)
  | _, .err e' => let (c, r, e', s) := emplaceMove D.error .err e' s; (c, r, .err e', s)

end Variant

/-! ## Result -/

/-- `std::terminate`. -/
inductive Terminated where
  | terminate
  deriving DecidableEq, Repr

/-- A function that may be declared `noexcept`, from the exception that leaves
its body and the rest of its effect. -/
def declaredNoexcept {B : Type} (nothrow : Bool) (thrown : Except X B) (a : A) :
    Except Terminated A :=
  match nothrow, thrown with
  | true, .error _ => .error .terminate
  | _, _ => .ok a

namespace Result

/-- The `noexcept` of `Result(Result &&)`. -/
def nothrowMoveConstruct (D : Specials S X T E) : Bool :=
  D.value.nothrowMoveConstructible && D.error.nothrowMoveConstructible

/-- The `noexcept` of `operator=(Result &&)`. -/
def nothrowMoveAssign (D : Specials S X T E) : Bool :=
  D.value.nothrowMoveAssignable && D.error.nothrowMoveAssignable

/-- `Result(const Result &)`. -/
def copyConstruct (D : Specials S X T E) (r : Result T E) (s : S) :
    Except X (Result T E) × S := Variant.copyConstruct D r s

/-- `Result(Result &&)`. -/
def moveConstruct (D : Specials S X T E) (r : Result T E) (s : S) :
    Except Terminated (Except X (Result T E) × Result T E × S) :=
  let c := Variant.moveConstruct D r s
  declaredNoexcept (nothrowMoveConstruct D) c.1 c

/-- `operator=(const Result &)`. -/
def copyAssign (D : Specials S X T E) (r r' : Result T E) (s : S) :
    Except X Unit × Result T E × S := Variant.copyAssign D r r' s

/-- `operator=(Result &&)`. -/
def moveAssign (D : Specials S X T E) (r r' : Result T E) (s : S) :
    Except Terminated (Except X Unit × Result T E × Result T E × S) :=
  let c := Variant.moveAssign D r r' s
  declaredNoexcept (nothrowMoveAssign D) c.1 c

end Result

end VixStandard
