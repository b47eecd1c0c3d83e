import VixStandard.Result.Objects

/-!
# The `noexcept` of the moves

`Result` computes its `noexcept` declarations from those of `T` and `E`: the move
constructor from their move constructors, and the move assignment from their move
assignments alone.  A move assignment that changes the alternative, however,
move-constructs the new one.  So the declaration of the constructor is sound, and
that of the assignment is sound exactly where no such construction throws
(`noexcept_sound_iff`).
-/

namespace VixStandard.Result

variable {S X T E B C : Type}

/-- What a `noexcept` declaration has to mean for a function with the given body:
if it is there then the body throws nothing, and if it is not then what the body
throws reaches the caller. -/
structure NoexceptSound (nothrow : Bool) (body : Except X B × C)
    (call : Except Terminated (Except X B × C)) : Prop where
  quiet : nothrow = true → ∃ b, body.1 = .ok b ∧ call = .ok body
  loud : nothrow = false → ∀ x, body.1 = .error x → ∃ c, call = .ok (.error x, c)

/-- Only the declared half can fail. -/
theorem noexceptSound_iff {nothrow : Bool} {body : Except X B × C} :
    NoexceptSound nothrow body (declaredNoexcept nothrow body.1 body) ↔
      (nothrow = true → body.1.isOk = true) := by
  obtain ⟨thrown, c⟩ := body
  constructor
  · intro h hnothrow
    obtain ⟨b, hb, _⟩ := h.quiet hnothrow
    rw [hb]
    rfl
  · intro h
    cases thrown with
    | ok b =>
      refine ⟨fun _ => ⟨b, rfl, ?_⟩, ?_⟩
      · cases nothrow <;> rfl
      · intro _ x hx
        cases hx
    | error x =>
      cases nothrow with
      | true => cases h rfl
      | false =>
        refine ⟨fun hn => (by cases hn), ?_⟩
        intro _ y hy
        obtain rfl := Except.error.inj hy
        exact ⟨c, rfl⟩

section Moves

variable {D : Specials S X T E} {r r' : Result T E} {s : S}

theorem moveConstruct_isOk (h : nothrowMoveConstruct D = true) :
    (Variant.moveConstruct D r s).1.isOk = true := by
  obtain ⟨hvalue, herror⟩ := Bool.and_eq_true_iff.mp h
  cases r with
  | valueless => rfl
  | val v =>
    obtain ⟨b, hb⟩ := D.value.moveConstruct_ok hvalue v s
    simp [Variant.moveConstruct, hb, Except.map, Except.isOk, Except.toBool]
  | err e =>
    obtain ⟨b, hb⟩ := D.error.moveConstruct_ok herror e s
    simp [Variant.moveConstruct, hb, Except.map, Except.isOk, Except.toBool]

theorem emplaceMove_isOk {A : Type} (d : Special S X A) (inj : A → Result T E) (a : A) :
    (Variant.emplaceMove d inj a s).1.isOk = (d.moveConstruct a s).1.isOk := by
  unfold Variant.emplaceMove
  split
  · rename_i hc
    rw [hc]
    rfl
  · rename_i hc
    rw [hc]
    rfl

/-- Where the assignments of `T` and `E` throw nothing, only a construction of the
other alternative can throw. -/
theorem moveAssign_isOk (h : nothrowMoveAssign D = true) (hr : r ≠ .valueless)
    (hr' : r' ≠ .valueless) :
    (Variant.moveAssign D r r' s).1.isOk = !moveAssignBreaks D r r' s := by
  obtain ⟨hvalue, herror⟩ := Bool.and_eq_true_iff.mp h
  cases r with
  | valueless => exact absurd rfl hr
  | val v =>
    cases r' with
    | valueless => exact absurd rfl hr'
    | val v' =>
      have hok := D.value.moveAssign_ok hvalue v v' s
      simp [Variant.moveAssign, moveAssignBreaks, hok, Except.isOk, Except.toBool]
    | err e' =>
      have hok := emplaceMove_isOk D.error (.err : E → Result T E) e' (s := s)
      simpa [Variant.moveAssign, moveAssignBreaks] using hok
  | err e =>
    cases r' with
    | valueless => exact absurd rfl hr'
    | val v' =>
      have hok := emplaceMove_isOk D.value (.val : T → Result T E) v' (s := s)
      simpa [Variant.moveAssign, moveAssignBreaks] using hok
    | err e' =>
      have hok := D.error.moveAssign_ok herror e e' s
      simp [Variant.moveAssign, moveAssignBreaks, hok, Except.isOk, Except.toBool]

/-- The `noexcept` of the move constructor is sound.  That of the move assignment is
sound exactly if it is not declared, or no construction of the other alternative
throws. -/
theorem noexcept_sound_iff (hr : r ≠ .valueless) (hr' : r' ≠ .valueless) :
    NoexceptSound (nothrowMoveConstruct D) (Variant.moveConstruct D r' s)
        (Result.moveConstruct D r' s) ∧
      (NoexceptSound (nothrowMoveAssign D) (Variant.moveAssign D r r' s)
          (Result.moveAssign D r r' s) ↔
        ¬ (nothrowMoveAssign D = true ∧ moveAssignBreaks D r r' s = true)) := by
  refine ⟨noexceptSound_iff.mpr moveConstruct_isOk, ?_⟩
  unfold Result.moveAssign
  rw [noexceptSound_iff, not_and]
  constructor
  · intro h hn hbreaks
    have hok := h hn
    rw [moveAssign_isOk hn hr hr', hbreaks] at hok
    cases hok
  · intro h hn
    rw [moveAssign_isOk hn hr hr', Bool.eq_false_iff.mpr (h hn)]
    rfl

end Moves

/-! ## A type that only throws when it is move-constructed -/

/-- A type with a `noexcept` move assignment, and a move constructor that throws. -/
def throwingMoves (S A : Type) : Special S Unit A where
  copyConstruct a s := (.ok a, s)
  moveConstruct a s := (.error (), a, s)
  copyAssign _ b s := (.ok (), b, s)
  moveAssign _ b s := (.ok (), b, b, s)
  nothrowCopyConstructible := true
  nothrowMoveConstructible := false
  nothrowCopyAssignable := true
  nothrowMoveAssignable := true
  copyConstruct_ok _ a _ := ⟨a, rfl⟩
  moveConstruct_ok h := nomatch h
  copyAssign_ok _ _ _ _ := rfl
  moveAssign_ok _ _ _ _ := rfl

/-- The special members of `Result<int, E>` and of `Result<void, E>` for that `E`. -/
def intOrThrowing : Specials Unit Unit Nat Nat := ⟨.scalar Unit Unit Nat, throwingMoves Unit Nat⟩

def voidOrThrowing : Specials Unit Unit Unit Nat := ⟨.monostate Unit Unit, throwingMoves Unit Nat⟩

/-- A failure is move-assigned to a success.  The assignment is `noexcept`, and what
the move constructor of the error throws ends the program. -/
theorem move_assignment_terminates :
    (nothrowMoveAssign intOrThrowing = true ∧
      Result.moveAssign intOrThrowing (.val 1) (.err 2) () = .error .terminate ∧
      ¬ NoexceptSound (nothrowMoveAssign intOrThrowing)
        (Variant.moveAssign intOrThrowing (.val 1) (.err 2) ())
        (Result.moveAssign intOrThrowing (.val 1) (.err 2) ())) ∧
    nothrowMoveAssign voidOrThrowing = true ∧
      Result.moveAssign voidOrThrowing (.val ()) (.err 2) () = .error .terminate ∧
      ¬ NoexceptSound (nothrowMoveAssign voidOrThrowing)
        (Variant.moveAssign voidOrThrowing (.val ()) (.err 2) ())
        (Result.moveAssign voidOrThrowing (.val ()) (.err 2) ()) := by
  refine ⟨⟨rfl, rfl, ?_⟩, rfl, rfl, ?_⟩
  · intro h
    obtain ⟨b, hb, _⟩ := h.quiet rfl
    cases hb
  · intro h
    obtain ⟨b, hb, _⟩ := h.quiet rfl
    cases hb

/-- Assigning one failure to another constructs nothing. -/
theorem noexcept_sound_iff_sameAlternative :
    NoexceptSound (nothrowMoveAssign intOrThrowing)
      (Variant.moveAssign intOrThrowing (.err 1) (.err 2) ())
      (Result.moveAssign intOrThrowing (.err 1) (.err 2) ()) :=
  (noexcept_sound_iff (by simp) (by simp)).2.mpr (by simp [moveAssignBreaks])

end VixStandard.Result
