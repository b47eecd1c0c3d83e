import Mathlib.Logic.Function.Basic
import VixStandard.Lib.Transition
import VixStandard.Result.Special

/-!
# Programs that copy, move and assign Results

A program holds any number of `Result<T, E>` objects and creates, copies, moves,
assigns and destroys them.  It catches what an operation throws and goes on with
the objects as they are.

A Result loses both alternatives in one way only: an assignment has to change
the alternative, constructs the new one in place, and that construction throws
(`copyAssign_eq_valueless_iff`, `moveAssign_eq_valueless_iff`).  A run therefore
keeps one alternative in every object exactly as long as no assignment does that
(`one_alternative_iff`).
-/

namespace VixStandard.Result

open VixStandard.Lib

variable {Name : Type} [DecidableEq Name] {S X T E A : Type}

/-- The Result objects of a program, and its other state. -/
structure Objects (Name S T E : Type) where
  objs : Name → Option (Result T E)
  state : S

/-- What the program does next with its objects.  `make` constructs the value or
the error from the argument of a factory. -/
inductive Op (Name S X T E : Type) where
  /-- `auto x = Result::success(u)`. -/
  | success (x : Name) (make : S → Except X T × S)
  /-- `auto x = Result::failure(g)`. -/
  | failure (x : Name) (make : S → Except X E × S)
  /-- `auto x = y`. -/
  | copyConstruct (x y : Name)
  /-- `auto x = std::move(y)`. -/
  | moveConstruct (x y : Name)
  /-- `x = y`. -/
  | copyAssign (x y : Name)
  /-- `x = std::move(y)`. -/
  | moveAssign (x y : Name)
  /-- The destructor of `x`. -/
  | destroy (x : Name)

namespace Objects

def set (m : Objects Name S T E) (x : Name) (r : Option (Result T E)) : Objects Name S T E :=
  { m with objs := Function.update m.objs x r }

def withState (m : Objects Name S T E) (s : S) : Objects Name S T E := { m with state := s }

/-- A constructor that throws makes no object. -/
def construct (m : Objects Name S T E) (x : Name) (c : Except X (Result T E)) :
    Objects Name S T E :=
  match c with
  | .ok r => m.set x (some r)
  | .error _ => m

/-- Which objects an operation needs. -/
def Enabled (m : Objects Name S T E) : Op Name S X T E → Prop
  | .success x _ | .failure x _ => m.objs x = none
  | .copyConstruct x y | .moveConstruct x y => m.objs x = none ∧ (m.objs y).isSome
  | .copyAssign x y | .moveAssign x y => (m.objs x).isSome ∧ (m.objs y).isSome
  | .destroy x => (m.objs x).isSome

instance (m : Objects Name S T E) (op : Op Name S X T E) : Decidable (m.Enabled op) :=
  match op with
  | .success x _ | .failure x _ => inferInstanceAs (Decidable (m.objs x = none))
  | .copyConstruct _ _ | .moveConstruct _ _ | .copyAssign _ _ | .moveAssign _ _ =>
    inferInstanceAs (Decidable (_ ∧ _))
  | .destroy x => inferInstanceAs (Decidable ((m.objs x).isSome = true))

/-- The effect of an operation, with the exceptions that reach the program
caught. -/
def step (D : Specials S X T E) (m : Objects Name S T E) :
    Op Name S X T E → Except Terminated (Objects Name S T E)
  | .success x make =>
    let (v, s) := make m.state
    .ok ((m.withState s).construct x (v.map Result.success))
  | .failure x make =>
    let (e, s) := make m.state
    .ok ((m.withState s).construct x (e.map Result.failure))
  | .copyConstruct x y =>
    match m.objs y with
    | none => .ok m
    | some r =>
      let (c, s) := Result.copyConstruct D r m.state
      .ok ((m.withState s).construct x c)
  | .moveConstruct x y =>
    match m.objs y with
    | none => .ok m
    | some r => do
      let (c, r, s) ← Result.moveConstruct D r m.state
      .ok (((m.withState s).set y (some r)).construct x c)
  | .copyAssign x y =>
    match m.objs x, m.objs y with
    | some r, some r' =>
      let (_, r, s) := Result.copyAssign D r r' m.state
      .ok ((m.withState s).set x (some r))
    | _, _ => .ok m
  | .moveAssign x y =>
    match m.objs x, m.objs y with
    | some r, some r' => do
      let (_, r, r', s) ← Result.moveAssign D r r' m.state
      .ok (((m.withState s).set y (some r')).set x (some r))
    | _, _ => .ok m
  | .destroy x => .ok (m.set x none)

end Objects

/-- The programs over Results whose types have the given special members. -/
def system (Name : Type) [DecidableEq Name] (D : Specials S X T E) :
    Transition (Objects Name S T E) (Op Name S X T E) Terminated where
  init m := ∀ x, m.objs x = none
  enabled := Objects.Enabled
  step := Objects.step D

instance (D : Specials S X T E) (m : Objects Name S T E) (op : Op Name S X T E) :
    Decidable ((system Name D).enabled m op) := inferInstanceAs (Decidable (m.Enabled op))

/-! ## The assignments that lose both alternatives -/

/-- Whether a copy assignment changes the alternative by a construction in place
that throws. -/
def copyAssignBreaks (D : Specials S X T E) : Result T E → Result T E → S → Bool
  | .val _, .err e, s => Variant.copiesInPlace D.error && !(D.error.copyConstruct e s).1.isOk
  | .err _, .val v, s => Variant.copiesInPlace D.value && !(D.value.copyConstruct v s).1.isOk
  | _, _, _ => false

/-- Whether a move assignment changes the alternative by a construction that
throws. -/
def moveAssignBreaks (D : Specials S X T E) : Result T E → Result T E → S → Bool
  | .val _, .err e, s => !(D.error.moveConstruct e s).1.isOk
  | .err _, .val v, s => !(D.value.moveConstruct v s).1.isOk
  | _, _, _ => false

/-- Whether an operation loses both alternatives of an object. -/
def breaks (D : Specials S X T E) (m : Objects Name S T E) : Op Name S X T E → Bool
  | .copyAssign x y =>
    match m.objs x, m.objs y with
    | some r, some r' => copyAssignBreaks D r r' m.state
    | _, _ => false
  | .moveAssign x y =>
    match m.objs x, m.objs y with
    | some r, some r' => moveAssignBreaks D r r' m.state
    | _, _ => false
  | _ => false

section Variant

variable {D : Specials S X T E} {r r' : Result T E} {s : S}

theorem emplaceMove_eq_valueless_iff {d : Special S X A} {inj : A → Result T E} {a : A}
    (hinj : ∀ b, inj b ≠ .valueless) :
    (Variant.emplaceMove d inj a s).2.1 = .valueless ↔ (d.moveConstruct a s).1.isOk = false := by
  unfold Variant.emplaceMove
  split
  · rename_i b a' s' hc
    simp [hc, hinj b, Except.isOk, Except.toBool]
  · rename_i x a' s' hc
    simp [hc, Except.isOk, Except.toBool]

/-- Through a temporary no alternative is lost: that path is only taken when the
move cannot throw. -/
theorem changeCopy_eq_valueless_iff {d : Special S X A} {inj : A → Result T E} {a : A}
    (hinj : ∀ b, inj b ≠ .valueless) (hr : r ≠ .valueless) :
    (Variant.changeCopy d inj r a s).2.1 = .valueless ↔
      Variant.copiesInPlace d = true ∧ (d.copyConstruct a s).1.isOk = false := by
  unfold Variant.changeCopy
  by_cases hplace : Variant.copiesInPlace d = true
  · rw [if_pos hplace]
    split
    · rename_i b s' hc
      simp [hc, hinj b, Except.isOk, Except.toBool]
    · rename_i x s' hc
      simp [hc, hplace, Except.isOk, Except.toBool]
  · rw [if_neg hplace]
    have hmove : d.nothrowMoveConstructible = true := by
      simp [Variant.copiesInPlace] at hplace
      exact hplace.2
    split
    · rename_i tmp s' hc
      obtain ⟨b, hb⟩ := d.moveConstruct_ok hmove tmp s'
      have hok : (d.moveConstruct tmp s').1.isOk = true := by
        rw [hb]
        rfl
      simp [emplaceMove_eq_valueless_iff hinj, hok, hplace]
    · simp [hr, hplace]

theorem copyAssign_eq_valueless_iff (hr : r ≠ .valueless) (hr' : r' ≠ .valueless) :
    (Result.copyAssign D r r' s).2.1 = .valueless ↔ copyAssignBreaks D r r' s = true := by
  unfold Result.copyAssign Variant.copyAssign copyAssignBreaks
  cases r with
  | valueless => exact absurd rfl hr
  | val v =>
    cases r' with
    | valueless => exact absurd rfl hr'
    | val v' => simp
    | err e' =>
      have hinj : ∀ e : E, (Result.err e : Result T E) ≠ .valueless := by simp
      simpa using changeCopy_eq_valueless_iff hinj hr
  | err e =>
    cases r' with
    | valueless => exact absurd rfl hr'
    | err e' => simp
    | val v' =>
      have hinj : ∀ v : T, (Result.val v : Result T E) ≠ .valueless := by simp
      simpa using changeCopy_eq_valueless_iff hinj hr

theorem moveAssign_eq_valueless_iff (hr : r ≠ .valueless) (hr' : r' ≠ .valueless) :
    (Variant.moveAssign D r r' s).2.1 = .valueless ↔ moveAssignBreaks D r r' s = true := by
  unfold Variant.moveAssign moveAssignBreaks
  cases r with
  | valueless => exact absurd rfl hr
  | val v =>
    cases r' with
    | valueless => exact absurd rfl hr'
    | val v' => simp
    | err e' =>
      have hinj : ∀ e : E, (Result.err e : Result T E) ≠ .valueless := by simp
      simpa using emplaceMove_eq_valueless_iff hinj
  | err e =>
    cases r' with
    | valueless => exact absurd rfl hr'
    | err e' => simp
    | val v' =>
      have hinj : ∀ v : T, (Result.val v : Result T E) ≠ .valueless := by simp
      simpa using emplaceMove_eq_valueless_iff hinj

/-- What is left of the source of a move still holds its alternative. -/
theorem moveAssign_source (hr' : r' ≠ .valueless) :
    (Variant.moveAssign D r r' s).2.2.1 ≠ .valueless := by
  unfold Variant.moveAssign
  cases r <;> cases r' <;> simp_all

theorem copyConstruct_ne_valueless (hr : r ≠ .valueless) {c : Result T E}
    (hc : (Result.copyConstruct D r s).1 = .ok c) : c ≠ .valueless := by
  unfold Result.copyConstruct Variant.copyConstruct at hc
  cases r with
  | valueless => exact absurd rfl hr
  | val v =>
    cases hv : (D.value.copyConstruct v s).1 <;> simp [hv, Except.map] at hc
    simp [← hc]
  | err e =>
    cases he : (D.error.copyConstruct e s).1 <;> simp [he, Except.map] at hc
    simp [← hc]

theorem moveConstruct_ne_valueless (hr : r ≠ .valueless) :
    (Variant.moveConstruct D r s).2.1 ≠ .valueless ∧
      ∀ c, (Variant.moveConstruct D r s).1 = .ok c → c ≠ .valueless := by
  unfold Variant.moveConstruct
  cases r with
  | valueless => exact absurd rfl hr
  | val v =>
    refine ⟨by simp, ?_⟩
    intro c hc
    cases hv : (D.value.moveConstruct v s).1 <;> simp [hv, Except.map] at hc
    simp [← hc]
  | err e =>
    refine ⟨by simp, ?_⟩
    intro c hc
    cases he : (D.error.moveConstruct e s).1 <;> simp [he, Except.map] at hc
    simp [← hc]

end Variant

theorem declaredNoexcept_eq_ok {B : Type} {nothrow : Bool} {thrown : Except X B} {a b : A}
    (h : declaredNoexcept nothrow thrown a = .ok b) : a = b := by
  unfold declaredNoexcept at h
  split at h
  · cases h
  · exact Except.ok.inj h

/-! ## Runs -/

/-- No object is valueless. -/
def Sound (m : Objects Name S T E) : Prop := ∀ x r, m.objs x = some r → r ≠ .valueless

section Run

variable {D : Specials S X T E} {m m' : Objects Name S T E} {x : Name} {r : Result T E} {s : S}

omit [DecidableEq Name] in
theorem Sound.withState (h : Sound m) : Sound (m.withState s) := h

theorem Sound.set (h : Sound m) (hr : r ≠ .valueless) : Sound (m.set x (some r)) := by
  intro y r' hy
  by_cases hyx : y = x
  · subst hyx
    simp only [Objects.set, Function.update_self, Option.some.injEq] at hy
    exact hy ▸ hr
  · simp only [Objects.set, Function.update_of_ne hyx] at hy
    exact h y r' hy

theorem Sound.destroy (h : Sound m) : Sound (m.set x none) := by
  intro y r' hy
  by_cases hyx : y = x
  · subst hyx
    simp [Objects.set] at hy
  · simp only [Objects.set, Function.update_of_ne hyx] at hy
    exact h y r' hy

theorem Sound.construct (h : Sound m) {c : Except X (Result T E)}
    (hc : ∀ r, c = .ok r → r ≠ .valueless) : Sound (m.construct x c) := by
  cases c with
  | error e => exact h
  | ok r => exact h.set (hc r rfl)

theorem not_sound_set (hr : r = .valueless) : ¬ Sound (m.set x (some r)) := by
  intro h
  exact h x r (by simp [Objects.set]) hr

/-- One operation keeps the objects sound exactly if it does not break one. -/
theorem sound_step_iff (h : Sound m) {op : Op Name S X T E} (hen : m.Enabled op)
    (hok : m.step D op = .ok m') : Sound m' ↔ breaks D m op = false := by
  cases op with
  | success x make =>
    obtain rfl := Except.ok.inj hok
    refine iff_of_true (h.withState.construct ?_) rfl
    intro r hr
    cases hv : (make m.state).1 <;> simp [hv, Except.map, Result.success] at hr
    simp [← hr]
  | failure x make =>
    obtain rfl := Except.ok.inj hok
    refine iff_of_true (h.withState.construct ?_) rfl
    intro r hr
    cases hv : (make m.state).1 <;> simp [hv, Except.map, Result.failure] at hr
    simp [← hr]
  | copyConstruct x y =>
    obtain ⟨r, hy⟩ := Option.isSome_iff_exists.mp hen.2
    simp only [Objects.step, hy, Except.ok.injEq] at hok
    subst hok
    exact iff_of_true
      (h.withState.construct fun c hc => copyConstruct_ne_valueless (h y r hy) hc) rfl
  | moveConstruct x y =>
    obtain ⟨r, hy⟩ := Option.isSome_iff_exists.mp hen.2
    simp only [Objects.step, hy] at hok
    cases hc : Result.moveConstruct D r m.state with
    | error e => simp [hc, bind, Except.bind] at hok
    | ok c =>
      simp only [hc, bind, Except.bind, Except.ok.injEq] at hok
      obtain rfl := declaredNoexcept_eq_ok hc
      subst hok
      obtain ⟨hsource, hnew⟩ := moveConstruct_ne_valueless (D := D) (s := m.state) (h y r hy)
      exact iff_of_true ((h.withState.set hsource).construct hnew) rfl
  | copyAssign x y =>
    obtain ⟨r, hx⟩ := Option.isSome_iff_exists.mp hen.1
    obtain ⟨r', hy⟩ := Option.isSome_iff_exists.mp hen.2
    have hiff := copyAssign_eq_valueless_iff (D := D) (s := m.state) (h x r hx) (h y r' hy)
    simp only [Objects.step, hx, hy, Except.ok.injEq] at hok
    subst hok
    simp only [breaks, hx, hy, ← Bool.not_eq_true, ← hiff]
    constructor
    · intro hs hv
      exact not_sound_set hv hs
    · exact h.withState.set
  | moveAssign x y =>
    obtain ⟨r, hx⟩ := Option.isSome_iff_exists.mp hen.1
    obtain ⟨r', hy⟩ := Option.isSome_iff_exists.mp hen.2
    have hiff := moveAssign_eq_valueless_iff (D := D) (s := m.state) (h x r hx) (h y r' hy)
    have hsource := moveAssign_source (D := D) (r := r) (s := m.state) (h y r' hy)
    simp only [Objects.step, hx, hy] at hok
    cases hc : Result.moveAssign D r r' m.state with
    | error e => simp [hc, bind, Except.bind] at hok
    | ok c =>
      simp only [hc, bind, Except.bind, Except.ok.injEq] at hok
      obtain rfl := declaredNoexcept_eq_ok hc
      subst hok
      simp only [breaks, hx, hy, ← Bool.not_eq_true, ← hiff]
      constructor
      · intro hs hv
        exact not_sound_set hv hs
      · exact (h.withState.set hsource).set
  | destroy x =>
    obtain rfl := Except.ok.inj hok
    exact iff_of_true h.destroy rfl

omit [DecidableEq Name] in
theorem sound_iff_exactlyOne :
    Sound m ↔ ∀ x r, m.objs x = some r → r.ExactlyOne X := by
  simp only [Sound, exactlyOne_iff]

end Run

/-- In every run, each object holds exactly one alternative in each state exactly
if no assignment of the run changes an alternative by a construction in place
that throws. -/
theorem one_alternative_iff {D : Specials S X T E} {m₀ m : Objects Name S T E}
    {steps : List (Objects Name S T E × Op Name S X T E)} (hinit : (system Name D).init m₀)
    (hrun : (system Name D).Run m₀ steps m) :
    (∀ t ∈ Transition.states steps m, ∀ x r, t.objs x = some r → r.ExactlyOne X) ↔
      ∀ p ∈ steps, breaks D p.1 p.2 = false := by
  have hempty : Sound m₀ := by
    intro x r hx
    rw [hinit x] at hx
    cases hx
  have hkeep : ∀ (t : Objects Name S T E) op t', Sound t → t.Enabled op → breaks D t op = false →
      t.step D op = .ok t' → Sound t' :=
    fun t op t' ht hen hb hok => (sound_step_iff ht hen hok).mpr hb
  have hbreak : ∀ (t : Objects Name S T E) op t', Sound t → t.Enabled op →
      t.step D op = .ok t' → (∀ x r, t'.objs x = some r → r.ExactlyOne X) →
      breaks D t op = false :=
    fun t op t' ht hen hok hgood =>
      (sound_step_iff ht hen hok).mp (sound_iff_exactlyOne.mpr hgood)
  have hgood : ∀ t : Objects Name S T E, Sound t →
      ∀ x r, t.objs x = some r → r.ExactlyOne X := fun _ => sound_iff_exactlyOne.mp
  exact hrun.all_good_iff hgood hkeep hbreak hempty

/-! ## A type with a copy constructor that throws -/

/-- A type that declares no operation `noexcept`, and whose copies throw. -/
def throwingCopies (S A : Type) : Special S Unit A where
  copyConstruct _ s := (.error (), s)
  moveConstruct a s := (.ok a, a, s)
  copyAssign a _ s := (.error (), a, s)
  moveAssign _ b s := (.ok (), b, b, s)
  nothrowCopyConstructible := false
  nothrowMoveConstructible := false
  nothrowCopyAssignable := false
  nothrowMoveAssignable := false
  copyConstruct_ok h := nomatch h
  moveConstruct_ok h := nomatch h
  copyAssign_ok h := nomatch h
  moveAssign_ok h := nomatch h

/-- No objects yet. -/
def noObjects (T E : Type) : Objects Bool Unit T E := ⟨fun _ => none, ()⟩

/-- A success and a failure. -/
def valueAndError {X T E : Type} (v : T) (e : E) : List (Op Bool Unit X T E) :=
  [.success true fun s => (.ok v, s), .failure false fun s => (.ok e, s)]

/-- A failure is copy-assigned to a success and the copy of the error throws.
The target then has neither alternative, and `has_error()` holds of it. -/
theorem copy_assignment_loses_both_alternatives :
    (∃ m : Objects Bool Unit Nat Nat,
      (system Bool ⟨.scalar Unit Unit Nat, throwingCopies Unit Nat⟩).Reach Transition.anyStep m ∧
        ∃ r, m.objs true = some r ∧ r.hasError = true ∧
          r.error = (.error .badVariantAccess : Except (Thrown Unit) Nat) ∧ r.errorIf = none ∧
          ¬ r.ExactlyOne Unit) ∧
    ∃ m : Objects Bool Unit Unit Nat,
      (system Bool ⟨.monostate Unit Unit, throwingCopies Unit Nat⟩).Reach Transition.anyStep m ∧
        ∃ r, m.objs true = some r ∧ r.hasError = true ∧
          r.error = (.error .badVariantAccess : Except (Thrown Unit) Nat) ∧ r.errorIf = none ∧
          ¬ r.ExactlyOne Unit := by
  have hbad : ¬ (Result.valueless : Result Nat Nat).ExactlyOne Unit := by
    simp [exactlyOne_iff]
  have hbad' : ¬ (Result.valueless : Result Unit Nat).ExactlyOne Unit := by
    simp [exactlyOne_iff]
  constructor
  · obtain ⟨steps, hrun, _, hall⟩ := Transition.Run.of_replay
      (show (system Bool ⟨.scalar Unit Unit Nat, throwingCopies Unit Nat⟩).replay
        Transition.anyStep (noObjects Nat Nat) (valueAndError 1 2 ++ [.copyAssign true false]) =
          some _ from rfl)
    exact ⟨_, hrun.reach (.init fun _ => rfl) hall, _, rfl, rfl, rfl, rfl, hbad⟩
  · obtain ⟨steps, hrun, _, hall⟩ := Transition.Run.of_replay
      (show (system Bool ⟨.monostate Unit Unit, throwingCopies Unit Nat⟩).replay
        Transition.anyStep (noObjects Unit Nat) (valueAndError () 2 ++ [.copyAssign true false]) =
          some _ from rfl)
    exact ⟨_, hrun.reach (.init fun _ => rfl) hall, _, rfl, rfl, rfl, rfl, hbad'⟩

/-- The same assignments between Results of `int` keep one alternative. -/
theorem one_alternative_iff_scalar :
    ∃ steps, ∃ m : Objects Bool Unit Nat Nat,
      (system Bool ⟨.scalar Unit Unit Nat, .scalar Unit Unit Nat⟩).Run (noObjects Nat Nat) steps m ∧
        steps.map Prod.snd = valueAndError 1 2 ++ [.copyAssign true false, .moveAssign false true] ∧
        ∀ t ∈ Transition.states steps m, ∀ x r, t.objs x = some r → r.ExactlyOne Unit := by
  obtain ⟨steps, hrun, hops, hall⟩ := Transition.Run.of_replay
    (show (system Bool ⟨.scalar Unit Unit Nat, .scalar Unit Unit Nat⟩).replay
      (fun m op => breaks ⟨.scalar Unit Unit Nat, .scalar Unit Unit Nat⟩ m op = false)
      (noObjects Nat Nat) (valueAndError 1 2 ++ [.copyAssign true false, .moveAssign false true]) =
        some _ from rfl)
  exact ⟨steps, _, hrun, hops, (one_alternative_iff (fun _ => rfl) hrun).mpr hall⟩

end VixStandard.Result
