import VixStandard.Result.Transform

/-!
# Pipelines of `map` and `and_then`

A pipeline is a sequence of steps whose value types fit, `void` included.  The
code runs every step on the Result of the one before it; after a failure each
step hands the error on.  `Pipeline.reference` is the loop that this stands for:
it records and runs the callables in order on plain values and leaves at the first
failure.

`Step.call_fst` says what one step does, whichever overload it selects.  From
it, `pipeline_eq_reference` follows by induction, and so does that a suffix can
be moved into the callable of an `and_then` before it.
-/

namespace VixStandard

variable {G : Types} {t u w : Option G.Tag}

/-- The overloads of `map`, by the kind of `*this`. -/
inductive MapOverload (G : Types) : Option G.Tag → Type where
  | lvalue {t : G.Tag} : MapOverload G (some t)
  | constLvalue {t : Option G.Tag} : MapOverload G t
  | rvalue {t : G.Tag} : MapOverload G (some t)

/-- The overloads of `and_then`, by the kind of `*this`. -/
inductive AndThenOverload (G : Types) : Option G.Tag → Type where
  | lvalue {t : G.Tag} : AndThenOverload G (some t)
  | constLvalue : AndThenOverload G none
  | rvalue {t : Option G.Tag} : AndThenOverload G t

/-- One step, with the overload it selects. -/
inductive Step (G : Types) : Option G.Tag → Option G.Tag → Type where
  | map {t u : Option G.Tag} (o : MapOverload G t) (f : Callable G t (G.Ret u)) : Step G t u
  | andThen {t u : Option G.Tag} (o : AndThenOverload G t) (f : Callable G t (G.Res u)) :
      Step G t u

/-- What a step does to the Result it is called on. -/
def Step.call : {t u : Option G.Tag} → Step G t u → G.Res t → Exec G (G.Res u × G.Res t)
  | some _, _, .map .lvalue f, r => mapLvalue f r
  | some _, _, .map .constLvalue f, r => mapConstLvalue f r
  | some _, _, .map .rvalue f, r => mapRvalue f r
  | none, _, .map .constLvalue f, r => voidMap f r
  | some _, _, .andThen .lvalue f, r => andThenLvalue f r
  | some _, _, .andThen .rvalue f, r => andThenRvalue f r
  | none, _, .andThen .constLvalue f, r => voidAndThenConstLvalue f r
  | none, _, .andThen .rvalue f, r => voidAndThenRvalue f r

/-- A step's callable on a plain value: one invocation is recorded, and what the callable
answers is a Result. -/
def Step.answer : Step G t u → G.Ret t → Exec G (G.Res u)
  | .map _ f, v => do
    modify fun world => { world with log := world.log ++ [⟨f.name, t, v⟩] }
    let (b, _) ← f.body v
    pure (.success b)
  | .andThen _ f, v => do
    modify fun world => { world with log := world.log ++ [⟨f.name, t, v⟩] }
    let (r, _) ← f.body v
    pure r

/-- A pipeline from values of type `t` to values of type `u`. -/
inductive Pipeline (G : Types) : Option G.Tag → Option G.Tag → Type where
  | nil {t : Option G.Tag} : Pipeline G t t
  | cons {t u w : Option G.Tag} (s : Step G t u) (p : Pipeline G u w) : Pipeline G t w

namespace Pipeline

/-- Each step is called on the Result of the step before it. -/
def run : {t u : Option G.Tag} → Pipeline G t u → G.Res t → Exec G (G.Res u)
  | _, _, nil, r => pure r
  | _, _, cons s p, r => do
    let (r, _) ← s.call r
    p.run r

def append : {t u w : Option G.Tag} → Pipeline G t u → Pipeline G u w → Pipeline G t w
  | _, _, _, nil, q => q
  | _, _, _, cons s p, q => cons s (p.append q)

/-- The reference loop: the steps in order on the value so far, up to the first
failure.  A Result without any alternative has no error to return. -/
def reference : {t u : Option G.Tag} → Pipeline G t u → G.Res t → Exec G (G.Res u)
  | _, _, nil, r => pure r
  | _, _, cons s p, .val v => do
    match ← s.answer v with
    | .err e => pure (.failure e)
    | r => p.reference r
  | _, _, cons _ _, .err e => pure (.failure e)
  | _, _, cons _ _, .valueless => throw .badVariantAccess

end Pipeline

/-! ## One step -/

/-- A step as the reference loop sees it. -/
def Step.effect (s : Step G t u) : G.Res t → Exec G (G.Res u)
  | .val v => s.answer v
  | .err e => pure (.failure e)
  | .valueless => throw .badVariantAccess

theorem Step.call_fst_of_transform {B : Type} {s : Step G t u} {wrap : B → G.Res u}
    {keepArg : G.Ret t → G.Ret t → G.Ret t} {keepErr : G.Err → G.Err} {f : Callable G t B}
    (hcall : ∀ r, s.call r = transform wrap keepArg keepErr f r)
    (hanswer : ∀ v, s.answer v = (do let p ← f.invoke v; pure (wrap p.1))) (r : G.Res t) :
    (do let p ← s.call r; pure p.1) = s.effect r := by
  rw [hcall]
  cases r with
  | val v => exact (transform_val v).trans (hanswer v).symm
  | err e => exact transform_err e
  | valueless => exact transform_valueless

theorem Step.answer_map (o : MapOverload G t) (f : Callable G t (G.Ret u)) (v : G.Ret t) :
    (Step.map o f).answer v = (do let p ← f.invoke v; pure (.success p.1)) := by
  simp [Step.answer, Callable.invoke]

theorem Step.answer_andThen (o : AndThenOverload G t) (f : Callable G t (G.Res u)) (v : G.Ret t) :
    (Step.andThen o f).answer v = (do let p ← f.invoke v; pure p.1) := by
  simp [Step.answer, Callable.invoke]

/-- Whichever overload a step selects, it invokes its callable once on a value,
and on an error nothing, which it hands on as it is. -/
theorem Step.call_fst : {t u : Option G.Tag} → (s : Step G t u) → (r : G.Res t) →
    (do let p ← s.call r; pure p.1) = s.effect r
  | some _, _, .map .lvalue f, r => call_fst_of_transform (fun _ => rfl) (answer_map _ f) r
  | some _, _, .map .constLvalue f, r => call_fst_of_transform (fun _ => rfl) (answer_map _ f) r
  | some _, _, .map .rvalue f, r => call_fst_of_transform (fun _ => rfl) (answer_map _ f) r
  | none, _, .map .constLvalue f, r => call_fst_of_transform (fun _ => rfl) (answer_map _ f) r
  | some _, _, .andThen .lvalue f, r => call_fst_of_transform (fun _ => rfl) (answer_andThen _ f) r
  | some _, _, .andThen .rvalue f, r => call_fst_of_transform (fun _ => rfl) (answer_andThen _ f) r
  | none, _, .andThen .constLvalue f, r => call_fst_of_transform (fun _ => rfl) (answer_andThen _ f) r
  | none, _, .andThen .rvalue f, r => call_fst_of_transform (fun _ => rfl) (answer_andThen _ f) r

namespace Pipeline

theorem run_cons (s : Step G t u) (p : Pipeline G u w) (r : G.Res t) :
    (cons s p).run r = s.effect r >>= p.run := by
  rw [← Step.call_fst]
  simp [run]

/-- After a failure nothing is invoked, and the error arrives unchanged. -/
theorem run_err (p : Pipeline G t u) (e : G.Err) : p.run (.err e) = pure (.err e) := by
  induction p with
  | nil => rfl
  | cons s p ih =>
    rw [run_cons]
    simp [Step.effect, Result.failure, ih]

theorem run_append (p : Pipeline G t u) (q : Pipeline G u w) (r : G.Res t) :
    (p.append q).run r = p.run r >>= q.run := by
  induction p with
  | nil => simp [append, run]
  | cons s p ih =>
    simp only [append, run_cons, bind_assoc]
    congr
    funext r'
    exact ih q r'

/-- The pipeline is the reference loop. -/
theorem run_reference (p : Pipeline G t u) (r : G.Res t) : p.run r = p.reference r := by
  induction p with
  | nil => rfl
  | cons s p ih =>
    rw [run_cons]
    cases r with
    | val v =>
      simp only [Step.effect, reference]
      congr
      funext r
      cases r with
      | err e => exact run_err p e
      | val v => exact ih _
      | valueless => exact ih _
    | err e => exact run_err p e
    | valueless => rfl

end Pipeline

/-! ## Re-association -/

/-- The callable of an `and_then` with a pipeline moved into it. -/
def Callable.extend (f : Callable G t (G.Res u)) (q : Pipeline G u w) : Callable G t (G.Res w) where
  name := f.name
  body v := do
    let (r, v') ← f.body v
    let r ← q.run r
    pure (r, v')

theorem Step.effect_extend (o : AndThenOverload G t) (f : Callable G t (G.Res u))
    (q : Pipeline G u w) (r : G.Res t) :
    (Step.andThen o (f.extend q)).effect r = (Step.andThen o f).effect r >>= q.run := by
  cases r with
  | val v => simp [Step.effect, Step.answer, Callable.extend]
  | err e =>
    simp only [Step.effect, Result.failure, pure_bind]
    exact (q.run_err e).symm
  | valueless => rfl

/-- A pipeline returns what the reference loop returns, with the same invocations
in the same order, and so does every re-association of it: a suffix `q` can move
into the callable of the `and_then` before it. -/
theorem pipeline_eq_reference (p : Pipeline G t u) (r : G.Res t) :
    p.run r = p.reference r ∧
      ∀ {x y z : Option G.Tag} (o : AndThenOverload G x) (f : Callable G x (G.Res y))
        (p₁ : Pipeline G t x) (q : Pipeline G y z),
        (p₁.append (.cons (.andThen o f) q)).run r =
          (p₁.append (.cons (.andThen o (f.extend q)) .nil)).run r := by
  refine ⟨p.run_reference r, ?_⟩
  intro x y z o f p₁ q
  have hstep : (Pipeline.cons (.andThen o f) q).run =
      (Pipeline.cons (.andThen o (f.extend q)) .nil).run := by
    funext r'
    rw [Pipeline.run_cons, Pipeline.run_cons, Step.effect_extend, bind_assoc]
    exact congrArg _ (funext fun r'' => (bind_pure _).symm)
  rw [Pipeline.run_append, Pipeline.run_append, hstep]

end VixStandard
