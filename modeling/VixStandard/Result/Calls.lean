import Mathlib.Logic.Function.Iterate
import VixStandard.Result.Pipeline

/-!
# Calls on one object

A program calls `map`, `and_then` and `value_or` on a Result object as often as it
likes, in every overload, and uses the object again, also after a call that threw.
`calls` is such a sequence of calls, with what each returns or throws.

A call that throws leaves an object behind, which `Exec` does not keep.  So a
callable is a `Callee` here, and `transformOn` is the text of the overloads with
the object kept.  `Call.run_map` and `Call.run_andThen` say that the calls are those
of `Step.call`, which forgets the object that a throwing call leaves (`Acts.forget`).
Copies and moves of the error and the construction of the new value are taken not to
throw, as in `transform`.

The sequence is a loop over what the object holds, which never changes its
alternative: `onValue` invokes each callable once on the value so far, and `onError`
invokes none.  `Call.run_val`, `Call.run_err` and `Call.run_valueless` say what one
call does, and `calls_alternative` what a sequence does.
-/

namespace VixStandard

variable {G : Types} {t u : Option G.Tag} {A B : Type}

/-- Computations on a world. -/
abbrev Acts (G : Types) := StateM (World G)

/-- What a computation returns or throws. -/
abbrev Types.Throws (G : Types) (B : Type) := Except (Thrown G.Exc) B

/-- A computation that works on an object and leaves it behind.  What it leaves when it throws
is forgotten. -/
def Acts.forget (x : Acts G (G.Throws B × A)) : Exec G (B × A) :=
  ExceptT.mk do
    let (b, a) ← x
    pure (b.map fun b => (b, a))

/-- A callable that leaves its argument behind when it throws as well. -/
structure Callee (G : Types) (t : Option G.Tag) (B : Type) where
  name : Nat
  body : G.Ret t → Acts G (G.Throws B × G.Ret t)

def Callee.callable (f : Callee G t B) : Callable G t B := ⟨f.name, fun v => Acts.forget (f.body v)⟩

/-- `std::invoke`. -/
def Callee.invoke (f : Callee G t B) (v : G.Ret t) : Acts G (G.Throws B × G.Ret t) := do
  modify fun w => { w with log := w.log ++ [⟨f.name, t, v⟩] }
  f.body v

/-! ## The overloads -/

/-- The text of the overloads of `map` and `and_then`. -/
def transformOn (wrap : B → G.Res u) (keepArg : G.Ret t → G.Ret t → G.Ret t)
    (keepErr : G.Err → G.Err) (f : Callee G t B) (r : G.Res t) :
    Acts G (G.Throws (G.Res u) × G.Res t) :=
  if r.hasValue then
    match r.value with
    | .ok v => do
      let (b, v') ← f.invoke v
      pure (b.map wrap, .success (keepArg v v'))
    | .error e => pure (.error e, r)
  else
    match r.error with
    | .ok e => pure (.ok (.failure e), .failure (keepErr e))
    | .error e => pure (.error e, r)

/-- `value_or(U &&) const &`, for the copy constructor of the value and the construction
of the fallback. -/
def valueOrConstLvalue {t : G.Tag} (copy : G.Obj t → Acts G (G.Throws (G.Obj t)))
    (fallback : Acts G (G.Throws (G.Obj t))) (r : G.Res (some t)) :
    Acts G (G.Throws (G.Obj t) × G.Res (some t)) :=
  if r.hasValue then
    match r.value with
    | .ok v => do
      let w ← copy v
      pure (w, r)
    | .error e => pure (.error e, r)
  else do
    let w ← fallback
    pure (w, r)

/-- `value_or(U &&) &&`, for the move constructor of the value, which leaves something in its
argument. -/
def valueOrRvalue {t : G.Tag} (move : G.Obj t → Acts G (G.Throws (G.Obj t) × G.Obj t))
    (fallback : Acts G (G.Throws (G.Obj t))) (r : G.Res (some t)) :
    Acts G (G.Throws (G.Obj t) × G.Res (some t)) :=
  if r.hasValue then
    match r.value with
    | .ok v => do
      let (w, v') ← move v
      pure (w, .success v')
    | .error e => pure (.error e, r)
  else do
    let w ← fallback
    pure (w, r)

/-- Whether the callable gets its argument by a reference to const, or gets none. -/
def MapOverload.isConst : {t : Option G.Tag} → MapOverload G t → Bool
  | _, .constLvalue => true
  | _, .lvalue => false
  | _, .rvalue => false

def AndThenOverload.isConst : {t : Option G.Tag} → AndThenOverload G t → Bool
  | none, _ => true
  | some _, _ => false

/-- Whether the overload moves the error. -/
def MapOverload.movesErr : {t : Option G.Tag} → MapOverload G t → Bool
  | _, .rvalue => true
  | _, .lvalue => false
  | _, .constLvalue => false

def AndThenOverload.movesErr : {t : Option G.Tag} → AndThenOverload G t → Bool
  | _, .rvalue => true
  | _, .lvalue => false
  | _, .constLvalue => false

/-- What the callable leaves of the value. -/
def argAfter (isConst : Bool) (v v' : G.Ret t) : G.Ret t := if isConst then v else v'

/-- What the overload leaves of the error. -/
def errAfter (movesErr : Bool) (e : G.Err) : G.Err := if movesErr then G.movedErr e else e

/-- A call on an object. -/
inductive Call (G : Types) : Option G.Tag → Type where
  | map {t u : Option G.Tag} (o : MapOverload G t) (f : Callee G t (G.Ret u)) : Call G t
  | andThen {t u : Option G.Tag} (o : AndThenOverload G t) (f : Callee G t (G.Res u)) : Call G t
  | valueOrConstLvalue {t : G.Tag} (copy : G.Obj t → Acts G (G.Throws (G.Obj t)))
      (fallback : Acts G (G.Throws (G.Obj t))) : Call G (some t)
  | valueOrRvalue {t : G.Tag} (move : G.Obj t → Acts G (G.Throws (G.Obj t) × G.Obj t))
      (fallback : Acts G (G.Throws (G.Obj t))) : Call G (some t)

/-- What a call returns. -/
inductive Answer (G : Types) where
  | result {u : Option G.Tag} (r : G.Res u)
  | value {t : G.Tag} (v : G.Obj t)

/-- One call: what it returns or throws, and the object after it. -/
def Call.run : {t : Option G.Tag} → Call G t → G.Res t →
    Acts G (G.Throws (Answer G) × G.Res t)
  | _, .map o f, r => do
    let (a, r) ← transformOn .success (argAfter o.isConst) (errAfter o.movesErr) f r
    pure (a.map .result, r)
  | _, .andThen o f, r => do
    let (a, r) ← transformOn id (argAfter o.isConst) (errAfter o.movesErr) f r
    pure (a.map .result, r)
  | _, .valueOrConstLvalue copy fallback, r => do
    let (w, r) ← VixStandard.valueOrConstLvalue copy fallback r
    pure (w.map .value, r)
  | _, .valueOrRvalue move fallback, r => do
    let (w, r) ← VixStandard.valueOrRvalue move fallback r
    pure (w.map .value, r)

/-- The calls in order, on the same object.  The program goes on after an exception. -/
def calls : List (Call G t) → G.Res t →
    Acts G (List (G.Throws (Answer G)) × G.Res t)
  | [], r => pure ([], r)
  | c :: cs, r => do
    let (a, r) ← c.run r
    let (as, r) ← calls cs r
    pure (a :: as, r)

/-! ## The calls and the overloads -/

/-- Going on with what a computation has returned. -/
theorem Acts.forget_bind {C D : Type} (x : Acts G (G.Throws B × A)) (f : B → C) (g : A → D) :
    Acts.forget (do let (b, a) ← x; pure (b.map f, g a)) =
      (do let (b, a) ← Acts.forget x; pure (f b, g a)) := by
  apply ExceptT.ext
  simp only [Acts.forget, ExceptT.run_mk, ExceptT.run_bind, bind_assoc, pure_bind]
  congr 1
  funext ⟨b, a⟩
  cases b <;> rfl

theorem Callee.forget_invoke (f : Callee G t B) (v : G.Ret t) :
    Acts.forget (f.invoke v) = f.callable.invoke v := rfl

/-- The text with the object kept is the text of the overloads. -/
theorem forget_transformOn (wrap : B → G.Res u) (keepArg : G.Ret t → G.Ret t → G.Ret t)
    (keepErr : G.Err → G.Err) (f : Callee G t B) (r : G.Res t) :
    Acts.forget (transformOn wrap keepArg keepErr f r) =
      transform wrap keepArg keepErr f.callable r := by
  cases r with
  | val v =>
    have hbind := Acts.forget_bind (f.invoke v) wrap fun v' => (.val (keepArg v v') : G.Res t)
    rw [Callee.forget_invoke] at hbind
    simpa [transformOn, transform, Result.success] using hbind
  | err e => simp [transformOn, transform, Acts.forget, Except.map]; rfl
  | valueless => simp [transformOn, transform, Acts.forget, Except.map, Result.error]; rfl

theorem Step.call_map : {t u : Option G.Tag} → (o : MapOverload G t) →
    (f : Callable G t (G.Ret u)) → (r : G.Res t) →
    (Step.map o f).call r = transform .success (argAfter o.isConst) (errAfter o.movesErr) f r
  | some _, _, .lvalue, _, _ => rfl
  | some _, _, .constLvalue, _, _ => rfl
  | some _, _, .rvalue, _, _ => rfl
  | none, _, .constLvalue, _, _ => rfl

theorem Step.call_andThen : {t u : Option G.Tag} → (o : AndThenOverload G t) →
    (f : Callable G t (G.Res u)) → (r : G.Res t) →
    (Step.andThen o f).call r = transform id (argAfter o.isConst) (errAfter o.movesErr) f r
  | some _, _, .lvalue, _, _ => rfl
  | some _, _, .rvalue, _, _ => rfl
  | none, _, .constLvalue, _, _ => rfl
  | none, _, .rvalue, _, _ => rfl

/-- A call of `map` is the overload of it that `Step.call` selects. -/
theorem Call.run_map (o : MapOverload G t) (f : Callee G t (G.Ret u)) (r : G.Res t) :
    Acts.forget ((Call.map o f).run r) =
      (do let (a, r') ← (Step.map o f.callable).call r; pure (.result a, r')) := by
  rw [Step.call_map, ← forget_transformOn]
  exact Acts.forget_bind _ Answer.result id

theorem Call.run_andThen (o : AndThenOverload G t) (f : Callee G t (G.Res u)) (r : G.Res t) :
    Acts.forget ((Call.andThen o f).run r) =
      (do let (a, r') ← (Step.andThen o f.callable).call r; pure (.result a, r')) := by
  rw [Step.call_andThen, ← forget_transformOn]
  exact Acts.forget_bind _ Answer.result id

/-! ## One call -/

/-- A call on a plain value: what it returns or throws, and what it leaves of the value. -/
def Call.onValue : {t : Option G.Tag} → Call G t → G.Ret t →
    Acts G (G.Throws (Answer G) × G.Ret t)
  | _, .map (u := u) o f, v => do
    let (b, v') ← f.invoke v
    pure (b.map fun b => .result (.val b : G.Res u), argAfter o.isConst v v')
  | _, .andThen o f, v => do
    let (r, v') ← f.invoke v
    pure (r.map .result, argAfter o.isConst v v')
  | _, .valueOrConstLvalue copy _, v => do
    let w ← copy v
    pure (w.map .value, v)
  | _, .valueOrRvalue move _, v => do
    let (w, v') ← move v
    pure (w.map .value, v')

/-- Whether a call moves an error out of the object. -/
def Call.movesErr : {t : Option G.Tag} → Call G t → Bool
  | _, .map o _ => o.movesErr
  | _, .andThen o _ => o.movesErr
  | _, .valueOrConstLvalue _ _ => false
  | _, .valueOrRvalue _ _ => false

/-- Whether a call has its object by a reference to const, or hands out none. -/
def Call.isConst : {t : Option G.Tag} → Call G t → Bool
  | _, .map o _ => o.isConst
  | _, .andThen o _ => o.isConst
  | _, .valueOrConstLvalue _ _ => true
  | _, .valueOrRvalue _ _ => false

/-- A call on an error: it is returned, and `value_or` evaluates its fallback. -/
def Call.onError : {t : Option G.Tag} → Call G t → G.Err →
    Acts G (G.Throws (Answer G) × G.Err)
  | _, .map (u := u) o _, e => pure (.ok (.result (.err e : G.Res u)), errAfter o.movesErr e)
  | _, .andThen (u := u) o _, e => pure (.ok (.result (.err e : G.Res u)), errAfter o.movesErr e)
  | _, .valueOrConstLvalue _ fallback, e => do
    let w ← fallback
    pure (w.map .value, e)
  | _, .valueOrRvalue _ fallback, e => do
    let w ← fallback
    pure (w.map .value, e)

/-- A call without any alternative: there is no error to return. -/
def Call.onValueless : {t : Option G.Tag} → Call G t → Unit →
    Acts G (G.Throws (Answer G) × Unit)
  | _, .map _ _, _ => pure (.error .badVariantAccess, ())
  | _, .andThen _ _, _ => pure (.error .badVariantAccess, ())
  | _, .valueOrConstLvalue _ fallback, _ => do
    let w ← fallback
    pure (w.map .value, ())
  | _, .valueOrRvalue _ fallback, _ => do
    let w ← fallback
    pure (w.map .value, ())

theorem Call.run_val : {t : Option G.Tag} → (c : Call G t) → (v : G.Ret t) →
    c.run (.val v) = (do let (a, v') ← c.onValue v; pure (a, .val v'))
  | _, .map (u := u) o f, v => by
    have hmap : ∀ b : G.Throws (G.Ret u), (b.map Result.success).map Answer.result =
        b.map fun b => Answer.result (.val b : G.Res u) := by
      rintro (e | b) <;> rfl
    simp [Call.run, Call.onValue, transformOn, hmap, Result.success]
  | _, .andThen o f, v => by
    simp [Call.run, Call.onValue, transformOn, Result.success]
  | _, .valueOrConstLvalue copy fallback, v => by
    simp [Call.run, Call.onValue, VixStandard.valueOrConstLvalue]
  | _, .valueOrRvalue move fallback, v => by
    simp [Call.run, Call.onValue, VixStandard.valueOrRvalue, Result.success]

theorem Call.run_err : {t : Option G.Tag} → (c : Call G t) → (e : G.Err) →
    c.run (.err e) = (do let (a, e') ← c.onError e; pure (a, .err e'))
  | _, .map o f, e => by
    simp [Call.run, Call.onError, transformOn, Result.failure, Except.map]
  | _, .andThen o f, e => by
    simp [Call.run, Call.onError, transformOn, Result.failure, Except.map]
  | _, .valueOrConstLvalue copy fallback, e => by
    simp [Call.run, Call.onError, VixStandard.valueOrConstLvalue]
  | _, .valueOrRvalue move fallback, e => by
    simp [Call.run, Call.onError, VixStandard.valueOrRvalue]

theorem Call.run_valueless : {t : Option G.Tag} → (c : Call G t) →
    c.run .valueless = (do let (a, _) ← c.onValueless (); pure (a, .valueless))
  | _, .map o f => by
    simp [Call.run, Call.onValueless, transformOn, Result.error, Except.map]
  | _, .andThen o f => by
    simp [Call.run, Call.onValueless, transformOn, Result.error, Except.map]
  | _, .valueOrConstLvalue copy fallback => by
    simp [Call.run, Call.onValueless, VixStandard.valueOrConstLvalue]
  | _, .valueOrRvalue move fallback => by
    simp [Call.run, Call.onValueless, VixStandard.valueOrRvalue]

/-- A value that the callable gets by a reference to const stays, also if it throws. -/
theorem Call.onValue_const : {t : Option G.Tag} → {c : Call G t} → (v : G.Ret t) →
    (w : World G) → c.isConst = true → (c.onValue v w).1.2 = v
  | _, .map _ _, _, _, hconst => if_pos hconst
  | _, .andThen _ _, _, _, hconst => if_pos hconst
  | _, .valueOrConstLvalue _ _, _, _, _ => rfl

theorem Call.onError_leaves : {t : Option G.Tag} → (c : Call G t) → (e : G.Err) →
    (w : World G) → (c.onError e w).1.2 = errAfter c.movesErr e
  | _, .map _ _, _, _ => rfl
  | _, .andThen _ _, _, _ => rfl
  | _, .valueOrConstLvalue _ _, _, _ => rfl
  | _, .valueOrRvalue _ _, _, _ => rfl

/-! ## All calls -/

/-- The loop of the calls over what an alternative holds. -/
def loop (act : Call G t → A → Acts G (G.Throws (Answer G) × A)) :
    List (Call G t) → A → Acts G (List (G.Throws (Answer G)) × A)
  | [], a => pure ([], a)
  | c :: cs, a => do
    let (b, a) ← act c a
    let (bs, a) ← loop act cs a
    pure (b :: bs, a)

/-- If a call keeps an alternative, so does a sequence of calls. -/
theorem calls_eq_loop {act : Call G t → A → Acts G (G.Throws (Answer G) × A)} (inj : A → G.Res t)
    (hrun : ∀ (c : Call G t) a, c.run (inj a) = (do let (b, a') ← act c a; pure (b, inj a')))
    (cs : List (Call G t)) (a : A) :
    calls cs (inj a) = (do let (bs, a') ← loop act cs a; pure (bs, inj a')) := by
  induction cs generalizing a with
  | nil => simp [calls, loop]
  | cons c cs ih => simp [calls, loop, hrun, ih]

/-- What one call relates, the loop relates after as many calls. -/
theorem loop_leaves {act : Call G t → A → Acts G (G.Throws (Answer G) × A)}
    {R : List (Call G t) → A → A → Prop} (hnil : ∀ a, R [] a a)
    (hcons : ∀ c cs a a' w, R cs (act c a w).1.2 a' → R (c :: cs) a a')
    (cs : List (Call G t)) (a : A) (w : World G) : R cs a (loop act cs a w).1.2 := by
  induction cs generalizing a w with
  | nil => exact hnil a
  | cons c cs ih => exact hcons c cs a _ w (ih _ (act c a w).2)

section Sequences

variable (cs : List (Call G t))

theorem calls_val (v : G.Ret t) :
    calls cs (.val v) = (do let (as, v') ← loop Call.onValue cs v; pure (as, .val v')) :=
  calls_eq_loop .val Call.run_val cs v

theorem calls_err (e : G.Err) :
    calls cs (.err e) = (do let (as, e') ← loop Call.onError cs e; pure (as, .err e')) :=
  calls_eq_loop .err Call.run_err cs e

theorem calls_valueless :
    calls cs .valueless = (do let (as, _) ← loop Call.onValueless cs (); pure (as, .valueless)) :=
  calls_eq_loop (fun _ : Unit => .valueless) (fun c _ => c.run_valueless) cs ()

theorem loop_onValue_const (v : G.Ret t) (w : World G) (hconst : ∀ c ∈ cs, c.isConst = true) :
    (loop Call.onValue cs v w).1.2 = v := by
  revert hconst
  refine loop_leaves (R := fun cs v v' => (∀ c ∈ cs, c.isConst = true) → v' = v)
    (fun _ _ => rfl) (fun c cs v v' w hrest hconst => ?_) cs v w
  rw [hrest fun c hc => hconst c (List.mem_cons_of_mem _ hc),
    Call.onValue_const v w (hconst c List.mem_cons_self)]

theorem loop_onError_leaves (e : G.Err) (w : World G) :
    (loop Call.onError cs e w).1.2 = G.movedErr^[cs.countP Call.movesErr] e := by
  refine loop_leaves (R := fun cs e e' => e' = G.movedErr^[cs.countP Call.movesErr] e)
    (fun _ => rfl) ?_ cs e w
  rintro c cs e e' w rfl
  rw [Call.onError_leaves, List.countP_cons, errAfter]
  split <;> rfl

/-- No sequence of `map`, `and_then` and `value_or` calls changes the alternative of the
object that it is made on, whatever the overloads are and whatever throws.  On a value it is
the loop that invokes each callable once, and with const overloads only the value stays.  On
an error it invokes none, evaluates the fallbacks only, and moves the error once for each call
of `map` or `and_then` on an rvalue.  Without any alternative every `map` and `and_then`
throws. -/
theorem calls_alternative :
    (∀ v, calls cs (.val v) =
      (do let (as, v') ← loop Call.onValue cs v; pure (as, .val v'))) ∧
    (∀ e, calls cs (.err e) =
      (do let (as, e') ← loop Call.onError cs e; pure (as, .err e'))) ∧
    (calls cs .valueless =
      (do let (as, _) ← loop Call.onValueless cs (); pure (as, .valueless))) ∧
    (∀ v w, (∀ c ∈ cs, c.isConst = true) → (calls cs (.val v) w).1.2 = .val v) ∧
    (∀ e w, (calls cs (.err e) w).1.2 = .err (G.movedErr^[cs.countP Call.movesErr] e)) ∧
    ∀ r w, (calls cs r w).1.2.index = r.index := by
  refine ⟨calls_val cs, calls_err cs, calls_valueless cs, fun v w hconst => ?_, fun e w => ?_,
    fun r w => ?_⟩
  · rw [calls_val]
    exact congrArg Result.val (loop_onValue_const cs v w hconst)
  · rw [calls_err]
    exact congrArg Result.err (loop_onError_leaves cs e w)
  · cases r with
    | val v => rw [calls_val]; rfl
    | err e => rw [calls_err]; rfl
    | valueless => rw [calls_valueless]; rfl

end Sequences

end VixStandard
