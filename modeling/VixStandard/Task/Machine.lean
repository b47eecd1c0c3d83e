import Mathlib.Logic.Function.Basic
import VixStandard.Lib.Transition

/-!
# Coroutine frames, Tasks and Awaiters

The heap of coroutine frames that `Task.hpp` works on, and the operations of
`Task<T>`, `Task<void>`, their Awaiters and their promises on it.

* A frame holds its promise, the point its body stands at, and its by-value
  Task parameters, Task locals and Awaiters.  A destroyed frame is gone from
  the heap, so a later use of its handle is a fault.
* `Task<T>`, `Task<void>` and the two Awaiter classes each own one handle, and
  their special members have the same text.  `Place` is where such a handle is
  kept, and `reset`, `exchange` and `moveAssign` are that text.
* A body is a program over `Instr`.  `Lang` says what the code of a body is and
  how it goes on; nothing below depends on what that code computes.
* The machine executes one instruction of the running coroutine at a time.
  `stack` lists the running coroutines, the innermost `resume()` first.
  Symmetric transfer replaces its head.

What C++ leaves undefined is a `Fault`.
-/

namespace VixStandard.Task

open VixStandard.Lib

/-- The address of a coroutine frame, that is a coroutine handle. -/
abbrev Addr := Nat

/-- The class a coroutine returns: `Task<T>` or `Task<void>`. -/
inductive Kind where
  | value
  | void
  deriving DecidableEq, Repr

/-- An exception: a `std::logic_error` of the library, or one of the program. -/
inductive Exn (Exc : Type) where
  | logicError (what : String)
  | user (e : Exc)
  deriving DecidableEq, Repr

def Exn.emptyAwait {Exc : Type} : Exn Exc := .logicError "Cannot await an empty vix::Task."

def Exn.noCoroutine {Exc : Type} : Exn Exc := .logicError "vix::Task does not own a coroutine."

def Exn.notCompleted {Exc : Type} : Exn Exc :=
  .logicError "vix::Task result requested before completion."

/-- What `result()` and `await_resume()` give: an exception, or the value of a
`Task<T>`, or no value for a `Task<void>`. -/
abbrev Outcome (Val Exc : Type) := Except (Exn Exc) (Option Val)

/-- The ways to leave defined behaviour. -/
inductive Fault where
  /-- A handle of a destroyed frame is resumed, inspected or destroyed. -/
  | dangling
  /-- A coroutine that is not suspended is resumed or destroyed, or one at its
  final suspension is resumed. -/
  | notSuspended
  /-- `*promise.value_` without a value. -/
  | emptyValue
  /-- A null handle is used. -/
  | nullHandle
  deriving DecidableEq, Repr

/-! ## Coroutine bodies -/

/-- One statement of a coroutine body, with the code that follows it.  `Local`
names by-value Task parameters and Task locals, `Aw` names Awaiters. -/
inductive Instr (Code Local Aw Val Exc Op Resp : Type) where
  /-- A side effect on the program's state. -/
  | effect (op : Op) (k : Resp → Code)
  /-- `co_await` of an external awaitable that suspends. -/
  | suspend (k : Code)
  /-- `x = coroutine(args)`: each pair binds a parameter to a moved local. -/
  | call (x : Local) (kind : Kind) (body : Code) (args : List (Local × Local)) (k : Code)
  /-- `x = std::move(y)`. -/
  | move (x y : Local) (k : Code)
  /-- The destructor of the Task local `x`. -/
  | drop (x : Local) (k : Code)
  /-- `x.start()`. -/
  | start (x : Local) (k : Except (Exn Exc) Unit → Code)
  /-- `x.done()`. -/
  | done (x : Local) (k : Bool → Code)
  /-- `x.result()`. -/
  | result (x : Local) (k : Outcome Val Exc → Code)
  /-- `w = operator co_await(std::move(x))`. -/
  | coAwait (w : Aw) (x : Local) (k : Code)
  /-- `w = std::move(v)` between Awaiters. -/
  | moveAwaiter (w v : Aw) (k : Code)
  /-- The destructor of the Awaiter `w`. -/
  | dropAwaiter (w : Aw) (k : Code)
  /-- `co_await w`. -/
  | await (w : Aw) (k : Outcome Val Exc → Code)
  /-- `co_return`: `r` is what constructing the value gives, and `k` handles an
  exception of that construction.  In a `Task<void>` it is `co_return;`. -/
  | coReturn (r : Except (Exn Exc) Val) (k : Exn Exc → Code)
  /-- An exception leaves the body. -/
  | throw (e : Exn Exc)

/-- The parameters of the model: the types a program works with, what its code
does next, how a side effect acts, what a move leaves behind, and the names of
the Task and Awaiter variables of a frame. -/
structure Lang where
  Code : Type
  Var : Type
  Local : Type
  Aw : Type
  Val : Type
  Exc : Type
  Op : Type
  Resp : Type
  Mem : Type
  next : Code → Instr Code Local Aw Val Exc Op Resp
  act : Op → Mem → Resp × Mem
  /-- The value left in an object that was moved from. -/
  moved : Val → Val
  /-- By-value parameters live as long as the frame; other locals end with the body. -/
  isParam : Local → Bool
  locals : List Local
  awaiters : List Aw
  locals_nodup : locals.Nodup
  awaiters_nodup : awaiters.Nodup
  mem_locals : ∀ x, x ∈ locals
  mem_awaiters : ∀ w, w ∈ awaiters
  [decVar : DecidableEq Var]
  [decLocal : DecidableEq Local]
  [decAw : DecidableEq Aw]

attribute [instance] Lang.decVar Lang.decLocal Lang.decAw

variable {L : Lang}

abbrev Lang.Outcome (L : Lang) := Task.Outcome L.Val L.Exc

/-- A Task or Awaiter variable of a frame. -/
abbrev Slot (L : Lang) := L.Local ⊕ L.Aw

/-- The variables of a frame. -/
def Lang.slots (L : Lang) : List (Slot L) := L.locals.map .inl ++ L.awaiters.map .inr

/-- The variables that end with the body. -/
def Slot.scoped : Slot L → Bool
  | .inl x => !L.isParam x
  | .inr _ => true

/-- Where an owning handle is kept: in a Task variable of the driver, or in a
Task or Awaiter variable of a frame. -/
inductive Place (L : Lang) where
  | var (v : L.Var)
  | slot (a : Addr) (s : Slot L)
  deriving DecidableEq

/-! ## Frames -/

/-- Where a coroutine stands. -/
inductive Point (L : Lang) where
  /-- At `initial_suspend()`. -/
  | initial (c : L.Code)
  /-- Suspended on an external awaitable. -/
  | external (c : L.Code)
  /-- Suspended at `co_await w`. -/
  | awaiting (w : L.Aw) (k : L.Outcome → L.Code)
  /-- Executing. -/
  | running (c : L.Code)
  /-- Past the suspension of `co_await w`, `await_resume()` comes next. -/
  | resumed (w : L.Aw) (k : L.Outcome → L.Code)
  /-- At `final_suspend()`. -/
  | final

/-- What `resume()` does to the point of a coroutine.  It is defined on a
suspended coroutine that is not at its final suspension. -/
def Point.enter : Point L → Option (Point L)
  | .initial c => some (.running c)
  | .external c => some (.running c)
  | .awaiting w k => some (.resumed w k)
  | .running _ => none
  | .resumed _ _ => none
  | .final => none

/-- `handle.done()`. -/
def Point.isFinal : Point L → Bool
  | .final => true
  | _ => false

/-- Whether the coroutine is executing. -/
def Point.isRunning : Point L → Bool
  | .running _ => true
  | .resumed _ _ => true
  | _ => false

/-- Whether the coroutine is suspended at a `co_await` of a Task. -/
def Point.isAwaiting : Point L → Bool
  | .awaiting _ _ => true
  | _ => false

/-- `promise_type` of `Task<T>`.  That of `Task<void>` has no `value`. -/
structure Promise (L : Lang) where
  value : Option L.Val
  exception : Option (Exn L.Exc)
  continuation : Option Addr

def Promise.fresh : Promise L := ⟨none, none, none⟩

/-- A coroutine frame. -/
structure Frame (L : Lang) where
  kind : Kind
  promise : Promise L
  point : Point L
  slots : Slot L → Option Addr

/-- The frame of a coroutine that was just called. -/
def Frame.fresh (kind : Kind) (body : L.Code) : Frame L :=
  ⟨kind, .fresh, .initial body, fun _ => none⟩

/-- The handles that the variables of a frame own. -/
def Frame.handles (f : Frame L) : List Addr := L.slots.filterMap f.slots

/-- The handles that the variables ending with the body own. -/
def Frame.scopedHandles (f : Frame L) : List Addr :=
  (L.slots.filter Slot.scoped).filterMap f.slots

/-- The frame without the variables that end with the body. -/
def Frame.leave (f : Frame L) : Frame L :=
  { f with slots := fun s => if s.scoped then none else f.slots s }

/-- `rethrow_if_exception()`, then the value: the last two lines of `result()`. -/
def Frame.outcome (f : Frame L) : Except Fault L.Outcome :=
  match f.promise.exception with
  | some e => .ok (.error e)
  | none =>
    match f.kind with
    | .void => .ok (.ok none)
    | .value =>
      match f.promise.value with
      | some v => .ok (.ok (some v))
      | none => .error .emptyValue

/-- The frame after its value was moved out, as `await_resume()` does unless it
rethrows. -/
def Frame.moveOut (f : Frame L) : Frame L :=
  match f.promise.exception with
  | some _ => f
  | none => { f with promise := { f.promise with value := f.promise.value.map L.moved } }

/-! ## The machine -/

/-- The state of a program: the frames, the Task variables of the driver, the
running coroutines, the program's state, and a record of the side effects and
of the frames destroyed, both oldest first. -/
structure Machine (L : Lang) where
  heap : Addr → Option (Frame L)
  next : Addr
  /-- `none`: no such variable; `some none`: an empty Task. -/
  vars : L.Var → Option (Option Addr)
  stack : List Addr
  mem : L.Mem
  log : List L.Op
  destroyed : List Addr

/-- The state before the driver has done anything. -/
def Machine.start0 (mem : L.Mem) : Machine L :=
  ⟨fun _ => none, 0, fun _ => none, [], mem, [], []⟩

namespace Machine

/-- The frame behind a handle. -/
def frame (m : Machine L) (a : Addr) : Except Fault (Frame L) :=
  match m.heap a with
  | some f => .ok f
  | none => .error .dangling

def store (m : Machine L) (a : Addr) (f : Frame L) : Machine L :=
  { m with heap := Function.update m.heap a (some f) }

def setPoint (m : Machine L) (a : Addr) (pt : Point L) : Except Fault (Machine L) := do
  let f ← m.frame a
  .ok (m.store a { f with point := pt })

/-- The body of `a` goes on with `c`. -/
def goto (m : Machine L) (a : Addr) (c : L.Code) : Except Fault (Machine L) :=
  m.setPoint a (.running c)

/-- The `handle_` member of the Task or Awaiter at a place. -/
def read (m : Machine L) : Place L → Except Fault (Option Addr)
  | .var v => .ok (m.vars v).join
  | .slot a s => do
    let f ← m.frame a
    .ok (f.slots s)

def write (m : Machine L) (p : Place L) (h : Option Addr) : Except Fault (Machine L) :=
  match p with
  | .var v => .ok { m with vars := Function.update m.vars v (some h) }
  | .slot a s => do
    let f ← m.frame a
    .ok (m.store a { f with slots := Function.update f.slots s h })

/-- `std::exchange(handle_, {})`. -/
def exchange (m : Machine L) (p : Place L) : Except Fault (Option Addr × Machine L) := do
  let h ← m.read p
  let m ← m.write p none
  .ok (h, m)

/-- Destroys the frames in `work`, and for each of them the frames that its
variables own.  Every round ends a live frame, and no more than `m.next` frames
exist, so fuel `m.next` never runs out before a dead handle is met. -/
def destroyAll : Nat → List Addr → Machine L → Except Fault (Machine L)
  | _, [], m => .ok m
  | 0, _ :: _, _ => .error .dangling
  | fuel + 1, a :: work, m => do
    let f ← m.frame a
    if f.point.isRunning then .error .notSuspended
    else
      destroyAll fuel (f.handles ++ work)
        { m with heap := Function.update m.heap a none, destroyed := m.destroyed ++ [a] }

/-- `handle.destroy()`. -/
def destroy (m : Machine L) (a : Addr) : Except Fault (Machine L) := destroyAll m.next [a] m

/-- `reset()` of a Task or Awaiter, and their destructors. -/
def reset (m : Machine L) (p : Place L) : Except Fault (Machine L) := do
  match ← m.read p with
  | none => .ok m
  | some a => do
    let m ← m.destroy a
    m.write p none

/-- `operator=(T &&other)` of a Task or Awaiter. -/
def moveAssign (m : Machine L) (p other : Place L) : Except Fault (Machine L) :=
  if p = other then .ok m
  else do
    let m ← m.reset p
    let (h, m) ← m.exchange other
    m.write p h

/-- A coroutine call: the frame is allocated and suspends at once, and
`get_return_object()` yields its handle. -/
def create (m : Machine L) (kind : Kind) (body : L.Code) : Addr × Machine L :=
  (m.next, { m with
    heap := Function.update m.heap m.next (some (.fresh kind body))
    next := m.next + 1 })

/-- Moves the arguments of a call into the parameters of the new frame `n`. -/
def bindArgs (n : Addr) : List (L.Local × Place L) → Machine L → Except Fault (Machine L)
  | [], m => .ok m
  | (x, q) :: args, m => do
    let m ← m.moveAssign (.slot n (.inl x)) q
    bindArgs n args m

/-- `handle.resume()`, up to the point where the coroutine runs. -/
def resume (m : Machine L) (a : Addr) : Except Fault (Machine L) := do
  let f ← m.frame a
  match f.point.enter with
  | some pt => .ok { m.store a { f with point := pt } with stack := a :: m.stack }
  | none => .error .notSuspended

/-! ### Task -/

/-- `Task::start()`: what it throws, and the state in which the coroutine runs. -/
def start (m : Machine L) (p : Place L) : Except Fault (Except (Exn L.Exc) Unit × Machine L) := do
  match ← m.read p with
  | none => .ok (.error .noCoroutine, m)
  | some a => do
    let f ← m.frame a
    if f.point.isFinal then .ok (.ok (), m)
    else do
      let m ← m.resume a
      .ok (.ok (), m)

/-- `Task::done()`. -/
def done (m : Machine L) (p : Place L) : Except Fault Bool := do
  match ← m.read p with
  | none => .ok false
  | some a => do
    let f ← m.frame a
    .ok f.point.isFinal

/-- `Task::result()`. -/
def result (m : Machine L) (p : Place L) : Except Fault L.Outcome := do
  match ← m.read p with
  | none => .ok (.error .noCoroutine)
  | some a => do
    let f ← m.frame a
    if f.point.isFinal then f.outcome else .ok (.error .notCompleted)

/-! ### Awaiter -/

/-- `Awaiter::await_ready()`. -/
def awaitReady (m : Machine L) (p : Place L) : Except Fault Bool := do
  match ← m.read p with
  | none => .ok true
  | some a => do
    let f ← m.frame a
    .ok f.point.isFinal

/-- `Awaiter::await_suspend(continuation)`: the handle it returns. -/
def awaitSuspend (m : Machine L) (p : Place L) (continuation : Addr) :
    Except Fault (Addr × Machine L) := do
  match ← m.read p with
  | none => .error .nullHandle
  | some a => do
    let f ← m.frame a
    .ok (a, m.store a { f with promise := { f.promise with continuation := some continuation } })

/-- `Awaiter::await_resume()`.  Moving the value out of the promise is taken not to throw. -/
def awaitResume (m : Machine L) (p : Place L) : Except Fault (L.Outcome × Machine L) := do
  match ← m.read p with
  | none => .ok (.error .emptyAwait, m)
  | some a => do
    let f ← m.frame a
    let r ← f.outcome
    .ok (r, m.store a f.moveOut)

/-! ### The end of a body -/

/-- The variables that end with the body of `a` are destroyed. -/
def leaveScope (m : Machine L) (a : Addr) : Except Fault (Machine L) := do
  let f ← m.frame a
  destroyAll m.next f.scopedHandles (m.store a f.leave)

/-- `final_suspend()` and `FinalAwaiter::await_suspend`: the continuation runs
in place of the completed coroutine `a`, or control returns to the resumer. -/
def finalSuspend (m : Machine L) (a : Addr) (rest : List Addr) : Except Fault (Machine L) := do
  let m ← m.setPoint a .final
  let f ← m.frame a
  match f.promise.continuation with
  | none => .ok { m with stack := rest }
  | some p => resume { m with stack := rest } p

/-- `return_value` of `Task<T>` stores the value, or throws what its
construction throws, which leaves `value_` empty.  `return_void` of `Task<void>`
does nothing. -/
def returnValue (f : Frame L) (r : Except (Exn L.Exc) L.Val) : Frame L × Option (Exn L.Exc) :=
  match f.kind, r with
  | .void, _ => (f, none)
  | .value, .ok v => ({ f with promise := { f.promise with value := some v } }, none)
  | .value, .error e => ({ f with promise := { f.promise with value := none } }, some e)

/-- `unhandled_exception()`. -/
def unhandledException (m : Machine L) (a : Addr) (e : Exn L.Exc) : Except Fault (Machine L) := do
  let f ← m.frame a
  .ok (m.store a { f with promise := { f.promise with exception := some e } })

/-! ### Execution -/

/-- Executes one instruction of the running coroutine `a`.  The coroutines in
`rest` wait below it for their `resume()` calls to return. -/
def perform (m : Machine L) (a : Addr) (rest : List Addr) :
    Instr L.Code L.Local L.Aw L.Val L.Exc L.Op L.Resp → Except Fault (Machine L)
  | .effect op k =>
    goto { m with mem := (L.act op m.mem).2, log := m.log ++ [op] } a (k (L.act op m.mem).1)
  | .suspend k => do
    let m ← m.setPoint a (.external k)
    .ok { m with stack := rest }
  | .call x kind body args k => do
    let (n, m) := m.create kind body
    let m ← bindArgs n (args.map fun p => (p.1, .slot a (.inl p.2))) m
    let m ← m.reset (.slot a (.inl x))
    let m ← m.write (.slot a (.inl x)) (some n)
    m.goto a k
  | .move x y k => do
    let m ← m.moveAssign (.slot a (.inl x)) (.slot a (.inl y))
    m.goto a k
  | .drop x k => do
    let m ← m.reset (.slot a (.inl x))
    m.goto a k
  | .start x k => do
    let (r, m) ← m.start (.slot a (.inl x))
    m.goto a (k r)
  | .done x k => do
    let b ← m.done (.slot a (.inl x))
    m.goto a (k b)
  | .result x k => do
    let r ← m.result (.slot a (.inl x))
    m.goto a (k r)
  | .coAwait w x k => do
    let (h, m) ← m.exchange (.slot a (.inl x))
    let m ← m.reset (.slot a (.inr w))
    let m ← m.write (.slot a (.inr w)) h
    m.goto a k
  | .moveAwaiter w v k => do
    let m ← m.moveAssign (.slot a (.inr w)) (.slot a (.inr v))
    m.goto a k
  | .dropAwaiter w k => do
    let m ← m.reset (.slot a (.inr w))
    m.goto a k
  | .await w k => do
    if ← m.awaitReady (.slot a (.inr w)) then m.setPoint a (.resumed w k)
    else do
      let m ← m.setPoint a (.awaiting w k)
      let (c, m) ← m.awaitSuspend (.slot a (.inr w)) a
      resume { m with stack := rest } c
  | .coReturn r k => do
    let f ← m.frame a
    let (f, thrown) := returnValue f r
    let m := m.store a f
    match thrown with
    | some e => m.goto a (k e)
    | none => do
      let m ← m.leaveScope a
      m.finalSuspend a rest
  | .throw e => do
    let m ← m.leaveScope a
    let m ← m.unhandledException a e
    m.finalSuspend a rest

/-- One step of the running coroutine. -/
def exec (m : Machine L) : Except Fault (Machine L) :=
  match m.stack with
  | [] => .ok m
  | a :: rest => do
    let f ← m.frame a
    match f.point with
    | .running c => m.perform a rest (L.next c)
    | .resumed w k => do
      let (r, m) ← m.awaitResume (.slot a (.inr w))
      m.goto a (k r)
    | _ => .error .notSuspended

end Machine

/-! ## The driver -/

/-- What the code outside all coroutines does with its Task variables.  It asks `done()` and
`result()` at any time, which changes nothing; what is done through the references that
`result()` returns is an `Access`.  No Task is kept in a result, and a body resumes coroutines
by `start()` and `co_await` only. -/
inductive DriverOp (L : Lang) where
  /-- `Task v = coroutine(args)`. -/
  | create (v : L.Var) (kind : Kind) (body : L.Code) (args : List (L.Local × L.Var))
  /-- `Task v;`. -/
  | defaultConstruct (v : L.Var)
  /-- `Task v(std::move(w))`. -/
  | moveConstruct (v w : L.Var)
  /-- `v = std::move(w)`. -/
  | moveAssign (v w : L.Var)
  /-- The destructor of `v`. -/
  | destroy (v : L.Var)
  /-- `v.start()`. -/
  | start (v : L.Var)
  /-- The external awaitable of a suspended leaf resumes its handle. -/
  | resume (a : Addr)

/-- The operations that a C++ driver can express in a state: the variables it
names are in scope or not as the operation needs, and a handle that an external
awaitable resumes is one that is suspended on it. -/
def DriverOp.Enabled (m : Machine L) : DriverOp L → Prop
  | .create v _ _ args => m.vars v = none ∧ ∀ p ∈ args, m.vars p.2 ≠ none
  | .defaultConstruct v => m.vars v = none
  | .moveConstruct v w => m.vars v = none ∧ m.vars w ≠ none
  | .moveAssign v w => m.vars v ≠ none ∧ m.vars w ≠ none
  | .destroy v => m.vars v ≠ none
  | .start v => m.vars v ≠ none
  | .resume a => ∃ f c, m.heap a = some f ∧ f.point = .external c

/-- Whether the coroutine behind a handle is suspended on an external awaitable. -/
def Machine.isExternal (m : Machine L) (a : Addr) : Bool :=
  match m.heap a with
  | some f =>
    match f.point with
    | .external _ => true
    | _ => false
  | none => false

theorem Machine.isExternal_iff {m : Machine L} {a : Addr} :
    m.isExternal a = true ↔ ∃ f c, m.heap a = some f ∧ f.point = .external c := by
  cases hf : m.heap a with
  | none => simp [Machine.isExternal, hf]
  | some f => cases hpt : f.point <;> simp [Machine.isExternal, hf, hpt]

instance (m : Machine L) (op : DriverOp L) : Decidable (op.Enabled m) :=
  match op with
  | .create _ _ _ _ => inferInstanceAs (Decidable (_ ∧ _))
  | .defaultConstruct _ => inferInstanceAs (Decidable (_ = none))
  | .moveConstruct _ _ => inferInstanceAs (Decidable (_ ∧ _))
  | .moveAssign _ _ => inferInstanceAs (Decidable (_ ∧ _))
  | .destroy _ => inferInstanceAs (Decidable (_ ≠ none))
  | .start _ => inferInstanceAs (Decidable (_ ≠ none))
  | .resume _ => decidable_of_iff _ Machine.isExternal_iff

def Machine.drive (m : Machine L) : DriverOp L → Except Fault (Machine L)
  | .create v kind body args => do
    let (n, m) := m.create kind body
    let m ← Machine.bindArgs n (args.map fun p => (p.1, .var p.2)) m
    m.write (.var v) (some n)
  | .defaultConstruct v => m.write (.var v) none
  | .moveConstruct v w => do
    let (h, m) ← m.exchange (.var w)
    m.write (.var v) h
  | .moveAssign v w => m.moveAssign (.var v) (.var w)
  | .destroy v => do
    let m ← m.reset (.var v)
    .ok { m with vars := Function.update m.vars v none }
  | .start v => do
    let (_, m) ← m.start (.var v)
    .ok m
  | .resume a => m.resume a

/-- A step of the program: the driver's, or one of the running coroutine. -/
inductive Label (L : Lang) where
  | drive (op : DriverOp L)
  | exec

/-- The driver acts when no coroutine runs. -/
def Label.Enabled (m : Machine L) : Label L → Prop
  | .drive op => m.stack = [] ∧ op.Enabled m
  | .exec => m.stack ≠ []

instance (m : Machine L) (l : Label L) : Decidable (l.Enabled m) :=
  match l with
  | .drive op => inferInstanceAs (Decidable (m.stack = [] ∧ op.Enabled m))
  | .exec => inferInstanceAs (Decidable (m.stack ≠ []))

def Machine.step (m : Machine L) : Label L → Except Fault (Machine L)
  | .drive op => m.drive op
  | .exec => m.exec

/-- The runs of a program. -/
def system (L : Lang) : Transition (Machine L) (Label L) Fault where
  init m := ∃ mem, m = .start0 mem
  enabled m l := l.Enabled m
  step := Machine.step

instance (m : Machine L) (l : Label L) : Decidable ((system L).enabled m l) :=
  inferInstanceAs (Decidable (l.Enabled m))

end VixStandard.Task
