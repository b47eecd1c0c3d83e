import Mathlib.Data.List.FinRange
import VixStandard.Lib.Resumption
import VixStandard.Task.Machine

/-!
# Task programs and their direct-style meaning

`Body` is the language of coroutine bodies that only await sub-tasks: side
effects, suspensions, `co_return`, `throw`, and `co_await` of a Task local that
holds a fresh coroutine, a completed one or none.  The index says whether the
body may suspend.  A coroutine that is started before it is awaited has to
complete in that `start()`, so its body may not.

* `next` says which statements of `Instr` a body executes, and `program` is the
  resulting instance of `Lang`.
* `direct` runs an awaited body inline and ignores suspensions, apart from
  counting them.
-/

namespace VixStandard.Task

open VixStandard.Lib

/-- A coroutine body with `n` Task locals. -/
inductive Body (n : Nat) (Val Exc Op Resp : Type) : Bool → Type where
  /-- A side effect. -/
  | effect {s : Bool} (op : Op) (k : Resp → Body n Val Exc Op Resp s) : Body n Val Exc Op Resp s
  /-- `co_await` of an external awaitable that suspends. -/
  | suspend (k : Body n Val Exc Op Resp true) : Body n Val Exc Op Resp true
  /-- `x = f();` -/
  | call {s : Bool} (x : Fin n) (kind : Kind) (b k : Body n Val Exc Op Resp s) :
      Body n Val Exc Op Resp s
  /-- `x = f(); x.start();` -/
  | callStarted {s : Bool} (x : Fin n) (kind : Kind) (b : Body n Val Exc Op Resp false)
      (k : Body n Val Exc Op Resp s) : Body n Val Exc Op Resp s
  /-- `co_await std::move(x)`, with what it throws caught. -/
  | await {s : Bool} (x : Fin n) (k : Outcome Val Exc → Body n Val Exc Op Resp s) :
      Body n Val Exc Op Resp s
  /-- `co_return`, with what the construction of the value throws caught. -/
  | coReturn {s : Bool} (r : Except (Exn Exc) Val) (k : Exn Exc → Body n Val Exc Op Resp s) :
      Body n Val Exc Op Resp s
  | throw {s : Bool} (e : Exn Exc) : Body n Val Exc Op Resp s

/-- The code of a body: between two of its statements, or inside one. -/
inductive Code (n : Nat) (Val Exc Op Resp : Type) where
  | body {s : Bool} (b : Body n Val Exc Op Resp s)
  /-- `x.start()` comes next. -/
  | starting {s : Bool} (x : Fin n) (k : Body n Val Exc Op Resp s)
  /-- The Awaiter is made, and is awaited next. -/
  | awaiting {s : Bool} (k : Outcome Val Exc → Body n Val Exc Op Resp s)
  /-- The Awaiter is destroyed next. -/
  | dropping {s : Bool} (b : Body n Val Exc Op Resp s)

variable {n : Nat} {Val Exc Op Resp Mem : Type}

/-- The statement that a piece of code executes next. -/
def Code.next : Code n Val Exc Op Resp →
    Instr (Code n Val Exc Op Resp) (Fin n) Unit Val Exc Op Resp
  | .body (.effect op k) => .effect op fun r => .body (k r)
  | .body (.suspend k) => .suspend (.body k)
  | .body (.call x kind b k) => .call x kind (.body b) [] (.body k)
  | .body (.callStarted x kind b k) => .call x kind (.body b) [] (.starting x k)
  | .body (.await x k) => .coAwait () x (.awaiting k)
  | .body (.coReturn r k) => .coReturn r fun e => .body (k e)
  | .body (.throw e) => .throw e
  | .starting x k => .start x fun
    | .ok () => .body k
    | .error e => .body (.throw e : Body n Val Exc Op Resp true)
  | .awaiting k => .await () fun r => .dropping (k r)
  | .dropping b => .dropAwaiter () (.body b)

/-- The programs over `Body` whose driver has Task variables `Var`, for a program
state `Mem` on which `act` gives the meaning of the side effects. -/
abbrev program (Var : Type) [DecidableEq Var] (n : Nat) {Val Op Resp Mem : Type} (Exc : Type)
    (act : Op → Mem → Resp × Mem) (moved : Val → Val) : Lang where
  Code := Code n Val Exc Op Resp
  Var := Var
  Local := Fin n
  Aw := Unit
  Val := Val
  Exc := Exc
  Op := Op
  Resp := Resp
  Mem := Mem
  next := Code.next
  act := act
  moved := moved
  isParam _ := false
  locals := List.finRange n
  awaiters := [()]
  locals_nodup := List.nodup_finRange n
  awaiters_nodup := List.nodup_singleton ()
  mem_locals := List.mem_finRange
  mem_awaiters _ := List.mem_singleton.mpr rfl

/-! ## Direct style -/

/-- What a Task local holds: no coroutine, one that has not started and runs as
`run`, or one that has completed. -/
inductive Held (Val Exc R : Type) where
  | empty
  | fresh (run : R)
  | completed (o : Outcome Val Exc)

/-- What a body does when every awaited body runs inline.  `E` says what the Task
locals hold. -/
def direct (act : Op → Mem → Resp × Mem) {s : Bool} (kind : Kind) :
    Body n Val Exc Op Resp s →
      (Fin n → Held Val Exc (Mem → Resumption.Result Op Mem (Outcome Val Exc))) →
      Mem → Resumption.Result Op Mem (Outcome Val Exc)
  | .effect op k, E, mem =>
    let r := direct act kind (k (act op mem).1) E (act op mem).2
    { r with effects := op :: r.effects }
  | .suspend k, E, mem =>
    let r := direct act kind k E mem
    { r with suspensions := r.suspensions + 1 }
  | .call x kind' b k, E, mem =>
    direct act kind k (Function.update E x (.fresh (direct act kind' b fun _ => .empty))) mem
  | .callStarted x kind' b k, E, mem =>
    (direct act kind' b (fun _ => .empty) mem).andThen fun o =>
      direct act kind k (Function.update E x (.completed o))
  | .await x k, E, mem =>
    match E x with
    | .empty => direct act kind (k (.error .emptyAwait)) E mem
    | .completed o => direct act kind (k o) (Function.update E x .empty) mem
    | .fresh run => (run mem).andThen fun o => direct act kind (k o) (Function.update E x .empty)
  | .coReturn r k, E, mem =>
    match kind, r with
    | .void, _ => ⟨.ok none, mem, [], 0⟩
    | .value, .ok v => ⟨.ok (some v), mem, [], 0⟩
    | .value, .error e => direct act .value (k e) E mem
  | .throw e, _, mem => ⟨.error e, mem, [], 0⟩

/-! ## A small program -/

/-- Programs without side effects, over natural numbers. -/
abbrev Plain : Lang :=
  program Unit 1 Unit (fun (_ : Unit) (mem : Unit) => ((), mem)) fun v : Nat => v

/-- Suspends once, then returns 1. -/
def suspendOnce : Body 1 Nat Unit Unit Unit true :=
  .suspend (.coReturn (.ok 1) .throw)

/-- Awaits `suspendOnce`, and returns 2 if that gives a result. -/
def awaitValue (kind : Kind) : Body 1 Nat Unit Unit Unit true :=
  .call 0 kind suspendOnce (.await 0 fun
    | .ok _ => .coReturn (.ok 2) .throw
    | .error e => .throw e)

/-- The Task is created and started, and its child suspends. -/
def toSuspension (kind : Kind) : List (Label Plain) :=
  [.drive (.create () kind (.body (awaitValue kind)) []), .drive (.start ()), .exec, .exec, .exec,
    .exec]

end VixStandard.Task
