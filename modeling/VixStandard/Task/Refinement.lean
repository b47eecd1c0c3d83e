import VixStandard.Task.Discipline
import VixStandard.Task.Program

/-!
# Task programs refine their resumptions

`denote` turns a body into a resumption with one `tau` for each statement that
only moves handles or control.  The machine and the resumption then go in lock
step: `Runs` relates a machine whose driver has resumed the Task `v` to what is
left of the computation, and every instruction takes the machine to the next
node of it (`exec_follows` in `Lockstep`).

The relation follows the chain of frames.  `Holds` is about one Task or Awaiter
variable, `At` about the innermost frame, and `Waits` about the frames above it,
which wait for it at a `co_await` or in a `start()`.
-/

namespace VixStandard.Task

open VixStandard.Lib VixStandard.Lib.Ownership Machine

variable {V : Type} [DecidableEq V] {n : Nat} {Val Exc Op Resp Mem : Type}
  {act : Op → Mem → Resp × Mem} {moved : Val → Val}

/-- What a Task local holds, with a coroutine as the resumption it runs as. -/
abbrev Content (Val Exc Op Resp : Type) :=
  Held Val Exc (Resumption Op Resp (Outcome Val Exc))

/-- A body as a resumption.  `E` says what the Task locals hold. -/
def denote {s : Bool} (kind : Kind) : Body n Val Exc Op Resp s →
    (Fin n → Content Val Exc Op Resp) → Resumption Op Resp (Outcome Val Exc)
  | .effect op k, E => .effect op fun r => denote kind (k r) E
  | .suspend k, E => .suspend (denote kind k E)
  | .call x kind' b k, E =>
    .tau (denote kind k (Function.update E x (.fresh (denote kind' b fun _ => .empty))))
  | .callStarted x kind' b k, E =>
    .tau (.tau ((denote kind' b fun _ => .empty).bind fun o =>
      denote kind k (Function.update E x (.completed o))))
  | .await x k, E =>
    .tau (match E x with
      | .empty =>
        .tau (.tau (.tau (denote kind (k (.error .emptyAwait)) (Function.update E x .empty))))
      | .completed o => .tau (.tau (.tau (denote kind (k o) (Function.update E x .empty))))
      | .fresh t =>
        .tau (t.bind fun o => .tau (.tau (denote kind (k o) (Function.update E x .empty)))))
  | .coReturn r k, E =>
    .tau (match kind, r with
      | .void, _ => .done (.ok none)
      | .value, .ok v => .done (.ok (some v))
      | .value, .error e => denote .value (k e) E)
  | .throw e, _ => .tau (.done (.error e))

/-- What a Task local holds, with its coroutine run to the end. -/
def Held.finish (act : Op → Mem → Resp × Mem) : Content Val Exc Op Resp →
    Held Val Exc (Mem → Resumption.Result Op Mem (Outcome Val Exc))
  | .empty => .empty
  | .fresh t => .fresh (t.finish act)
  | .completed o => .completed o

@[simp] theorem Held.finish_empty :
    (Held.empty : Content Val Exc Op Resp).finish act = .empty := rfl

@[simp] theorem Held.finish_fresh (t : Resumption Op Resp (Outcome Val Exc)) :
    (Held.fresh t).finish act = .fresh (t.finish act) := rfl

@[simp] theorem Held.finish_completed (o : Outcome Val Exc) :
    (Held.completed o : Content Val Exc Op Resp).finish act = .completed o := rfl

/-- Running a body to the end is its direct-style execution. -/
theorem finish_denote {s : Bool} (kind : Kind) (b : Body n Val Exc Op Resp s)
    (E : Fin n → Content Val Exc Op Resp) (mem : Mem) :
    (denote kind b E).finish act mem = direct act kind b (fun x => (E x).finish act) mem := by
  have hupdate : ∀ (E : Fin n → Content Val Exc Op Resp) x H,
      (fun y => (Function.update E x H y).finish act) =
        Function.update (fun y => (E y).finish act) x (H.finish act) :=
    fun E x H => Function.comp_update (Held.finish act) E x H
  induction b generalizing kind E mem with
  | effect op k ih => simp only [denote, Resumption.finish, direct, ih]
  | suspend k ih => simp only [denote, Resumption.finish, direct, ih]
  | call x kind' b k ihb ihk =>
    have hb : (denote kind' b fun _ => .empty).finish act = direct act kind' b fun _ => .empty :=
      funext fun mem => ihb kind' _ mem
    simp only [denote, Resumption.finish, direct, ihk, hupdate, Held.finish_fresh, hb]
  | callStarted x kind' b k ihb ihk =>
    simp only [denote, Resumption.finish, direct, Resumption.finish_bind, ihb]
    congr 1
    funext o mem
    rw [ihk, hupdate]
    rfl
  | await x k ih =>
    simp only [denote, Resumption.finish, direct]
    cases hx : E x with
    | empty =>
      have hsame : Function.update (fun y => (E y).finish act) x .empty =
          fun y => (E y).finish act :=
        Function.update_eq_self_iff.mpr (by rw [hx, Held.finish_empty])
      simp only [Resumption.finish, ih, hupdate, Held.finish_empty, hsame]
    | completed o => simp only [Resumption.finish, Held.finish_completed, Held.finish_empty, ih, hupdate]
    | fresh t =>
      simp only [Resumption.finish, Resumption.finish_bind, Held.finish_fresh, Held.finish_empty, ih,
        hupdate]
  | coReturn r k ih =>
    cases kind <;> cases r <;> simp only [denote, Resumption.finish, direct, ih]
  | throw e => rfl

/-! ## The relation -/

/-- The outcome of awaiting what is held, if that does not run a coroutine. -/
def Held.ready : Content Val Exc Op Resp → Option (Outcome Val Exc)
  | .empty => some (.error .emptyAwait)
  | .fresh _ => none
  | .completed o => some o

/-- The handle of a Task or Awaiter variable is as `Held` says.  `s` bounds which
coroutines may suspend. -/
inductive Holds (m : Machine (program V n Exc act moved)) (s : Bool) :
    Option Addr → Content Val Exc Op Resp → Prop where
  | empty : Holds m s none .empty
  | fresh {c : Addr} {kind : Kind} {s' : Bool} (b : Body n Val Exc Op Resp s')
      (hs : s' = true → s = true) (hc : m.heap c = some (.fresh kind (.body b))) :
      Holds m s (some c) (.fresh (denote kind b fun _ => .empty))
  | completed {c : Addr} {g : Frame (program V n Exc act moved)} {o : Outcome Val Exc}
      (hc : m.heap c = some g) (hpt : g.point = .final) (ho : g.outcome = .ok o)
      (hbare : ∀ x, g.slots x = none) : Holds m s (some c) (.completed o)

/-- A frame whose Task locals hold `E` and whose Awaiter holds `H` goes on as the
given resumption. -/
inductive At (m : Machine (program V n Exc act moved)) (f : Frame (program V n Exc act moved))
    (E : Fin n → Content Val Exc Op Resp) (H : Content Val Exc Op Resp) (s : Bool) :
    Resumption Op Resp (Outcome Val Exc) → Prop where
  | initial (b : Body n Val Exc Op Resp s) (hpt : f.point = .initial (.body b))
      (hH : H = .empty) : At m f E H s (denote f.kind b E)
  | external (b : Body n Val Exc Op Resp s) (hpt : f.point = .external (.body b))
      (hH : H = .empty) : At m f E H s (denote f.kind b E)
  | body (b : Body n Val Exc Op Resp s) (hpt : f.point = .running (.body b))
      (hH : H = .empty) : At m f E H s (denote f.kind b E)
  | starting {x : Fin n} {t : Resumption Op Resp (Outcome Val Exc)} (k : Body n Val Exc Op Resp s)
      (hpt : f.point = .running (.starting x k)) (hH : H = .empty) (hx : E x = .fresh t)
      (hfresh : Holds m false (f.slots (.inl x)) (.fresh t)) :
      At m f E H s (.tau (t.bind fun o => denote f.kind k (Function.update E x (.completed o))))
  | awaiting {o : Outcome Val Exc} (k : Outcome Val Exc → Body n Val Exc Op Resp s)
      (hpt : f.point = .running (.awaiting k)) (hH : H.ready = some o) :
      At m f E H s (.tau (.tau (.tau (denote f.kind (k o) E))))
  | awaitingFresh {t : Resumption Op Resp (Outcome Val Exc)}
      (k : Outcome Val Exc → Body n Val Exc Op Resp s) (hpt : f.point = .running (.awaiting k))
      (hH : H = .fresh t) :
      At m f E H s (.tau (t.bind fun o => .tau (.tau (denote f.kind (k o) E))))
  | resumed {o : Outcome Val Exc} (k : Outcome Val Exc → Body n Val Exc Op Resp s)
      (hpt : f.point = .resumed () fun r => .dropping (k r)) (hH : H.ready = some o) :
      At m f E H s (.tau (.tau (denote f.kind (k o) E)))
  | dropping {o : Outcome Val Exc} (b : Body n Val Exc Op Resp s)
      (hpt : f.point = .running (.dropping b)) (hH : H.ready = some o) :
      At m f E H s (.tau (denote f.kind b E))

/-- The frames above `child` up to the Task `v`.  They go on as the given
continuation when `child` completes; the list has those that wait in a `start()`.
`cont` is the continuation of `child`. -/
inductive Waits (m : Machine (program V n Exc act moved)) (v : V) : Bool → Addr → Option Addr →
    (Outcome Val Exc → Resumption Op Resp (Outcome Val Exc)) → List Addr → Prop where
  | root {s : Bool} {r : Addr} (hv : m.vars v = some (some r)) : Waits m v s r none .done []
  | awaited {s s' : Bool} {p child : Addr} {f : Frame (program V n Exc act moved)}
      {E : Fin n → Content Val Exc Op Resp} {cont : Option Addr}
      {K : Outcome Val Exc → Resumption Op Resp (Outcome Val Exc)} {st : List Addr}
      (k : Outcome Val Exc → Body n Val Exc Op Resp s) (hs : s' = true → s = true)
      (hf : m.heap p = some f) (hexc : f.promise.exception = none)
      (hcont : f.promise.continuation = cont)
      (hpt : f.point = .awaiting () fun r => .dropping (k r)) (hw : f.slots (.inr ()) = some child)
      (hE : ∀ x, Holds m s (f.slots (.inl x)) (E x)) (hrest : Waits m v s p cont K st) :
      Waits m v s' child (some p) (fun o => .tau (.tau ((denote f.kind (k o) E).bind K))) st
  | started {s : Bool} {p child : Addr} {f : Frame (program V n Exc act moved)} {x : Fin n}
      {E : Fin n → Content Val Exc Op Resp} {cont : Option Addr}
      {K : Outcome Val Exc → Resumption Op Resp (Outcome Val Exc)} {st : List Addr}
      (k : Body n Val Exc Op Resp s) (hf : m.heap p = some f) (hexc : f.promise.exception = none)
      (hcont : f.promise.continuation = cont) (hpt : f.point = .running (.body k))
      (hx : f.slots (.inl x) = some child) (hw : f.slots (.inr ()) = none)
      (hE : ∀ y, y ≠ x → Holds m s (f.slots (.inl y)) (E y)) (hrest : Waits m v s p cont K st) :
      Waits m v false child none
        (fun o => (denote f.kind k (Function.update E x (.completed o))).bind K) (p :: st)

/-- The chain of frames from the Task `v` down to its innermost frame `a`. -/
inductive Chain (m : Machine (program V n Exc act moved)) (v : V) (a : Addr) (st : List Addr) :
    Resumption Op Resp (Outcome Val Exc) → Prop where
  | mk {s : Bool} {f : Frame (program V n Exc act moved)} {E : Fin n → Content Val Exc Op Resp}
      {H : Content Val Exc Op Resp} {cont : Option Addr}
      {K : Outcome Val Exc → Resumption Op Resp (Outcome Val Exc)}
      {t : Resumption Op Resp (Outcome Val Exc)} (hf : m.heap a = some f)
      (hexc : f.promise.exception = none) (hcont : f.promise.continuation = cont)
      (hE : ∀ x, Holds m s (f.slots (.inl x)) (E x)) (hH : Holds m s (f.slots (.inr ())) H)
      (hat : At m f E H s t) (hwaits : Waits m v s a cont K st) : Chain m v a st (t.bind K)

/-- The Task `v` is being resumed, and goes on as the given resumption. -/
def Runs (m : Machine (program V n Exc act moved)) (v : V)
    (t : Resumption Op Resp (Outcome Val Exc)) : Prop :=
  ∃ a st, m.stack = a :: st ∧ Chain m v a st t

/-- The Task `v` is suspended, and goes on as the given resumption.  Its innermost
coroutine waits on an external awaitable, or is the root and has not started. -/
def Stops (m : Machine (program V n Exc act moved)) (v : V)
    (t : Resumption Op Resp (Outcome Val Exc)) : Prop :=
  ∃ a f, Chain m v a [] t ∧ m.heap a = some f ∧ ((∃ c, f.point = .external c) ∨
    (∃ c, f.point = .initial c) ∧ m.vars v = some (some a))

/-- The Task `v` has completed with the given outcome. -/
def Ends (m : Machine (program V n Exc act moved)) (v : V) (o : Outcome Val Exc) : Prop :=
  ∃ r, m.vars v = some (some r) ∧ Holds m true (some r) (.completed o)

/-! ## Frames outside the chain -/

section Frame

variable {m m' : Machine (program V n Exc act moved)} {v : V} {s : Bool} {a : Addr}

theorem Holds.frame {o : Option Addr} {H : Content Val Exc Op Resp} (h : Holds m s o H)
    (hkeep : ∀ c g, o = some c → m.heap c = some g → m'.heap c = some g) : Holds m' s o H := by
  cases h with
  | empty => exact .empty
  | fresh b hs hc => exact .fresh b hs (hkeep _ _ rfl hc)
  | completed hc hpt ho hbare => exact .completed (hkeep _ _ rfl hc) hpt ho hbare

/-- What a variable holds owns nothing and does not run. -/
theorem Holds.leaf {c : Addr} {H : Content Val Exc Op Resp} (h : Holds m s (some c) H) :
    ∃ g, m.heap c = some g ∧ (∀ x, g.slots x = none) ∧ g.point.isRunning = false := by
  cases h with
  | fresh b hs hc => exact ⟨_, hc, fun _ => rfl, rfl⟩
  | completed hc hpt ho hbare => exact ⟨_, hc, hbare, by rw [hpt]; rfl⟩

/-- A coroutine that may suspend is not inside a `start()`. -/
theorem Waits.stack_eq_nil {cont : Option Addr}
    {K : Outcome Val Exc → Resumption Op Resp (Outcome Val Exc)} {st : List Addr}
    (h : Waits m v s a cont K st) (hs : s = true) : st = [] := by
  induction h with
  | root hv => rfl
  | awaited k hs' hf hexc hcont hpt hw hE hrest ih => exact ih (hs' hs)
  | started k hf hexc hcont hpt hx hw hE hrest ih => cases hs

variable {rank : Addr → Nat}

/-- A frame is not below another one that the same frame owns. -/
theorem not_below_sibling (ho : Owned rank m []) {p c : Addr} {f : Frame (program V n Exc act moved)}
    {x y : Slot (program V n Exc act moved)} (hf : m.heap p = some f) (hx : f.slots x = some a)
    (hy : f.slots y = some c) (hxy : x ≠ y) : ¬ Below Place.home m.graph a c := by
  intro hb
  have hpa := holds_slot hf hx
  have hpc := holds_slot hf hy
  cases hb with
  | self => exact hxy (Place.slot.inj (ho.forest.unique hpa hpc)).2
  | held hab hq hc =>
    obtain rfl := ho.forest.unique hc hpc
    obtain rfl := Option.some.inj hq
    have hle := ho.forest.rank_le_of_below hab
    have hlt := ho.forest.ranked hpa rfl
    omega

theorem not_below_owner (ho : Owned rank m []) {p : Addr} {f : Frame (program V n Exc act moved)}
    {x : Slot (program V n Exc act moved)} (hf : m.heap p = some f) (hx : f.slots x = some a) :
    ¬ Below Place.home m.graph a p := by
  intro hb
  have hle := ho.forest.rank_le_of_below hb
  have hlt := ho.forest.ranked (holds_slot hf hx) rfl
  omega

/-- The frames above `a` do not notice what happens at and below it. -/
theorem Waits.frame {cont : Option Addr}
    {K : Outcome Val Exc → Resumption Op Resp (Outcome Val Exc)} {st : List Addr}
    (h : Waits m v s a cont K st) (ho : Owned rank m []) (hvars : m'.vars v = m.vars v)
    (hkeep : ∀ x g, m.heap x = some g → ¬ Below Place.home m.graph a x → m'.heap x = some g) :
    Waits m' v s a cont K st := by
  induction h with
  | root hv => exact .root (hvars.trans hv)
  | @awaited s s' p child f E cont K st k hs hf hexc hcont hpt hw hE hrest ih =>
    have hpc : Below Place.home m.graph p child := .held .self rfl (holds_slot hf hw)
    have hb : ∀ {x}, Below Place.home m.graph child x → Below Place.home m.graph p x :=
      fun hx => hpc.trans hx
    refine .awaited k hs (hkeep p f hf (not_below_owner ho hf hw)) hexc hcont hpt hw ?_
      (ih fun x g hg hx => hkeep x g hg fun hxb => hx (hb hxb))
    intro x
    refine (hE x).frame fun c g hc hg => hkeep c g hg ?_
    exact not_below_sibling ho hf hw hc Sum.inr_ne_inl
  | @started s p child f x E cont K st k hf hexc hcont hpt hx hw hE hrest ih =>
    have hpc : Below Place.home m.graph p child := .held .self rfl (holds_slot hf hx)
    have hb : ∀ {y}, Below Place.home m.graph child y → Below Place.home m.graph p y :=
      fun hy => hpc.trans hy
    refine .started k (hkeep p f hf (not_below_owner ho hf hx)) hexc hcont hpt hx hw ?_
      (ih fun y g hg hy => hkeep y g hg fun hyb => hy (hb hyb))
    intro y hy
    refine (hE y hy).frame fun c g hc hg => hkeep c g hg ?_
    exact not_below_sibling ho hf hx hc fun hxy => hy (Sum.inl.inj hxy).symm

end Frame

end VixStandard.Task
