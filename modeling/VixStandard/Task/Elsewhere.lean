import VixStandard.Task.Lifecycle

/-!
# What a step does elsewhere

A body works on its own Task variables, on its Awaiters and on the frames that it calls
into being, and the driver on its own Task variables.

* `Leaves V T` says of an operation on handles that it keeps the variables of the driver
  outside `V`, the variables of the frames outside `T`, and all points.
* `Turns V A top` says of a step that it also keeps the points outside `A`, but for the
  coroutine `top` that is resumed, and that other new frames have not begun.
* `exec_turns` and `drive_turns` go through the statements and the operations of the
  driver, and `step_turns` joins them.  They do not depend on a discipline.
-/

namespace VixStandard.Task

open VixStandard.Lib Machine

variable {L : Lang}

/-- The place is one of the variables in `V`, or in one of the frames in `T`. -/
def Place.In (V : L.Var → Prop) (T : Addr → Prop) : Place L → Prop
  | .var v => V v
  | .slot a _ => T a

/-- `m'` has frames of `m`, where they were.  Only variables in `V` and in the frames in
`T` have changed. -/
structure Leaves (V : L.Var → Prop) (T : Addr → Prop) (m m' : Machine L) : Prop where
  vars : ∀ v, ¬ V v → m'.vars v = m.vars v
  frame : ∀ {x f'}, m'.heap x = some f' → ∃ f, m.heap x = some f ∧ f'.point = f.point ∧
    (¬ T x → f'.slots = f.slots)

/-- Outside `A` a frame is as it was, or it is new and has not begun, but `top` has been
resumed. -/
structure Turns (V : L.Var → Prop) (A : Addr → Prop) (top : Option Addr) (m m' : Machine L) :
    Prop where
  vars : ∀ v, ¬ V v → m'.vars v = m.vars v
  frame : ∀ {x f'}, ¬ A x → m'.heap x = some f' →
    (∃ f, m.heap x = some f ∧ f'.slots = f.slots ∧
      (f'.point = f.point ∨ top = some x ∧ f.point.enter = some f'.point)) ∨
    m.heap x = none ∧ (top = some x ∨ ∃ code, f'.point = .initial code)

variable {V : L.Var → Prop} {T A : Addr → Prop} {top : Option Addr} {m m' m₁ : Machine L}
  {a c : Addr} {p q : Place L} {o : Option Addr}

theorem Leaves.refl (m : Machine L) : Leaves V T m m :=
  ⟨fun _ _ => rfl, fun hf => ⟨_, hf, rfl, fun _ => rfl⟩⟩

theorem Leaves.trans (h : Leaves V T m m₁) (h' : Leaves V T m₁ m') : Leaves V T m m' := by
  refine ⟨fun v hv => (h'.vars v hv).trans (h.vars v hv), fun hf => ?_⟩
  obtain ⟨f₁, hf₁, hpt₁, hslots₁⟩ := h'.frame hf
  obtain ⟨f, hf, hpt, hslots⟩ := h.frame hf₁
  exact ⟨f, hf, hpt₁.trans hpt, fun hx => (hslots₁ hx).trans (hslots hx)⟩

/-- The variables of a frame in `T` change, or a promise. -/
theorem leaves_store {f f' : Frame L} (hf : m.heap a = some f) (hpt : f'.point = f.point)
    (hslots : ¬ T a → f'.slots = f.slots) : Leaves V T m (m.store a f') := by
  refine ⟨fun _ _ => rfl, fun hg => ?_⟩
  rcases heap_cases rfl hg with ⟨rfl, rfl⟩ | ⟨_, hg⟩
  · exact ⟨f, hf, hpt, hslots⟩
  · exact ⟨_, hg, rfl, fun _ => rfl⟩

/-! ## Operations on handles -/

theorem leaves_shrunk (h : Shrunk m m') : Leaves V T m m' :=
  ⟨fun v _ => by rw [h.vars], fun hf => ⟨_, h.heap hf, rfl, fun _ => rfl⟩⟩

theorem leaves_write (hp : p.In V T) (h : m.write p o = .ok m') : Leaves V T m m' := by
  cases p with
  | var v =>
    obtain rfl := Except.ok.inj h
    refine ⟨fun u hu => Function.update_of_ne ?_ _ _, fun hf => ⟨_, hf, rfl, fun _ => rfl⟩⟩
    rintro rfl
    exact hu hp
  | slot b s =>
    obtain ⟨f, hf, h⟩ := bind_eq_ok h
    obtain rfl := Except.ok.inj h
    exact leaves_store (frame_eq_ok hf) rfl fun hb => absurd hp hb

theorem leaves_exchange (hp : p.In V T) (h : m.exchange p = .ok (o, m')) : Leaves V T m m' := by
  obtain ⟨o', _, h⟩ := bind_eq_ok h
  obtain ⟨m₁, hwrite, h⟩ := bind_eq_ok h
  obtain ⟨_, rfl⟩ := Prod.mk.inj (Except.ok.inj h)
  exact leaves_write hp hwrite

theorem leaves_reset (hp : p.In V T) (h : m.reset p = .ok m') : Leaves V T m m' := by
  obtain ⟨o, _, h⟩ := bind_eq_ok h
  cases o with
  | none => exact Except.ok.inj h ▸ .refl m
  | some c =>
    obtain ⟨m₁, hdestroy, h⟩ := bind_eq_ok h
    exact (leaves_shrunk (shrunk_of_destroyAll hdestroy)).trans (leaves_write hp h)

theorem leaves_moveAssign (hp : p.In V T) (hq : q.In V T) (h : m.moveAssign p q = .ok m') :
    Leaves V T m m' := by
  rw [moveAssign] at h
  split at h
  · exact Except.ok.inj h ▸ .refl m
  · obtain ⟨m₁, hreset, h⟩ := bind_eq_ok h
    obtain ⟨⟨o, m₂⟩, hex, h⟩ := bind_eq_ok h
    exact (leaves_reset hp hreset).trans ((leaves_exchange hq hex).trans (leaves_write hp h))

theorem leaves_bindArgs {n : Addr} (hn : T n) {args : List (L.Local × Place L)} :
    ∀ {m : Machine L}, (∀ arg ∈ args, arg.2.In V T) → bindArgs n args m = .ok m' →
      Leaves V T m m' := by
  induction args with
  | nil =>
    intro m _ h
    exact Except.ok.inj h ▸ .refl m
  | cons arg args ih =>
    intro m hargs h
    obtain ⟨m₁, hmove, h⟩ := bind_eq_ok h
    have hparam : (Place.slot n (.inl arg.1)).In V T := hn
    exact (leaves_moveAssign hparam (hargs arg List.mem_cons_self) hmove).trans
      (ih (fun arg' hmem => hargs arg' (List.mem_cons_of_mem _ hmem)) h)

theorem leaves_leaveScope (ha : T a) (h : m.leaveScope a = .ok m') : Leaves V T m m' := by
  obtain ⟨f, hf, h⟩ := bind_eq_ok h
  have hleave : Leaves V T m (m.store a f.leave) :=
    leaves_store (frame_eq_ok hf) rfl fun hno => absurd ha hno
  exact hleave.trans (leaves_shrunk (shrunk_of_destroyAll h))

theorem leaves_unhandledException {e : Exn L.Exc} (h : m.unhandledException a e = .ok m') :
    Leaves V T m m' := by
  obtain ⟨f, hf, h⟩ := bind_eq_ok h
  obtain rfl := Except.ok.inj h
  exact leaves_store (frame_eq_ok hf) rfl fun _ => rfl

theorem leaves_awaitSuspend {b : Addr} (h : m.awaitSuspend p b = .ok (c, m')) :
    Leaves V T m m' := by
  obtain ⟨o, _, h⟩ := bind_eq_ok h
  cases o with
  | none => cases h
  | some d =>
    obtain ⟨f, hf, h⟩ := bind_eq_ok h
    obtain ⟨_, rfl⟩ := Prod.mk.inj (Except.ok.inj h)
    exact leaves_store (frame_eq_ok hf) rfl fun _ => rfl

theorem leaves_awaitResume {r : L.Outcome} (h : m.awaitResume p = .ok (r, m')) :
    Leaves V T m m' := by
  obtain ⟨o, _, h⟩ := bind_eq_ok h
  cases o with
  | none =>
    obtain ⟨_, rfl⟩ := Prod.mk.inj (Except.ok.inj h)
    exact .refl m
  | some d =>
    obtain ⟨f, hf, h⟩ := bind_eq_ok h
    obtain ⟨_, _, h⟩ := bind_eq_ok h
    obtain ⟨_, rfl⟩ := Prod.mk.inj (Except.ok.inj h)
    exact leaves_store (frame_eq_ok hf) f.moveOut_point fun _ => f.moveOut_slots

/-! ## Control -/

theorem Leaves.turns (h : Leaves V A m m') : Turns V A top m m' := by
  refine ⟨h.vars, fun hx hf => ?_⟩
  obtain ⟨f, hf, hpt, hslots⟩ := h.frame hf
  exact Or.inl ⟨f, hf, hslots hx, Or.inl hpt⟩

theorem Turns.leaves (h : Turns V A top m m₁) (h' : Leaves V A m₁ m') : Turns V A top m m' := by
  refine ⟨fun v hv => (h'.vars v hv).trans (h.vars v hv), fun hx hf => ?_⟩
  obtain ⟨f₁, hf₁, hpt₁, hslots₁⟩ := h'.frame hf
  rw [hpt₁, hslots₁ hx]
  exact h.frame hx hf₁

theorem Turns.withStack (h : Turns V A top m m₁) (stack : List Addr) :
    Turns V A top m { m₁ with stack := stack } := ⟨h.vars, h.frame⟩

theorem Turns.setPoint {pt : Point L} (h : Turns V A top m m₁) (ha : A a)
    (hset : m₁.setPoint a pt = .ok m') : Turns V A top m m' := by
  obtain ⟨f, _, hset⟩ := bind_eq_ok hset
  obtain rfl := Except.ok.inj hset
  refine ⟨h.vars, fun hx hg => ?_⟩
  rcases heap_cases rfl hg with ⟨rfl, _⟩ | ⟨_, hg⟩
  · exact absurd ha hx
  · exact h.frame hx hg

theorem Turns.resume (h : Turns V A none m m₁) (hresume : m₁.resume c = .ok m') :
    Turns V A (some c) m m' := by
  obtain ⟨g, hg, hresume⟩ := bind_eq_ok hresume
  split at hresume
  · rename_i pt hpt
    obtain rfl := Except.ok.inj hresume
    refine ⟨h.vars, fun hx hf => ?_⟩
    rcases heap_cases rfl hf with ⟨rfl, rfl⟩ | ⟨_, hf⟩
    · rcases h.frame hx (frame_eq_ok hg) with ⟨f, hf, hslots, hpoint | ⟨hno, _⟩⟩ | ⟨hnone, _⟩
      · exact Or.inl ⟨f, hf, hslots, Or.inr ⟨rfl, hpoint ▸ hpt⟩⟩
      · cases hno
      · exact Or.inr ⟨hnone, Or.inl rfl⟩
    · rcases h.frame hx hf with ⟨f, hf, hslots, hpoint | ⟨hno, _⟩⟩ | ⟨hnone, hno | hinitial⟩
      · exact Or.inl ⟨f, hf, hslots, Or.inl hpoint⟩
      · cases hno
      · cases hno
      · exact Or.inr ⟨hnone, Or.inr hinitial⟩
  · cases hresume

/-- What `start()` resumes is on top. -/
theorem turns_start {r : Except (Exn L.Exc) Unit} (h : m.start p = .ok (r, m')) :
    Turns V A m'.stack.head? m m' := by
  obtain ⟨o, _, h⟩ := bind_eq_ok h
  cases o with
  | none =>
    obtain ⟨_, rfl⟩ := Prod.mk.inj (Except.ok.inj h)
    exact (Leaves.refl m).turns
  | some d =>
    obtain ⟨f, _, h⟩ := bind_eq_ok h
    split at h
    · obtain ⟨_, rfl⟩ := Prod.mk.inj (Except.ok.inj h)
      exact (Leaves.refl m).turns
    · obtain ⟨m₁, hresume, h⟩ := bind_eq_ok h
      obtain ⟨_, rfl⟩ := Prod.mk.inj (Except.ok.inj h)
      have hstack := (resume_advances (T := A) hresume).2
      rw [hstack]
      exact (Leaves.refl m).turns.resume hresume

/-- A call adds a frame that has not begun. -/
theorem turns_call {kind : Kind} {body : L.Code} (hnext : m.heap m.next = none)
    (h : Leaves V (fun x => A x ∨ x = m.next) (m.create kind body).2 m') :
    Turns V A top m m' := by
  refine ⟨h.vars, fun hx hf => ?_⟩
  obtain ⟨f, hf, hpt, hslots⟩ := h.frame hf
  rcases heap_cases rfl hf with ⟨rfl, rfl⟩ | ⟨hne, hf⟩
  · exact Or.inr ⟨hnext, Or.inr ⟨body, hpt⟩⟩
  · exact Or.inl ⟨f, hf, hslots (not_or.mpr ⟨hx, hne⟩), Or.inl hpt⟩

/-! ## Statements -/

/-- What is awaited runs. -/
def AwaitsRunning (m : Machine L) (a : Addr) : Prop :=
  ∀ f w k c, m.heap a = some f → f.point = .awaiting w k → f.slots (.inr w) = some c → c ∈ m.stack

theorem awaitsRunning_of_point (h : ∀ f, m.heap a = some f → f.point.isAwaiting = false) :
    AwaitsRunning m a := by
  intro f w k c hf hpt _
  have hno := h f hf
  rw [hpt] at hno
  cases hno

theorem setPoint_point {pt : Point L} (h : m.setPoint a pt = .ok m') :
    ∀ f, m'.heap a = some f → f.point = pt := by
  obtain ⟨f, _, h⟩ := bind_eq_ok h
  obtain rfl := Except.ok.inj h
  intro g hg
  rcases heap_cases rfl hg with ⟨_, rfl⟩ | ⟨hne, _⟩
  · rfl
  · exact absurd rfl hne

theorem awaitsRunning_of_setPoint {pt : Point L} (hpt : pt.isAwaiting = false)
    (h : m.setPoint a pt = .ok m') : AwaitsRunning m' a :=
  awaitsRunning_of_point fun f hf => by rw [setPoint_point h f hf, hpt]

/-- Resuming a coroutine, be it `a` itself. -/
theorem awaitsRunning_of_resume (hno : ∀ f, m.heap a = some f → f.point.isAwaiting = false)
    (h : m.resume c = .ok m') : AwaitsRunning m' a := by
  refine awaitsRunning_of_point fun f hf => ?_
  obtain ⟨g, _, h⟩ := bind_eq_ok h
  split at h
  · rename_i pt hpt
    obtain rfl := Except.ok.inj h
    rcases heap_cases rfl hf with ⟨_, rfl⟩ | ⟨_, hf⟩
    · exact Point.not_awaiting_of_running (Point.running_of_enter hpt)
    · exact hno f hf
  · cases h

/-- The body goes on. -/
theorem Turns.goto {code : L.Code} (h : Turns V A m₁.stack.head? m m₁) (ha : A a)
    (hgoto : m₁.goto a code = .ok m') : Turns V A m'.stack.head? m m' ∧ AwaitsRunning m' a := by
  have hstack : m'.stack = m₁.stack := by
    obtain ⟨f, _, hgoto⟩ := bind_eq_ok hgoto
    exact Except.ok.inj hgoto ▸ rfl
  rw [hstack]
  exact ⟨h.setPoint ha hgoto, awaitsRunning_of_setPoint rfl hgoto⟩

theorem Leaves.goto {code : L.Code} (h : Leaves V A m m₁) (ha : A a)
    (hgoto : m₁.goto a code = .ok m') : Turns V A m'.stack.head? m m' ∧ AwaitsRunning m' a :=
  h.turns.goto ha hgoto

/-- The body has ended. -/
theorem Leaves.finalSuspend {rest : List Addr} (h : Leaves V A m m₁) (ha : A a)
    (hfinal : m₁.finalSuspend a rest = .ok m') :
    Turns V A m'.stack.head? m m' ∧ AwaitsRunning m' a := by
  obtain ⟨m₂, hset, hfinal⟩ := bind_eq_ok hfinal
  obtain ⟨f, _, hfinal⟩ := bind_eq_ok hfinal
  have hfinal₂ := setPoint_point hset
  split at hfinal
  · obtain rfl := Except.ok.inj hfinal
    refine ⟨(h.turns.setPoint ha hset).withStack rest, awaitsRunning_of_point fun g hg => ?_⟩
    rw [hfinal₂ g hg]
    rfl
  · have hstack := (resume_advances (T := A) hfinal).2
    rw [hstack]
    refine ⟨((h.turns.setPoint ha hset).withStack rest).resume hfinal, ?_⟩
    exact awaitsRunning_of_resume (fun g hg => by rw [hfinal₂ g hg]; rfl) hfinal

/-- The coroutine that `await_suspend` returns is the one that the Awaiter owns. -/
theorem awaitSuspend_reads {b : Addr} (h : m.awaitSuspend p b = .ok (c, m')) :
    m.read p = .ok (some c) := by
  obtain ⟨o, hread, h⟩ := bind_eq_ok h
  cases o with
  | none => cases h
  | some d =>
    obtain ⟨f, _, h⟩ := bind_eq_ok h
    obtain ⟨rfl, _⟩ := Prod.mk.inj (Except.ok.inj h)
    exact hread

theorem await_turns {rest : List Addr} {w : L.Aw} {k : L.Outcome → L.Code} (ha : A a)
    (h : m.perform a rest (.await w k) = .ok m') :
    Turns V A m'.stack.head? m m' ∧ AwaitsRunning m' a := by
  obtain ⟨ready, _, h⟩ := bind_eq_ok h
  cases ready with
  | true => exact ⟨(Leaves.refl m).turns.setPoint ha h, awaitsRunning_of_setPoint rfl h⟩
  | false =>
    obtain ⟨m₁, hset, h⟩ := bind_eq_ok h
    obtain ⟨⟨c, m₂⟩, hsuspend, h⟩ := bind_eq_ok h
    have hstack : m'.stack = c :: rest := (resume_advances (T := A) h).2
    have hturns : Turns V A none m { m₂ with stack := rest } :=
      (((Leaves.refl m).turns.setPoint ha hset).leaves (leaves_awaitSuspend hsuspend)).withStack rest
    rw [hstack]
    refine ⟨hturns.resume h, ?_⟩
    -- Between its suspension and the end of the step the frame of `a` does not change.
    have hafter : Turns (fun _ => False) (fun _ => False) (some c) m₁ m' :=
      ((leaves_awaitSuspend hsuspend).turns.withStack rest).resume h
    obtain ⟨f₁, hf₁, hread⟩ := bind_eq_ok (awaitSuspend_reads hsuspend)
    have hf₁ := frame_eq_ok hf₁
    intro f v k' d hf hpt hd
    rcases hafter.frame id hf with ⟨g, hg, hslots, hpoint | ⟨_, henter⟩⟩ | ⟨hnone, _⟩
    · obtain rfl : f₁ = g := Option.some.inj (hf₁.symm.trans hg)
      rw [setPoint_point hset f₁ hf₁, hpt] at hpoint
      obtain ⟨rfl, _⟩ := Point.awaiting.inj hpoint
      rw [← hslots, hd] at hread
      obtain rfl : d = c := Option.some.inj (Except.ok.inj hread)
      rw [hstack]
      exact List.mem_cons_self
    · have hrun := Point.running_of_enter henter
      rw [hpt] at hrun
      cases hrun
    · rw [hnone] at hf₁
      cases hf₁

/-- A statement of the body of `a`. -/
theorem perform_turns {rest : List Addr} {i : Instr L.Code L.Local L.Aw L.Val L.Exc L.Op L.Resp}
    (ha : A a) (hnext : m.heap m.next = none) (h : m.perform a rest i = .ok m') :
    Turns V A m'.stack.head? m m' ∧ AwaitsRunning m' a := by
  have hslot : ∀ s : Slot L, (Place.slot a s).In V A := fun _ => ha
  cases i with
  | effect op k =>
    have hmem : Leaves V A m { m with mem := (L.act op m.mem).2, log := m.log ++ [op] } :=
      ⟨fun _ _ => rfl, fun hf => ⟨_, hf, rfl, fun _ => rfl⟩⟩
    exact hmem.goto ha h
  | suspend k =>
    obtain ⟨m₁, hset, h⟩ := bind_eq_ok h
    obtain rfl := Except.ok.inj h
    exact ⟨((Leaves.refl m).turns.setPoint ha hset).withStack rest,
      awaitsRunning_of_point fun f hf => by rw [setPoint_point hset f hf]; rfl⟩
  | call x kind body args k =>
    obtain ⟨m₁, hbind, h⟩ := bind_eq_ok h
    obtain ⟨m₂, hreset, h⟩ := bind_eq_ok h
    obtain ⟨m₃, hwrite, h⟩ := bind_eq_ok h
    have hslot' : ∀ s : Slot L, (Place.slot a s).In V fun x => A x ∨ x = m.next :=
      fun _ => Or.inl ha
    have hargs : ∀ arg ∈ args.map fun p => (p.1, Place.slot a (.inl p.2)),
        arg.2.In V fun x => A x ∨ x = m.next := by
      simp only [List.mem_map]
      rintro arg ⟨p, _, rfl⟩
      exact hslot' _
    have hcall := (leaves_bindArgs (Or.inr rfl) hargs hbind).trans
      ((leaves_reset (hslot' _) hreset).trans (leaves_write (hslot' _) hwrite))
    exact (turns_call hnext hcall).goto ha h
  | move x y k =>
    obtain ⟨m₁, hmove, h⟩ := bind_eq_ok h
    exact (leaves_moveAssign (hslot _) (hslot _) hmove).goto ha h
  | drop x k =>
    obtain ⟨m₁, hreset, h⟩ := bind_eq_ok h
    exact (leaves_reset (hslot _) hreset).goto ha h
  | start x k =>
    obtain ⟨⟨r, m₁⟩, hstart, h⟩ := bind_eq_ok h
    exact (turns_start hstart).goto ha h
  | done x k =>
    obtain ⟨b, _, h⟩ := bind_eq_ok h
    exact (Leaves.refl m).goto ha h
  | result x k =>
    obtain ⟨r, _, h⟩ := bind_eq_ok h
    exact (Leaves.refl m).goto ha h
  | coAwait w x k =>
    obtain ⟨⟨o, m₁⟩, hex, h⟩ := bind_eq_ok h
    obtain ⟨m₂, hreset, h⟩ := bind_eq_ok h
    obtain ⟨m₃, hwrite, h⟩ := bind_eq_ok h
    exact ((leaves_exchange (hslot _) hex).trans
      ((leaves_reset (hslot _) hreset).trans (leaves_write (hslot _) hwrite))).goto ha h
  | moveAwaiter w v k =>
    obtain ⟨m₁, hmove, h⟩ := bind_eq_ok h
    exact (leaves_moveAssign (hslot _) (hslot _) hmove).goto ha h
  | dropAwaiter w k =>
    obtain ⟨m₁, hreset, h⟩ := bind_eq_ok h
    exact (leaves_reset (hslot _) hreset).goto ha h
  | await w k => exact await_turns ha h
  | coReturn r k =>
    obtain ⟨f, hf, _⟩ := bind_eq_ok h
    have hf := frame_eq_ok hf
    rw [coReturn_eq hf] at h
    have hstore : Leaves V A m (m.store a (returnValue f r).1) :=
      leaves_store hf (by rw [(returnValue_frame f r).1]) fun hno => absurd ha hno
    split at h
    · exact hstore.goto ha h
    · obtain ⟨m₁, hleave, h⟩ := bind_eq_ok h
      exact (hstore.trans (leaves_leaveScope ha hleave)).finalSuspend ha h
  | throw e =>
    obtain ⟨m₁, hleave, h⟩ := bind_eq_ok h
    obtain ⟨m₂, hexn, h⟩ := bind_eq_ok h
    exact ((leaves_leaveScope ha hleave).trans (leaves_unhandledException hexn)).finalSuspend ha h

/-! ## Steps -/

/-- A step of the running coroutine changes its own frame, and may resume another one. -/
theorem exec_turns {rest : List Addr} (hnext : m.heap m.next = none) (hstack : m.stack = a :: rest)
    (h : m.exec = .ok m') :
    Turns (fun _ => False) (fun x => x = a) m'.stack.head? m m' ∧ AwaitsRunning m' a := by
  rw [exec, hstack] at h
  obtain ⟨f, _, h⟩ := bind_eq_ok h
  split at h
  · exact perform_turns rfl hnext h
  · obtain ⟨⟨r, m₁⟩, hresume, h⟩ := bind_eq_ok h
    exact (leaves_awaitResume hresume).goto rfl h
  · cases h

/-- The driver changes its own variables, and may resume a coroutine. -/
theorem drive_turns {op : DriverOp L} (hnext : m.heap m.next = none) (h : m.drive op = .ok m') :
    Turns (fun _ => True) (fun _ => False) m'.stack.head? m m' := by
  have hvar : ∀ v : L.Var, (Place.var v).In (fun _ => True) (fun _ => False) := fun _ => trivial
  cases op with
  | create v kind body args =>
    obtain ⟨m₁, hbind, h⟩ := bind_eq_ok h
    have hargs : ∀ arg ∈ args.map fun p => (p.1, Place.var p.2),
        arg.2.In (fun _ => True) fun x => False ∨ x = m.next := by
      simp only [List.mem_map]
      rintro arg ⟨p, _, rfl⟩
      trivial
    have hvar' : (Place.var v).In (fun _ => True) fun x => False ∨ x = m.next := trivial
    exact turns_call hnext
      ((leaves_bindArgs (Or.inr rfl) hargs hbind).trans (leaves_write hvar' h))
  | defaultConstruct v =>
    have hwrite : m.write (.var v) none = .ok m' := h
    exact (leaves_write (hvar v) hwrite).turns
  | moveConstruct v w =>
    obtain ⟨⟨o, m₁⟩, hex, h⟩ := bind_eq_ok h
    exact ((leaves_exchange (hvar w) hex).trans (leaves_write (hvar v) h)).turns
  | moveAssign v w => exact (leaves_moveAssign (hvar v) (hvar w) h).turns
  | destroy v =>
    obtain ⟨m₁, hreset, h⟩ := bind_eq_ok h
    obtain rfl := Except.ok.inj h
    have hgone : Leaves (fun _ => True) (fun _ => False) m₁
        { m₁ with vars := Function.update m₁.vars v none } :=
      ⟨fun _ hu => absurd trivial hu, fun hf => ⟨_, hf, rfl, fun _ => rfl⟩⟩
    exact ((leaves_reset (hvar v) hreset).trans hgone).turns
  | start v =>
    obtain ⟨⟨r, m₁⟩, hstart, h⟩ := bind_eq_ok h
    obtain rfl := Except.ok.inj h
    exact turns_start hstart
  | resume a =>
    rw [(resume_advances (T := fun _ => False) h).2]
    exact (Leaves.refl m).turns.resume h

/-- A step, whoever makes it.  Only a running coroutine changes its own frame. -/
theorem step_turns {l : Label L} (hnext : m.heap m.next = none) (hen : l.Enabled m)
    (h : m.step l = .ok m') : ∃ V A, Turns V A m'.stack.head? m m' ∧
      ∀ x, A x → x ∈ m.stack ∧ AwaitsRunning m' x := by
  cases l with
  | drive op => exact ⟨_, _, drive_turns hnext h, fun x hx => absurd hx id⟩
  | exec =>
    obtain ⟨a, rest, hstack⟩ := List.exists_cons_of_ne_nil hen
    obtain ⟨hturns, hawaits⟩ := exec_turns hnext hstack h
    refine ⟨_, _, hturns, ?_⟩
    rintro x rfl
    exact ⟨hstack ▸ List.mem_cons_self, hawaits⟩

end VixStandard.Task
