import VixStandard.Lib.Relational
import VixStandard.Task.Discipline

/-!
# The same steps on a part of another heap

A coroutine reaches other frames through its variables and its continuation, and
through frames that it makes.  So its steps do not depend on where these frames
lie, nor on any other frame.

`Sim` makes this precise for two machines `m` and `n`.  The frames `D` of `m` and
its Task variables `X` form a region that no handle leaves, and `n` has the same
region with the addresses renamed by `g`.  Outside the region `m` is as `m₀`.  A
`Scope` says which code may stand in the region, which side effects that code may
perform, and how the states of the two programs correspond.

Every operation keeps the relation if both machines perform it.  `Sim.exec`
assembles these lemmas for a step of the running coroutine; `Sim.driveCreate`,
`Sim.driveStart` and `Sim.driveDestroy` are about steps of the driver.  A call
makes a frame, which extends the region and the renaming.
-/

namespace VixStandard.Task

open VixStandard.Lib Machine

variable {L : Lang}

/-! ## Renaming -/

/-- The frame with its handles renamed. -/
def Frame.rename (g : Addr → Addr) (f : Frame L) : Frame L :=
  { f with
    promise := { f.promise with continuation := f.promise.continuation.map g }
    slots := fun s => (f.slots s).map g }

def Place.rename (g : Addr → Addr) : Place L → Place L
  | .var v => .var v
  | .slot a s => .slot (g a) s

/-- The label with the handle that it resumes renamed. -/
def Label.rename (g : Addr → Addr) : Label L → Label L
  | .drive (.resume a) => .drive (.resume (g a))
  | .drive op => .drive op
  | .exec => .exec

section Rename

variable (g : Addr → Addr) (f : Frame L)

@[simp] theorem Frame.rename_point : (f.rename g).point = f.point := rfl

@[simp] theorem Frame.rename_slots (s : Slot L) : (f.rename g).slots s = (f.slots s).map g := rfl

theorem Frame.rename_moveOut : (f.rename g).moveOut = f.moveOut.rename g := by
  cases he : f.promise.exception <;> simp [Frame.moveOut, Frame.rename, he]

theorem Frame.rename_handles : (f.rename g).handles = f.handles.map g := by
  rw [Frame.handles, Frame.handles, List.map_filterMap]
  rfl

theorem Frame.rename_scopedHandles : (f.rename g).scopedHandles = f.scopedHandles.map g := by
  rw [Frame.scopedHandles, Frame.scopedHandles, List.map_filterMap]
  rfl

theorem Frame.rename_leave : (f.rename g).leave = f.leave.rename g := by
  unfold Frame.leave Frame.rename
  congr 1
  funext s
  by_cases hs : s.scoped = true <;> simp [hs]

theorem Frame.rename_returnValue (r : Except (Exn L.Exc) L.Val) :
    returnValue (f.rename g) r = ((returnValue f r).1.rename g, (returnValue f r).2) := by
  obtain ⟨kind, promise, point, slots⟩ := f
  cases kind <;> cases r <;> rfl

/-- Writing a variable and renaming commute. -/
theorem Frame.rename_update (s : Slot L) (o : Option Addr) :
    ({ f with slots := Function.update f.slots s o } : Frame L).rename g =
      { f.rename g with slots := Function.update (f.rename g).slots s (o.map g) } := by
  unfold Frame.rename
  congr 1
  exact Function.comp_update (Option.map g) f.slots s o

/-- Only the addresses that a frame mentions matter. -/
theorem Frame.rename_congr {g g' : Addr → Addr}
    (hslots : ∀ s c, f.slots s = some c → g' c = g c)
    (hcont : ∀ p, f.promise.continuation = some p → g' p = g p) : f.rename g' = f.rename g := by
  have hmap : ∀ o : Option Addr, (∀ c, o = some c → g' c = g c) → o.map g' = o.map g := by
    intro o ho
    cases o with
    | none => rfl
    | some c => exact congrArg some (ho c rfl)
  unfold Frame.rename
  rw [hmap _ hcont, funext fun s => hmap _ (hslots s)]

end Rename

/-! ## Regions -/

/-- A statement performs only side effects in `op`, and its code goes on in `code`. -/
def Instr.Within (op : L.Op → Prop) (code : L.Code → Prop) :
    Instr L.Code L.Local L.Aw L.Val L.Exc L.Op L.Resp → Prop
  | .effect o k => op o ∧ ∀ r, code (k r)
  | .call _ _ body _ k => code body ∧ code k
  | .suspend k | .move _ _ k | .drop _ k | .coAwait _ _ k | .moveAwaiter _ _ k
  | .dropAwaiter _ k => code k
  | .start _ k => ∀ r, code (k r)
  | .done _ k => ∀ b, code (k b)
  | .result _ k => ∀ r, code (k r)
  | .await _ k => ∀ r, code (k r)
  | .coReturn _ k => ∀ e, code (k e)
  | .throw _ => True

def Point.Within (code : L.Code → Prop) : Point L → Prop
  | .initial c | .external c | .running c => code c
  | .awaiting _ k | .resumed _ k => ∀ r, code (k r)
  | .final => True

/-- What the code of a region does, and how two runs of it correspond. -/
structure Scope (L : Lang) where
  code : L.Code → Prop
  op : L.Op → Prop
  /-- The program's states and the logs of the two runs. -/
  same : L.Mem → List L.Op → L.Mem → List L.Op → Prop
  next : ∀ {c}, code c → (L.next c).Within op code
  act : ∀ {o mem log mem' log'}, op o → same mem log mem' log' →
    (L.act o mem).1 = (L.act o mem').1 ∧
      same (L.act o mem).2 (log ++ [o]) (L.act o mem').2 (log' ++ [o])

/-- A frame of a region: its handles stay in the region, and so does its code. -/
structure Frame.Inside (code : L.Code → Prop) (D : Addr → Prop) (f : Frame L) : Prop where
  slots : ∀ {s c}, f.slots s = some c → D c
  continuation : ∀ {p}, f.promise.continuation = some p → D p
  point : f.point.Within code

/-- The frames `D` and the Task variables `X` form a region that no handle leaves. -/
structure Closed (code : L.Code → Prop) (X : L.Var → Prop) (D : Addr → Prop) (m : Machine L) :
    Prop where
  lt_next : ∀ {a}, D a → a < m.next
  frame : ∀ {a f}, D a → m.heap a = some f → f.Inside code D
  held : ∀ {v c}, X v → m.vars v = some (some c) → D c

/-- `n` has the region of `m`, with the addresses renamed by `g`, and outside the
region `m` is as `m₀`. -/
structure Sim (W : Scope L) (m₀ : Machine L) (X : L.Var → Prop) (D : Addr → Prop)
    (g : Addr → Addr) (m n : Machine L) : Prop where
  closed : Closed W.code X D m
  heap : ∀ {a}, D a → n.heap (g a) = (m.heap a).map (Frame.rename g)
  injective : ∀ {a b}, D a → D b → g a = g b → a = b
  lt_next : ∀ {a}, D a → g a < n.next
  vars : ∀ {v}, X v → n.vars v = (m.vars v).map (Option.map g)
  stack : n.stack = m.stack.map g
  running : ∀ {a}, a ∈ m.stack → D a
  same : W.same m.mem m.log n.mem n.log
  next_le : m₀.next ≤ m.next
  heapRest : ∀ {a}, ¬ D a → m.heap a = m₀.heap a
  varsRest : ∀ {v}, ¬ X v → m.vars v = m₀.vars v

/-- A place of a region. -/
def Place.Inside (X : L.Var → Prop) (D : Addr → Prop) : Place L → Prop
  | .var v => X v
  | .slot a _ => D a

theorem Frame.Inside.setPoint {code : L.Code → Prop} {D : Addr → Prop} {f : Frame L}
    (h : f.Inside code D) {pt : Point L} (hpt : pt.Within code) :
    ({ f with point := pt } : Frame L).Inside code D :=
  ⟨h.slots, h.continuation, hpt⟩

theorem Frame.Inside.mono {code : L.Code → Prop} {D D' : Addr → Prop} {f : Frame L}
    (h : f.Inside code D) (hD : ∀ a, D a → D' a) : f.Inside code D' :=
  ⟨fun hs => hD _ (h.slots hs), fun hp => hD _ (h.continuation hp), h.point⟩

theorem Frame.Inside.fresh {code : L.Code → Prop} {D : Addr → Prop} {kind : Kind} {body : L.Code}
    (hbody : code body) : (Frame.fresh kind body : Frame L).Inside code D := by
  refine ⟨?_, ?_, hbody⟩ <;> · intro _; simp [Frame.fresh, Promise.fresh]

theorem Point.Within.enter {code : L.Code → Prop} {pt pt' : Point L} (h : pt.Within code)
    (henter : pt.enter = some pt') : pt'.Within code := by
  cases pt with
  | initial c | external c | awaiting w k =>
    obtain rfl := Option.some.inj henter
    exact h
  | running c | resumed w k | final => cases henter

/-! ## Operations on handles -/

section Operations

variable {W : Scope L} {m₀ m n : Machine L} {X : L.Var → Prop} {D : Addr → Prop} {g : Addr → Addr}
  {a : Addr} {p : Place L}

theorem Sim.frame (h : Sim W m₀ X D g m n) (ha : D a) :
    Agree (fun f f' => f' = f.rename g ∧ f.Inside W.code D) (m.frame a) (n.frame (g a)) := by
  intro f f' hf hf'
  have hf := frame_eq_ok hf
  have hf' := frame_eq_ok hf'
  rw [h.heap ha, hf] at hf'
  exact ⟨(Option.some.inj hf').symm, h.closed.frame ha hf⟩

theorem Sim.store (h : Sim W m₀ X D g m n) (ha : D a) {f : Frame L} (hf : f.Inside W.code D) :
    Sim W m₀ X D g (m.store a f) (n.store (g a) (f.rename g)) := by
  refine ⟨⟨h.closed.lt_next, ?_, h.closed.held⟩, ?_, h.injective, h.lt_next, h.vars, h.stack,
    h.running, h.same, h.next_le, ?_, h.varsRest⟩
  · intro b e hb he
    rcases heap_cases rfl he with ⟨rfl, rfl⟩ | ⟨_, he⟩
    · exact hf
    · exact h.closed.frame hb he
  · intro b hb
    by_cases hba : b = a
    · subst hba
      simp [Machine.store]
    · have hgba : g b ≠ g a := fun hg => hba (h.injective hb ha hg)
      simp [Machine.store, hba, hgba, h.heap hb]
  · intro b hb
    have hba : b ≠ a := fun hba => hb (hba ▸ ha)
    exact (Function.update_of_ne hba _ _).trans (h.heapRest hb)

theorem Sim.withStack (h : Sim W m₀ X D g m n) {rest : List Addr} (hrest : ∀ b ∈ rest, D b) :
    Sim W m₀ X D g { m with stack := rest } { n with stack := rest.map g } :=
  ⟨⟨h.closed.lt_next, h.closed.frame, h.closed.held⟩, h.heap, h.injective, h.lt_next, h.vars, rfl,
    fun hb => hrest _ hb, h.same, h.next_le, h.heapRest, h.varsRest⟩

theorem Sim.setPoint (h : Sim W m₀ X D g m n) (ha : D a) (pt : Point L)
    (hpt : pt.Within W.code) :
    Agree (Sim W m₀ X D g) (m.setPoint a pt) (n.setPoint (g a) pt) := by
  refine (h.frame ha).bind fun f f' hf => ?_
  obtain ⟨rfl, hin⟩ := hf
  exact .ok (h.store ha (hin.setPoint hpt))

theorem Sim.goto (h : Sim W m₀ X D g m n) (ha : D a) {c : L.Code} (hc : W.code c) :
    Agree (Sim W m₀ X D g) (m.goto a c) (n.goto (g a) c) :=
  h.setPoint ha _ hc

theorem Sim.read (h : Sim W m₀ X D g m n) (hp : p.Inside X D) :
    Agree (fun o o' => o' = o.map g ∧ ∀ c, o = some c → D c) (m.read p) (n.read (p.rename g)) := by
  cases p with
  | var v =>
    refine .ok ⟨?_, fun c hc => h.closed.held hp (Option.join_eq_some_iff.mp hc)⟩
    rw [h.vars hp]
    cases m.vars v with
    | none => rfl
    | some o => rfl
  | slot a s =>
    refine (h.frame (show D a from hp)).bind fun f f' hf => ?_
    obtain ⟨rfl, hin⟩ := hf
    exact .ok ⟨rfl, fun c hc => hin.slots hc⟩

theorem Sim.setVar (h : Sim W m₀ X D g m n) {v : L.Var} (hv : X v) {o : Option (Option Addr)}
    (ho : ∀ c, o = some (some c) → D c) :
    Sim W m₀ X D g { m with vars := Function.update m.vars v o }
      { n with vars := Function.update n.vars v (o.map (Option.map g)) } := by
  refine ⟨⟨h.closed.lt_next, h.closed.frame, ?_⟩, h.heap, h.injective, h.lt_next, ?_, h.stack,
    h.running, h.same, h.next_le, h.heapRest, ?_⟩
  · intro w c hw hc
    by_cases hwv : w = v
    · subst hwv
      exact ho c ((Function.update_self w o m.vars).symm.trans hc)
    · exact h.closed.held hw ((Function.update_of_ne hwv o m.vars).symm.trans hc)
  · intro w hw
    by_cases hwv : w = v
    · subst hwv
      simp
    · simp [hwv, h.vars hw]
  · intro w hw
    have hwv : w ≠ v := fun hwv => hw (hwv ▸ hv)
    exact (Function.update_of_ne hwv _ _).trans (h.varsRest hw)

theorem Sim.write (h : Sim W m₀ X D g m n) (hp : p.Inside X D) {o : Option Addr}
    (ho : ∀ c, o = some c → D c) :
    Agree (Sim W m₀ X D g) (m.write p o) (n.write (p.rename g) (o.map g)) := by
  cases p with
  | var v =>
    refine .ok (h.setVar (show X v from hp) fun c hc => ho c ?_)
    exact Option.some.inj hc
  | slot a s =>
    refine (h.frame (show D a from hp)).bind fun f f' hf => ?_
    obtain ⟨rfl, hin⟩ := hf
    rw [← f.rename_update]
    refine .ok (h.store (show D a from hp) ⟨?_, hin.continuation, hin.point⟩)
    intro t c hc
    by_cases hts : t = s
    · subst hts
      exact ho c ((Function.update_self t o f.slots).symm.trans hc)
    · exact hin.slots ((Function.update_of_ne hts o f.slots).symm.trans hc)

theorem Sim.exchange (h : Sim W m₀ X D g m n) (hp : p.Inside X D) :
    Agree (fun r r' => r'.1 = r.1.map g ∧ (∀ c, r.1 = some c → D c) ∧ Sim W m₀ X D g r.2 r'.2)
      (m.exchange p) (n.exchange (p.rename g)) := by
  refine (h.read hp).bind fun o o' ho => ?_
  obtain ⟨rfl, ho⟩ := ho
  have hwrite := h.write hp (o := none) (fun c hc => by cases hc)
  exact hwrite.bind fun m₁ n₁ h₁ => .ok ⟨rfl, ho, h₁⟩

/-- A destruction ends the same frames, however much fuel there is. -/
theorem Sim.destroyAll {fuel fuel' : Nat} {work : List Addr} (h : Sim W m₀ X D g m n)
    (hwork : ∀ c ∈ work, D c) : Agree (Sim W m₀ X D g) (Machine.destroyAll fuel work m)
      (Machine.destroyAll fuel' (work.map g) n) := by
  induction fuel generalizing fuel' work m n with
  | zero =>
    cases work with
    | nil =>
      rw [List.map_nil, destroyAll_nil, destroyAll_nil]
      exact .ok h
    | cons a work => exact .error_left
  | succ fuel ih =>
    cases work with
    | nil =>
      rw [List.map_nil, destroyAll_nil, destroyAll_nil]
      exact .ok h
    | cons a work =>
      cases fuel' with
      | zero => exact .error_right
      | succ fuel' =>
        have ha : D a := hwork a List.mem_cons_self
        refine (h.frame ha).bind fun f f' hf => ?_
        obtain ⟨rfl, hin⟩ := hf
        refine .ite Iff.rfl (fun _ => .error_left) fun _ => ?_
        rw [f.rename_handles, ← List.map_append]
        refine ih ⟨⟨h.closed.lt_next, ?_, h.closed.held⟩, ?_, h.injective, h.lt_next, h.vars,
          h.stack, h.running, h.same, h.next_le, ?_, h.varsRest⟩ ?_
        · exact fun hb he => h.closed.frame hb (kill_heap.mp he).1
        · intro b hb
          by_cases hba : b = a
          · subst hba
            simp
          · have hgba : g b ≠ g a := fun hg => hba (h.injective hb ha hg)
            simp [hba, hgba, h.heap hb]
        · intro b hb
          have hba : b ≠ a := fun hba => hb (hba ▸ ha)
          exact (Function.update_of_ne hba _ _).trans (h.heapRest hb)
        · intro c hc
          rcases List.mem_append.mp hc with hc | hc
          · obtain ⟨s, hs⟩ := mem_handles.mp hc
            exact hin.slots hs
          · exact hwork c (List.mem_cons_of_mem _ hc)

theorem Sim.reset (h : Sim W m₀ X D g m n) (hp : p.Inside X D) :
    Agree (Sim W m₀ X D g) (m.reset p) (n.reset (p.rename g)) := by
  refine (h.read hp).bind fun o o' ho => ?_
  obtain ⟨rfl, ho⟩ := ho
  cases o with
  | none => exact .ok h
  | some c =>
    have hwork : ∀ b ∈ [c], D b := fun b hb => ho b (congrArg some (List.mem_singleton.mp hb).symm)
    refine Agree.bind (h.destroyAll hwork) fun m₁ n₁ h₁ => ?_
    exact h₁.write hp (o := none) fun c hc => by cases hc

/-- Renaming keeps the places of a region apart. -/
theorem Sim.rename_eq_iff (h : Sim W m₀ X D g m n) {q : Place L} (hp : p.Inside X D)
    (hq : q.Inside X D) : p = q ↔ p.rename g = q.rename g := by
  refine ⟨congrArg _, fun hpq => ?_⟩
  cases p with
  | var v =>
    cases q with
    | var w => exact hpq
    | slot b t => cases hpq
  | slot a s =>
    cases q with
    | var w => cases hpq
    | slot b t =>
      obtain ⟨hab, rfl⟩ := Place.slot.inj hpq
      rw [h.injective (show D a from hp) (show D b from hq) hab]

theorem Sim.moveAssign (h : Sim W m₀ X D g m n) {q : Place L} (hp : p.Inside X D)
    (hq : q.Inside X D) :
    Agree (Sim W m₀ X D g) (m.moveAssign p q) (n.moveAssign (p.rename g) (q.rename g)) := by
  refine .ite (h.rename_eq_iff hp hq) (fun _ => .ok h) fun _ => ?_
  refine (h.reset hp).bind fun m₁ n₁ h₁ => (h₁.exchange hq).bind ?_
  rintro ⟨o, m₂⟩ ⟨o', n₂⟩ ⟨rfl, ho, h₂⟩
  exact h₂.write hp ho

theorem Sim.bindArgs {args : List (L.Local × Place L)} (h : Sim W m₀ X D g m n) (ha : D a)
    (hargs : ∀ q ∈ args, q.2.Inside X D) : Agree (Sim W m₀ X D g) (Machine.bindArgs a args m)
      (Machine.bindArgs (g a) (args.map fun q => (q.1, q.2.rename g)) n) := by
  induction args generalizing m n with
  | nil => exact .ok h
  | cons arg args ih =>
    have hp : (Place.slot a (.inl arg.1) : Place L).Inside X D := ha
    refine (h.moveAssign hp (hargs arg List.mem_cons_self)).bind fun m₁ n₁ h₁ => ?_
    exact ih h₁ fun q hq => hargs q (List.mem_cons_of_mem _ hq)

/-- A call adds a frame to the region. -/
theorem Sim.create (h : Sim W m₀ X D g m n) (kind : Kind) {body : L.Code} (hbody : W.code body) :
    Sim W m₀ X (fun b => D b ∨ b = m.next) (Function.update g m.next n.next)
      (m.create kind body).2 (n.create kind body).2 := by
  have hne : ∀ {b}, D b → b ≠ m.next := fun hb => Nat.ne_of_lt (h.closed.lt_next hb)
  have hold : ∀ {b}, D b → Function.update g m.next n.next b = g b :=
    fun hb => Function.update_of_ne (hne hb) _ _
  have hnew : Function.update g m.next n.next m.next = n.next := Function.update_self _ _ _
  have hmap : ∀ {o : Option Addr}, (∀ c, o = some c → D c) →
      o.map (Function.update g m.next n.next) = o.map g := by
    intro o ho
    cases o with
    | none => rfl
    | some c => exact congrArg some (hold (ho c rfl))
  refine ⟨⟨?_, ?_, fun hv hc => Or.inl (h.closed.held hv hc)⟩, ?_, ?_, ?_, ?_, ?_,
    fun hb => Or.inl (h.running hb), h.same, Nat.le_succ_of_le h.next_le, ?_, h.varsRest⟩
  · rintro b (hb | rfl)
    · exact Nat.lt_succ_of_lt (h.closed.lt_next hb)
    · exact Nat.lt_succ_self _
  · intro b f hb hf
    rcases heap_cases rfl hf with ⟨_, rfl⟩ | ⟨hbn, hf⟩
    · exact .fresh hbody
    · exact (h.closed.frame (hb.resolve_right hbn) hf).mono fun _ => Or.inl
  · rintro b (hb | rfl)
    · have hgb : g b ≠ n.next := Nat.ne_of_lt (h.lt_next hb)
      rw [hold hb]
      have hm : (m.create kind body).2.heap b = m.heap b := Function.update_of_ne (hne hb) _ _
      have hn : (n.create kind body).2.heap (g b) = n.heap (g b) := Function.update_of_ne hgb _ _
      rw [hm, hn, h.heap hb]
      cases hf : m.heap b with
      | none => rfl
      | some f =>
        have hin := h.closed.frame hb hf
        exact congrArg some
          (f.rename_congr (fun s c hc => hold (hin.slots hc)) fun p hp => hold (hin.continuation hp)).symm
    · rw [hnew]
      simp only [Machine.create, Function.update_self]
      rfl
  · rintro b c (hb | rfl) (hc | rfl) hg
    · rw [hold hb, hold hc] at hg
      exact h.injective hb hc hg
    · rw [hold hb, hnew] at hg
      exact absurd hg (Nat.ne_of_lt (h.lt_next hb))
    · rw [hold hc, hnew] at hg
      exact absurd hg.symm (Nat.ne_of_lt (h.lt_next hc))
    · rfl
  · rintro b (hb | rfl)
    · rw [hold hb]
      exact Nat.lt_succ_of_lt (h.lt_next hb)
    · rw [hnew]
      exact Nat.lt_succ_self _
  · intro v hv
    refine (h.vars hv).trans ?_
    show _ = (m.vars v).map _
    cases hmv : m.vars v with
    | none => rfl
    | some o => exact congrArg some (hmap fun c hc => h.closed.held hv (hmv.trans (congrArg some hc))).symm
  · refine h.stack.trans (List.map_congr_left fun b hb => ?_)
    exact (hold (h.running hb)).symm
  · intro b hb
    have hbn : b ≠ m.next := fun hbn => hb (Or.inr hbn)
    exact (Function.update_of_ne hbn _ _).trans (h.heapRest fun hD => hb (Or.inl hD))

/-! ## Task and Awaiter operations -/

theorem Sim.resume (h : Sim W m₀ X D g m n) (ha : D a) :
    Agree (Sim W m₀ X D g) (m.resume a) (n.resume (g a)) := by
  refine (h.frame ha).bind fun f f' hf => ?_
  obtain ⟨rfl, hin⟩ := hf
  rw [Frame.rename_point]
  cases henter : f.point.enter with
  | none => exact .error_left
  | some pt =>
    have h₁ := h.store ha (hin.setPoint (hin.point.enter henter))
    have h₂ := h₁.withStack (List.forall_mem_cons.mpr ⟨ha, fun b hb => h.running hb⟩)
    rw [List.map_cons, ← h.stack] at h₂
    exact .ok h₂

theorem Sim.start (h : Sim W m₀ X D g m n) (hp : p.Inside X D) :
    Agree (fun r r' => r'.1 = r.1 ∧ Sim W m₀ X D g r.2 r'.2)
      (m.start p) (n.start (p.rename g)) := by
  refine (h.read hp).bind fun o o' ho => ?_
  obtain ⟨rfl, ho⟩ := ho
  cases o with
  | none => exact .ok ⟨rfl, h⟩
  | some c =>
    refine Agree.bind (h.frame (ho c rfl)) fun f f' hf => ?_
    obtain ⟨rfl, _⟩ := hf
    refine .ite Iff.rfl (fun _ => .ok ⟨rfl, h⟩) fun _ => ?_
    exact (h.resume (ho c rfl)).bind fun m₁ n₁ h₁ => .ok ⟨rfl, h₁⟩

theorem Sim.done (h : Sim W m₀ X D g m n) (hp : p.Inside X D) :
    Agree Eq (m.done p) (n.done (p.rename g)) := by
  refine (h.read hp).bind fun o o' ho => ?_
  obtain ⟨rfl, ho⟩ := ho
  cases o with
  | none => exact .ok rfl
  | some c =>
    refine Agree.bind (h.frame (ho c rfl)) fun f f' hf => ?_
    obtain ⟨rfl, _⟩ := hf
    exact .ok rfl

theorem Sim.result (h : Sim W m₀ X D g m n) (hp : p.Inside X D) :
    Agree Eq (m.result p) (n.result (p.rename g)) := by
  refine (h.read hp).bind fun o o' ho => ?_
  obtain ⟨rfl, ho⟩ := ho
  cases o with
  | none => exact .ok rfl
  | some c =>
    refine Agree.bind (h.frame (ho c rfl)) fun f f' hf => ?_
    obtain ⟨rfl, _⟩ := hf
    exact .ite Iff.rfl (fun _ => .refl f.outcome) fun _ => .ok rfl

theorem Sim.awaitReady (h : Sim W m₀ X D g m n) (hp : p.Inside X D) :
    Agree Eq (m.awaitReady p) (n.awaitReady (p.rename g)) := by
  refine (h.read hp).bind fun o o' ho => ?_
  obtain ⟨rfl, ho⟩ := ho
  cases o with
  | none => exact .ok rfl
  | some c =>
    refine Agree.bind (h.frame (ho c rfl)) fun f f' hf => ?_
    obtain ⟨rfl, _⟩ := hf
    exact .ok rfl

theorem Sim.awaitSuspend (h : Sim W m₀ X D g m n) (hp : p.Inside X D) (ha : D a) :
    Agree (fun r r' => r'.1 = g r.1 ∧ D r.1 ∧ Sim W m₀ X D g r.2 r'.2)
      (m.awaitSuspend p a) (n.awaitSuspend (p.rename g) (g a)) := by
  refine (h.read hp).bind fun o o' ho => ?_
  obtain ⟨rfl, ho⟩ := ho
  cases o with
  | none => exact .error_left
  | some c =>
    refine Agree.bind (h.frame (ho c rfl)) fun f f' hf => ?_
    obtain ⟨rfl, hin⟩ := hf
    refine .ok ⟨rfl, ho c rfl, h.store (ho c rfl) ⟨hin.slots, fun hp => ?_, hin.point⟩⟩
    exact Option.some.inj hp ▸ ha

theorem Sim.awaitResume (h : Sim W m₀ X D g m n) (hp : p.Inside X D) :
    Agree (fun r r' => r'.1 = r.1 ∧ Sim W m₀ X D g r.2 r'.2)
      (m.awaitResume p) (n.awaitResume (p.rename g)) := by
  refine (h.read hp).bind fun o o' ho => ?_
  obtain ⟨rfl, ho⟩ := ho
  cases o with
  | none => exact .ok ⟨rfl, h⟩
  | some c =>
    refine Agree.bind (h.frame (ho c rfl)) fun f f' hf => ?_
    obtain ⟨rfl, hin⟩ := hf
    refine (Agree.refl f.outcome).bind fun r r' hr => ?_
    subst hr
    have hmove : f.moveOut.Inside W.code D := by
      refine ⟨fun hs => hin.slots (f.moveOut_slots ▸ hs), fun hq => ?_, f.moveOut_point ▸ hin.point⟩
      exact hin.continuation (f.moveOut_continuation ▸ hq)
    rw [f.rename_moveOut]
    exact .ok ⟨rfl, h.store (ho c rfl) hmove⟩

theorem Sim.leaveScope (h : Sim W m₀ X D g m n) (ha : D a) :
    Agree (Sim W m₀ X D g) (m.leaveScope a) (n.leaveScope (g a)) := by
  refine (h.frame ha).bind fun f f' hf => ?_
  obtain ⟨rfl, hin⟩ := hf
  rw [f.rename_scopedHandles, f.rename_leave]
  have hleave : f.leave.Inside W.code D := by
    refine ⟨fun {s c} hs => ?_, hin.continuation, hin.point⟩
    by_cases hscoped : s.scoped = true
    · simp [Frame.leave, hscoped] at hs
    · simp only [Frame.leave, hscoped] at hs
      exact hin.slots hs
  refine (h.store ha hleave).destroyAll fun c hc => ?_
  obtain ⟨s, _, hs⟩ := List.mem_filterMap.mp hc
  exact hin.slots hs

theorem Sim.finalSuspend (h : Sim W m₀ X D g m n) (ha : D a) {rest : List Addr}
    (hrest : ∀ b ∈ rest, D b) :
    Agree (Sim W m₀ X D g) (m.finalSuspend a rest) (n.finalSuspend (g a) (rest.map g)) := by
  refine Agree.bind (h.setPoint ha .final trivial) fun m₁ n₁ h₁ => (h₁.frame ha).bind fun f f' hf => ?_
  obtain ⟨rfl, hin⟩ := hf
  have hcont : (f.rename g).promise.continuation = f.promise.continuation.map g := rfl
  cases hc : f.promise.continuation with
  | none =>
    rw [hc, Option.map_none] at hcont
    simp only [hcont]
    exact .ok (h₁.withStack hrest)
  | some p =>
    rw [hc, Option.map_some] at hcont
    simp only [hcont]
    exact (h₁.withStack hrest).resume (hin.continuation hc)

theorem Sim.unhandledException (h : Sim W m₀ X D g m n) (ha : D a) (e : Exn L.Exc) :
    Agree (Sim W m₀ X D g) (m.unhandledException a e) (n.unhandledException (g a) e) := by
  refine (h.frame ha).bind fun f f' hf => ?_
  obtain ⟨rfl, hin⟩ := hf
  exact .ok (h.store ha ⟨hin.slots, hin.continuation, hin.point⟩)

end Operations

/-! ## Steps -/

/-- The relation after a step, which may have added the frame `b` to the region. -/
def Extended (W : Scope L) (m₀ : Machine L) (X : L.Var → Prop) (D : Addr → Prop) (b : Addr)
    (m n : Machine L) : Prop :=
  ∃ D' g, (∀ a, D a → D' a) ∧ (∀ a, D' a → D a ∨ a = b) ∧ Sim W m₀ X D' g m n

section Steps

variable {W : Scope L} {m₀ m n : Machine L} {X : L.Var → Prop} {D : Addr → Prop} {g : Addr → Addr}
  {a b : Addr}

theorem Sim.extended (h : Sim W m₀ X D g m n) : Extended W m₀ X D b m n :=
  ⟨D, g, fun _ => id, fun _ => Or.inl, h⟩

theorem agree_extended {x y : Except Fault (Machine L)} (h : Agree (Sim W m₀ X D g) x y) :
    Agree (Extended W m₀ X D b) x y :=
  h.mono fun _ _ => Sim.extended

theorem Sim.call (h : Sim W m₀ X D g m n) (ha : D a) {x : L.Local} {kind : Kind} {body k : L.Code}
    {args : List (L.Local × L.Local)} {rest rest' : List Addr} (hbody : W.code body)
    (hk : W.code k) : Agree (Extended W m₀ X D m.next) (m.perform a rest (.call x kind body args k))
      (n.perform (g a) rest' (.call x kind body args k)) := by
  have h₁ := h.create kind hbody
  have hga : g a = Function.update g m.next n.next a :=
    (Function.update_of_ne (Nat.ne_of_lt (h.closed.lt_next ha)) _ _).symm
  have hgn : n.next = Function.update g m.next n.next m.next := by simp
  suffices Agree (Sim W m₀ X (fun b => D b ∨ b = m.next) (Function.update g m.next n.next))
      (m.perform a rest (.call x kind body args k))
      (n.perform (g a) rest' (.call x kind body args k)) from
    this.mono fun m' n' h' => ⟨_, _, fun _ => Or.inl, fun _ => id, h'⟩
  generalize hg' : Function.update g m.next n.next = g' at h₁ hga hgn
  have ha' : D a ∨ a = m.next := Or.inl ha
  have hargs : ∀ q ∈ args.map fun q => (q.1, (Place.slot a (.inl q.2) : Place L)),
      q.2.Inside X fun b => D b ∨ b = m.next := by
    intro q hq
    obtain ⟨r, _, rfl⟩ := List.mem_map.mp hq
    exact ha'
  have hbind := h₁.bindArgs (Or.inr rfl) hargs
  have hslot : (Place.slot a (.inl x) : Place L).Inside X fun b => D b ∨ b = m.next := ha'
  rw [List.map_map, ← hgn] at hbind
  show Agree _ (Machine.bindArgs m.next _ (m.create kind body).2 >>= _)
    (Machine.bindArgs n.next _ (n.create kind body).2 >>= _)
  rw [hga]
  refine hbind.bind fun m₂ n₂ h₂ => (h₂.reset hslot).bind fun m₃ n₃ h₃ => ?_
  have hwrite := h₃.write hslot (o := some m.next) fun c hc => Or.inr (Option.some.inj hc).symm
  rw [Option.map_some, ← hgn] at hwrite
  exact hwrite.bind fun m₄ n₄ h₄ => h₄.goto ha' hk

/-- A statement of a coroutine in the region. -/
theorem Sim.perform (h : Sim W m₀ X D g m n) (ha : D a) {rest : List Addr}
    (hrest : ∀ b ∈ rest, D b) {i : Instr L.Code L.Local L.Aw L.Val L.Exc L.Op L.Resp}
    (hi : i.Within W.op W.code) :
    Agree (Extended W m₀ X D m.next) (m.perform a rest i) (n.perform (g a) (rest.map g) i) := by
  have hslot : ∀ s : Slot L, (Place.slot a s).Inside X D := fun _ => ha
  cases i with
  | effect op k =>
    obtain ⟨hresp, hsame⟩ := W.act hi.1 h.same
    have h₁ : Sim W m₀ X D g { m with mem := (L.act op m.mem).2, log := m.log ++ [op] }
        { n with mem := (L.act op n.mem).2, log := n.log ++ [op] } :=
      ⟨⟨h.closed.lt_next, h.closed.frame, h.closed.held⟩, h.heap, h.injective, h.lt_next, h.vars,
        h.stack, h.running, hsame, h.next_le, h.heapRest, h.varsRest⟩
    have hgoto := h₁.goto ha (hi.2 (L.act op m.mem).1)
    show Agree _ (Machine.goto _ a (k (L.act op m.mem).1)) (Machine.goto _ (g a) (k (L.act op n.mem).1))
    rw [← hresp]
    exact agree_extended hgoto
  | suspend k =>
    refine agree_extended (g := g) ((h.setPoint ha (.external k) hi).bind ?_)
    exact fun m₁ n₁ h₁ => .ok (h₁.withStack hrest)
  | call x kind body args k => exact h.call ha hi.1 hi.2
  | move x y k =>
    refine agree_extended (g := g) ((h.moveAssign (hslot (.inl x)) (hslot (.inl y))).bind ?_)
    exact fun m₁ n₁ h₁ => h₁.goto ha hi
  | drop x k =>
    refine agree_extended (g := g) ((h.reset (hslot (.inl x))).bind ?_)
    exact fun m₁ n₁ h₁ => h₁.goto ha hi
  | start x k =>
    refine agree_extended (g := g) ((h.start (hslot (.inl x))).bind ?_)
    rintro ⟨r, m₁⟩ ⟨r', n₁⟩ ⟨rfl, h₁⟩
    exact h₁.goto ha (hi _)
  | done x k =>
    refine agree_extended (g := g) ((h.done (hslot (.inl x))).bind ?_)
    rintro b _ rfl
    exact h.goto ha (hi b)
  | result x k =>
    refine agree_extended (g := g) ((h.result (hslot (.inl x))).bind ?_)
    rintro r _ rfl
    exact h.goto ha (hi r)
  | coAwait w x k =>
    refine agree_extended (g := g) ((h.exchange (hslot (.inl x))).bind ?_)
    rintro ⟨o, m₁⟩ ⟨_, n₁⟩ ⟨rfl, ho, h₁⟩
    refine (h₁.reset (hslot (.inr w))).bind fun m₂ n₂ h₂ => ?_
    exact (h₂.write (hslot (.inr w)) ho).bind fun m₃ n₃ h₃ => h₃.goto ha hi
  | moveAwaiter w v k =>
    refine agree_extended (g := g) ((h.moveAssign (hslot (.inr w)) (hslot (.inr v))).bind ?_)
    exact fun m₁ n₁ h₁ => h₁.goto ha hi
  | dropAwaiter w k =>
    refine agree_extended (g := g) ((h.reset (hslot (.inr w))).bind ?_)
    exact fun m₁ n₁ h₁ => h₁.goto ha hi
  | await w k =>
    refine agree_extended (g := g) ((h.awaitReady (hslot (.inr w))).bind ?_)
    rintro b _ rfl
    refine .ite Iff.rfl (fun _ => h.setPoint ha _ hi) fun _ => ?_
    refine Agree.bind (h.setPoint ha (.awaiting w k) hi) fun m₁ n₁ h₁ => ?_
    refine (h₁.awaitSuspend (hslot (.inr w)) ha).bind ?_
    rintro ⟨c, m₂⟩ ⟨_, n₂⟩ ⟨rfl, hc, h₂⟩
    exact (h₂.withStack hrest).resume hc
  | coReturn r k =>
    refine agree_extended (g := g) ((h.frame ha).bind fun f f' hf => ?_)
    obtain ⟨rfl, hin⟩ := hf
    rw [f.rename_returnValue]
    have hreturn : (returnValue f r).1.Inside W.code D := by
      obtain ⟨kind, promise, point, slots⟩ := f
      cases kind <;> cases r <;> exact ⟨hin.slots, hin.continuation, hin.point⟩
    have h₁ := h.store ha hreturn
    generalize returnValue f r = returned at h₁ ⊢
    obtain ⟨f₁, thrown⟩ := returned
    cases thrown with
    | some e => exact h₁.goto ha (hi e)
    | none => exact (h₁.leaveScope ha).bind fun m₂ n₂ h₂ => h₂.finalSuspend ha hrest
  | throw e =>
    refine agree_extended (g := g) ((h.leaveScope ha).bind fun m₁ n₁ h₁ => ?_)
    exact (h₁.unhandledException ha e).bind fun m₂ n₂ h₂ => h₂.finalSuspend ha hrest

/-- A step of the running coroutine. -/
theorem Sim.exec (h : Sim W m₀ X D g m n) : Agree (Extended W m₀ X D m.next) m.exec n.exec := by
  unfold Machine.exec
  rw [h.stack]
  cases hst : m.stack with
  | nil => exact .ok h.extended
  | cons a rest =>
    have hmem : ∀ b ∈ a :: rest, D b := fun b hb => h.running (hst ▸ hb)
    have ha : D a := hmem a List.mem_cons_self
    refine Agree.bind (h.frame ha) fun f f' hf => ?_
    obtain ⟨rfl, hin⟩ := hf
    rw [Frame.rename_point]
    have hpt := hin.point
    cases hp : f.point with
    | running c =>
      rw [hp] at hpt
      exact h.perform ha (fun b hb => hmem b (List.mem_cons_of_mem _ hb)) (W.next hpt)
    | resumed w k =>
      rw [hp] at hpt
      have hslot : (Place.slot a (.inr w) : Place L).Inside X D := ha
      refine agree_extended (g := g) ((h.awaitResume hslot).bind ?_)
      rintro ⟨_, m₁⟩ ⟨_, n₁⟩ ⟨rfl, h₁⟩
      exact h₁.goto ha (hpt _)
    | initial c => exact .error_left
    | external c => exact .error_left
    | awaiting w k => exact .error_left
    | final => exact .error_left

/-- `Task v = coroutine()`. -/
theorem Sim.driveCreate (h : Sim W m₀ X D g m n) {v : L.Var} (hv : X v) {kind : Kind}
    {body : L.Code} (hbody : W.code body) : Agree (Extended W m₀ X D m.next)
      (m.drive (.create v kind body [])) (n.drive (.create v kind body [])) := by
  have h₁ := h.create kind hbody
  have hgn : n.next = Function.update g m.next n.next m.next := by simp
  have hwrite := h₁.write (p := .var v) hv (o := some m.next)
    fun c hc => Or.inr (Option.some.inj hc).symm
  rw [Option.map_some, ← hgn] at hwrite
  exact hwrite.mono fun m' n' h' => ⟨_, _, fun _ => Or.inl, fun _ => id, h'⟩

theorem Sim.driveStart (h : Sim W m₀ X D g m n) {v : L.Var} (hv : X v) :
    Agree (Sim W m₀ X D g) (m.drive (.start v)) (n.drive (.start v)) := by
  refine (h.start (p := .var v) hv).bind ?_
  rintro ⟨r, m₁⟩ ⟨r', n₁⟩ ⟨_, h₁⟩
  exact .ok h₁

theorem Sim.driveDestroy (h : Sim W m₀ X D g m n) {v : L.Var} (hv : X v) :
    Agree (Sim W m₀ X D g) (m.drive (.destroy v)) (n.drive (.destroy v)) := by
  refine (h.reset (p := .var v) hv).bind fun m₁ n₁ h₁ => ?_
  exact .ok (h₁.setVar hv (o := none) fun c hc => by cases hc)

/-- A label that only touches the region. -/
def Label.Inside (W : Scope L) (X : L.Var → Prop) (D : Addr → Prop) : Label L → Prop
  | .drive (.create v _ body args) => args = [] ∧ X v ∧ W.code body
  | .drive (.start v) | .drive (.destroy v) => X v
  | .drive (.resume a) => D a
  | .drive _ => False
  | .exec => True

theorem Sim.step (h : Sim W m₀ X D g m n) {l : Label L} (hl : l.Inside W X D) :
    Agree (Extended W m₀ X D m.next) (m.step l) (n.step (l.rename g)) := by
  cases l with
  | exec => exact h.exec
  | drive op =>
    cases op with
    | create v kind body args =>
      obtain ⟨rfl, hv, hbody⟩ := hl
      exact h.driveCreate hv hbody
    | start v => exact agree_extended (h.driveStart hl)
    | destroy v => exact agree_extended (h.driveDestroy hl)
    | resume a => exact agree_extended (h.resume hl)
    | defaultConstruct v => exact hl.elim
    | moveConstruct v w => exact hl.elim
    | moveAssign v w => exact hl.elim

/-! ## Changes outside the region -/

/-- A region of `m` corresponds to itself. -/
theorem Closed.sim (h : Closed W.code X D m) (hrun : ∀ a ∈ m.stack, D a)
    (hsame : W.same m.mem m.log m.mem m.log) : Sim W m X D id m m := by
  have hid : ∀ f : Frame L, f.rename id = f := by
    intro f
    unfold Frame.rename
    simp only [Option.map_id, id_eq]
  refine ⟨h, fun _ => ?_, fun _ _ => id, h.lt_next, fun _ => ?_, (List.map_id _).symm,
    fun ha => hrun _ ha, hsame, Nat.le_refl _, fun _ => rfl, fun _ => rfl⟩
  · rw [funext hid]
    exact Option.map_id'.symm
  · rw [Option.map_id]
    exact Option.map_id'.symm

/-- The region stays what it is when the frames and Task variables of the region
stay. -/
theorem Closed.transport {code : L.Code → Prop} {m' : Machine L} (h : Closed code X D m)
    (hheap : ∀ a, D a → m'.heap a = m.heap a) (hvars : ∀ v, X v → m'.vars v = m.vars v)
    (hnext : m.next ≤ m'.next) : Closed code X D m' := by
  refine ⟨fun ha => Nat.lt_of_lt_of_le (h.lt_next ha) hnext, fun ha hf => ?_, fun hv hc => ?_⟩
  · exact h.frame ha ((hheap _ ha).symm.trans hf)
  · exact h.held hv ((hvars _ hv).symm.trans hc)

/-- Other regions do not matter. -/
theorem Sim.transport {m' : Machine L} (h : Sim W m₀ X D g m n)
    (hheap : ∀ a, D a → m'.heap a = m.heap a) (hvars : ∀ v, X v → m'.vars v = m.vars v)
    (hnext : m.next ≤ m'.next) (hstack : m'.stack = m.stack)
    (hsame : W.same m'.mem m'.log n.mem n.log) : Sim W m' X D g m' n := by
  refine ⟨h.closed.transport hheap hvars hnext, fun ha => ?_, h.injective, h.lt_next, fun hv => ?_,
    hstack ▸ h.stack, fun ha => h.running (hstack ▸ ha), hsame, Nat.le_refl _, fun _ => rfl,
    fun _ => rfl⟩
  · rw [hheap _ ha]
    exact h.heap ha
  · rw [hvars _ hv]
    exact h.vars hv

end Steps

/-! ## What the renaming keeps -/

section Links

open VixStandard.Lib.Ownership

variable {W : Scope L} {m₀ m n : Machine L} {X : L.Var → Prop} {D : Addr → Prop} {g : Addr → Addr}

theorem Closed.below {code : L.Code → Prop} {r a : Addr} (h : Closed code X D m) (hr : D r)
    (hb : Below Place.home m.graph r a) : D a := by
  induction hb with
  | self => exact hr
  | @held p b c _ hp hc ih =>
    cases p with
    | var v => cases hp
    | slot b' s =>
      obtain rfl := Option.some.inj hp
      obtain ⟨f, hf, hs⟩ := hc
      exact (h.frame ih hf).slots hs

theorem Sim.heap_some {a : Addr} {f : Frame L} (h : Sim W m₀ X D g m n) (ha : D a)
    (hf : m.heap a = some f) : n.heap (g a) = some (f.rename g) := by
  rw [h.heap ha, hf]
  rfl

theorem Sim.below {r a : Addr} (h : Sim W m₀ X D g m n) (hr : D r)
    (hb : Below Place.home m.graph r a) : Below Place.home n.graph (g r) (g a) := by
  induction hb with
  | self => exact .self
  | @held p b c hrb hp hc ih =>
    cases p with
    | var v => cases hp
    | slot b' s =>
      obtain rfl := Option.some.inj hp
      obtain ⟨f, hf, hs⟩ := hc
      have hf' := h.heap_some (h.closed.below hr hrb) hf
      exact .held ih rfl (holds_slot hf' (by rw [Frame.rename_slots, hs]; rfl))

theorem Sim.awaits {a c : Addr} (h : Sim W m₀ X D g m n) (ha : D a) (hac : Awaits m a c) :
    D c ∧ Awaits n (g a) (g c) := by
  obtain ⟨f, w, k, hf, hpt, hs⟩ := hac
  exact ⟨(h.closed.frame ha hf).slots hs, f.rename g, w, k, h.heap_some ha hf, hpt,
    by rw [Frame.rename_slots, hs]; rfl⟩

theorem Sim.innermost {r a : Addr} (h : Sim W m₀ X D g m n) (hr : D r) (hra : Innermost m r a) :
    D a ∧ Innermost n (g r) (g a) := by
  obtain ⟨hchain, f, hf, hno⟩ := hra
  have hchain' : D a ∧ Relation.ReflTransGen (Awaits n) (g r) (g a) := by
    clear hf hno
    induction hchain with
    | refl => exact ⟨hr, .refl⟩
    | tail _ hbc ih =>
      obtain ⟨hc, hbc'⟩ := h.awaits ih.1 hbc
      exact ⟨hc, ih.2.tail hbc'⟩
  exact ⟨hchain'.1, hchain'.2, f.rename g, h.heap_some hchain'.1 hf, hno⟩

/-- A handle in the region of `n` is that of a handle of `m`. -/
theorem Sim.holds {p : Place L} {c : Addr} (h : Sim W m₀ X D g m n) (hp : p.Inside X D)
    (hc : n.graph.holds (p.rename g) c) : ∃ d, D d ∧ c = g d ∧ m.graph.holds p d := by
  cases p with
  | var v =>
    have hv : n.vars v = some (some c) := hc
    rw [h.vars hp] at hv
    obtain ⟨o, hmv, ho⟩ := Option.map_eq_some_iff.mp hv
    obtain ⟨d, rfl, hd⟩ := Option.map_eq_some_iff.mp ho
    exact ⟨d, h.closed.held hp hmv, hd.symm, hmv⟩
  | slot a s =>
    obtain ⟨f', hf', hs⟩ := hc
    rw [h.heap hp] at hf'
    obtain ⟨f, hf, rfl⟩ := Option.map_eq_some_iff.mp hf'
    obtain ⟨d, hd, hdc⟩ := Option.map_eq_some_iff.mp hs
    exact ⟨d, (h.closed.frame hp hf).slots hd, hdc.symm, f, hf, hd⟩

theorem Sim.notAwaiting {p : Place L} (h : Sim W m₀ X D g m n) (hp : p.Inside X D)
    (hno : m.NotAwaiting p) : n.NotAwaiting (p.rename g) := by
  intro c f' hc hf'
  obtain ⟨d, hd, rfl, hmd⟩ := h.holds hp hc
  rw [h.heap hd] at hf'
  obtain ⟨f, hf, rfl⟩ := Option.map_eq_some_iff.mp hf'
  exact hno d f hmd hf

/-- Disciplined execution is a matter of the region. -/
theorem Sim.disciplined (h : Sim W m₀ X D g m n) (hd : Disciplined m .exec) :
    Disciplined n .exec := by
  intro p hp
  obtain ⟨a', rest', f', c, hst', hf', hpt, rfl⟩ := current_eq_some hp
  rw [h.stack] at hst'
  obtain ⟨a, rest, hst, rfl, _⟩ := List.map_eq_cons_iff.mp hst'
  have ha : D a := h.running (hst ▸ List.mem_cons_self)
  rw [h.heap ha] at hf'
  obtain ⟨f, hf, rfl⟩ := Option.map_eq_some_iff.mp hf'
  have hi := hd _ (Machine.current_of_running hst hf hpt)
  generalize L.next c = i at hi ⊢
  cases i with
  | start x k => exact h.notAwaiting (p := .slot a (.inl x)) ha hi
  | await w k => exact h.notAwaiting (p := .slot a (.inr w)) ha hi
  | _ => trivial

end Links

end VixStandard.Task
