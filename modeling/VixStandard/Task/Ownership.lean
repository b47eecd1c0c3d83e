import VixStandard.Task.Discipline
import VixStandard.Task.Program

/-!
# Frame ownership over whole runs

The driver holds Task variables and gives none of them to a coroutine unless it
is fresh, completed or empty.  It resumes the innermost suspended coroutine of a
chain.  Bodies make sub-tasks, move them and their Awaiters, await them and
destroy them, and do not call `start()`.  `Structured` is this use of the
library.

In a structured run a suspended coroutine is either in a Task variable of the
driver or awaited by its owner (`Rooted`).  So a `co_await` never meets a
coroutine that waits for another one, and the run is disciplined
(`disciplined_of_structured`).  The ownership results then follow from the
invariant of disciplined runs.
-/

namespace VixStandard.Task

open VixStandard.Lib VixStandard.Lib.Ownership Machine

variable {L : Lang}

/-- A coroutine that has not started, or has completed. -/
def Point.isIdle : Point L → Bool
  | .initial _ => true
  | .final => true
  | _ => false

/-- The coroutine at `p`, if there is one, has not started or has completed. -/
def Machine.IdleAt (m : Machine L) (p : Place L) : Prop :=
  ∀ f ∈ m.frameAt p, f.point.isIdle = true

/-- Whether a statement is a call of `start()`. -/
def Instr.isStart : Instr L.Code L.Local L.Aw L.Val L.Exc L.Op L.Resp → Bool
  | .start _ _ => true
  | _ => false

/-- The steps of a driver that resumes only the innermost suspended coroutine of a
chain, and of bodies that leave it to `co_await` to run their sub-tasks. -/
def Structured (m : Machine L) : Label L → Prop
  | .drive (.create _ _ _ args) => ∀ p ∈ args, m.IdleAt (.var p.2)
  | .drive (.start v) => m.NotAwaiting (.var v)
  | .drive _ => True
  | .exec => ∀ p ∈ m.current, p.2.isStart = false

instance (m : Machine L) (p : Place L) : Decidable (m.IdleAt p) :=
  inferInstanceAs (Decidable (∀ f ∈ m.frameAt p, f.point.isIdle = true))

instance (m : Machine L) (l : Label L) : Decidable (Structured m l) :=
  match l with
  | .drive (.create _ _ _ _) => inferInstanceAs (Decidable (∀ _ ∈ _, _))
  | .drive (.start _) => inferInstanceAs (Decidable (m.NotAwaiting _))
  | .drive (.defaultConstruct _) | .drive (.moveConstruct _ _) | .drive (.moveAssign _ _)
  | .drive (.destroy _) | .drive (.resume _) => isTrue trivial
  | .exec => inferInstanceAs (Decidable (∀ p ∈ m.current, p.2.isStart = false))

/-- A coroutine that has started and is neither completed nor awaited is in a Task
variable of the driver. -/
def Rooted (m : Machine L) : Prop :=
  ∀ c g, m.heap c = some g → g.point.isIdle = false → g.promise.continuation = none →
    ∃ v, m.vars v = some (some c)

/-! ## What the handle operations keep -/

/-- `m'` has frames of `m`, with their points and continuations. -/
structure Keeps (m m' : Machine L) : Prop where
  vars : m'.vars = m.vars
  frame : ∀ {c g'}, m'.heap c = some g' → ∃ g, m.heap c = some g ∧ g'.point = g.point ∧
    g'.promise.continuation = g.promise.continuation

theorem Keeps.refl (m : Machine L) : Keeps m m := ⟨rfl, fun h => ⟨_, h, rfl, rfl⟩⟩

theorem Keeps.trans {m₁ m₂ m₃ : Machine L} (h₁ : Keeps m₁ m₂) (h₂ : Keeps m₂ m₃) :
    Keeps m₁ m₃ := by
  refine ⟨h₂.vars.trans h₁.vars, fun h => ?_⟩
  obtain ⟨g₂, hg₂, hpt, hcont⟩ := h₂.frame h
  obtain ⟨g₁, hg₁, hpt', hcont'⟩ := h₁.frame hg₂
  exact ⟨g₁, hg₁, hpt.trans hpt', hcont.trans hcont'⟩

theorem Shrunk.keeps {m m' : Machine L} (h : Shrunk m m') : Keeps m m' :=
  ⟨h.vars, fun hg => ⟨_, h.heap hg, rfl, rfl⟩⟩

theorem keeps_store {m : Machine L} {a : Addr} {f f' : Frame L} (hf : m.heap a = some f)
    (hpt : f'.point = f.point) (hcont : f'.promise.continuation = f.promise.continuation) :
    Keeps m (m.store a f') := by
  refine ⟨rfl, fun hg => ?_⟩
  rcases heap_cases rfl hg with ⟨rfl, rfl⟩ | ⟨_, hg⟩
  · exact ⟨f, hf, hpt, hcont⟩
  · exact ⟨_, hg, rfl, rfl⟩

section Keeps

variable {m m' : Machine L} {a : Addr}

theorem keeps_write {s : Slot L} {o : Option Addr} (h : m.write (.slot a s) o = .ok m') :
    Keeps m m' := by
  obtain ⟨f, hf, h⟩ := bind_eq_ok h
  exact Except.ok.inj h ▸ keeps_store (frame_eq_ok hf) rfl rfl

theorem keeps_exchange {s : Slot L} {o : Option Addr} (h : m.exchange (.slot a s) = .ok (o, m')) :
    Keeps m m' := by
  obtain ⟨o', _, h⟩ := bind_eq_ok h
  obtain ⟨m₁, hwrite, h⟩ := bind_eq_ok h
  exact (Prod.mk.inj (Except.ok.inj h)).2 ▸ keeps_write hwrite

theorem keeps_reset {s : Slot L} (h : m.reset (.slot a s) = .ok m') : Keeps m m' := by
  obtain ⟨o, _, h⟩ := bind_eq_ok h
  cases o with
  | none => exact Except.ok.inj h ▸ .refl m
  | some c =>
    obtain ⟨m₁, hdestroy, h⟩ := bind_eq_ok h
    exact (shrunk_of_destroyAll hdestroy).keeps.trans (keeps_write h)

theorem keeps_moveAssign {b : Addr} {s t : Slot L}
    (h : m.moveAssign (.slot a s) (.slot b t) = .ok m') : Keeps m m' := by
  rw [moveAssign] at h
  split at h
  · exact Except.ok.inj h ▸ .refl m
  · obtain ⟨m₁, hreset, h⟩ := bind_eq_ok h
    obtain ⟨⟨o, m₂⟩, hex, h⟩ := bind_eq_ok h
    exact (keeps_reset hreset).trans ((keeps_exchange hex).trans (keeps_write h))

theorem keeps_bindArgs {n : Addr} {args : List (L.Local × L.Local)} :
    ∀ {m : Machine L}, bindArgs n (args.map fun p => (p.1, .slot a (.inl p.2))) m = .ok m' →
      Keeps m m' := by
  induction args with
  | nil =>
    intro m h
    exact Except.ok.inj h ▸ .refl m
  | cons arg args ih =>
    intro m h
    obtain ⟨m₁, hmove, h⟩ := bind_eq_ok h
    exact (keeps_moveAssign hmove).trans (ih h)

theorem keeps_leaveScope (h : m.leaveScope a = .ok m') : Keeps m m' := by
  obtain ⟨f, hf, h⟩ := bind_eq_ok h
  have hleave : Keeps m (m.store a f.leave) := keeps_store (frame_eq_ok hf) rfl rfl
  exact hleave.trans (shrunk_of_destroyAll h).keeps

/-! ## Rooted coroutines -/

theorem Rooted.keeps (h : Rooted m) (hk : Keeps m m') : Rooted m' := by
  intro c g' hg' hidle hcont
  obtain ⟨g, hg, hpt, hcont'⟩ := hk.frame hg'
  rw [hk.vars]
  exact h c g hg (hpt ▸ hidle) (hcont' ▸ hcont)

/-- A frame changes that had started or that the driver owns, or it becomes
awaited. -/
theorem Rooted.replace {f f' : Frame L} (h : Rooted m) (hf : m.heap a = some f)
    (hheap : m'.heap = Function.update m.heap a (some f')) (hvars : m'.vars = m.vars)
    (hnew : (f.point.isIdle = false ∧ f'.promise.continuation = f.promise.continuation) ∨
      f'.promise.continuation ≠ none ∨ ∃ v, m.vars v = some (some a)) : Rooted m' := by
  intro c g hg hidle hcont
  rw [hvars]
  rcases heap_cases hheap hg with ⟨rfl, rfl⟩ | ⟨_, hg⟩
  · rcases hnew with ⟨hf', hcont'⟩ | hcont' | hv
    · exact h c f hf hf' (hcont' ▸ hcont)
    · exact absurd hcont hcont'
    · exact hv
  · exact h c g hg hidle hcont

theorem Rooted.congr (h : Rooted m) (hheap : m'.heap = m.heap) (hvars : m'.vars = m.vars) :
    Rooted m' := by
  intro c g hg
  rw [hvars]
  exact h c g (hheap ▸ hg)

theorem Point.not_idle_of_running {pt : Point L} (h : pt.isRunning = true) :
    pt.isIdle = false := by
  cases pt <;> simp_all [Point.isRunning, Point.isIdle]

theorem Point.not_idle_of_awaiting {pt : Point L} (h : pt.isAwaiting = true) :
    pt.isIdle = false := by
  cases pt <;> simp_all [Point.isAwaiting, Point.isIdle]

/-- A running body goes on after operations on handles. -/
theorem Rooted.setPoint {m₁ : Machine L} {f : Frame L} {pt : Point L} (h : Rooted m)
    (hf : m.heap a = some f) (hrun : f.point.isRunning = true) (hk : Keeps m m₁)
    (hok : m₁.setPoint a pt = .ok m') : Rooted m' := by
  obtain ⟨f₁, hf₁, hok⟩ := bind_eq_ok hok
  have hf₁ := frame_eq_ok hf₁
  obtain ⟨f₀, hf₀, hpt, _⟩ := hk.frame hf₁
  obtain rfl : f = f₀ := Option.some.inj (hf.symm.trans hf₀)
  obtain rfl := Except.ok.inj hok
  exact (h.keeps hk).replace hf₁ rfl rfl
    (Or.inl ⟨by rw [hpt]; exact Point.not_idle_of_running hrun, rfl⟩)

/-- A call adds a frame that has not started. -/
theorem Rooted.create (h : Rooted m) (kind : Kind) (body : L.Code) :
    Rooted (m.create kind body).2 := by
  intro c g hg hidle hcont
  rcases heap_cases rfl hg with ⟨rfl, rfl⟩ | ⟨_, hg⟩
  · cases hidle
  · exact h c g hg hidle hcont

/-- A coroutine completes, and its continuation runs. -/
theorem Rooted.finalSuspend {m₁ : Machine L} {rest : List Addr} {f : Frame L} (h : Rooted m)
    (hl : Linked m) (hf : m.heap a = some f) (hrun : f.point.isRunning = true)
    (hk : Keeps m m₁) (hok : m₁.finalSuspend a rest = .ok m') : Rooted m' := by
  obtain ⟨m₂, hfinal, hok'⟩ := bind_eq_ok hok
  have h₂ := h.setPoint hf hrun hk hfinal
  obtain ⟨f₁, hf₁, hfinal⟩ := bind_eq_ok hfinal
  have hf₁ := frame_eq_ok hf₁
  rw [finalSuspend_eq hf₁] at hok
  obtain rfl := Except.ok.inj hfinal
  obtain ⟨f₀, hf₀, _, hcont⟩ := hk.frame hf₁
  obtain rfl : f = f₀ := Option.some.inj (hf.symm.trans hf₀)
  cases hc : f₁.promise.continuation with
  | none =>
    rw [hc] at hok
    obtain rfl := Except.ok.inj hok
    exact h₂.congr rfl rfl
  | some p =>
    rw [hc] at hok
    have hpa := hl.continued hf (Point.not_final_of_running hrun) (hcont.symm.trans hc)
    have hpane : p ≠ a := by
      rintro rfl
      have haw := hpa.isAwaiting hf
      rw [Point.not_awaiting_of_running hrun] at haw
      cases haw
    obtain ⟨fp, hfp, hok⟩ := bind_eq_ok hok
    have hfp := frame_eq_ok hfp
    have hfp₁ : m₁.heap p = some fp := (Function.update_of_ne hpane _ _).symm.trans hfp
    obtain ⟨fp₀, hfp₀, hpt, _⟩ := hk.frame hfp₁
    have hidle : fp.point.isIdle = false := by
      rw [hpt]
      exact Point.not_idle_of_awaiting (hpa.isAwaiting hfp₀)
    split at hok
    · obtain rfl := Except.ok.inj hok
      exact h₂.replace hfp rfl rfl (Or.inl ⟨hidle, rfl⟩)
    · cases hok

/-- A statement other than `start()` keeps started coroutines rooted. -/
theorem Rooted.perform {rest : List Addr} {f : Frame L} {c : L.Code} (h : Rooted m)
    (hl : Linked m) (hne : a ≠ m.next) (hf : m.heap a = some f) (hpt : f.point = .running c)
    {i : Instr L.Code L.Local L.Aw L.Val L.Exc L.Op L.Resp} (hi : i.isStart = false)
    (hok : m.perform a rest i = .ok m') : Rooted m' := by
  have hrun : f.point.isRunning = true := by
    rw [hpt]
    rfl
  cases i with
  | effect op k =>
    have hk : Keeps m { m with mem := (L.act op m.mem).2, log := m.log ++ [op] } :=
      ⟨rfl, fun hg => ⟨_, hg, rfl, rfl⟩⟩
    exact h.setPoint hf hrun hk hok
  | suspend k =>
    obtain ⟨m₁, hset, hok⟩ := bind_eq_ok hok
    obtain rfl := Except.ok.inj hok
    exact (h.setPoint hf hrun (.refl m) hset).congr rfl rfl
  | call x kind body args k =>
    obtain ⟨m₁, hbind, hok⟩ := bind_eq_ok hok
    obtain ⟨m₂, hreset, hok⟩ := bind_eq_ok hok
    obtain ⟨m₃, hwrite, hok⟩ := bind_eq_ok hok
    have hk := (keeps_bindArgs hbind).trans ((keeps_reset hreset).trans (keeps_write hwrite))
    have hf' : (m.create kind body).2.heap a = some f := (Function.update_of_ne hne _ _).trans hf
    exact (h.create kind body).setPoint hf' hrun hk hok
  | move x y k =>
    obtain ⟨m₁, hmove, hok⟩ := bind_eq_ok hok
    exact h.setPoint hf hrun (keeps_moveAssign hmove) hok
  | drop x k =>
    obtain ⟨m₁, hreset, hok⟩ := bind_eq_ok hok
    exact h.setPoint hf hrun (keeps_reset hreset) hok
  | start x k => cases hi
  | done x k =>
    obtain ⟨b, _, hok⟩ := bind_eq_ok hok
    exact h.setPoint hf hrun (.refl m) hok
  | result x k =>
    obtain ⟨r, _, hok⟩ := bind_eq_ok hok
    exact h.setPoint hf hrun (.refl m) hok
  | coAwait w x k =>
    obtain ⟨⟨o, m₁⟩, hex, hok⟩ := bind_eq_ok hok
    obtain ⟨m₂, hreset, hok⟩ := bind_eq_ok hok
    obtain ⟨m₃, hwrite, hok⟩ := bind_eq_ok hok
    exact h.setPoint hf hrun
      ((keeps_exchange hex).trans ((keeps_reset hreset).trans (keeps_write hwrite))) hok
  | moveAwaiter w v k =>
    obtain ⟨m₁, hmove, hok⟩ := bind_eq_ok hok
    exact h.setPoint hf hrun (keeps_moveAssign hmove) hok
  | dropAwaiter w k =>
    obtain ⟨m₁, hreset, hok⟩ := bind_eq_ok hok
    exact h.setPoint hf hrun (keeps_reset hreset) hok
  | await w k =>
    obtain ⟨ready, _, hok⟩ := bind_eq_ok hok
    cases ready with
    | true => exact h.setPoint hf hrun (.refl m) hok
    | false =>
      obtain ⟨m₁, hset, hok⟩ := bind_eq_ok hok
      have h₁ := h.setPoint hf hrun (.refl m) hset
      obtain ⟨⟨c, m₂⟩, hsuspend, hok⟩ := bind_eq_ok hok
      obtain ⟨o, hread, hsuspend⟩ := bind_eq_ok hsuspend
      cases o with
      | none => cases hsuspend
      | some c' =>
        obtain ⟨g, hg, hsuspend⟩ := bind_eq_ok hsuspend
        obtain ⟨rfl, rfl⟩ := Prod.mk.inj (Except.ok.inj hsuspend)
        obtain ⟨g₂, hg₂, hok⟩ := bind_eq_ok hok
        have hg₂ := frame_eq_ok hg₂
        let g₁ : Frame L := { g with promise := { g.promise with continuation := some a } }
        have hself : (m₁.store c' g₁).heap c' = some g₁ := Function.update_self _ _ _
        obtain rfl : g₁ = g₂ := Option.some.inj (hself.symm.trans hg₂)
        have h₂ : Rooted (m₁.store c' g₁) :=
          h₁.replace (frame_eq_ok hg) rfl rfl (Or.inr (Or.inl (Option.some_ne_none a)))
        split at hok
        · obtain rfl := Except.ok.inj hok
          exact h₂.replace hself rfl rfl (Or.inr (Or.inl (Option.some_ne_none a)))
        · cases hok
  | coReturn r k =>
    rw [coReturn_eq hf] at hok
    obtain ⟨hframe, hcont⟩ := returnValue_frame f r
    have hk : Keeps m (m.store a (returnValue f r).1) :=
      keeps_store hf (by rw [hframe]) hcont
    split at hok
    · exact h.setPoint hf hrun hk hok
    · obtain ⟨m₂, hleave, hok⟩ := bind_eq_ok hok
      exact h.finalSuspend hl hf hrun (hk.trans (keeps_leaveScope hleave)) hok
  | throw e =>
    obtain ⟨m₁, hleave, hok⟩ := bind_eq_ok hok
    obtain ⟨m₂, hexn, hok⟩ := bind_eq_ok hok
    obtain ⟨f₁, hf₁, hexn⟩ := bind_eq_ok hexn
    obtain rfl := Except.ok.inj hexn
    have hk : Keeps m₁ (m₁.store a { f₁ with promise := { f₁.promise with exception := some e } }) :=
      keeps_store (frame_eq_ok hf₁) rfl rfl
    exact h.finalSuspend hl hf hrun ((keeps_leaveScope hleave).trans hk) hok

end Keeps

/-! ## Structured runs are disciplined -/

variable {m m' : Machine L}

/-- What the innermost running coroutine awaits does not itself wait for anything. -/
theorem notAwaiting_of_rooted {rank : Addr → Nat} {a : Addr} {f : Frame L} {w : L.Aw}
    (h : Rooted m) (ho : Owned rank m []) (hl : Linked m) (hf : m.heap a = some f)
    (hrun : f.point.isRunning = true) : m.NotAwaiting (.slot a (.inr w)) := by
  intro c g hc hg
  by_contra haw
  have haw : g.point.isAwaiting = true := by simpa using haw
  cases hcont : g.promise.continuation with
  | none =>
    obtain ⟨v, hv⟩ := h c g hg (Point.not_idle_of_awaiting haw) hcont
    cases ho.forest.unique hc (show m.graph.holds (.var v) c from hv)
  | some p =>
    have hpc := hl.continued hg (by cases hgp : g.point <;>
      simp_all [Point.isAwaiting, Point.isFinal]) hcont
    obtain ⟨v, hv⟩ := hpc.holds
    obtain ⟨rfl, _⟩ := Place.slot.inj (ho.forest.unique hc hv)
    have hno := hpc.isAwaiting hf
    rw [Point.not_awaiting_of_running hrun] at hno
    cases hno

theorem disciplined_of_structured (h : Inv m) (hr : Rooted m) {l : Label L}
    (hs : Structured m l) : Disciplined m l := by
  obtain ⟨rank, ho, hl⟩ := h
  cases l with
  | drive op =>
    cases op with
    | start v => exact hs
    | _ => trivial
  | exec =>
    intro p hp
    obtain ⟨a, rest, f, c, hst, hf, hpt, rfl⟩ := current_eq_some hp
    have hstart := hs _ hp
    cases hi : L.next c with
    | start x k =>
      rw [hi] at hstart
      cases hstart
    | await w k => exact notAwaiting_of_rooted hr ho hl hf (by rw [hpt]; rfl)
    | _ => trivial

/-- A step of the running coroutine keeps started coroutines rooted. -/
theorem Rooted.exec (h : Rooted m) (hinv : Inv m) (hs : Structured m .exec)
    (hok : m.exec = .ok m') : Rooted m' := by
  obtain ⟨rank, ho, hl⟩ := hinv
  cases hst : m.stack with
  | nil =>
    rw [Machine.exec, hst] at hok
    exact Except.ok.inj hok ▸ h
  | cons a rest =>
    have hmem : a ∈ m.stack := hst ▸ List.mem_cons_self
    obtain ⟨f, hf⟩ := hl.stack_live hmem
    have hrun := (hl.running_iff hf).mpr hmem
    cases hpt : f.point with
    | running c =>
      rw [exec_of_running hst hf hpt] at hok
      exact h.perform hl (Nat.ne_of_lt (ho.lt_next ⟨f, hf⟩)) hf hpt
        (hs _ (Machine.current_of_running hst hf hpt)) hok
    | resumed w k =>
      rw [exec_of_resumed hst hf hpt] at hok
      obtain ⟨⟨r, m₁⟩, hresume, hok⟩ := bind_eq_ok hok
      obtain ⟨o, _, hresume⟩ := bind_eq_ok hresume
      cases o with
      | none =>
        obtain ⟨_, rfl⟩ := Prod.mk.inj (Except.ok.inj hresume)
        exact h.setPoint hf hrun (.refl _) hok
      | some c =>
        obtain ⟨g, hg, hresume⟩ := bind_eq_ok hresume
        obtain ⟨r', _, hresume⟩ := bind_eq_ok hresume
        obtain ⟨_, rfl⟩ := Prod.mk.inj (Except.ok.inj hresume)
        exact h.setPoint hf hrun
          (keeps_store (frame_eq_ok hg) g.moveOut_point g.moveOut_continuation) hok
    | initial c => rw [hpt] at hrun; cases hrun
    | external c => rw [hpt] at hrun; cases hrun
    | awaiting w k => rw [hpt] at hrun; cases hrun
    | final => rw [hpt] at hrun; cases hrun

/-- A frame that started stays rooted when handles move between Task variables, or
into frames if they are of idle coroutines. -/
theorem Rooted.of_owned {rank rank' : Addr → Nat} {temps : List Addr} (h : Rooted m)
    (ho : Owned rank m temps) (ho' : Owned rank' m' [])
    (hframe : ∀ c g', m'.heap c = some g' → ∃ g, m.heap c = some g ∧ g'.point = g.point ∧
      g'.promise.continuation = g.promise.continuation)
    (hslots : ∀ a s c, m'.graph.holds (.slot a s) c → m.graph.holds (.slot a s) c ∨
      ∃ g, m.heap c = some g ∧ g.point.isIdle = true) : Rooted m' := by
  intro c g' hg' hidle hcont
  obtain ⟨g, hg, hpt, hcont'⟩ := hframe c g' hg'
  obtain ⟨v, hv⟩ := h c g hg (hpt ▸ hidle) (hcont' ▸ hcont)
  rcases ho'.forest.owned ⟨g', hg'⟩ with ht | ⟨p, hp⟩
  · exact absurd ht List.not_mem_nil
  · cases p with
    | var u => exact ⟨u, hp⟩
    | slot a s =>
      rcases hslots a s c hp with hc | ⟨g₁, hg₁, hidle₁⟩
      · cases ho.forest.unique hc (show m.graph.holds (.var v) c from hv)
      · obtain rfl : g = g₁ := Option.some.inj (hg.symm.trans hg₁)
        rw [hpt, hidle₁] at hidle
        cases hidle

/-- Resetting a Task variable only removes frames. -/
theorem heap_of_reset_var {v : L.Var} (h : m.reset (.var v) = .ok m') {c : Addr} {g : Frame L}
    (hg : m'.heap c = some g) : m.heap c = some g := by
  obtain ⟨o, _, h⟩ := bind_eq_ok h
  cases o with
  | none => exact Except.ok.inj h ▸ hg
  | some d =>
    obtain ⟨m₁, hdestroy, h⟩ := bind_eq_ok h
    obtain rfl := Except.ok.inj h
    exact (shrunk_of_destroyAll hdestroy).heap hg

theorem heap_of_moveAssign_var {v w : L.Var} (h : m.moveAssign (.var v) (.var w) = .ok m')
    {c : Addr} {g : Frame L} (hg : m'.heap c = some g) : m.heap c = some g := by
  rw [moveAssign] at h
  split at h
  · exact Except.ok.inj h ▸ hg
  · obtain ⟨m₁, hreset, h⟩ := bind_eq_ok h
    obtain ⟨⟨o, m₂⟩, hex, h⟩ := bind_eq_ok h
    obtain ⟨_, _, hex⟩ := bind_eq_ok hex
    obtain ⟨_, hwrite, hex⟩ := bind_eq_ok hex
    obtain rfl := Except.ok.inj hwrite
    obtain ⟨_, rfl⟩ := Prod.mk.inj (Except.ok.inj hex)
    obtain rfl := Except.ok.inj h
    exact heap_of_reset_var hreset hg

/-- A step of a structured driver keeps started coroutines rooted. -/
theorem Rooted.drive {op : DriverOp L} (h : Rooted m) (hinv : Inv m) (hst : m.stack = [])
    (hen : op.Enabled m) (hs : Structured m (.drive op)) (hok : m.drive op = .ok m')
    (hinv' : Inv m') : Rooted m' := by
  obtain ⟨rank, ho, hl⟩ := hinv
  obtain ⟨rank', ho', _⟩ := hinv'
  -- When frames only disappear, what a frame holds it held before.
  have hsub : (∀ c g, m'.heap c = some g → m.heap c = some g) → Rooted m' := fun hheap =>
    h.of_owned ho ho' (fun c g hg => ⟨g, hheap c g hg, rfl, rfl⟩)
      fun a s c ⟨f, hf, hc⟩ => Or.inl ⟨f, hheap a f hf, hc⟩
  cases op with
  | create v kind body args =>
    obtain ⟨m'', hok', _, hq, hheld⟩ := create_kept ho hl hst hen.1 kind body args
    obtain rfl : m'' = m' := Except.ok.inj (hok'.symm.trans hok)
    have hold : ∀ {c g}, m.heap c = some g → (m.create kind body).2.heap c = some g := by
      intro c g hg
      have hc : c ≠ m.next := Nat.ne_of_lt (ho.lt_next ⟨g, hg⟩)
      exact (Function.update_of_ne hc _ _).trans hg
    have hmono : ∀ a c, rank a < rank c → a < m.next → c < m.next → rank a < rank c :=
      fun a c hac _ _ => hac
    have ho₁ := create_spec ho hmono kind body
    refine (h.create kind body).of_owned ho₁ ho' ?_ ?_
    · intro c g' hg'
      obtain ⟨g, hg, _, hprom, hpt, _⟩ := hq.frame hg'
      exact ⟨g, hg, hpt, by rw [hprom]⟩
    · intro a s c hc
      rcases hheld _ c hc with ⟨f, hf, hc⟩ | ⟨p, hp, hc⟩ | hv
      · exact Or.inl ⟨f, hold hf, hc⟩
      · obtain ⟨g, hg⟩ := ho.forest.held_live hc
        exact Or.inr ⟨g, hold hg, hs p hp g (frameAt_eq_some.mpr ⟨c, hc, hg⟩)⟩
      · cases hv
  | defaultConstruct v =>
    obtain rfl := Except.ok.inj hok
    exact hsub fun c g hg => hg
  | moveConstruct v w =>
    obtain ⟨⟨o, m₁⟩, hex, hok⟩ := bind_eq_ok hok
    obtain ⟨_, _, hex⟩ := bind_eq_ok hex
    obtain ⟨_, hwrite, hex⟩ := bind_eq_ok hex
    obtain rfl := Except.ok.inj hwrite
    obtain ⟨_, rfl⟩ := Prod.mk.inj (Except.ok.inj hex)
    obtain rfl := Except.ok.inj hok
    exact hsub fun c g hg => hg
  | moveAssign v w => exact hsub fun c g hg => heap_of_moveAssign_var hok hg
  | destroy v =>
    obtain ⟨m₁, hreset, hok⟩ := bind_eq_ok hok
    obtain rfl := Except.ok.inj hok
    exact hsub fun c g hg => heap_of_reset_var hreset hg
  | start v =>
    obtain ⟨o, hread, hheld⟩ := read_ok (show m.HasPlace (.var v) from trivial)
    cases o with
    | none =>
      rw [Machine.drive, bind_of_ok (start_of_none hread)] at hok
      exact Except.ok.inj hok ▸ h
    | some c =>
      have hc : m.graph.holds (.var v) c := (hheld c).mpr rfl
      obtain ⟨g, hg⟩ := ho.forest.held_live hc
      rw [drive_start hread hg] at hok
      split at hok
      · exact Except.ok.inj hok ▸ h
      · obtain ⟨g', hg', hok⟩ := bind_eq_ok hok
        obtain rfl : g = g' := Option.some.inj (hg.symm.trans (frame_eq_ok hg'))
        split at hok
        · obtain rfl := Except.ok.inj hok
          exact h.replace hg rfl rfl (Or.inr (Or.inr ⟨v, hc⟩))
        · cases hok
  | resume a =>
    obtain ⟨f, c, hf, hpt⟩ := hen
    rw [Machine.drive, resume_of_enter hf (by rw [hpt]; rfl)] at hok
    obtain rfl := Except.ok.inj hok
    exact h.replace hf rfl rfl (Or.inl ⟨by rw [hpt]; rfl, rfl⟩)

/-- The states of structured runs satisfy the invariant of disciplined runs, and
their started coroutines are rooted. -/
theorem inv_of_structured (h : (system L).Reach Structured m) : Inv m ∧ Rooted m := by
  refine h.invariant (P := fun m => Inv m ∧ Rooted m) ?_ ?_
  · rintro s ⟨mem, rfl⟩
    exact ⟨inv_start0 mem, fun c g hg => by cases hg⟩
  · rintro s l s' ⟨hinv, hr⟩ hen hs hok
    obtain ⟨s'', hok', hinv'⟩ := step_ok hinv hen (disciplined_of_structured hinv hr hs)
    obtain rfl : s'' = s' := Except.ok.inj (hok'.symm.trans hok)
    refine ⟨hinv', ?_⟩
    cases l with
    | drive op => exact hr.drive hinv hen.1 hen.2 hs hok hinv'
    | exec => exact hr.exec hinv hs hok

/-! ## The results -/

/-- The frames of a state form a forest whose roots are in the driver's Task
variables, and the links between them are exact. -/
structure FrameForest (m : Machine L) : Prop where
  /-- A live frame has exactly one owner, a Task variable or a variable of a live
  frame. -/
  owner : ∀ a, m.graph.live a → ∃! p, m.HasPlace p ∧ m.graph.holds p a
  /-- A handle is of a live frame. -/
  held : ∀ p a, m.graph.holds p a → m.graph.live a
  /-- A live frame is at or below one that a Task variable owns. -/
  root : ∀ a, m.graph.live a → ∃ v r, m.graph.holds (.var v) r ∧ Below Place.home m.graph r a
  /-- No frame is below itself. -/
  acyclic : ∀ a s c, m.graph.holds (.slot a s) c → ¬ Below Place.home m.graph c a
  /-- The continuation of an unfinished child is the live frame that awaits it,
  with the Awaiter that owns it. -/
  continuation : ∀ c g p, m.heap c = some g → g.point.isFinal = false →
    g.promise.continuation = some p → Awaits m p c
  /-- A coroutine at a `co_await` waits for an unfinished child, whose continuation
  it is. -/
  awaited : ∀ p f w k, m.heap p = some f → f.point = .awaiting w k → ∃ c g,
    f.slots (.inr w) = some c ∧ m.heap c = some g ∧ g.point.isFinal = false ∧
      g.promise.continuation = some p
  /-- No frame is destroyed twice, and the frames that are gone were destroyed. -/
  destroyed_once : m.destroyed.Nodup ∧
    ∀ a, a ∈ m.destroyed ↔ a < m.next ∧ ¬ m.graph.live a

theorem FrameForest.of_inv (h : Inv m) : FrameForest m := by
  obtain ⟨rank, ho, hl⟩ := h
  refine ⟨?_, fun p a => ho.forest.held_live, fun a => ho.root, ?_, ?_, ?_, ?_⟩
  · intro a ha
    rcases ho.forest.owned ha with ht | ⟨p, hp⟩
    · exact absurd ht List.not_mem_nil
    · exact ⟨p, ⟨.of_home fun b hb => ho.forest.home_live hp hb, hp⟩,
        fun q hq => ho.forest.unique hq.2 hp⟩
  · intro a s c hc hb
    have hle := ho.forest.rank_le_of_below hb
    have hlt := ho.forest.ranked hc rfl
    omega
  · exact fun c g p hg hfin hcont => hl.continued hg hfin hcont
  · exact fun p f w k hf hpt => hl.awaiting hf hpt fun hF => hF
  · exact ⟨ho.destroyed_nodup, fun a => ho.mem_destroyed⟩

/-- Destroying a Task ends the frames at or below its handle and does nothing
else. -/
theorem destroy_exact (h : Inv m) (hst : m.stack = []) {v : L.Var} (hv : m.vars v ≠ none) :
    ∃ m', m.drive (.destroy v) = .ok m' ∧
      (∀ x f, m'.heap x = some f ↔ m.heap x = some f ∧
        ¬ ∃ c, m.graph.holds (.var v) c ∧ Below Place.home m.graph c x) ∧
      m'.stack = [] ∧ m'.mem = m.mem ∧ m'.log = m.log := by
  have hen : (DriverOp.destroy v).Enabled m := hv
  obtain ⟨m', hok, _⟩ := drive_ok h hst hen trivial
  obtain ⟨rank, ho, hl⟩ := h
  obtain ⟨m₁, hreset, _, hq, _, hdead⟩ := reset_spec ho (show m.HasPlace (.var v) from trivial)
    fun r f c hf hr => by simp [not_running_of_idle hl hst hf] at hr
  have hm' : m' = { m₁ with vars := Function.update m₁.vars v none } := by
    rw [Machine.drive, bind_of_ok hreset] at hok
    exact (Except.ok.inj hok).symm
  have hheap : m'.heap = m₁.heap := by rw [hm']
  refine ⟨m', hok, ?_, by rw [hm']; exact hq.stack.trans hst, by rw [hm']; exact hq.mem,
    by rw [hm']; exact hq.log⟩
  intro x f
  rw [hheap]
  constructor
  · intro hf
    refine ⟨heap_of_reset_var hreset hf, fun hb => ?_⟩
    exact (hdead x ⟨f, heap_of_reset_var hreset hf⟩).mpr hb ⟨f, hf⟩
  · rintro ⟨hf, hnb⟩
    by_contra hne
    refine hnb ((hdead x ⟨f, hf⟩).mp ?_)
    rintro ⟨g, hg⟩
    obtain rfl : f = g := Option.some.inj (hf.symm.trans (heap_of_reset_var hreset hg))
    exact hne hg

/-- Frame ownership in structured runs: the frames form a forest, no step touches
a destroyed frame, destroying a Task ends exactly the frames below it, and when
no Task variable owns a frame all frames were destroyed. -/
theorem frame_ownership (h : (system L).Reach Structured m) :
    FrameForest m ∧
      (∀ l : Label L, l.Enabled m → Structured m l → ∃ m', m.step l = .ok m') ∧
      (∀ v, (DriverOp.destroy v).Enabled m → m.stack = [] → ∃ m',
        m.step (.drive (.destroy v)) = .ok m' ∧
        (∀ x f, m'.heap x = some f ↔ m.heap x = some f ∧
          ¬ ∃ c, m.graph.holds (.var v) c ∧ Below Place.home m.graph c x) ∧
        m'.stack = [] ∧ m'.mem = m.mem ∧ m'.log = m.log) ∧
      ((∀ v c, m.vars v ≠ some (some c)) →
        ∀ a, m.heap a = none ∧ (a < m.next → a ∈ m.destroyed)) := by
  obtain ⟨hinv, hr⟩ := inv_of_structured h
  have hforest := FrameForest.of_inv hinv
  refine ⟨hforest, ?_, fun v hv hst => destroy_exact hinv hst hv, ?_⟩
  · intro l hen hs
    obtain ⟨m', hok, _⟩ := step_ok hinv hen (disciplined_of_structured hinv hr hs)
    exact ⟨m', hok⟩
  · intro hvars a
    have hnone : m.heap a = none := by
      cases ha : m.heap a with
      | none => rfl
      | some f =>
        obtain ⟨v, r, hv, _⟩ := hforest.root a ⟨f, ha⟩
        exact absurd hv (hvars v r)
    refine ⟨hnone, fun hlt => (hforest.destroyed_once.2 a).mpr ⟨hlt, ?_⟩⟩
    rintro ⟨f, hf⟩
    rw [hnone] at hf
    cases hf

/-- A Task that waits for its suspended child, and its destruction. -/
theorem frame_ownership_toSuspension : ∃ m : Machine Plain,
    (system Plain).replay Structured (.start0 ()) (toSuspension .value) = some m ∧
      (∃ f, m.heap 1 = some f) ∧ FrameForest m ∧
      ∃ m', m.step (.drive (.destroy ())) = .ok m' ∧ m'.heap 0 = none ∧ m'.heap 1 = none := by
  have hreplay : ∃ m : Machine Plain,
      (system Plain).replay Structured (.start0 ()) (toSuspension .value) = some m ∧
        m.stack = [] ∧ m.vars () = some (some 0) ∧ (∃ f, m.heap 0 = some f ∧
          f.slots (.inr ()) = some 1) ∧ ∃ f, m.heap 1 = some f :=
    ⟨_, rfl, rfl, rfl, ⟨_, rfl, rfl⟩, _, rfl⟩
  obtain ⟨m, hm, hst, hv, ⟨f, hf, hs⟩, hlive⟩ := hreplay
  obtain ⟨steps, hrun, _, hall⟩ := Transition.Run.of_replay hm
  obtain ⟨hforest, _, hdestroy, _⟩ := frame_ownership (hrun.reach (.init ⟨(), rfl⟩) hall)
  have hen : m.vars () ≠ none := by
    rw [hv]
    exact Option.some_ne_none _
  obtain ⟨m', hok, hheap, _⟩ := hdestroy () hen hst
  have hroot : m.graph.holds (.var ()) 0 := hv
  have hgone : ∀ x, Below Place.home m.graph 0 x → m'.heap x = none := by
    intro x hx
    cases hg : m'.heap x with
    | none => rfl
    | some g => exact absurd ⟨0, hroot, hx⟩ ((hheap x g).mp hg).2
  exact ⟨m, hm, hlive, hforest, m', hok, hgone 0 .self,
    hgone 1 (.held .self rfl (holds_slot hf hs))⟩

end VixStandard.Task
