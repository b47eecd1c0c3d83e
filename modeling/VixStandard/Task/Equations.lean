import VixStandard.Task.Machine

/-!
# What the operations compute on frames that are known

One equation for each function of the machine, from the frames it reads to the
state it returns.  Proofs about the machine cite these equations instead of
unfolding the functions; `bind_of_ok` puts them together.
-/

namespace VixStandard.Task

open Machine

variable {L : Lang} {m : Machine L}

theorem bind_of_ok {ε α β : Type} {x : Except ε α} {a : α} (h : x = .ok a)
    (f : α → Except ε β) : (x >>= f) = f a := by
  rw [h]
  rfl

theorem bind_eq_ok {ε α β : Type} {x : Except ε α} {f : α → Except ε β} {b : β}
    (h : (x >>= f) = .ok b) : ∃ a, x = .ok a ∧ f a = .ok b := by
  cases x with
  | error e => cases h
  | ok a => exact ⟨a, rfl, h⟩

theorem frame_ok {a : Addr} {f : Frame L} (h : m.heap a = some f) : m.frame a = .ok f := by
  rw [frame, h]

theorem frame_eq_ok {a : Addr} {f : Frame L} (h : m.frame a = .ok f) : m.heap a = some f := by
  rw [frame] at h
  split at h
  · rename_i g hg
    exact Except.ok.inj h ▸ hg
  · cases h

theorem read_slot {a : Addr} {f : Frame L} (h : m.heap a = some f) (s : Slot L) :
    m.read (.slot a s) = .ok (f.slots s) := by
  rw [Machine.read, bind_of_ok (frame_ok h)]

theorem write_slot {a : Addr} {f : Frame L} (h : m.heap a = some f) (s : Slot L)
    (o : Option Addr) : m.write (.slot a s) o =
      .ok (m.store a { f with slots := Function.update f.slots s o }) := by
  rw [write, bind_of_ok (frame_ok h)]

theorem setPoint_ok {a : Addr} {f : Frame L} (h : m.heap a = some f) (pt : Point L) :
    m.setPoint a pt = .ok (m.store a { f with point := pt }) := by
  rw [setPoint, bind_of_ok (frame_ok h)]

/-- A suspended coroutine that is not at its final suspension can be resumed. -/
theorem resume_of_enter {c : Addr} {g : Frame L} {pt : Point L} (hg : m.heap c = some g)
    (hpt : g.point.enter = some pt) :
    m.resume c = .ok { m.store c { g with point := pt } with stack := c :: m.stack } := by
  rw [resume, bind_of_ok (frame_ok hg), hpt]

/-! ## Task -/

section Handle

variable {p : Place L} {c : Addr} {g : Frame L}

theorem start_of_none (hread : m.read p = .ok none) :
    m.start p = .ok (.error .noCoroutine, m) := by
  rw [start, bind_of_ok hread]

theorem start_of_some (hread : m.read p = .ok (some c)) (hg : m.heap c = some g) :
    m.start p = if g.point.isFinal = true then .ok (.ok (), m)
      else (m.resume c).map fun m => (.ok (), m) := by
  simp only [start, bind_of_ok hread, bind_of_ok (frame_ok hg)]
  cases m.resume c <;> rfl

theorem done_of_none (hread : m.read p = .ok none) : m.done p = .ok false := by
  rw [done, bind_of_ok hread]

theorem done_of_some (hread : m.read p = .ok (some c)) (hg : m.heap c = some g) :
    m.done p = .ok g.point.isFinal := by
  simp only [done, bind_of_ok hread, bind_of_ok (frame_ok hg)]

theorem result_of_none (hread : m.read p = .ok none) : m.result p = .ok (.error .noCoroutine) := by
  rw [result, bind_of_ok hread]

theorem result_of_some (hread : m.read p = .ok (some c)) (hg : m.heap c = some g) :
    m.result p = if g.point.isFinal = true then g.outcome else .ok (.error .notCompleted) := by
  simp only [result, bind_of_ok hread, bind_of_ok (frame_ok hg)]

/-! ## Awaiter -/

theorem awaitReady_of_none (hread : m.read p = .ok none) : m.awaitReady p = .ok true := by
  rw [awaitReady, bind_of_ok hread]

theorem awaitReady_of_some (hread : m.read p = .ok (some c)) (hg : m.heap c = some g) :
    m.awaitReady p = .ok g.point.isFinal := by
  simp only [awaitReady, bind_of_ok hread, bind_of_ok (frame_ok hg)]

theorem awaitSuspend_of_some (hread : m.read p = .ok (some c)) (hg : m.heap c = some g)
    (a : Addr) : m.awaitSuspend p a =
      .ok (c, m.store c { g with promise := { g.promise with continuation := some a } }) := by
  simp only [awaitSuspend, bind_of_ok hread, bind_of_ok (frame_ok hg)]

theorem awaitResume_of_none (hread : m.read p = .ok none) :
    m.awaitResume p = .ok (.error .emptyAwait, m) := by
  rw [awaitResume, bind_of_ok hread]

theorem awaitResume_of_some (hread : m.read p = .ok (some c)) (hg : m.heap c = some g) :
    m.awaitResume p = g.outcome.map fun r => (r, m.store c g.moveOut) := by
  simp only [awaitResume, bind_of_ok hread, bind_of_ok (frame_ok hg)]
  cases g.outcome <;> rfl

end Handle

/-- `start()` by the driver. -/
theorem drive_start {v : L.Var} {c : Addr} {g : Frame L} (hread : m.read (.var v) = .ok (some c))
    (hg : m.heap c = some g) :
    m.drive (.start v) = if g.point.isFinal = true then .ok m else m.resume c := by
  have hstart := start_of_some hread hg
  cases hfin : g.point.isFinal with
  | true =>
    rw [hfin] at hstart
    rw [Machine.drive, bind_of_ok hstart]
    rfl
  | false =>
    rw [hfin] at hstart
    cases hres : m.resume c with
    | ok m' =>
      rw [hres] at hstart
      rw [Machine.drive, bind_of_ok hstart]
      rfl
    | error e =>
      rw [hres] at hstart
      rw [Machine.drive, hstart]
      rfl

/-- `reset()` of a Task that owns nothing. -/
theorem reset_of_none {p : Place L} (hread : m.read p = .ok none) : m.reset p = .ok m := by
  rw [reset, bind_of_ok hread]

/-! ## Moving a value out -/

theorem Frame.moveOut_slots (g : Frame L) : g.moveOut.slots = g.slots := by
  cases he : g.promise.exception <;> simp [Frame.moveOut, he]

theorem Frame.moveOut_point (g : Frame L) : g.moveOut.point = g.point := by
  cases he : g.promise.exception <;> simp [Frame.moveOut, he]

theorem Frame.moveOut_continuation (g : Frame L) :
    g.moveOut.promise.continuation = g.promise.continuation := by
  cases he : g.promise.exception <;> simp [Frame.moveOut, he]

/-- A value that was moved from is still a value. -/
theorem moveOut_outcome {g : Frame L} {r : L.Outcome} (hr : g.outcome = .ok r) :
    ∃ r', g.moveOut.outcome = .ok r' := by
  cases he : g.promise.exception with
  | some e => exact ⟨.error e, by simp [Frame.outcome, Frame.moveOut, he]⟩
  | none =>
    cases hk : g.kind with
    | void => exact ⟨.ok none, by simp [Frame.outcome, Frame.moveOut, he, hk]⟩
    | value =>
      cases hv : g.promise.value with
      | none => simp [Frame.outcome, he, hk, hv] at hr
      | some v => exact ⟨.ok (some (L.moved v)), by simp [Frame.outcome, Frame.moveOut, he, hk, hv]⟩

/-! ## Statements -/

section Statement

variable {a : Addr} {rest : List Addr} {f : Frame L}

theorem finalSuspend_eq (hf : m.heap a = some f) :
    m.finalSuspend a rest = match f.promise.continuation with
      | none => .ok { m.store a { f with point := .final } with stack := rest }
      | some p => resume { m.store a { f with point := .final } with stack := rest } p := by
  have hself : (m.store a { f with point := .final }).heap a = some { f with point := .final } :=
    Function.update_self _ _ _
  unfold finalSuspend
  exact (bind_of_ok (setPoint_ok hf _) _).trans (bind_of_ok (frame_ok hself) _)

/-- `return_value` and `return_void` change nothing but the value of the promise. -/
theorem returnValue_frame (f : Frame L) (r : Except (Exn L.Exc) L.Val) :
    (returnValue f r).1 = { f with promise := (returnValue f r).1.promise } ∧
      (returnValue f r).1.promise.continuation = f.promise.continuation := by
  obtain ⟨kind, promise, point, slots⟩ := f
  cases kind <;> cases r <;> exact ⟨rfl, rfl⟩

theorem coReturn_eq (hf : m.heap a = some f) (r : Except (Exn L.Exc) L.Val)
    (k : Exn L.Exc → L.Code) :
    m.perform a rest (.coReturn r k) = match (returnValue f r).2 with
      | some e => (m.store a (returnValue f r).1).goto a (k e)
      | none => (m.store a (returnValue f r).1).leaveScope a >>= fun m => m.finalSuspend a rest := by
  unfold perform
  exact bind_of_ok (frame_ok hf) _

theorem unhandledException_ok (hf : m.heap a = some f) (e : Exn L.Exc) :
    m.unhandledException a e =
      .ok (m.store a { f with promise := { f.promise with exception := some e } }) := by
  rw [unhandledException, bind_of_ok (frame_ok hf)]

theorem exec_of_running {c : L.Code} (hst : m.stack = a :: rest) (hf : m.heap a = some f)
    (hpt : f.point = .running c) : m.exec = m.perform a rest (L.next c) := by
  rw [exec, hst]
  simp only [bind_of_ok (frame_ok hf), hpt]

theorem exec_of_resumed {w : L.Aw} {k : L.Outcome → L.Code} (hst : m.stack = a :: rest)
    (hf : m.heap a = some f) (hpt : f.point = .resumed w k) :
    m.exec = m.awaitResume (.slot a (.inr w)) >>= fun p => p.2.goto a (k p.1) := by
  rw [exec, hst]
  simp only [bind_of_ok (frame_ok hf), hpt]

/-- `co_await` of an Awaiter that is ready. -/
theorem await_of_ready {w : L.Aw} {k : L.Outcome → L.Code} (hf : m.heap a = some f)
    (hready : m.awaitReady (.slot a (.inr w)) = .ok true) :
    m.perform a rest (.await w k) = .ok (m.store a { f with point := .resumed w k }) := by
  simp only [perform, bind_of_ok hready, setPoint_ok hf, if_true]

/-- `co_await` of an Awaiter whose child `c` has not completed. -/
theorem await_of_not_ready {w : L.Aw} {k : L.Outcome → L.Code} {c : Addr} {g : Frame L}
    (hf : m.heap a = some f) (hs : f.slots (.inr w) = some c) (hca : c ≠ a)
    (hg : m.heap c = some g) (hfin : g.point.isFinal = false) :
    m.perform a rest (.await w k) = resume
      { (m.store a { f with point := .awaiting w k }).store c
          { g with promise := { g.promise with continuation := some a } } with stack := rest } c := by
  have hself : (m.store a { f with point := .awaiting w k }).heap a =
      some { f with point := .awaiting w k } := Function.update_self _ _ _
  have hread := read_slot hf (.inr w)
  have hread' := read_slot hself (.inr w)
  rw [hs] at hread
  rw [show ({ f with point := .awaiting w k } : Frame L).slots (.inr w) = some c from hs] at hread'
  have hg' : (m.store a { f with point := .awaiting w k }).heap c = some g :=
    (Function.update_of_ne hca _ _).trans hg
  simp only [perform, bind_of_ok (awaitReady_of_some hread hg), hfin, bind_of_ok (setPoint_ok hf _),
    bind_of_ok (awaitSuspend_of_some hread' hg' a)]
  rfl

end Statement

end VixStandard.Task
