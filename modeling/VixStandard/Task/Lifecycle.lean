import VixStandard.Task.Access
import VixStandard.Task.Ownership

/-!
# The life of a coroutine

Nothing here depends on a discipline: the results hold in every run that has not faulted,
whatever the bodies and the driver do.

* `Frame.Becomes` says how a frame can change.  A coroutine leaves its initial suspension
  once and for all, it stays completed, and what it completed with stays as well, apart
  from a value that was touched.
* `Advances` says the same of a machine, and that destroyed frames do not come back.  A value
  is touched by an `await_resume()`, which moves it out (`MovesOut`), and by an access through
  a reference from `result()` (`Touches`).
* The operations on handles change neither points nor promises (`SameFrames`).
* `perform_advances`, `exec_advances` and `drive_advances` go through the statements and
  the operations of the driver.  They also count the running coroutines: only a `start()`
  in a body puts one more on the stack, and a `co_await` replaces the head.

`run_advances` and `stack_depth` are the results for whole runs.  In `stack_depth` handles are
resumed by the driver: no body resumes a handle other than by `start()` and `co_await`.
-/

namespace VixStandard.Task

open VixStandard.Lib Machine

variable {L : Lang}

/-! ## One frame -/

/-- An unfinished coroutine has nothing in its promise. -/
def Frame.Unset (f : Frame L) : Prop :=
  f.point.isFinal = false → f.promise.value = none ∧ f.promise.exception = none

/-- How a frame can change while it lives, and whether its value may be touched. -/
structure Frame.Becomes (touched : Prop) (f f' : Frame L) : Prop where
  kind : f'.kind = f.kind
  /-- A body begins once. -/
  initial : ∀ c, f'.point = .initial c → f.point = .initial c
  /-- A coroutine that completed stays so. -/
  final : f.point.isFinal = true → f'.point.isFinal = true
  exception : f.point.isFinal = true → f'.promise.exception = f.promise.exception
  /-- A value stays a value, and the same one unless it is touched. -/
  value : f.point.isFinal = true → f'.promise.value.isSome = f.promise.value.isSome ∧
    (¬ touched → f'.promise.value = f.promise.value)
  unset : f.Unset → f'.Unset

section Becomes

variable {f f' f'' : Frame L} {touched touched' : Prop}

/-- A frame of which only the variables and the continuation changed. -/
theorem Frame.becomes_of_same (hkind : f'.kind = f.kind) (hpt : f'.point = f.point)
    (hvalue : f'.promise.value = f.promise.value)
    (hexn : f'.promise.exception = f.promise.exception) : f.Becomes touched f' := by
  refine ⟨hkind, ?_, ?_, fun _ => hexn, fun _ => ⟨by rw [hvalue], fun _ => hvalue⟩, ?_⟩
  · intro c hc
    rw [← hpt, hc]
  · intro hfin
    rw [hpt, hfin]
  · intro hf hfin
    rw [hvalue, hexn]
    exact hf (hpt ▸ hfin)

theorem Frame.Becomes.refl (f : Frame L) : f.Becomes touched f := becomes_of_same rfl rfl rfl rfl

/-- An unfinished coroutine can go anywhere but to its initial suspension. -/
theorem Frame.becomes_of_unfinished (hfin : f.point.isFinal = false) (hkind : f'.kind = f.kind)
    (hpt : ∀ c, f'.point ≠ .initial c) (hunset : f.Unset → f'.Unset) : f.Becomes touched f' := by
  have hno : f.point.isFinal ≠ true := by simp [hfin]
  exact ⟨hkind, fun c hc => absurd hc (hpt c), fun h => absurd h hno, fun h => absurd h hno,
    fun h => absurd h hno, hunset⟩

theorem Frame.Becomes.trans (h : f.Becomes touched f') (h' : f'.Becomes touched f'') :
    f.Becomes touched f'' := by
  refine ⟨h'.kind.trans h.kind, fun c hc => h.initial c (h'.initial c hc),
    fun hfin => h'.final (h.final hfin),
    fun hfin => (h'.exception (h.final hfin)).trans (h.exception hfin), fun hfin => ?_,
    fun hf => h'.unset (h.unset hf)⟩
  obtain ⟨hsome, hsame⟩ := h.value hfin
  obtain ⟨hsome', hsame'⟩ := h'.value (h.final hfin)
  exact ⟨hsome'.trans hsome, fun hno => (hsame' hno).trans (hsame hno)⟩

theorem Frame.Becomes.mono (h : f.Becomes touched f') (himp : touched → touched') :
    f.Becomes touched' f' := by
  refine ⟨h.kind, h.initial, h.final, h.exception, fun hfin => ?_, h.unset⟩
  obtain ⟨hsome, hsame⟩ := h.value hfin
  exact ⟨hsome, fun hno => hsame fun ht => hno (himp ht)⟩

/-- The value is touched, and all else stays. -/
theorem Frame.becomes_touched (hkind : f'.kind = f.kind) (hpt : f'.point = f.point)
    (hexn : f'.promise.exception = f.promise.exception)
    (hsome : f'.promise.value.isSome = f.promise.value.isSome) (htouched : touched) :
    f.Becomes touched f' := by
  refine ⟨hkind, fun c hc => hpt ▸ hc, fun hfin => hpt ▸ hfin, fun _ => hexn,
    fun _ => ⟨hsome, fun hno => absurd htouched hno⟩, fun hf hfin => ?_⟩
  obtain ⟨hnone, hexn'⟩ := hf (hpt ▸ hfin)
  exact ⟨Option.isNone_iff_eq_none.mp (by simp [← Option.not_isSome, hsome, hnone]),
    hexn.trans hexn'⟩

/-- Moving the value out. -/
theorem Frame.becomes_moveOut (g : Frame L) (htouched : touched) :
    g.Becomes touched g.moveOut := by
  refine becomes_touched ?_ g.moveOut_point ?_ ?_ htouched <;>
    cases he : g.promise.exception <;> simp [Frame.moveOut, he]

end Becomes

/-! ## A machine -/

/-- How a machine can change, if the values of the frames in `T` only are touched. -/
structure Advances (T : Addr → Prop) (m m' : Machine L) : Prop where
  next_le : m.next ≤ m'.next
  /-- A live frame was live before, or it is new. -/
  frame : ∀ {a f'}, m'.heap a = some f' →
    (∃ f, m.heap a = some f ∧ f.Becomes (T a) f') ∨ (m.next ≤ a ∧ f'.Unset)
  log : m.log <+: m'.log
  destroyed : m.destroyed <+: m'.destroyed

variable {T T' : Addr → Prop} {m m' m₁ : Machine L} {a : Addr}

theorem Advances.refl (m : Machine L) : Advances T m m :=
  ⟨Nat.le_refl _, fun hf => Or.inl ⟨_, hf, .refl _⟩, List.prefix_refl _, List.prefix_refl _⟩

theorem Advances.trans (h : Advances T m m₁) (h' : Advances T m₁ m') :
    Advances T m m' := by
  refine ⟨Nat.le_trans h.next_le h'.next_le, fun hf => ?_, h.log.trans h'.log,
    h.destroyed.trans h'.destroyed⟩
  rcases h'.frame hf with ⟨f₁, hf₁, hbecomes⟩ | ⟨hle, hunset⟩
  · rcases h.frame hf₁ with ⟨f, hf, hbecomes'⟩ | ⟨hle, hunset⟩
    · exact Or.inl ⟨f, hf, hbecomes'.trans hbecomes⟩
    · exact Or.inr ⟨hle, hbecomes.unset hunset⟩
  · exact Or.inr ⟨Nat.le_trans h.next_le hle, hunset⟩

theorem Advances.mono (h : Advances T m m') (himp : ∀ a, T a → T' a) : Advances T' m m' := by
  refine ⟨h.next_le, fun hf => ?_, h.log, h.destroyed⟩
  rcases h.frame hf with ⟨f, hf, hbecomes⟩ | hnew
  · exact Or.inl ⟨f, hf, hbecomes.mono (himp _)⟩
  · exact Or.inr hnew

/-- One frame changes. -/
theorem advances_replace {f f' : Frame L} (hf : m.heap a = some f)
    (hheap : m'.heap = Function.update m.heap a (some f')) (hbecomes : f.Becomes (T a) f')
    (hnext : m'.next = m.next) (hlog : m.log <+: m'.log) (hdes : m'.destroyed = m.destroyed) :
    Advances T m m' := by
  refine ⟨Nat.le_of_eq hnext.symm, fun hg => ?_, hlog, hdes ▸ List.prefix_refl _⟩
  rcases heap_cases hheap hg with ⟨rfl, rfl⟩ | ⟨_, hg⟩
  · exact Or.inl ⟨f, hf, hbecomes⟩
  · exact Or.inl ⟨_, hg, .refl _⟩

/-! ## Operations on handles -/

/-- `m'` has frames of `m`, with their class, promise and point. -/
structure SameFrames (m m' : Machine L) : Prop where
  stack : m'.stack = m.stack
  next : m'.next = m.next
  log : m'.log = m.log
  frame : ∀ {a f'}, m'.heap a = some f' → ∃ f, m.heap a = some f ∧ f'.kind = f.kind ∧
    f'.promise = f.promise ∧ f'.point = f.point
  destroyed : m.destroyed <+: m'.destroyed

theorem SameFrames.refl (m : Machine L) : SameFrames m m :=
  ⟨rfl, rfl, rfl, fun hf => ⟨_, hf, rfl, rfl, rfl⟩, List.prefix_refl _⟩

theorem SameFrames.trans (h : SameFrames m m₁) (h' : SameFrames m₁ m') : SameFrames m m' := by
  refine ⟨h'.stack.trans h.stack, h'.next.trans h.next, h'.log.trans h.log, fun hf => ?_,
    h.destroyed.trans h'.destroyed⟩
  obtain ⟨f₁, hf₁, hkind₁, hprom₁, hpt₁⟩ := h'.frame hf
  obtain ⟨f, hf, hkind, hprom, hpt⟩ := h.frame hf₁
  exact ⟨f, hf, hkind₁.trans hkind, hprom₁.trans hprom, hpt₁.trans hpt⟩

theorem SameFrames.advances (h : SameFrames m m') : Advances T m m' := by
  refine ⟨Nat.le_of_eq h.next.symm, fun hf => ?_, h.log ▸ List.prefix_refl _, h.destroyed⟩
  obtain ⟨f, hf, hkind, hprom, hpt⟩ := h.frame hf
  exact Or.inl ⟨f, hf, Frame.becomes_of_same hkind hpt (by rw [hprom]) (by rw [hprom])⟩

theorem Shrunk.sameFrames (h : Shrunk m m') : SameFrames m m' := by
  obtain ⟨dead, hdead⟩ := h.destroyed
  exact ⟨h.stack, h.next, h.log, fun hf => ⟨_, h.heap hf, rfl, rfl, rfl⟩, dead, hdead.symm⟩

theorem sameFrames_store {f f' : Frame L} (hf : m.heap a = some f) (hkind : f'.kind = f.kind)
    (hprom : f'.promise = f.promise) (hpt : f'.point = f.point) :
    SameFrames m (m.store a f') := by
  refine ⟨rfl, rfl, rfl, fun hg => ?_, List.prefix_refl _⟩
  rcases heap_cases rfl hg with ⟨rfl, rfl⟩ | ⟨_, hg⟩
  · exact ⟨f, hf, hkind, hprom, hpt⟩
  · exact ⟨_, hg, rfl, rfl, rfl⟩

theorem sameFrames_write {p : Place L} {o : Option Addr} (h : m.write p o = .ok m') :
    SameFrames m m' := by
  cases p with
  | var v =>
    obtain rfl := Except.ok.inj h
    exact ⟨rfl, rfl, rfl, fun hf => ⟨_, hf, rfl, rfl, rfl⟩, List.prefix_refl _⟩
  | slot a s =>
    obtain ⟨f, hf, h⟩ := bind_eq_ok h
    exact Except.ok.inj h ▸ sameFrames_store (frame_eq_ok hf) rfl rfl rfl

theorem sameFrames_exchange {p : Place L} {o : Option Addr} (h : m.exchange p = .ok (o, m')) :
    SameFrames m m' := by
  obtain ⟨o', _, h⟩ := bind_eq_ok h
  obtain ⟨m₁, hwrite, h⟩ := bind_eq_ok h
  exact (Prod.mk.inj (Except.ok.inj h)).2 ▸ sameFrames_write hwrite

theorem sameFrames_reset {p : Place L} (h : m.reset p = .ok m') : SameFrames m m' := by
  obtain ⟨o, _, h⟩ := bind_eq_ok h
  cases o with
  | none => exact Except.ok.inj h ▸ .refl m
  | some c =>
    obtain ⟨m₁, hdestroy, h⟩ := bind_eq_ok h
    exact (shrunk_of_destroyAll hdestroy).sameFrames.trans (sameFrames_write h)

theorem sameFrames_moveAssign {p q : Place L} (h : m.moveAssign p q = .ok m') :
    SameFrames m m' := by
  rw [moveAssign] at h
  split at h
  · exact Except.ok.inj h ▸ .refl m
  · obtain ⟨m₁, hreset, h⟩ := bind_eq_ok h
    obtain ⟨⟨o, m₂⟩, hex, h⟩ := bind_eq_ok h
    exact (sameFrames_reset hreset).trans ((sameFrames_exchange hex).trans (sameFrames_write h))

theorem sameFrames_bindArgs {n : Addr} {args : List (L.Local × Place L)} :
    ∀ {m : Machine L}, bindArgs n args m = .ok m' → SameFrames m m' := by
  induction args with
  | nil =>
    intro m h
    exact Except.ok.inj h ▸ .refl m
  | cons arg args ih =>
    intro m h
    obtain ⟨m₁, hmove, h⟩ := bind_eq_ok h
    exact (sameFrames_moveAssign hmove).trans (ih h)

theorem sameFrames_leaveScope (h : m.leaveScope a = .ok m') : SameFrames m m' := by
  obtain ⟨f, hf, h⟩ := bind_eq_ok h
  have hleave : SameFrames m (m.store a f.leave) := sameFrames_store (frame_eq_ok hf) rfl rfl rfl
  exact hleave.trans (shrunk_of_destroyAll h).sameFrames

/-- A call adds one frame. -/
theorem create_advances (m : Machine L) (kind : Kind) (body : L.Code) :
    Advances T m (m.create kind body).2 := by
  refine ⟨Nat.le_succ _, fun hf => ?_, List.prefix_refl _, List.prefix_refl _⟩
  rcases heap_cases rfl hf with ⟨rfl, rfl⟩ | ⟨_, hf⟩
  · exact Or.inr ⟨Nat.le_refl _, fun _ => ⟨rfl, rfl⟩⟩
  · exact Or.inl ⟨_, hf, .refl _⟩

/-! ## Points and promises -/

theorem Point.not_final_of_enter {pt pt' : Point L} (h : pt.enter = some pt') :
    pt.isFinal = false := by
  cases pt <;> simp_all [Point.enter, Point.isFinal]

theorem Point.not_initial_of_running {pt : Point L} (h : pt.isRunning = true) (c : L.Code) :
    pt ≠ .initial c := by
  rintro rfl
  cases h

theorem Point.running_of_enter {pt pt' : Point L} (h : pt.enter = some pt') :
    pt'.isRunning = true := by
  cases pt <;> simp_all [Point.enter] <;> subst h <;> rfl

/-- The promise stays as it is. -/
theorem Frame.unset_of_promise {f f' : Frame L} (hprom : f'.promise = f.promise)
    (hfin : f.point.isFinal = false) (h : f.Unset) : f'.Unset :=
  fun _ => hprom ▸ h hfin

/-- A resumption puts one coroutine on the stack. -/
theorem resume_advances (h : m.resume a = .ok m') :
    Advances T m m' ∧ m'.stack = a :: m.stack := by
  obtain ⟨f, hf, h⟩ := bind_eq_ok h
  split at h
  · rename_i pt hpt
    obtain rfl := Except.ok.inj h
    have hfin := Point.not_final_of_enter hpt
    refine ⟨advances_replace (frame_eq_ok hf) rfl ?_ rfl (List.prefix_refl _) rfl, rfl⟩
    exact Frame.becomes_of_unfinished hfin rfl
      (Point.not_initial_of_running (Point.running_of_enter hpt)) (Frame.unset_of_promise rfl hfin)
  · cases h

/-- It completes no coroutine. -/
theorem resume_unfinished {f : Frame L} {x : Addr} (h : m.resume a = .ok m')
    (hf : m.heap x = some f) (hfin : f.point.isFinal = false) :
    ∀ f', m'.heap x = some f' → f'.point.isFinal = false := by
  obtain ⟨g, hg, h⟩ := bind_eq_ok h
  split at h
  · rename_i pt hpt
    obtain rfl := Except.ok.inj h
    intro f' hf'
    rcases heap_cases rfl hf' with ⟨rfl, rfl⟩ | ⟨_, hf'⟩
    · exact Point.not_final_of_running (Point.running_of_enter hpt)
    · exact Option.some.inj (hf.symm.trans hf') ▸ hfin
  · cases h

theorem start_advances {p : Place L} {r : Except (Exn L.Exc) Unit} (h : m.start p = .ok (r, m')) :
    Advances T m m' ∧ m'.stack.length ≤ m.stack.length + 1 ∧ ∀ {x f}, m.heap x = some f →
      f.point.isFinal = false → ∀ f', m'.heap x = some f' → f'.point.isFinal = false := by
  have hsame : ∀ {x : Addr} {f : Frame L}, m.heap x = some f → f.point.isFinal = false →
      ∀ f', m.heap x = some f' → f'.point.isFinal = false := fun hf hfin f' hf' =>
    Option.some.inj (hf.symm.trans hf') ▸ hfin
  obtain ⟨o, _, h⟩ := bind_eq_ok h
  cases o with
  | none =>
    obtain ⟨_, rfl⟩ := Prod.mk.inj (Except.ok.inj h)
    exact ⟨.refl m, Nat.le_succ _, hsame⟩
  | some c =>
    obtain ⟨f, _, h⟩ := bind_eq_ok h
    split at h
    · obtain ⟨_, rfl⟩ := Prod.mk.inj (Except.ok.inj h)
      exact ⟨.refl m, Nat.le_succ _, hsame⟩
    · obtain ⟨m₁, hresume, h⟩ := bind_eq_ok h
      obtain ⟨_, rfl⟩ := Prod.mk.inj (Except.ok.inj h)
      obtain ⟨hadv, hstack⟩ := resume_advances hresume
      exact ⟨hadv, by rw [hstack, List.length_cons], fun hf hfin => resume_unfinished hresume hf hfin⟩

theorem awaitSuspend_advances {p : Place L} {c b : Addr} (h : m.awaitSuspend p b = .ok (c, m')) :
    Advances T m m' ∧ m'.stack = m.stack := by
  obtain ⟨o, _, h⟩ := bind_eq_ok h
  cases o with
  | none => cases h
  | some d =>
    obtain ⟨f, hf, h⟩ := bind_eq_ok h
    obtain ⟨_, rfl⟩ := Prod.mk.inj (Except.ok.inj h)
    exact ⟨advances_replace (frame_eq_ok hf) rfl (Frame.becomes_of_same rfl rfl rfl rfl) rfl
      (List.prefix_refl _) rfl, rfl⟩

/-- It moves the value out of the frame that it reads. -/
theorem awaitResume_advances {p : Place L} {r : L.Outcome} (hT : ∀ c, m.read p = .ok (some c) → T c)
    (h : m.awaitResume p = .ok (r, m')) :
    Advances T m m' ∧ m'.stack = m.stack ∧ ∀ {x f'}, m'.heap x = some f' →
      ∃ f, m.heap x = some f ∧ f'.point = f.point := by
  obtain ⟨o, hread, h⟩ := bind_eq_ok h
  cases o with
  | none =>
    obtain ⟨_, rfl⟩ := Prod.mk.inj (Except.ok.inj h)
    exact ⟨.refl m, rfl, fun hf => ⟨_, hf, rfl⟩⟩
  | some c =>
    obtain ⟨f, hf, h⟩ := bind_eq_ok h
    obtain ⟨_, _, h⟩ := bind_eq_ok h
    obtain ⟨_, rfl⟩ := Prod.mk.inj (Except.ok.inj h)
    refine ⟨advances_replace (frame_eq_ok hf) rfl (f.becomes_moveOut (hT c hread)) rfl (List.prefix_refl _) rfl,
      rfl, fun hg => ?_⟩
    rcases heap_cases rfl hg with ⟨rfl, rfl⟩ | ⟨_, hg⟩
    · exact ⟨f, frame_eq_ok hf, f.moveOut_point⟩
    · exact ⟨_, hg, rfl⟩

/-- A running coroutine goes to another point, or is at it again after the operations of
its statement. -/
theorem setPoint_advances {pt : Point L} (hpt : ∀ c, pt ≠ .initial c)
    (hrun : ∀ f, m.heap a = some f → f.point.isFinal = false) (h : m.setPoint a pt = .ok m') :
    Advances T m m' ∧ m'.stack = m.stack := by
  obtain ⟨f, hf, h⟩ := bind_eq_ok h
  obtain rfl := Except.ok.inj h
  have hf := frame_eq_ok hf
  exact ⟨advances_replace hf rfl (Frame.becomes_of_unfinished (hrun f hf) rfl hpt
    (Frame.unset_of_promise rfl (hrun f hf))) rfl (List.prefix_refl _) rfl, rfl⟩

/-! ## Statements -/

/-- Operations on handles, and then the body of the running coroutine `a` goes on. -/
theorem SameFrames.goto {code : L.Code} {f : Frame L} (hs : SameFrames m m₁)
    (hf : m.heap a = some f) (hrun : f.point.isRunning = true) (h : m₁.goto a code = .ok m') :
    Advances T m m' ∧ m'.stack = m.stack := by
  obtain ⟨hadv, hstack⟩ := setPoint_advances (fun c hc => by cases hc) (fun g hg => by
    obtain ⟨f', hf', _, _, hpt⟩ := hs.frame hg
    obtain rfl : f = f' := Option.some.inj (hf.symm.trans hf')
    exact hpt ▸ Point.not_final_of_running hrun) h
  exact ⟨hs.advances.trans hadv, hstack.trans hs.stack⟩

/-- A coroutine completes.  Before, the variables of its scope ended and its promise was
set, which `m₁` is after. -/
theorem finalSuspend_advances {f : Frame L} {rest : List Addr} (hf : m.heap a = some f)
    (hrun : f.point.isRunning = true)
    (hframe : ∀ x g', m₁.heap x = some g' → ∃ g, m.heap x = some g ∧ g'.kind = g.kind ∧
      (x ≠ a → g.Becomes (T x) g'))
    (hnext : m₁.next = m.next) (hlog : m₁.log = m.log) (hdes : m.destroyed <+: m₁.destroyed)
    (h : m₁.finalSuspend a rest = .ok m') :
    Advances T m m' ∧ m'.stack.length ≤ rest.length + 1 := by
  obtain ⟨m₂, hset, h⟩ := bind_eq_ok h
  obtain ⟨f₁, hf₁, hset⟩ := bind_eq_ok hset
  obtain rfl := Except.ok.inj hset
  have hf₁ := frame_eq_ok hf₁
  have hadv : Advances T m { m₁.store a { f₁ with point := .final } with stack := rest } := by
    refine ⟨Nat.le_of_eq hnext.symm, fun hg => Or.inl ?_, ?_, hdes⟩
    · rcases heap_cases rfl hg with ⟨rfl, rfl⟩ | ⟨hne, hg⟩
      · obtain ⟨g, hg, hkind, _⟩ := hframe _ _ hf₁
        obtain rfl : f = g := Option.some.inj (hf.symm.trans hg)
        refine ⟨f, hf, Frame.becomes_of_unfinished (Point.not_final_of_running hrun) hkind
          (fun c hc => by cases hc) fun _ hfin => by cases hfin⟩
      · obtain ⟨g', hg', _, hbecomes⟩ := hframe _ _ hg
        exact ⟨g', hg', hbecomes hne⟩
    · show m.log <+: m₁.log
      rw [hlog]
  obtain ⟨f₂, _, h⟩ := bind_eq_ok h
  split at h
  · obtain rfl := Except.ok.inj h
    exact ⟨hadv, Nat.le_succ _⟩
  · obtain ⟨hadv', hstack⟩ := resume_advances h
    exact ⟨hadv.trans hadv', by rw [hstack, List.length_cons]⟩

/-- Operations on handles before a coroutine completes. -/
theorem SameFrames.becomes {x : Addr} {g' : Frame L} (hs : SameFrames m m')
    (hg : m'.heap x = some g') : ∃ g, m.heap x = some g ∧ g'.kind = g.kind ∧
      g.Becomes (T x) g' := by
  obtain ⟨g, hg, hkind, hprom, hpt⟩ := hs.frame hg
  exact ⟨g, hg, hkind, Frame.becomes_of_same hkind hpt (by rw [hprom]) (by rw [hprom])⟩

/-- What constructing the return value leaves in the promise if it throws. -/
theorem returnValue_throws {f : Frame L} {r : Except (Exn L.Exc) L.Val} {e : Exn L.Exc}
    (h : (returnValue f r).2 = some e) :
    (returnValue f r).1 = { f with promise := { f.promise with value := none } } := by
  obtain ⟨kind, promise, point, slots⟩ := f
  cases kind <;> cases r <;> simp_all [returnValue]

theorem coReturn_advances {f : Frame L} {rest : List Addr} {r : Except (Exn L.Exc) L.Val}
    {k : Exn L.Exc → L.Code} (hf : m.heap a = some f) (hrun : f.point.isRunning = true)
    (hstack : m.stack = a :: rest) (h : m.perform a rest (.coReturn r k) = .ok m') :
    Advances T m m' ∧ m'.stack.length ≤ m.stack.length := by
  have hfin := Point.not_final_of_running hrun
  rw [coReturn_eq hf] at h
  split at h
  · rename_i e he
    rw [returnValue_throws he] at h
    have hself : (m.store a { f with promise := { f.promise with value := none } }).heap a =
        some { f with promise := { f.promise with value := none } } := Function.update_self _ _ _
    rw [Machine.goto, setPoint_ok hself] at h
    obtain rfl := Except.ok.inj h
    refine ⟨advances_replace hf (Function.update_idem _ _ _) (Frame.becomes_of_unfinished hfin rfl
      (fun c hc => by cases hc) fun hf _ => ⟨rfl, (hf hfin).2⟩) rfl (List.prefix_refl _) rfl,
      Nat.le_refl _⟩
  · obtain ⟨m₁, hleave, h⟩ := bind_eq_ok h
    have hs := sameFrames_leaveScope hleave
    have hkind : (returnValue f r).1.kind = f.kind := by rw [(returnValue_frame f r).1]
    have hframe : ∀ x g', m₁.heap x = some g' → ∃ g, m.heap x = some g ∧ g'.kind = g.kind ∧
        (x ≠ a → g.Becomes (T x) g') := by
      intro x g' hg'
      obtain ⟨g, hg, hkind', hbecomes⟩ := hs.becomes (T := T) hg'
      rcases heap_cases rfl hg with ⟨rfl, rfl⟩ | ⟨hne, hg⟩
      · exact ⟨f, hf, hkind'.trans hkind, fun hx => absurd rfl hx⟩
      · exact ⟨g, hg, hkind', fun _ => hbecomes⟩
    obtain ⟨hadv, hlen⟩ := finalSuspend_advances hf hrun hframe hs.next hs.log hs.destroyed h
    exact ⟨hadv, by rw [hstack, List.length_cons]; exact hlen⟩

theorem throw_advances {f : Frame L} {rest : List Addr} {e : Exn L.Exc} (hf : m.heap a = some f)
    (hrun : f.point.isRunning = true) (hstack : m.stack = a :: rest)
    (h : m.perform a rest (.throw e) = .ok m') :
    Advances T m m' ∧ m'.stack.length ≤ m.stack.length := by
  obtain ⟨m₁, hleave, h⟩ := bind_eq_ok h
  obtain ⟨m₂, hexn, h⟩ := bind_eq_ok h
  obtain ⟨f₁, hf₁, hexn⟩ := bind_eq_ok hexn
  obtain rfl := Except.ok.inj hexn
  have hs := sameFrames_leaveScope hleave
  have hframe : ∀ x g', (m₁.store a { f₁ with promise := { f₁.promise with exception := some e } }).heap
      x = some g' → ∃ g, m.heap x = some g ∧ g'.kind = g.kind ∧ (x ≠ a → g.Becomes (T x) g') := by
    intro x g' hg'
    rcases heap_cases rfl hg' with ⟨rfl, rfl⟩ | ⟨hne, hg'⟩
    · obtain ⟨g, hg, hkind, _⟩ := hs.frame (frame_eq_ok hf₁)
      exact ⟨g, hg, hkind, fun hx => absurd rfl hx⟩
    · obtain ⟨g, hg, hkind, hbecomes⟩ := hs.becomes hg'
      exact ⟨g, hg, hkind, fun _ => hbecomes⟩
  obtain ⟨hadv, hlen⟩ := finalSuspend_advances hf hrun hframe hs.next hs.log hs.destroyed h
  exact ⟨hadv, by rw [hstack, List.length_cons]; exact hlen⟩

theorem await_advances {f : Frame L} {rest : List Addr} {w : L.Aw} {k : L.Outcome → L.Code}
    (hf : m.heap a = some f) (hrun : f.point.isRunning = true) (hstack : m.stack = a :: rest)
    (h : m.perform a rest (.await w k) = .ok m') :
    Advances T m m' ∧ m'.stack.length ≤ m.stack.length := by
  have hunfinished : ∀ g, m.heap a = some g → g.point.isFinal = false := fun g hg =>
    Option.some.inj (hf.symm.trans hg) ▸ Point.not_final_of_running hrun
  obtain ⟨ready, _, h⟩ := bind_eq_ok h
  cases ready with
  | true =>
    obtain ⟨hadv, hst⟩ := setPoint_advances (fun c hc => by cases hc) hunfinished h
    exact ⟨hadv, by rw [hst]⟩
  | false =>
    obtain ⟨m₁, hset, h⟩ := bind_eq_ok h
    obtain ⟨⟨c, m₂⟩, hsuspend, h⟩ := bind_eq_ok h
    obtain ⟨hadv₁, _⟩ := setPoint_advances (fun c hc => by cases hc) hunfinished hset
    obtain ⟨hadv₂, _⟩ := awaitSuspend_advances hsuspend
    have hadv₃ : Advances T m₂ { m₂ with stack := rest } :=
      ⟨Nat.le_refl _, fun hg => Or.inl ⟨_, hg, .refl _⟩, List.prefix_refl _, List.prefix_refl _⟩
    obtain ⟨hadv', hst⟩ := resume_advances h
    refine ⟨hadv₁.trans (hadv₂.trans (hadv₃.trans hadv')), ?_⟩
    rw [hst, hstack, List.length_cons, List.length_cons]

/-- A statement of the running coroutine moves the machine forward, and only a `start()`
adds a running coroutine. -/
theorem perform_advances {f : Frame L} {rest : List Addr}
    {i : Instr L.Code L.Local L.Aw L.Val L.Exc L.Op L.Resp} (hnext : m.heap m.next = none)
    (hf : m.heap a = some f) (hrun : f.point.isRunning = true) (hstack : m.stack = a :: rest)
    (h : m.perform a rest i = .ok m') :
    Advances T m m' ∧ m'.stack.length ≤ m.stack.length + i.isStart.toNat := by
  have hquiet : Advances T m m' ∧ m'.stack = m.stack →
      Advances T m m' ∧ m'.stack.length ≤ m.stack.length := by
    rintro ⟨hadv, hst⟩
    exact ⟨hadv, by rw [hst]⟩
  cases i with
  | effect op k =>
    obtain ⟨g, hg, h⟩ := bind_eq_ok h
    obtain rfl := Except.ok.inj h
    obtain rfl : f = g := Option.some.inj (hf.symm.trans (frame_eq_ok hg))
    have hfin := Point.not_final_of_running hrun
    exact ⟨advances_replace hf rfl (Frame.becomes_of_unfinished hfin rfl (fun c hc => by cases hc)
      (Frame.unset_of_promise rfl hfin)) rfl (List.prefix_append _ _) rfl, Nat.le_refl _⟩
  | suspend k =>
    obtain ⟨m₁, hset, h⟩ := bind_eq_ok h
    obtain ⟨g, hg, hset⟩ := bind_eq_ok hset
    obtain rfl := Except.ok.inj hset
    obtain rfl := Except.ok.inj h
    obtain rfl : f = g := Option.some.inj (hf.symm.trans (frame_eq_ok hg))
    have hfin := Point.not_final_of_running hrun
    refine ⟨advances_replace hf rfl (Frame.becomes_of_unfinished hfin rfl (fun c hc => by cases hc)
      (Frame.unset_of_promise rfl hfin)) rfl (List.prefix_refl _) rfl, ?_⟩
    rw [hstack, List.length_cons]
    exact Nat.le_succ _
  | call x kind body args k =>
    obtain ⟨m₁, hbind, h⟩ := bind_eq_ok h
    obtain ⟨m₂, hreset, h⟩ := bind_eq_ok h
    obtain ⟨m₃, hwrite, h⟩ := bind_eq_ok h
    have hs := (sameFrames_bindArgs hbind).trans
      ((sameFrames_reset hreset).trans (sameFrames_write hwrite))
    have hne : a ≠ m.next := by
      rintro rfl
      rw [hnext] at hf
      cases hf
    have hf₁ : (m.create kind body).2.heap a = some f := (Function.update_of_ne hne _ _).trans hf
    obtain ⟨hadv, hst⟩ := hs.goto hf₁ hrun h
    exact hquiet ⟨(create_advances m kind body).trans hadv, hst⟩
  | move x y k =>
    obtain ⟨m₁, hmove, h⟩ := bind_eq_ok h
    exact hquiet ((sameFrames_moveAssign hmove).goto hf hrun h)
  | drop x k =>
    obtain ⟨m₁, hreset, h⟩ := bind_eq_ok h
    exact hquiet ((sameFrames_reset hreset).goto hf hrun h)
  | start x k =>
    obtain ⟨⟨r, m₁⟩, hstart, h⟩ := bind_eq_ok h
    obtain ⟨hadv, hlen, hunfinished⟩ := start_advances hstart
    obtain ⟨hadv', hst⟩ := setPoint_advances (fun c hc => by cases hc)
      (hunfinished hf (Point.not_final_of_running hrun)) h
    exact ⟨hadv.trans hadv', by rw [hst]; exact hlen⟩
  | done x k =>
    obtain ⟨b, _, h⟩ := bind_eq_ok h
    exact hquiet ((SameFrames.refl m).goto hf hrun h)
  | result x k =>
    obtain ⟨r, _, h⟩ := bind_eq_ok h
    exact hquiet ((SameFrames.refl m).goto hf hrun h)
  | coAwait w x k =>
    obtain ⟨⟨o, m₁⟩, hex, h⟩ := bind_eq_ok h
    obtain ⟨m₂, hreset, h⟩ := bind_eq_ok h
    obtain ⟨m₃, hwrite, h⟩ := bind_eq_ok h
    exact hquiet (((sameFrames_exchange hex).trans
      ((sameFrames_reset hreset).trans (sameFrames_write hwrite))).goto hf hrun h)
  | moveAwaiter w v k =>
    obtain ⟨m₁, hmove, h⟩ := bind_eq_ok h
    exact hquiet ((sameFrames_moveAssign hmove).goto hf hrun h)
  | dropAwaiter w k =>
    obtain ⟨m₁, hreset, h⟩ := bind_eq_ok h
    exact hquiet ((sameFrames_reset hreset).goto hf hrun h)
  | await w k => exact await_advances hf hrun hstack h
  | coReturn r k => exact coReturn_advances hf hrun hstack h
  | throw e => exact throw_advances hf hrun hstack h

/-! ## Steps and runs -/

/-- Whether a step is a call of `start()` in a body. -/
def Machine.startsInBody (m : Machine L) : Label L → Bool
  | .drive _ => false
  | .exec => m.current.any fun p => p.2.isStart

/-- An `await_resume()`, which moves the value out of `c`. -/
def Machine.MovesOut (m : Machine L) (l : Label L) (c : Addr) : Prop :=
  l = .exec ∧ ∃ a rest f w k, m.stack = a :: rest ∧ m.heap a = some f ∧ f.point = .resumed w k ∧
    f.slots (.inr w) = some c

theorem exec_advances (hnext : m.heap m.next = none) (h : m.exec = .ok m') :
    Advances (m.MovesOut .exec) m m' ∧ (m.stack ≠ [] → m'.stack.length ≤
      m.stack.length + (m.startsInBody .exec).toNat) := by
  cases hstack : m.stack with
  | nil =>
    rw [exec, hstack] at h
    obtain rfl := Except.ok.inj h
    exact ⟨.refl m, fun hne => absurd rfl hne⟩
  | cons a rest =>
    rw [exec, hstack] at h
    obtain ⟨f, hf, h⟩ := bind_eq_ok h
    have hf := frame_eq_ok hf
    split at h
    · rename_i c hpt
      have hcurrent := Machine.current_of_running hstack hf hpt
      obtain ⟨hadv, hlen⟩ := perform_advances hnext hf (by rw [hpt]; rfl) hstack h
      rw [hstack] at hlen
      exact ⟨hadv, fun _ => by simpa [Machine.startsInBody, hcurrent] using hlen⟩
    · rename_i w k hpt
      obtain ⟨⟨r, m₁⟩, hresume, h⟩ := bind_eq_ok h
      have hmoves : ∀ c, m.read (.slot a (.inr w)) = .ok (some c) → m.MovesOut .exec c := by
        intro c hc
        have hslot : f.slots (.inr w) = some c := Except.ok.inj ((read_slot hf (.inr w)).symm.trans hc)
        exact ⟨rfl, a, rest, f, w, k, hstack, hf, hpt, hslot⟩
      obtain ⟨hadv, hst, hpoint⟩ := awaitResume_advances hmoves hresume
      obtain ⟨hadv', hst'⟩ := setPoint_advances (fun c hc => by cases hc) (fun g hg => by
        obtain ⟨f', hf', hpt'⟩ := hpoint hg
        obtain rfl : f = f' := Option.some.inj (hf.symm.trans hf')
        rw [hpt', hpt]
        rfl) h
      exact ⟨hadv.trans hadv', fun _ => by rw [hst', hst, hstack]; exact Nat.le_add_right _ _⟩
    · cases h

/-- The driver acts when no coroutine runs, and leaves at most one running. -/
theorem drive_advances {op : DriverOp L} (hst : m.stack = []) (h : m.drive op = .ok m') :
    Advances T m m' ∧ m'.stack.length ≤ 1 := by
  have hquiet : ∀ {m₁ : Machine L}, SameFrames m m₁ → Advances T m m₁ ∧ m₁.stack.length ≤ 1 :=
    fun hs => ⟨hs.advances, by rw [hs.stack, hst]; exact Nat.zero_le _⟩
  cases op with
  | create v kind body args =>
    obtain ⟨m₁, hbind, h⟩ := bind_eq_ok h
    have hs := (sameFrames_bindArgs hbind).trans (sameFrames_write h)
    refine ⟨(create_advances m kind body).trans hs.advances, ?_⟩
    rw [show m'.stack = [] from hs.stack.trans hst]
    exact Nat.zero_le _
  | defaultConstruct v =>
    have hwrite : m.write (.var v) none = .ok m' := h
    exact hquiet (sameFrames_write hwrite)
  | moveConstruct v w =>
    obtain ⟨⟨o, m₁⟩, hex, h⟩ := bind_eq_ok h
    exact hquiet ((sameFrames_exchange hex).trans (sameFrames_write h))
  | moveAssign v w => exact hquiet (sameFrames_moveAssign h)
  | destroy v =>
    obtain ⟨m₁, hreset, h⟩ := bind_eq_ok h
    obtain rfl := Except.ok.inj h
    have hs := sameFrames_reset hreset
    exact hquiet ⟨hs.stack, hs.next, hs.log, hs.frame, hs.destroyed⟩
  | start v =>
    obtain ⟨⟨r, m₁⟩, hstart, h⟩ := bind_eq_ok h
    obtain rfl := Except.ok.inj h
    obtain ⟨hadv, hlen, _⟩ := start_advances hstart
    exact ⟨hadv, by rwa [hst] at hlen⟩
  | resume a =>
    obtain ⟨hadv, hstack⟩ := resume_advances h
    exact ⟨hadv, by rw [hstack, hst]; exact Nat.le_refl _⟩

theorem step_advances {l : Label L} (hnext : m.heap m.next = none) (hen : l.Enabled m)
    (h : m.step l = .ok m') :
    Advances (m.MovesOut l) m m' ∧ m'.stack.length ≤ max 1 (m.stack.length + (m.startsInBody l).toNat) := by
  cases l with
  | drive op =>
    obtain ⟨hadv, hlen⟩ := drive_advances hen.1 h
    exact ⟨hadv, by omega⟩
  | exec =>
    obtain ⟨hadv, hlen⟩ := exec_advances hnext h
    have := hlen hen
    exact ⟨hadv, by omega⟩

/-- A step that touches the value of `c`: an `await_resume()`, or an access. -/
def Machine.Touches (m : Machine L) : AccessLabel L → Addr → Prop
  | .step l, c => m.MovesOut l c
  | .access d _, c => d = c

theorem access_advances {d : Addr} {x : Access L} (hen : (AccessLabel.access d x).Enabled m)
    (h : m.access d x = .ok m') : Advances (m.Touches (.access d x)) m m' := by
  obtain ⟨f, hf, _, _, rfl⟩ := access_ok hen h
  refine advances_replace hf rfl ?_ rfl (List.prefix_refl _) rfl
  exact Frame.becomes_touched rfl rfl rfl (Option.isSome_map ..) rfl

theorem accessStep_advances {l : AccessLabel L} (hnext : m.heap m.next = none)
    (hen : l.Enabled m) (h : m.accessStep l = .ok m') : Advances (m.Touches l) m m' := by
  cases l with
  | step l => exact (step_advances hnext hen h).1
  | access d x => exact access_advances hen h

theorem owning_start0 (mem : L.Mem) : Owning (.start0 mem : Machine L) := by
  obtain ⟨rank, ho, _⟩ := inv_start0 (L := L) mem
  exact ⟨rank, ho⟩

/-- The frames form a forest in every state of every run. -/
theorem owning_of_run {steps : List (Machine L × AccessLabel L)}
    (hrun : (accessSystem L).Run m steps m') (h : Owning m) : Owning m' := by
  induction hrun with
  | nil s => exact h
  | cons hen hok _ ih => exact ih (accessStep_owning h hen hok)

/-- From any state that a run reaches, a run only moves forward.  No frame comes back,
none returns to its initial suspension, a completed one stays completed with the same
exception, and with the same value unless a step of the run touches it, and an
unfinished one has neither.  The runs are those of Tasks in variables. -/
theorem run_advances {mem : L.Mem} {before after : List (Machine L × AccessLabel L)}
    {m m' : Machine L} (hbefore : (accessSystem L).Run (.start0 mem) before m)
    (hafter : (accessSystem L).Run m after m') :
    Advances (fun c => ∃ p ∈ after, p.1.Touches p.2 c) m m' ∧
      ∀ a f, m.heap a = some f → f.Unset := by
  have hrun : ∀ {s s' : Machine L} {steps}, Owning s → (accessSystem L).Run s steps s' →
      Advances (fun c => ∃ p ∈ steps, p.1.Touches p.2 c) s s' := by
    intro s s' steps hs hrun
    induction hrun with
    | nil s => exact .refl s
    | cons hen hok _ ih =>
      obtain ⟨rank, ho⟩ := hs
      have hstep := accessStep_advances ho.heap_next hen hok
      refine (hstep.mono fun c hc => ⟨_, List.mem_cons_self, hc⟩).trans
        ((ih (accessStep_owning ⟨rank, ho⟩ hen hok)).mono fun c hc => ?_)
      obtain ⟨p, hp, hc⟩ := hc
      exact ⟨p, List.mem_cons_of_mem _ hp, hc⟩
  refine ⟨hrun (owning_of_run hbefore (owning_start0 mem)) hafter, fun a f hf => ?_⟩
  rcases (hrun (owning_start0 mem) hbefore).frame hf with ⟨g, hg, _⟩ | ⟨_, hunset⟩
  · cases hg
  · exact hunset

/-- A `co_await` does not nest: the running coroutines are no more than one and the
number of `start()` calls in bodies, however deep coroutines await one another.  Handles
are resumed by the driver only. -/
theorem stack_depth {mem : L.Mem} {steps : List (Machine L × Label L)} {m : Machine L}
    (hrun : (system L).Run (.start0 mem) steps m) :
    m.stack.length ≤ 1 + steps.countP fun p => p.1.startsInBody p.2 := by
  have hfrom : ∀ {s s' : Machine L} {steps}, Owning s → (system L).Run s steps s' →
      s'.stack.length ≤ max 1 s.stack.length + steps.countP fun p => p.1.startsInBody p.2 := by
    intro s s' steps hs hrun
    induction hrun with
    | nil s => simp
    | @cons s s₁ s' l steps hen hok _ ih =>
      obtain ⟨rank, ho⟩ := hs
      have hstep := (step_advances ho.heap_next hen hok).2
      have hrest := ih (step_owning ⟨rank, ho⟩ hen hok)
      rw [List.countP_cons]
      cases hl : s.startsInBody l <;> simp only [hl, Bool.toNat_true, Bool.toNat_false, if_true,
        Bool.false_eq_true, if_false] at hstep ⊢ <;> omega
  simpa [Machine.start0] using hfrom (owning_start0 mem) hrun

/-- A Task completes with 1. -/
def toResult : List (AccessLabel Plain) :=
  [.step (.drive (.create () .value
      (.body (.coReturn (.ok 1) .throw : Body 1 Nat Unit Unit Unit true)) [])),
    .step (.drive (.start ())), .step .exec]

/-- From there on its value is assigned to. -/
theorem run_advances_assigned : ∃ before after, ∃ m m' : Machine Plain,
    (accessSystem Plain).Run (.start0 ()) before m ∧ (accessSystem Plain).Run m after m' ∧
      before.map Prod.snd = toResult ∧ after.map Prod.snd = [.access 0 (.assign 7)] ∧
      m.referent 0 = some 1 ∧ m'.referent 0 = some 7 ∧
      Advances (fun c => ∃ p ∈ after, p.1.Touches p.2 c) m m' := by
  have hbefore : ∃ m : Machine Plain, (accessSystem Plain).replay Transition.anyStep (.start0 ())
      toResult = some m ∧ m.referent 0 = some 1 ∧ ∃ m', (accessSystem Plain).replay
        Transition.anyStep m [.access 0 (.assign 7)] = some m' ∧ m'.referent 0 = some 7 :=
    ⟨_, rfl, rfl, _, rfl, rfl⟩
  obtain ⟨m, hm, hvalue, m', hm', hvalue'⟩ := hbefore
  obtain ⟨before, hrun, hlabels, _⟩ := Transition.Run.of_replay hm
  obtain ⟨after, hrun', hlabels', _⟩ := Transition.Run.of_replay hm'
  exact ⟨before, after, m, m', hrun, hrun', hlabels, hlabels', hvalue, hvalue',
    (run_advances hrun hrun').1⟩

/-- A child that is awaited runs alone. -/
theorem stack_depth_awaited : ∃ steps, ∃ m : Machine Plain,
    (system Plain).Run (.start0 ()) steps m ∧ m.stack = [1] ∧
      m.stack.length ≤ 1 + steps.countP fun p => p.1.startsInBody p.2 := by
  have hreplay : ∃ m : Machine Plain, (system Plain).replay Transition.anyStep (.start0 ())
      ((toSuspension .value).take 5) = some m ∧ m.stack = [1] := ⟨_, rfl, rfl⟩
  obtain ⟨m, hm, hstack⟩ := hreplay
  obtain ⟨steps, hrun, _, _⟩ := Transition.Run.of_replay hm
  exact ⟨steps, m, hrun, hstack, stack_depth hrun⟩

end VixStandard.Task
