import VixStandard.Task.Elsewhere
import VixStandard.Task.Safety

/-!
# The results that the driver sees

A driver asks its Tasks whether they are done and for their results, at any time and
as often as it likes.  It may use the references it gets, and so may the bodies.

* A body leaves the variables of the driver alone (`exec_vars`), so that a frame goes
  from the driver to a body and never back (`driverOwns_step`).  A Task that a coroutine
  hands back inside its result does not belong here: values are not Tasks.
* An `await_resume()` moves a value out through an Awaiter, which owns the frame.  So the
  result of a Task that the driver owns changes by accesses only (`result_step`).
* `result_stable` is the same for whole runs: the result is what it was, but for the accesses
  since, in their order.
-/

namespace VixStandard.Task

open VixStandard.Lib Machine

variable {L : Lang}

/-- A Task variable of the driver owns `c`. -/
def Machine.DriverOwns (m : Machine L) (c : Addr) : Prop := ∃ v, m.vars v = some (some c)

variable {m m' : Machine L} {c : Addr} {o : Option Addr} {u v : L.Var}

/-! ## The variables of the driver -/

/-- A body leaves them alone. -/
theorem exec_vars (hnext : m.heap m.next = none) (h : m.exec = .ok m') : m'.vars = m.vars := by
  cases hstack : m.stack with
  | nil =>
    rw [exec, hstack] at h
    exact Except.ok.inj h ▸ rfl
  | cons a rest => exact funext fun v => (exec_turns hnext hstack h).1.vars v id

/-- Working on a frame leaves them alone. -/
theorem Leaves.vars_eq {T : Addr → Prop} (h : Leaves (fun _ => False) T m m') : m'.vars = m.vars :=
  funext fun v => h.vars v id

theorem driverOwns_of_vars (hvars : m'.vars = m.vars) (hc : m'.DriverOwns c) : m.DriverOwns c := by
  obtain ⟨v, hv⟩ := hc
  exact ⟨v, hvars ▸ hv⟩

theorem driverOwns_update {task : Option (Option Addr)}
    (hvars : m'.vars = Function.update m.vars v task) (hc : m'.DriverOwns c) :
    m.DriverOwns c ∨ task = some (some c) := by
  obtain ⟨u, hu⟩ := hc
  rw [hvars] at hu
  by_cases huv : u = v
  · subst huv
    rw [Function.update_self] at hu
    exact Or.inr hu
  · rw [Function.update_of_ne huv] at hu
    exact Or.inl ⟨u, hu⟩

theorem driverOwns_write (h : m.write (.var v) o = .ok m') (hc : m'.DriverOwns c) :
    m.DriverOwns c ∨ o = some c := by
  obtain rfl := Except.ok.inj h
  exact (driverOwns_update rfl hc).imp_right Option.some.inj

theorem driverOwns_exchange (h : m.exchange (.var v) = .ok (o, m')) :
    (m'.DriverOwns c → m.DriverOwns c) ∧ (o = some c → m.DriverOwns c) := by
  obtain ⟨o', hread, h⟩ := bind_eq_ok h
  obtain ⟨m₁, hwrite, h⟩ := bind_eq_ok h
  obtain ⟨rfl, rfl⟩ := Prod.mk.inj (Except.ok.inj h)
  refine ⟨fun hc => (driverOwns_write hwrite hc).resolve_right nofun, ?_⟩
  rintro rfl
  exact ⟨v, Option.join_eq_some_iff.mp (Except.ok.inj hread)⟩

theorem driverOwns_reset (h : m.reset (.var v) = .ok m') (hc : m'.DriverOwns c) :
    m.DriverOwns c := by
  obtain ⟨o, _, h⟩ := bind_eq_ok h
  cases o with
  | none => exact Except.ok.inj h ▸ hc
  | some d =>
    obtain ⟨m₁, hdestroy, h⟩ := bind_eq_ok h
    exact driverOwns_of_vars (shrunk_of_destroyAll hdestroy).vars
      ((driverOwns_write h hc).resolve_right nofun)

theorem driverOwns_moveAssign (h : m.moveAssign (.var u) (.var v) = .ok m')
    (hc : m'.DriverOwns c) : m.DriverOwns c := by
  rw [moveAssign] at h
  split at h
  · exact Except.ok.inj h ▸ hc
  · obtain ⟨m₁, hreset, h⟩ := bind_eq_ok h
    obtain ⟨⟨o, m₂⟩, hex, h⟩ := bind_eq_ok h
    refine driverOwns_reset hreset ?_
    rcases driverOwns_write h hc with hc | ho
    · exact (driverOwns_exchange hex).1 hc
    · exact (driverOwns_exchange hex).2 ho

/-- What the driver passes to a body it does not own any more. -/
theorem driverOwns_bindArgs {n : Addr} {args : List (L.Local × L.Var)} :
    ∀ {m : Machine L}, bindArgs n (args.map fun p => (p.1, .var p.2)) m = .ok m' →
      m'.DriverOwns c → m.DriverOwns c := by
  induction args with
  | nil =>
    intro m h hc
    exact Except.ok.inj h ▸ hc
  | cons arg args ih =>
    intro m h hc
    obtain ⟨m₁, hmove, h⟩ := bind_eq_ok h
    rw [moveAssign, if_neg (by simp)] at hmove
    obtain ⟨m₂, hreset, hmove⟩ := bind_eq_ok hmove
    obtain ⟨⟨o, m₃⟩, hex, hmove⟩ := bind_eq_ok hmove
    have hparam : (Place.slot n (.inl arg.1)).In (fun _ : L.Var => False) fun _ => True := trivial
    have hc₃ : m₃.DriverOwns c := driverOwns_of_vars (leaves_write hparam hmove).vars_eq (ih h hc)
    exact driverOwns_of_vars (leaves_reset hparam hreset).vars_eq ((driverOwns_exchange hex).1 hc₃)

theorem drive_driverOwns {op : DriverOp L} (h : m.drive op = .ok m') (hc : m'.DriverOwns c) :
    m.DriverOwns c ∨ c = m.next := by
  cases op with
  | create v kind body args =>
    obtain ⟨m₁, hbind, h⟩ := bind_eq_ok h
    rcases driverOwns_write h hc with hc | hnew
    · have hc₁ : (m.create kind body).2.DriverOwns c := driverOwns_bindArgs hbind hc
      exact Or.inl (driverOwns_of_vars rfl hc₁)
    · exact Or.inr (Option.some.inj hnew).symm
  | defaultConstruct v => exact Or.inl ((driverOwns_write h hc).resolve_right nofun)
  | moveConstruct v w =>
    obtain ⟨⟨o, m₁⟩, hex, h⟩ := bind_eq_ok h
    rcases driverOwns_write h hc with hc | ho
    · exact Or.inl ((driverOwns_exchange hex).1 hc)
    · exact Or.inl ((driverOwns_exchange hex).2 ho)
  | moveAssign v w => exact Or.inl (driverOwns_moveAssign h hc)
  | destroy v =>
    obtain ⟨m₁, hreset, h⟩ := bind_eq_ok h
    obtain rfl := Except.ok.inj h
    exact Or.inl (driverOwns_reset hreset ((driverOwns_update rfl hc).resolve_right nofun))
  | start v =>
    obtain ⟨⟨r, m₁⟩, hstart, h⟩ := bind_eq_ok h
    obtain rfl := Except.ok.inj h
    exact Or.inl (driverOwns_of_vars (sameHandles_start hstart).vars hc)
  | resume a => exact Or.inl (driverOwns_of_vars (sameHandles_resume h).vars hc)

/-- No body gives a frame to the driver, and the driver makes one at a time. -/
theorem driverOwns_step {l : AccessLabel L} (hnext : m.heap m.next = none) (hen : l.Enabled m)
    (h : m.accessStep l = .ok m') (hc : m'.DriverOwns c) : m.DriverOwns c ∨ c = m.next := by
  cases l with
  | step l =>
    cases l with
    | drive op => exact drive_driverOwns h hc
    | exec => exact Or.inl (driverOwns_of_vars (exec_vars hnext h) hc)
  | access d x =>
    obtain ⟨f, _, _, _, rfl⟩ := access_ok hen h
    exact Or.inl hc

/-! ## Results -/

/-- What a step does with the value of `c` through a reference. -/
def AccessLabel.on (c : Addr) : AccessLabel L → Option (Access L)
  | .step _ => none
  | .access d x => if d = c then some x else none

/-- The value after what the steps of a run did with it through references. -/
def accessed (c : Addr) (steps : List (Machine L × AccessLabel L)) (value : L.Val) : L.Val :=
  (steps.filterMap fun p => p.2.on c).foldl (fun v x => x.apply v) value

/-- A result of which `g` changes the value. -/
def mapValue (g : L.Val → L.Val) (r : Except Fault L.Outcome) : Except Fault L.Outcome :=
  r.map fun r => r.map fun o => o.map g

theorem mapValue_id (r : Except Fault L.Outcome) : mapValue (fun v => v) r = r := by
  rcases r with _ | (_ | (_ | _)) <;> rfl

theorem mapValue_mapValue (g h : L.Val → L.Val) (r : Except Fault L.Outcome) :
    mapValue h (mapValue g r) = mapValue (fun v => h (g v)) r := by
  rcases r with _ | (_ | (_ | _)) <;> rfl

/-- One step, and then the others. -/
theorem accessed_cons (l : AccessLabel L) (steps : List (Machine L × AccessLabel L)) :
    accessed c ((m, l) :: steps) = fun v => accessed c steps (accessed c [(m, l)] v) := by
  funext v
  cases hl : l.on c <;> simp [accessed, hl]

theorem accessed_of_on_none {l : AccessLabel L} (hl : l.on c = none) :
    accessed c [(m, l)] = fun v => v := by
  funext v
  simp [accessed, hl]

/-- The driver owns `c` or a variable of a frame does, but not both. -/
theorem Machine.DriverOwns.not_movesOut {l : Label L} (h : Owning m) (hc : m.DriverOwns c) :
    ¬ m.MovesOut l c := by
  rintro ⟨_, a, rest, f, w, k, _, hf, _, hslot⟩
  obtain ⟨rank, ho⟩ := h
  obtain ⟨v, hv⟩ := hc
  cases ho.forest.unique (show m.graph.holds (.var v) c from hv) (holds_slot hf hslot)

/-- A step that does not access the value leaves the result of a completed Task that the
driver owns before and after it. -/
theorem result_untouched {l : AccessLabel L} {f : Frame L} (h : Owning m) (hen : l.Enabled m)
    (hok : m.accessStep l = .ok m') (hc : m.DriverOwns c) (hc' : m'.DriverOwns c)
    (hf : m.heap c = some f) (hfin : f.point.isFinal = true) (hl : l.on c = none) :
    ∃ f', m'.heap c = some f' ∧ f'.point.isFinal = true ∧ f'.outcome = f.outcome := by
  obtain ⟨rank', ho'⟩ := accessStep_owning h hen hok
  obtain ⟨v', hv'⟩ := hc'
  obtain ⟨f', hf'⟩ := ho'.forest.held_live (show m'.graph.holds (.var v') c from hv')
  have huntouched : ¬ m.Touches l c := by
    cases l with
    | step l => exact hc.not_movesOut h
    | access d x =>
      rintro rfl
      simp [AccessLabel.on] at hl
  obtain ⟨rank, ho⟩ := h
  rcases (accessStep_advances ho.heap_next hen hok).frame hf' with ⟨g, hg, hbecomes⟩ | ⟨hnew, _⟩
  · obtain rfl : f = g := Option.some.inj (hf.symm.trans hg)
    refine ⟨f', hf', hbecomes.final hfin, ?_⟩
    rw [Frame.outcome, Frame.outcome, hbecomes.exception hfin, hbecomes.kind,
      (hbecomes.value hfin).2 huntouched]
  · exact absurd (ho.lt_next ⟨f, hf⟩) (Nat.not_lt.mpr hnew)

/-- A completed Task that the driver owns before and after a step gives the same result, but
for an access to its value. -/
theorem result_step {l : AccessLabel L} {f : Frame L} (h : Owning m) (hen : l.Enabled m)
    (hok : m.accessStep l = .ok m') (hc : m.DriverOwns c) (hc' : m'.DriverOwns c)
    (hf : m.heap c = some f) (hfin : f.point.isFinal = true) :
    ∃ f', m'.heap c = some f' ∧ f'.point.isFinal = true ∧
      f'.outcome = mapValue (accessed c [(m, l)]) f.outcome := by
  cases hl : l.on c with
  | none =>
    obtain ⟨f', hf', hfin', hout⟩ := result_untouched h hen hok hc hc' hf hfin hl
    exact ⟨f', hf', hfin', by rw [accessed_of_on_none hl, mapValue_id, hout]⟩
  | some x =>
    cases l with
    | step l => cases hl
    | access d y =>
      rw [AccessLabel.on] at hl
      split at hl
      · rename_i hdc
        subst hdc
        obtain rfl := Option.some.inj hl
        obtain ⟨g, hg, _, _, rfl⟩ := access_ok hen hok
        obtain rfl : f = g := Option.some.inj (hf.symm.trans hg)
        refine ⟨f.access y, Function.update_self _ _ _, hfin, (f.outcome_access y).trans ?_⟩
        have hone : accessed d [(m, .access d y)] = y.apply := by
          funext v
          simp [accessed, AccessLabel.on]
        rw [hone]
        rfl
      · cases hl

/-- What the driver owns at the end of a run and is not new it owned all the time. -/
theorem driverOwns_run {steps : List (Machine L × AccessLabel L)} (h : Owning m)
    (hrun : (accessSystem L).Run m steps m') (hlt : c < m.next) (hc : m'.DriverOwns c) :
    m.DriverOwns c ∧ ∀ p ∈ steps, p.1.DriverOwns c := by
  induction hrun with
  | nil s => exact ⟨hc, fun p hp => absurd hp List.not_mem_nil⟩
  | cons hen hok _ ih =>
    obtain ⟨rank, ho⟩ := h
    have hnext := (accessStep_advances ho.heap_next hen hok).next_le
    obtain ⟨hc₁, hall⟩ :=
      ih (accessStep_owning ⟨rank, ho⟩ hen hok) (Nat.lt_of_lt_of_le hlt hnext) hc
    have hc₀ := (driverOwns_step ho.heap_next hen hok hc₁).resolve_right (Nat.ne_of_lt hlt)
    refine ⟨hc₀, fun p hp => ?_⟩
    rcases List.mem_cons.mp hp with rfl | hp
    · exact hc₀
    · exact hall p hp

theorem result_run {steps : List (Machine L × AccessLabel L)} {f : Frame L} (h : Owning m)
    (hrun : (accessSystem L).Run m steps m') (hc : m'.DriverOwns c) (hf : m.heap c = some f)
    (hfin : f.point.isFinal = true) :
    ∃ f', m'.heap c = some f' ∧ f'.point.isFinal = true ∧
      f'.outcome = mapValue (accessed c steps) f.outcome := by
  induction hrun generalizing f with
  | nil s => exact ⟨f, hf, hfin, (mapValue_id f.outcome).symm⟩
  | @cons s s₁ s' l steps hen hok hrest ih =>
    have hlt : c < s.next := by
      obtain ⟨rank, ho⟩ := h
      exact ho.lt_next ⟨f, hf⟩
    have howning := accessStep_owning h hen hok
    have hc₀ := (driverOwns_run h (.cons hen hok hrest) hlt hc).1
    have hlt₁ : c < s₁.next := by
      obtain ⟨rank, ho⟩ := h
      exact Nat.lt_of_lt_of_le hlt (accessStep_advances ho.heap_next hen hok).next_le
    have hc₁ := (driverOwns_run howning hrest hlt₁ hc).1
    obtain ⟨f₁, hf₁, hfin₁, hout₁⟩ := result_step h hen hok hc₀ hc₁ hf hfin
    obtain ⟨f', hf', hfin', hout'⟩ := ih howning hc hf₁ hfin₁
    refine ⟨f', hf', hfin', ?_⟩
    rw [hout', hout₁, mapValue_mapValue]
    exact congrArg (fun g => mapValue g f.outcome) (accessed_cons l steps).symm

theorem done_var {f : Frame L} (hv : m.vars v = some (some c)) (hf : m.heap c = some f) :
    m.done (.var v) = .ok f.point.isFinal := by
  have hread : m.read (.var v) = .ok (some c) := by
    rw [Machine.read, hv]
    rfl
  rw [Machine.done, bind_of_ok hread]
  exact bind_of_ok (frame_ok hf) _

theorem result_var {f : Frame L} (hv : m.vars v = some (some c)) (hf : m.heap c = some f) :
    m.result (.var v) =
      if f.point.isFinal then f.outcome else .ok (.error .notCompleted) := by
  have hread : m.read (.var v) = .ok (some c) := by
    rw [Machine.read, hv]
    rfl
  rw [Machine.result, bind_of_ok hread]
  exact bind_of_ok (frame_ok hf) _

/-- The driver owns a Task at two points of any run.  Then it owned it all the time in
between, the Task can be asked at both, and `result()` throws that it is not completed until
it is.  From there on it is done for good, and gives the same exception, or the value that the
accesses since have made of the one it gave.  The runs are those of Tasks in variables. -/
theorem result_stable {mem : L.Mem} {before after : List (Machine L × AccessLabel L)}
    (hbefore : (accessSystem L).Run (.start0 mem) before m)
    (hafter : (accessSystem L).Run m after m') (hu : m.vars u = some (some c))
    (hv : m'.vars v = some (some c)) :
    (∀ p ∈ after, ∃ w, p.1.vars w = some (some c)) ∧
    (∃ b r, m.done (.var u) = .ok b ∧ m.result (.var u) = .ok r ∧
      (b = false → r = .error .notCompleted)) ∧
    (m.done (.var u) = .ok true → m'.done (.var v) = .ok true ∧
      m'.result (.var v) = mapValue (accessed c after) (m.result (.var u)) ∧
      ((∀ p ∈ after, p.2.on c = none) → m'.result (.var v) = m.result (.var u))) := by
  obtain ⟨⟨rank, ho, hs⟩, _⟩ := sound_of_reach
    (hbefore.reach (.init ⟨mem, rfl⟩) fun _ _ => (trivial : Transition.anyStep _ _))
  obtain ⟨f, hf⟩ := ho.forest.held_live (show m.graph.holds (.var u) c from hu)
  refine ⟨(driverOwns_run ⟨rank, ho⟩ hafter (ho.lt_next ⟨f, hf⟩) ⟨v, hv⟩).2, ?_, fun hdone => ?_⟩
  · rw [done_var hu hf, result_var hu hf]
    cases hfin : f.point.isFinal with
    | true =>
      obtain ⟨r, hr⟩ := hs.outcome hf hfin
      exact ⟨true, r, rfl, hr, fun hb => by cases hb⟩
    | false => exact ⟨false, _, rfl, rfl, fun _ => rfl⟩
  · have hfin : f.point.isFinal = true := Except.ok.inj ((done_var hu hf).symm.trans hdone)
    obtain ⟨f', hf', hfin', hout⟩ := result_run ⟨rank, ho⟩ hafter ⟨v, hv⟩ hf hfin
    have hresult : m'.result (.var v) = mapValue (accessed c after) (m.result (.var u)) := by
      rw [result_var hv hf', result_var hu hf, if_pos hfin, if_pos hfin', hout]
    refine ⟨by rw [done_var hv hf', hfin'], hresult, fun hnone => ?_⟩
    have hempty : after.filterMap (fun p => p.2.on c) = [] :=
      List.filterMap_eq_nil_iff.mpr hnone
    have hid : accessed c after = fun v => v := by
      funext w
      rw [accessed, hempty]
      rfl
    rw [hresult, hid, mapValue_id]

/-- Programs without side effects whose driver has two Task variables. -/
abbrev TwoTasks : Lang :=
  program Bool 1 Unit (fun (_ : Unit) (mem : Unit) => ((), mem)) fun v : Nat => v

/-- A Task completes with 1. -/
def firstCompletes : List (AccessLabel TwoTasks) :=
  [.step (.drive (.create true .value
      (.body (.coReturn (.ok 1) .throw : Body 1 Nat Unit Unit Unit true)) [])),
    .step (.drive (.start true)), .step .exec]

/-- Another one is started and destroyed, 7 is assigned to the result of the first, and the
variable of the second takes the first over. -/
def secondTakesOver : List (AccessLabel TwoTasks) :=
  [.step (.drive (.create false .value (.body suspendOnce) [])), .step (.drive (.start false)),
    .access 0 (.assign 7), .step .exec, .step (.drive (.destroy false)),
    .step (.drive (.moveConstruct false true))]

theorem result_stable_taskMoved : ∃ m m' : Machine TwoTasks, ∃ after,
    (accessSystem TwoTasks).Run m after m' ∧ after.map Prod.snd = secondTakesOver ∧
      m.result (.var true) = .ok (.ok (some 1)) ∧ m'.done (.var false) = .ok true ∧
      m'.result (.var false) = mapValue (accessed 0 after) (m.result (.var true)) := by
  have hreplay : ∃ m : Machine TwoTasks, (accessSystem TwoTasks).replay Transition.anyStep
      (.start0 ()) firstCompletes = some m ∧ m.vars true = some (some 0) ∧
      m.done (.var true) = .ok true ∧ m.result (.var true) = .ok (.ok (some 1)) ∧
      ∃ m' : Machine TwoTasks, (accessSystem TwoTasks).replay Transition.anyStep m
        secondTakesOver = some m' ∧ m'.vars false = some (some 0) := ⟨_, rfl, rfl, rfl, rfl, _, rfl, rfl⟩
  obtain ⟨m, hm, hu, hdone, hresult, m', hm', hv⟩ := hreplay
  obtain ⟨before, hbefore, _, _⟩ := Transition.Run.of_replay hm
  obtain ⟨after, hafter, hlabels, _⟩ := Transition.Run.of_replay hm'
  obtain ⟨_, _, hstable⟩ := result_stable hbefore hafter hu hv
  obtain ⟨hdone', hresult', _⟩ := hstable hdone
  exact ⟨m, m', after, hafter, hlabels, hresult, hdone', hresult'⟩

end VixStandard.Task
