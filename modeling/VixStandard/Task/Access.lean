import VixStandard.Task.Owners

/-!
# References to results

`result()` returns a reference.  `t.result() = v` assigns through it, the receiver of
`std::move(t).result()` moves from it, and a program can keep it as long as the coroutine
lives.  `system` only reads results.  `accessSystem` adds what a program does through
references, in a body or in the driver and at any time between two steps.

* `referent` is the value behind the reference, and `referent_of_result` says that it is the
  one that `result()` reads.
* `access_spec` says what an access does.  It faults in no state, and changes the value of one
  completed coroutine and nothing else.
* The runs of `system` are the runs of `accessSystem` without accesses (`reach_accesses`).

Values are not Tasks: no Task is kept in a result, and none is moved out of one.
-/

namespace VixStandard.Task

open VixStandard.Lib Machine

variable {L : Lang}

/-- What a program does with the value behind a reference that `result()` returned. -/
inductive Access (L : Lang) where
  /-- `t.result() = v`. -/
  | assign (v : L.Val)
  /-- `T x = std::move(t).result()`. -/
  | take

/-- The value afterwards. -/
def Access.apply : Access L → L.Val → L.Val
  | .assign v, _ => v
  | .take, v => L.moved v

/-- The frame after an access to its value. -/
def Frame.access (f : Frame L) (x : Access L) : Frame L :=
  { f with promise := { f.promise with value := f.promise.value.map x.apply } }

/-- The value that a reference from `result()` of the coroutine `c` refers to. -/
def Machine.referent (m : Machine L) (c : Addr) : Option L.Val :=
  match m.heap c with
  | none => none
  | some f =>
    if f.point.isFinal then
      match f.outcome with
      | .ok (.ok o) => o
      | _ => none
    else none

def Machine.access (m : Machine L) (c : Addr) (x : Access L) : Except Fault (Machine L) := do
  let f ← m.frame c
  .ok (m.store c (f.access x))

/-- A step of the program, or an access to the result of the coroutine `c`. -/
inductive AccessLabel (L : Lang) where
  | step (l : Label L)
  | access (c : Addr) (x : Access L)

/-- A reference is to the value of a completed coroutine that lives. -/
def AccessLabel.Enabled (m : Machine L) : AccessLabel L → Prop
  | .step l => l.Enabled m
  | .access c _ => (m.referent c).isSome = true

instance (m : Machine L) (l : AccessLabel L) : Decidable (l.Enabled m) :=
  match l with
  | .step l => inferInstanceAs (Decidable (l.Enabled m))
  | .access _ _ => inferInstanceAs (Decidable (_ = true))

def Machine.accessStep (m : Machine L) : AccessLabel L → Except Fault (Machine L)
  | .step l => m.step l
  | .access c x => m.access c x

/-- The runs of a program that uses references to results. -/
def accessSystem (L : Lang) : Transition (Machine L) (AccessLabel L) Fault where
  init m := ∃ mem, m = .start0 mem
  enabled m l := l.Enabled m
  step := Machine.accessStep

instance (m : Machine L) (l : AccessLabel L) : Decidable ((accessSystem L).enabled m l) :=
  inferInstanceAs (Decidable (l.Enabled m))

variable {m m' : Machine L} {c : Addr} {x : Access L}

/-! ## What a reference refers to -/

theorem referent_eq_some {v : L.Val} : m.referent c = some v ↔
    ∃ f, m.heap c = some f ∧ f.point.isFinal = true ∧ f.outcome = .ok (.ok (some v)) := by
  rw [Machine.referent]
  constructor
  · intro h
    split at h
    · cases h
    · rename_i f hf
      split at h
      · rename_i hfin
        split at h
        · rename_i hout
          exact ⟨f, hf, hfin, h ▸ hout⟩
        · cases h
      · cases h
  · rintro ⟨f, hf, hfin, hout⟩
    simp only [hf, hfin, hout, if_true]

/-- `result()` of a Task returns a value exactly when it owns a coroutine with that value
behind the reference. -/
theorem referent_of_result {p : Place L} {v : L.Val} :
    m.result p = .ok (.ok (some v)) ↔ ∃ c, m.read p = .ok (some c) ∧ m.referent c = some v := by
  constructor
  · intro h
    obtain ⟨o, hread, h⟩ := bind_eq_ok h
    cases o with
    | none => cases Except.ok.inj h
    | some c =>
      obtain ⟨f, hf, h⟩ := bind_eq_ok h
      split at h
      · rename_i hfin
        exact ⟨c, hread, referent_eq_some.mpr ⟨f, frame_eq_ok hf, hfin, h⟩⟩
      · cases Except.ok.inj h
  · rintro ⟨c, hread, hc⟩
    obtain ⟨f, hf, hfin, hout⟩ := referent_eq_some.mp hc
    rw [result_of_some hread hf, if_pos hfin, hout]

/-! ## What an access does -/

/-- A later `result()` gives the value after the access. -/
theorem Frame.outcome_access (f : Frame L) (x : Access L) :
    (f.access x).outcome = f.outcome.map fun r => r.map fun o => o.map x.apply := by
  obtain ⟨kind, ⟨value, exception, continuation⟩, point, slots⟩ := f
  cases exception <;> cases kind <;> cases value <;> rfl

theorem access_spec (hen : (AccessLabel.access c x).Enabled m) :
    ∃ f, m.heap c = some f ∧ f.point.isFinal = true ∧ (∃ r, f.outcome = .ok r) ∧
      m.access c x = .ok (m.store c (f.access x)) := by
  obtain ⟨v, hv⟩ := Option.isSome_iff_exists.mp hen
  obtain ⟨f, hf, hfin, hout⟩ := referent_eq_some.mp hv
  exact ⟨f, hf, hfin, ⟨_, hout⟩, bind_of_ok (frame_ok hf) _⟩

/-- An access changes one frame, and of that only the value. -/
theorem access_ok (hen : (AccessLabel.access c x).Enabled m) (hok : m.access c x = .ok m') :
    ∃ f, m.heap c = some f ∧ f.point.isFinal = true ∧ (∃ r, f.outcome = .ok r) ∧
      m' = m.store c (f.access x) := by
  obtain ⟨f, hf, hfin, hout, hok'⟩ := access_spec hen
  exact ⟨f, hf, hfin, hout, Except.ok.inj (hok.symm.trans hok')⟩

theorem sameHandles_access {f : Frame L} (hf : m.heap c = some f) (x : Access L) :
    SameHandles m (m.store c (f.access x)) :=
  sameHandles_replace hf rfl rfl rfl rfl rfl

/-- A step of a program that uses references keeps the forest. -/
theorem accessStep_owning (h : Owning m) {l : AccessLabel L} (hen : l.Enabled m)
    (hok : m.accessStep l = .ok m') : Owning m' := by
  cases l with
  | step l => exact step_owning h hen hok
  | access c x =>
    obtain ⟨f, hf, _, _, rfl⟩ := access_ok hen hok
    obtain ⟨rank, ho⟩ := h
    exact ⟨rank, ho.sameHandles (sameHandles_access hf x)⟩

/-! ## Runs without accesses -/

/-- What a program reaches without references it also reaches with them. -/
theorem reach_accesses (h : (system L).Reach Transition.anyStep m) :
    (accessSystem L).Reach Transition.anyStep m := by
  induction h with
  | init hs => exact .init hs
  | @step s s' l _ hen _ hok ih => exact ih.step (l := .step l) hen trivial hok

end VixStandard.Task
