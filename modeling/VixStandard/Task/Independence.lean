import VixStandard.Task.Program
import VixStandard.Task.Simulation

/-!
# Independence of root Tasks

A driver makes any number of root Tasks, resumes the innermost suspended
coroutine of one chain or another, and destroys roots when it likes.  Their
bodies work on parts of the program's state that no two roots share
(`Separation`).

`Mirror` relates such a run to a run in which one root `v` is alone.  The frames
of `v` are one region of the heap, those of the other roots another region.  A
step that concerns `v` is a step of the run of `v` alone, on the same frames at
other addresses (`Mirror.own_step`), and any other step leaves the region of `v`
as it is (`Mirror.other_step`).  So the steps of `v` have the same effects and the
same outcome in both runs (`independent`).
-/

namespace VixStandard.Task

open VixStandard.Lib VixStandard.Lib.Ownership Machine

variable {L : Lang}

/-- The bodies of the roots work on separate parts of the program's state. -/
structure Separation (L : Lang) where
  Part : Type
  /-- The part of the program's state that belongs to a root. -/
  view : L.Var → L.Mem → Part
  /-- The root whose bodies perform a side effect. -/
  owner : L.Op → L.Var
  /-- The code of the coroutines of a root. -/
  body : L.Var → L.Code → Prop
  next : ∀ {v c}, body v c → (L.next c).Within (fun o => owner o = v) (body v)
  act_own : ∀ {o mem mem'}, view (owner o) mem' = view (owner o) mem →
    (L.act o mem).1 = (L.act o mem').1 ∧
      view (owner o) (L.act o mem').2 = view (owner o) (L.act o mem).2
  act_other : ∀ {o v mem}, owner o ≠ v → view v (L.act o mem).2 = view v mem

/-- The side effects of a root. -/
def Separation.effects (S : Separation L) (v : L.Var) (log : List L.Op) : List L.Op :=
  log.filter fun o => S.owner o = v

theorem Separation.effects_append (S : Separation L) (v : L.Var) (log : List L.Op) (o : L.Op) :
    S.effects v (log ++ [o]) = S.effects v log ++ if S.owner o = v then [o] else [] := by
  rw [Separation.effects, List.filter_append, List.filter_singleton]
  simp [Separation.effects]

/-- The steps of a run: the driver creates and destroys roots and resumes innermost
coroutines, and bodies resume no coroutine that waits for another one. -/
def Separation.Allowed (S : Separation L) (m : Machine L) : Label L → Prop
  | .drive (.create v _ body args) => args = [] ∧ S.body v body
  | .drive (.start v) => m.NotAwaiting (.var v)
  | .drive (.resume a) => ∃ v r, m.vars v = some (some r) ∧ Innermost m r a
  | .drive (.destroy _) => True
  | .drive _ => False
  | .exec => Disciplined m .exec

theorem Separation.Allowed.disciplined {S : Separation L} {m : Machine L} {l : Label L}
    (h : S.Allowed m l) : Disciplined m l := by
  cases l with
  | exec => exact h
  | drive op =>
    cases op with
    | start v => exact h
    | _ => trivial

/-- The step is about the root `v`, or about a coroutine of it. -/
def Concerns (v : L.Var) (m : Machine L) : Label L → Prop
  | .drive (.create w _ _ _) | .drive (.start w) | .drive (.destroy w) => w = v
  | .drive (.resume a) => ∃ r, m.vars v = some (some r) ∧ Innermost m r a
  | .drive _ => False
  | .exec => ∃ a r, m.stack.head? = some a ∧ m.vars v = some (some r) ∧
      Below Place.home m.graph r a

/-- The label without the address of the handle that it resumes. -/
def Label.shape (l : Label L) : Label L := l.rename fun _ => 0

theorem Label.shape_rename (l : Label L) (g : Addr → Addr) : (l.rename g).shape = l.shape := by
  cases l with
  | exec => rfl
  | drive op => cases op <;> rfl

open scoped Classical in
/-- What a run does with the root `v`: its creation, its resumptions, the steps of
its coroutines and its destruction. -/
noncomputable def trace (v : L.Var) (steps : List (Machine L × Label L)) : List (Label L) :=
  (steps.filter fun p => Concerns v p.1 p.2).map fun p => p.2.shape

/-- What a driver asks of a root. -/
inductive Request (L : Lang) where
  | create (kind : Kind) (body : L.Code)
  /-- `start()` of the root, or `resume()` of its innermost coroutine. -/
  | resume
  | destroy

def Label.request : Label L → Option (Request L)
  | .drive (.create _ kind body _) => some (.create kind body)
  | .drive (.start _) | .drive (.resume _) => some .resume
  | .drive (.destroy _) => some .destroy
  | _ => none

theorem Label.request_shape (l : Label L) : l.shape.request = l.request := by
  cases l with
  | exec => rfl
  | drive op => cases op <;> rfl

/-- What the driver asks of the root `v` in a run. -/
noncomputable def requests (v : L.Var) (steps : List (Machine L × Label L)) : List (Request L) :=
  (trace v steps).filterMap Label.request

def Request.isResume : Request L → Bool
  | .resume => true
  | _ => false

/-- How often the driver resumes the root `v` in a run. -/
noncomputable def resumptions (v : L.Var) (steps : List (Machine L × Label L)) : Nat :=
  (requests v steps).countP Request.isResume

theorem trace_cons_own {v : L.Var} {p : Machine L × Label L} {steps : List (Machine L × Label L)}
    (h : Concerns v p.1 p.2) : trace v (p :: steps) = p.2.shape :: trace v steps := by
  rw [trace, List.filter_cons_of_pos (by simpa using h)]
  rfl

theorem trace_cons_other {v : L.Var} {p : Machine L × Label L}
    {steps : List (Machine L × Label L)} (h : ¬ Concerns v p.1 p.2) :
    trace v (p :: steps) = trace v steps := by
  rw [trace, List.filter_cons_of_neg (by simpa using h)]
  rfl

theorem requests_cons_some {v : L.Var} {p : Machine L × Label L}
    {steps : List (Machine L × Label L)} {q : Request L} (h : Concerns v p.1 p.2)
    (hq : p.2.request = some q) : requests v (p :: steps) = q :: requests v steps := by
  rw [requests, trace_cons_own h, List.filterMap_cons_some (by rw [Label.request_shape, hq])]
  rfl

theorem requests_cons_none {v : L.Var} {p : Machine L × Label L}
    {steps : List (Machine L × Label L)} (h : Concerns v p.1 p.2) (hq : p.2.request = none) :
    requests v (p :: steps) = requests v steps := by
  rw [requests, trace_cons_own h, List.filterMap_cons_none (by rw [Label.request_shape, hq])]
  rfl

/-! ## The run of a root alone -/

/-- The driver asks something of a root exactly when no coroutine runs. -/
theorem Separation.Allowed.request {S : Separation L} {m : Machine L} {l : Label L}
    (h : S.Allowed m l) (hen : l.Enabled m) :
    (m.stack ≠ [] ∧ l = .exec ∧ l.request = none) ∨ m.stack = [] ∧ ∃ q, l.request = some q := by
  cases l with
  | exec => exact Or.inl ⟨hen, rfl, rfl⟩
  | drive op =>
    refine Or.inr ⟨hen.1, ?_⟩
    cases op with
    | create v kind body args => exact ⟨_, rfl⟩
    | start v => exact ⟨_, rfl⟩
    | resume a => exact ⟨_, rfl⟩
    | destroy v => exact ⟨_, rfl⟩
    | defaultConstruct w => exact h.elim
    | moveConstruct w u => exact h.elim
    | moveAssign w u => exact h.elim

/-- `start()` of a root that does not wait resumes its innermost coroutine. -/
theorem drive_start_eq_resume {m : Machine L} {v : L.Var} {r a : Addr}
    (hr : m.vars v = some (some r)) (hin : Innermost m r a) (hno : m.NotAwaiting (.var v))
    (hen : (DriverOp.resume a).Enabled m) : m.drive (.start v) = m.drive (.resume a) := by
  obtain ⟨f, c, hf, hpt⟩ := hen
  have hra : r = a := by
    rcases hin.1.cases_head with hra | ⟨d, hrd, _⟩
    · exact hra
    · obtain ⟨g, w, k, hg, hptg, hs⟩ := hrd
      have haw := hno r g hr hg
      rw [hptg] at haw
      cases haw
  subst hra
  have hread : m.read (.var v) = .ok (some r) := by
    rw [Machine.read, hr]
    rfl
  have hfin : f.point.isFinal = false := by
    rw [hpt]
    rfl
  rw [drive, drive, start_of_some hread hf, hfin]
  cases m.resume r <;> rfl

/-- Two steps of a run of `v` alone with the same request are the same step. -/
theorem Concerns.step_eq {S : Separation L} {v : L.Var} {m : Machine L} {l l' : Label L}
    (h : Concerns v m l) (h' : Concerns v m l') (hal : S.Allowed m l) (hal' : S.Allowed m l')
    (hen : l.Enabled m) (hen' : l'.Enabled m) {q : Request L} (hq : l.request = some q)
    (hq' : l'.request = some q) : m.step l = m.step l' := by
  cases l with
  | exec => cases hq
  | drive op =>
    cases l' with
    | exec => cases hq'
    | drive op' =>
      cases q with
      | create kind body =>
        cases op <;> cases hq
        cases op' <;> cases hq'
        obtain ⟨rfl, _⟩ := hal
        obtain ⟨rfl, _⟩ := hal'
        obtain rfl := h
        obtain rfl := h'
        rfl
      | destroy =>
        cases op <;> cases hq
        cases op' <;> cases hq'
        obtain rfl := h
        obtain rfl := h'
        rfl
      | resume =>
        cases op with
        | start w =>
          obtain rfl := h
          cases op' with
          | start u =>
            obtain rfl := h'
            rfl
          | resume a =>
            obtain ⟨r, hr, hin⟩ := h'
            exact drive_start_eq_resume hr hin hal hen'.2
          | _ => cases hq'
        | resume a =>
          obtain ⟨r, hr, hin⟩ := h
          cases op' with
          | start u =>
            obtain rfl := h'
            exact (drive_start_eq_resume hr hin hal' hen.2).symm
          | resume b =>
            obtain ⟨r', hr', hin'⟩ := h'
            obtain rfl : r = r' := Option.some.inj (Option.some.inj (hr.symm.trans hr'))
            rw [hin.unique hin']
          | _ => cases hq'
        | _ => cases hq

/-- What the driver asks of a root determines the run of the root alone, up to the
end of its last resumption. -/
theorem alone_unique {S : Separation L} {v : L.Var} {n n₁ n₂ : Machine L}
    {s₁ s₂ : List (Machine L × Label L)} (h₁ : (system L).Run n s₁ n₁)
    (h₂ : (system L).Run n s₂ n₂) (hall₁ : ∀ p ∈ s₁, S.Allowed p.1 p.2 ∧ Concerns v p.1 p.2)
    (hall₂ : ∀ p ∈ s₂, S.Allowed p.1 p.2 ∧ Concerns v p.1 p.2) (hst₁ : n₁.stack = [])
    (hst₂ : n₂.stack = []) (hreq : requests v s₁ = requests v s₂) : n₁ = n₂ := by
  induction h₁ generalizing s₂ with
  | nil s =>
    cases h₂ with
    | nil => rfl
    | cons hen hok hrun =>
      obtain ⟨hal, hc⟩ := hall₂ _ List.mem_cons_self
      rcases hal.request hen with ⟨hst, _⟩ | ⟨_, q, hq⟩
      · exact absurd hst₁ hst
      · rw [requests_cons_some hc hq] at hreq
        cases hreq
  | @cons s s' _ l steps hen hok _ ih =>
    obtain ⟨hal, hc⟩ := hall₁ _ List.mem_cons_self
    have hrest := fun p hp => hall₁ p (List.mem_cons_of_mem _ hp)
    cases h₂ with
    | nil =>
      rcases hal.request hen with ⟨hst, _⟩ | ⟨_, q, hq⟩
      · exact absurd hst₂ hst
      · rw [requests_cons_some hc hq] at hreq
        cases hreq
    | @cons _ s'' _ l' steps' hen' hok' hrun' =>
      obtain ⟨hal', hc'⟩ := hall₂ _ List.mem_cons_self
      have hrest' := fun p hp => hall₂ p (List.mem_cons_of_mem _ hp)
      rcases hal.request hen with ⟨hst, rfl, hq⟩ | ⟨hst, q, hq⟩
      · rcases hal'.request hen' with ⟨_, rfl, hq'⟩ | ⟨hst', _⟩
        · obtain rfl : s' = s'' := Except.ok.inj (hok.symm.trans hok')
          rw [requests_cons_none hc hq, requests_cons_none hc' hq'] at hreq
          exact ih hrun' hrest hrest' hst₁ hreq
        · exact absurd hst' hst
      · rcases hal'.request hen' with ⟨hst', _⟩ | ⟨_, q', hq'⟩
        · exact absurd hst hst'
        · rw [requests_cons_some hc hq, requests_cons_some hc' hq', List.cons.injEq] at hreq
          obtain ⟨rfl, hreq⟩ := hreq
          have hstep := hc.step_eq hc' hal hal' hen hen' hq hq'
          obtain rfl : s' = s'' := Except.ok.inj (hok.symm.trans (hstep.trans hok'))
          exact ih hrun' hrest hrest' hst₁ hreq

/-! ## The relation -/

theorem Instr.Within.mono {op op' : L.Op → Prop} {code code' : L.Code → Prop}
    (hop : ∀ o, op o → op' o) (hcode : ∀ c, code c → code' c)
    {i : Instr L.Code L.Local L.Aw L.Val L.Exc L.Op L.Resp} (h : i.Within op code) :
    i.Within op' code' := by
  cases i with
  | effect o k => exact ⟨hop _ h.1, fun r => hcode _ (h.2 r)⟩
  | call x kind body args k => exact ⟨hcode _ h.1, hcode _ h.2⟩
  | suspend k | move x y k | drop x k | coAwait w x k | moveAwaiter w u k | dropAwaiter w k =>
    exact hcode _ h
  | start x k | done x k | result x k | await w k | coReturn r k => exact fun r => hcode _ (h r)
  | throw e => trivial

/-- The code of the roots other than `v`. -/
def Separation.otherBody (S : Separation L) (v : L.Var) (c : L.Code) : Prop :=
  ∃ w, w ≠ v ∧ S.body w c

/-- The root `v` in a run with others and in a run alone. -/
def Separation.own (S : Separation L) (v : L.Var) : Scope L where
  code := S.body v
  op o := S.owner o = v
  same mem log mem' log' := S.view v mem' = S.view v mem ∧ log' = S.effects v log
  next := S.next
  act := by
    rintro o mem log mem' log' rfl ⟨hview, rfl⟩
    obtain ⟨hresp, hview'⟩ := S.act_own hview
    refine ⟨hresp, hview', ?_⟩
    rw [S.effects_append, if_pos rfl]

/-- The roots other than `v`, whose side effects leave the part of `v` as it is
in `m₀`. -/
def Separation.others (S : Separation L) (v : L.Var) (m₀ : Machine L) : Scope L where
  code := S.otherBody v
  op o := S.owner o ≠ v
  same mem log mem' log' := mem' = mem ∧ log' = log ∧ S.view v mem = S.view v m₀.mem ∧
    S.effects v log = S.effects v m₀.log
  next := by
    rintro c ⟨w, hw, hc⟩
    have hle : ∀ o, S.owner o = w → S.owner o ≠ v := fun o ho hv => hw (ho.symm.trans hv)
    exact Instr.Within.mono hle (fun c hc => ⟨w, hw, hc⟩) (S.next hc)
  act := by
    rintro o mem log mem' log' ho ⟨rfl, rfl, hview, heffects⟩
    refine ⟨rfl, rfl, rfl, (S.act_other ho).trans hview, ?_⟩
    rw [S.effects_append, if_neg ho, List.append_nil]
    exact heffects

/-- In `n` the root `v` is alone.  Its frames are `D` in `m`, and the frames of
the other roots are `E`.  Either no coroutine of another root runs in `m`, or no
coroutine runs in `n`. -/
structure Mirror (S : Separation L) (v : L.Var) (D E : Addr → Prop) (g : Addr → Addr)
    (m n : Machine L) : Prop where
  apart : ∀ {a}, D a → ¬ E a
  rest : Closed (S.otherBody v) (· ≠ v) E m
  own : Sim (S.own v) m (· = v) D g m n ∨
    Sim (S.own v) { m with stack := [] } (· = v) D g { m with stack := [] } n ∧ ∀ a ∈ m.stack, E a

section Mirror

variable {S : Separation L} {v : L.Var} {D E : Addr → Prop} {g : Addr → Addr} {m m' n : Machine L}
  {l : Label L}

theorem mirror_start0 {mem mem' : L.Mem} (hview : S.view v mem' = S.view v mem) :
    Mirror S v (fun _ => False) (fun _ => False) id (.start0 mem) (.start0 mem') :=
  ⟨fun ha => ha.elim, ⟨fun ha => ha.elim, fun ha => ha.elim, fun _ hc => by cases hc⟩,
    Or.inl ⟨⟨fun ha => ha.elim, fun ha => ha.elim, fun _ hc => by cases hc⟩, fun ha => ha.elim,
      fun ha => ha.elim, fun ha => ha.elim, fun _ => rfl, rfl,
      fun ha => absurd ha List.not_mem_nil, ⟨hview, rfl⟩, Nat.le_refl _, fun _ => rfl,
      fun _ => rfl⟩⟩

/-- The frames of the region, whoever runs. -/
theorem Mirror.closed (h : Mirror S v D E g m n) : Closed (S.body v) (· = v) D m := by
  rcases h.own with hown | ⟨hown, _⟩
  · exact hown.closed
  · exact ⟨hown.closed.lt_next, hown.closed.frame, hown.closed.held⟩

/-- When a step concerns `v`, no coroutine of another root runs. -/
theorem Mirror.sim_own (h : Mirror S v D E g m n) (hen : l.Enabled m) (hc : Concerns v m l) :
    Sim (S.own v) m (· = v) D g m n := by
  rcases h.own with hown | ⟨hown, hrun⟩
  · exact hown
  · cases l with
    | drive op =>
      have hst : m.stack = [] := hen.1
      rw [← hst] at hown
      exact hown
    | exec =>
      obtain ⟨a, r, ha, hr, hb⟩ := hc
      have hE := hrun a (List.mem_of_mem_head? ha)
      exact absurd hE (h.apart (h.closed.below (h.closed.held rfl hr) hb))

/-- When a step does not concern `v`, no coroutine of `v` runs. -/
theorem Mirror.sim_other (h : Mirror S v D E g m n) (hinv : Inv m) (hen : l.Enabled m)
    (hc : ¬ Concerns v m l) :
    Sim (S.own v) { m with stack := [] } (· = v) D g { m with stack := [] } n ∧ ∀ a ∈ m.stack, E a := by
  rcases h.own with hown | hown
  · cases l with
    | drive op =>
      have hst : m.stack = [] := hen.1
      refine ⟨?_, fun a ha => absurd (hst ▸ ha) List.not_mem_nil⟩
      rw [← hst]
      exact hown
    | exec =>
      exfalso
      cases hst : m.stack with
      | nil => exact hen hst
      | cons a rest =>
        have ha : a ∈ m.stack := hst ▸ List.mem_cons_self
        obtain ⟨rank, ho, hl⟩ := hinv
        obtain ⟨w, r, hr, hb⟩ := ho.root (hl.stack_live ha)
        by_cases hw : w = v
        · subst hw
          exact hc ⟨a, r, by rw [hst]; rfl, hr, hb⟩
        · exact h.apart (hown.running ha) (h.rest.below (h.rest.held hw hr) hb)
  · exact hown

theorem Label.rename_id (l : Label L) : l.rename id = l := by
  cases l with
  | exec => rfl
  | drive op => cases op <;> rfl

/-- A step that does not concern `v` leaves its region as it is. -/
theorem Mirror.other_step (h : Mirror S v D E g m n) (hinv : Inv m) (hen : l.Enabled m)
    (hal : S.Allowed m l) (hc : ¬ Concerns v m l) (hok : m.step l = .ok m') :
    ∃ E', Mirror S v D E' g m' n := by
  obtain ⟨hown, hrun⟩ := h.sim_other hinv hen hc
  have hinside : l.Inside (S.others v m) (· ≠ v) E := by
    cases l with
    | exec => trivial
    | drive op =>
      cases op with
      | create w kind body args => exact ⟨hal.1, hc, w, hc, hal.2⟩
      | start w => exact hc
      | destroy w => exact hc
      | resume a =>
        obtain ⟨w, r, hr, hin⟩ := hal
        have hw : w ≠ v := fun hw => hc (hw ▸ ⟨r, hr, hin⟩)
        have hsim : Sim (S.others v m) m (· ≠ v) E id m m := h.rest.sim hrun ⟨rfl, rfl, rfl, rfl⟩
        exact (hsim.innermost (h.rest.held hw hr) hin).1
      | defaultConstruct w => exact hal.elim
      | moveConstruct w u => exact hal.elim
      | moveAssign w u => exact hal.elim
  have hsim : Sim (S.others v m) m (· ≠ v) E id m m := h.rest.sim hrun ⟨rfl, rfl, rfl, rfl⟩
  have hstep := hsim.step hinside
  rw [l.rename_id] at hstep
  obtain ⟨E', g', _, hE', hsim'⟩ := hstep m' m' hok hok
  have hapart : ∀ {a}, D a → ¬ E' a := by
    intro a ha hE
    rcases hE' a hE with hE | rfl
    · exact h.apart ha hE
    · exact Nat.lt_irrefl _ (h.closed.lt_next ha)
  obtain ⟨_, _, hview, heffects⟩ := hsim'.same
  refine ⟨E', hapart, hsim'.closed, Or.inr ⟨?_, fun a => hsim'.running⟩⟩
  exact hown.transport (fun a ha => hsim'.heapRest (hapart ha))
    (fun w hw => hsim'.varsRest fun hne => hne hw) hsim'.next_le rfl
    ⟨hown.same.1.trans hview.symm, hown.same.2.trans heffects.symm⟩

/-- A step that concerns `v` is a step of the run in which `v` is alone. -/
theorem Mirror.own_step (h : Mirror S v D E g m n) (hinv : Inv n) (hen : l.Enabled m)
    (hal : S.Allowed m l) (hc : Concerns v m l) (hok : m.step l = .ok m') :
    ∃ n' D' g', (l.rename g).Enabled n ∧ S.Allowed n (l.rename g) ∧ Concerns v n (l.rename g) ∧
      n.step (l.rename g) = .ok n' ∧ Mirror S v D' E g' m' n' := by
  have hsim := h.sim_own hen hc
  have hvar : ∀ {r}, m.vars v = some (some r) → D r ∧ n.vars v = some (some (g r)) := by
    intro r hr
    exact ⟨h.closed.held rfl hr, by rw [hsim.vars rfl, hr]; rfl⟩
  -- The label is about the region, and `n` offers it too.
  obtain ⟨hinside, hen', hal', hc'⟩ : l.Inside (S.own v) (· = v) D ∧ (l.rename g).Enabled n ∧
      S.Allowed n (l.rename g) ∧ Concerns v n (l.rename g) := by
    cases l with
    | exec =>
      obtain ⟨a, r, ha, hr, hb⟩ := hc
      obtain ⟨hD, hr'⟩ := hvar hr
      refine ⟨trivial, ?_, hsim.disciplined hal, g a, g r, ?_, hr', hsim.below hD hb⟩
      · intro hst
        have hst' : m.stack.map g = [] := hsim.stack.symm.trans hst
        exact hen (List.map_eq_nil_iff.mp hst')
      · rw [hsim.stack, List.head?_map, ha]
        rfl
    | drive op =>
      have hst : n.stack = [] := by
        rw [hsim.stack, hen.1]
        rfl
      have hsome : ∀ {w}, w = v → m.vars w ≠ none → n.vars w ≠ none := by
        intro w hw hne hnone
        rw [hsim.vars hw, Option.map_eq_none_iff] at hnone
        exact hne hnone
      cases op with
      | create w kind body args =>
        obtain ⟨rfl, hbody⟩ := hal
        obtain rfl : w = v := hc
        refine ⟨⟨rfl, rfl, hbody⟩, ⟨hst, ?_, fun p hp => absurd hp List.not_mem_nil⟩, ⟨rfl, hbody⟩, rfl⟩
        rw [hsim.vars rfl, hen.2.1]
        rfl
      | start w => exact ⟨hc, ⟨hst, hsome hc hen.2⟩, hsim.notAwaiting (p := .var w) hc hal, hc⟩
      | destroy w => exact ⟨hc, ⟨hst, hsome hc hen.2⟩, trivial, hc⟩
      | resume a =>
        obtain ⟨r, hr, hin⟩ := hc
        obtain ⟨hD, hr'⟩ := hvar hr
        obtain ⟨ha, hin'⟩ := hsim.innermost hD hin
        obtain ⟨f, c, hf, hpt⟩ := hen.2
        exact ⟨ha, ⟨hst, f.rename g, c, hsim.heap_some ha hf, hpt⟩, ⟨v, g r, hr', hin'⟩, g r, hr', hin'⟩
      | defaultConstruct w => exact hal.elim
      | moveConstruct w u => exact hal.elim
      | moveAssign w u => exact hal.elim
  obtain ⟨n', hok', _⟩ := step_ok hinv hen' hal'.disciplined
  obtain ⟨D', g', _, hD', hsim'⟩ := hsim.step hinside m' n' hok hok'
  have hapart : ∀ {a}, D' a → ¬ E a := by
    intro a ha hE
    rcases hD' a ha with ha | rfl
    · exact h.apart ha hE
    · exact Nat.lt_irrefl _ (h.rest.lt_next hE)
  refine ⟨n', D', g', hen', hal', hc', hok', hapart, ?_, Or.inl ?_⟩
  · exact h.rest.transport (fun a hE => hsim'.heapRest fun ha => hapart ha hE)
      (fun w hw => hsim'.varsRest hw) hsim'.next_le
  · exact hsim'.transport (fun _ _ => rfl) (fun _ _ => rfl) (Nat.le_refl _) rfl hsim'.same

/-- A run and the run of `v` alone that it contains. -/
theorem Mirror.run {steps : List (Machine L × Label L)} (h : Mirror S v D E g m n) (hm : Inv m)
    (hn : Inv n) (hrun : (system L).Run m steps m') (hall : ∀ p ∈ steps, S.Allowed p.1 p.2) :
    ∃ alone n' D' E' g', (system L).Run n alone n' ∧
      (∀ p ∈ alone, S.Allowed p.1 p.2 ∧ Concerns v p.1 p.2) ∧ trace v alone = trace v steps ∧
      Mirror S v D' E' g' m' n' := by
  induction hrun generalizing D E g n with
  | nil s => exact ⟨[], n, D, E, g, .nil n, fun p hp => absurd hp List.not_mem_nil, rfl, h⟩
  | @cons s s' _ l steps hen hok _ ih =>
    have hal := hall _ List.mem_cons_self
    have hall' : ∀ p ∈ steps, S.Allowed p.1 p.2 := fun p hp => hall p (List.mem_cons_of_mem _ hp)
    have hs' : Inv s' := by
      obtain ⟨s'', hok', hinv⟩ := step_ok hm hen hal.disciplined
      obtain rfl : s'' = s' := Except.ok.inj (hok'.symm.trans hok)
      exact hinv
    by_cases hc : Concerns v s l
    · obtain ⟨n₁, D₁, g₁, hen₁, hal₁, hc₁, hok₁, h₁⟩ := h.own_step hn hen hal hc hok
      have hn₁ : Inv n₁ := by
        obtain ⟨n'', hok'', hinv⟩ := step_ok hn hen₁ hal₁.disciplined
        obtain rfl : n'' = n₁ := Except.ok.inj (hok''.symm.trans hok₁)
        exact hinv
      obtain ⟨alone, n', D', E', g', hrun', hall'', htrace, h'⟩ := ih h₁ hs' hn₁ hall'
      refine ⟨(n, l.rename g) :: alone, n', D', E', g', .cons hen₁ hok₁ hrun', ?_, ?_, h'⟩
      · intro p hp
        rcases List.mem_cons.mp hp with rfl | hp
        · exact ⟨hal₁, hc₁⟩
        · exact hall'' p hp
      · rw [trace_cons_own (p := (s, l)) hc, trace_cons_own (p := (n, l.rename g)) hc₁, htrace]
        exact congrArg (· :: _) (l.shape_rename g)
    · obtain ⟨E₁, h₁⟩ := h.other_step hm hen hal hc hok
      obtain ⟨alone, n', D', E', g', hrun', hall'', htrace, h'⟩ := ih h₁ hs' hn hall'
      exact ⟨alone, n', D', E', g', hrun', hall'', htrace.trans (trace_cons_other hc).symm, h'⟩

/-! ## The result -/

/-- `done()` and `result()` of a Task of the driver are defined. -/
theorem Inv.observe (h : Inv m) (v : L.Var) :
    (∃ b, m.done (.var v) = .ok b) ∧ ∃ r, m.result (.var v) = .ok r := by
  obtain ⟨rank, ho, hl⟩ := h
  obtain ⟨o, hread, hheld⟩ := read_ok (show m.HasPlace (.var v) from trivial)
  cases o with
  | none => exact ⟨⟨_, done_of_none hread⟩, _, result_of_none hread⟩
  | some c =>
    obtain ⟨f, hf⟩ := ho.forest.held_live ((hheld c).mpr rfl)
    refine ⟨⟨_, done_of_some hread hf⟩, ?_⟩
    rw [result_of_some hread hf]
    cases hfin : f.point.isFinal with
    | true => exact hl.outcome hf hfin
    | false => exact ⟨_, rfl⟩

/-- The root looks the same from outside, and its side effects are the same. -/
theorem Mirror.observe (h : Mirror S v D E g m n) (hm : Inv m) (hn : Inv n) :
    n.log = S.effects v m.log ∧ S.view v n.mem = S.view v m.mem ∧
      n.done (.var v) = m.done (.var v) ∧ n.result (.var v) = m.result (.var v) := by
  have hown : ∃ m₀ m₁ : Machine L, Sim (S.own v) m₀ (· = v) D g m₁ n ∧ m₁.log = m.log ∧
      m₁.mem = m.mem ∧ m₁.done (.var v) = m.done (.var v) ∧
      m₁.result (.var v) = m.result (.var v) := by
    rcases h.own with hown | ⟨hown, _⟩
    · exact ⟨_, _, hown, rfl, rfl, rfl, rfl⟩
    · exact ⟨_, _, hown, rfl, rfl, rfl, rfl⟩
  obtain ⟨m₀, m₁, hsim, hlog, hmem, hdone, hresult⟩ := hown
  obtain ⟨⟨b, hb⟩, r, hr⟩ := hm.observe v
  obtain ⟨⟨b', hb'⟩, r', hr'⟩ := hn.observe v
  have hplace : (Place.var v : Place L).Inside (· = v) D := rfl
  refine ⟨hlog ▸ hsim.same.2, hmem ▸ hsim.same.1, ?_, ?_⟩
  · rw [hb, hb', hsim.done hplace b b' (hdone.trans hb) hb']
  · rw [hr, hr', hsim.result hplace r r' (hresult.trans hr) hr']

theorem Mirror.idle (h : Mirror S v D E g m n) (hst : m.stack = []) : n.stack = [] := by
  rcases h.own with hown | ⟨hown, _⟩
  · rw [hown.stack, hst]
    rfl
  · exact hown.stack

end Mirror

/-- Independence of root Tasks.  In a run with any number of roots, the steps of a
root `v` are those of a run in which `v` is the only root, and at the end of both
the side effects of `v`, its part of the program's state, `done()` and `result()`
are the same.  When no coroutine runs, it is the end of every run of `v` alone in
which the driver creates, resumes and destroys `v` as it does here. -/
theorem independent (S : Separation L) {mem mem' : L.Mem} {v : L.Var}
    (hview : S.view v mem' = S.view v mem) {steps : List (Machine L × Label L)} {m : Machine L}
    (hrun : (system L).Run (.start0 mem) steps m) (hall : ∀ p ∈ steps, S.Allowed p.1 p.2) :
    ∃ alone n, (system L).Run (.start0 mem') alone n ∧
      (∀ p ∈ alone, S.Allowed p.1 p.2 ∧ Concerns v p.1 p.2) ∧
      trace v alone = trace v steps ∧ resumptions v alone = resumptions v steps ∧
      n.log = S.effects v m.log ∧ S.view v n.mem = S.view v m.mem ∧
      n.done (.var v) = m.done (.var v) ∧ n.result (.var v) = m.result (.var v) ∧
      (m.stack = [] → ∀ alone' n', (system L).Run (.start0 mem') alone' n' →
        (∀ p ∈ alone', S.Allowed p.1 p.2 ∧ Concerns v p.1 p.2) → n'.stack = [] →
        requests v alone' = requests v steps → n' = n) := by
  obtain ⟨alone, n, D, E, g, halone, hall', htrace, hmirror⟩ :=
    (mirror_start0 hview).run (inv_start0 mem) (inv_start0 mem') hrun hall
  have hm : Inv m := inv_of_reach
    (hrun.reach (.init ⟨mem, rfl⟩) fun p hp => (hall p hp).disciplined)
  have hn : Inv n := inv_of_reach
    (halone.reach (.init ⟨mem', rfl⟩) fun p hp => (hall' p hp).1.disciplined)
  have hrequests : requests v alone = requests v steps :=
    congrArg (List.filterMap Label.request) htrace
  obtain ⟨hlog, hmem, hdone, hresult⟩ := hmirror.observe hm hn
  refine ⟨alone, n, halone, hall', htrace, congrArg (List.countP Request.isResume) hrequests, hlog,
    hmem, hdone, hresult, ?_⟩
  intro hst alone' n' hrun' hall'' hst' hrequests'
  exact alone_unique hrun' halone hall'' hall' hst' (hmirror.idle hst)
    (hrequests'.trans hrequests.symm)

/-! ## Programs on separate parts -/

section Programs

variable {V : Type} [DecidableEq V] {n : Nat} {Val Exc Op Resp Part : Type}

/-- A body performs only side effects in `P`. -/
def Body.Only (P : Op → Prop) {s : Bool} : Body n Val Exc Op Resp s → Prop
  | .effect op k => P op ∧ ∀ r, (k r).Only P
  | .suspend k => k.Only P
  | .call _ _ b k => b.Only P ∧ k.Only P
  | .callStarted _ _ b k => b.Only P ∧ k.Only P
  | .await _ k => ∀ r, (k r).Only P
  | .coReturn _ k => ∀ e, (k e).Only P
  | .throw _ => True

def Code.Only (P : Op → Prop) : Code n Val Exc Op Resp → Prop
  | .body b | .starting _ b | .dropping b => b.Only P
  | .awaiting k => ∀ r, (k r).Only P

/-- A side effect of a root on the root's own part of the program's state. -/
def onPart (act : Op → Part → Resp × Part) (o : V × Op) (mem : V → Part) : Resp × (V → Part) :=
  ((act o.2 (mem o.1)).1, Function.update mem o.1 (act o.2 (mem o.1)).2)

theorem Code.Only.next {act : V × Op → (V → Part) → Resp × (V → Part)} {moved : Val → Val}
    {P : V × Op → Prop} {c : Code n Val Exc (V × Op) Resp} (h : c.Only P) :
    Instr.Within (L := program V n Exc act moved) P (Code.Only P) c.next := by
  cases c with
  | body b =>
    cases b with
    | effect op k | call x kind b k | callStarted x kind b k => exact h
    | suspend k | await x k | coReturn r k => exact h
    | throw e => trivial
  | starting x k =>
    intro r
    cases r with
    | ok u => exact h
    | error e => exact True.intro
  | awaiting k | dropping b => exact h

/-- Programs in which every root has its own part of the program's state. -/
def programParts (act : Op → Part → Resp × Part) (moved : Val → Val) :
    Separation (program V n Exc (onPart (V := V) act) moved) where
  Part := Part
  view v mem := mem v
  owner o := o.1
  body v c := c.Only fun o => o.1 = v
  next h := Code.Only.next h
  act_own := by
    intro o mem mem' hview
    have hpart : mem' o.1 = mem o.1 := hview
    simp [onPart, hpart]
  act_other := by
    intro o v mem hv
    exact Function.update_of_ne (Ne.symm hv) _ _

end Programs

/-! ## Two roots -/

/-- Two roots that count on counters of their own. -/
abbrev Counters : Lang :=
  program Bool 1 Unit (onPart (V := Bool) fun (_ : Unit) (k : Nat) => ((), k + 1)) fun k : Nat => k

/-- Counts, suspends, counts again and returns 7. -/
def countTwice (v : Bool) : Body 1 Nat Unit (Bool × Unit) Unit true :=
  .effect (v, ()) fun _ => .suspend (.effect (v, ()) fun _ => .coReturn (.ok 7) .throw)

theorem countTwice_only (v : Bool) : (countTwice v).Only fun o => o.1 = v :=
  ⟨rfl, fun _ => ⟨rfl, fun _ _ => trivial⟩⟩

/-- Both roots suspend, one of them is destroyed, and the other completes. -/
def interleaved : List (Label Counters) :=
  [.drive (.create true .value (.body (countTwice true)) []),
    .drive (.create false .value (.body (countTwice false)) []),
    .drive (.start true), .exec, .exec, .drive (.start false), .exec, .exec,
    .drive (.destroy false), .drive (.start true), .exec, .exec]

/-- The counter of each root. -/
abbrev counters : Separation Counters := programParts _ _

theorem interleaved_allowed {m : Machine Counters} {l : Label Counters} (hl : l ∈ interleaved)
    (h : Disciplined m l) : counters.Allowed m l := by
  have hcreate : ∀ v, counters.Allowed m (.drive (.create v .value (.body (countTwice v)) [])) :=
    fun v => ⟨rfl, countTwice_only v⟩
  cases l with
  | exec => exact h
  | drive op =>
    cases op with
    | start v => exact h
    | destroy v => trivial
    | create v kind body args =>
      simp only [interleaved, List.mem_cons, reduceCtorEq, or_false, List.not_mem_nil,
        Label.drive.injEq] at hl
      rcases hl with hl | hl
      · exact hl ▸ hcreate true
      · exact hl ▸ hcreate false
    | _ => simp [interleaved] at hl

/-- The root that is not destroyed counts twice and returns 7, and also does when
it is alone and the counter of the other one has another value. -/
theorem independent_interleaved :
    ∃ steps m, (system Counters).Run (.start0 fun _ => 0) steps m ∧
      steps.map Prod.snd = interleaved ∧
      m.log = [(true, ()), (false, ()), (true, ())] ∧
      ∃ alone n, (system Counters).Run (.start0 fun v => cond v 0 5) alone n ∧
        (∀ p ∈ alone, Concerns true p.1 p.2) ∧ n.log = [(true, ()), (true, ())] ∧
        n.done (.var true) = .ok true ∧ n.result (.var true) = .ok (.ok (some 7)) := by
  have hreplay : ∃ m : Machine Counters, (system Counters).replay Disciplined (.start0 fun _ => 0)
      interleaved = some m ∧ m.log = [(true, ()), (false, ()), (true, ())] ∧
      m.done (.var true) = .ok true ∧ m.result (.var true) = .ok (.ok (some 7)) :=
    ⟨_, rfl, rfl, rfl, rfl⟩
  obtain ⟨m, hm, hlog, hdone, hresult⟩ := hreplay
  obtain ⟨steps, hrun, hlabels, hall⟩ := Transition.Run.of_replay hm
  have hallowed : ∀ p ∈ steps, counters.Allowed p.1 p.2 := fun p hp =>
    interleaved_allowed (hlabels ▸ List.mem_map_of_mem hp) (hall p hp)
  have hview : counters.view true (fun v => cond v 0 5) = counters.view true fun _ => 0 := rfl
  obtain ⟨alone, n, halone, hall', _, _, hlog', _, hdone', hresult', _⟩ :=
    independent counters hview hrun hallowed
  refine ⟨steps, m, hrun, hlabels, hlog, alone, n, halone, fun p hp => (hall' p hp).2, ?_,
    hdone'.trans hdone, hresult'.trans hresult⟩
  rw [hlog', hlog]
  rfl

end VixStandard.Task
