import VixStandard.Task.Running

/-!
# The discipline of resumption

`start()` and `await_suspend` look at the `done()` flag of one frame only, so
they can resume a coroutine that is itself suspended at a `co_await` of an
unfinished sub-task.  `Disciplined` excludes these steps and nothing else: every
resumption goes to the innermost suspended coroutine of a chain.

`Inv` is the invariant of disciplined runs: the frames are an ownership forest
and the links of `Linked` hold.  Its step lemma `step_ok` also says that a
disciplined step never leaves defined behaviour.

* The links are an instance of `Kept`, so that handle operations keep them.
* `exec_ok` and `drive_ok` add the transfers of control: `start()`, `co_await`,
  the return to the continuation, and what the driver resumes.
-/

namespace VixStandard.Task

open VixStandard.Lib VixStandard.Lib.Ownership Machine

variable {L : Lang}

/-- The coroutine whose handle is at `p` is not suspended at a `co_await`. -/
def Machine.NotAwaiting (m : Machine L) (p : Place L) : Prop :=
  ∀ c f, m.graph.holds p c → m.heap c = some f → f.point.isAwaiting = false

/-- What a statement of the running coroutine `a` resumes is not awaiting. -/
def Instr.Disciplined (m : Machine L) (a : Addr) :
    Instr L.Code L.Local L.Aw L.Val L.Exc L.Op L.Resp → Prop
  | .start x _ => m.NotAwaiting (.slot a (.inl x))
  | .await w _ => m.NotAwaiting (.slot a (.inr w))
  | _ => True

/-- The frame behind the handle at a place. -/
def Machine.frameAt (m : Machine L) : Place L → Option (Frame L)
  | .var v => (m.vars v).join.bind m.heap
  | .slot a s => ((m.heap a).bind fun f => f.slots s).bind m.heap

theorem Machine.frameAt_eq_some {m : Machine L} {p : Place L} {f : Frame L} :
    m.frameAt p = some f ↔ ∃ c, m.graph.holds p c ∧ m.heap c = some f := by
  cases p with
  | var v => simp [Machine.frameAt, Option.bind_eq_some_iff, Option.join_eq_some_iff]
  | slot a s => simp [Machine.frameAt, Option.bind_eq_some_iff]

theorem Machine.notAwaiting_iff {m : Machine L} {p : Place L} :
    (m.frameAt p).all (fun f => !f.point.isAwaiting) = true ↔ m.NotAwaiting p := by
  rw [Option.all_eq_true]
  constructor
  · intro h c f hc hf
    simpa using h f (Machine.frameAt_eq_some.mpr ⟨c, hc, hf⟩)
  · intro h f hf
    obtain ⟨c, hc, hcf⟩ := Machine.frameAt_eq_some.mp hf
    simpa using h c f hc hcf

instance (m : Machine L) (p : Place L) : Decidable (m.NotAwaiting p) :=
  decidable_of_iff _ Machine.notAwaiting_iff

instance (m : Machine L) (a : Addr) (i : Instr L.Code L.Local L.Aw L.Val L.Exc L.Op L.Resp) :
    Decidable (i.Disciplined m a) :=
  match i with
  | .start _ _ => inferInstanceAs (Decidable (m.NotAwaiting _))
  | .await _ _ => inferInstanceAs (Decidable (m.NotAwaiting _))
  | .effect _ _ | .suspend _ | .call _ _ _ _ _ | .move _ _ _ | .drop _ _ | .done _ _ | .result _ _
  | .coAwait _ _ _ | .moveAwaiter _ _ _ | .dropAwaiter _ _ | .coReturn _ _ | .throw _ => isTrue trivial

/-- The statement that the running coroutine executes next. -/
def Machine.current (m : Machine L) :
    Option (Addr × Instr L.Code L.Local L.Aw L.Val L.Exc L.Op L.Resp) :=
  match m.stack with
  | [] => none
  | a :: _ =>
    match m.heap a with
    | some f =>
      match f.point with
      | .running c => some (a, L.next c)
      | _ => none
    | none => none

theorem Machine.current_of_running {m : Machine L} {a : Addr} {rest : List Addr} {f : Frame L}
    {c : L.Code} (hst : m.stack = a :: rest) (hf : m.heap a = some f) (hpt : f.point = .running c) :
    m.current = some (a, L.next c) := by
  simp only [Machine.current, hst, hf, hpt]

theorem Machine.current_eq_some {m : Machine L}
    {p : Addr × Instr L.Code L.Local L.Aw L.Val L.Exc L.Op L.Resp} (hp : m.current = some p) :
    ∃ a rest f c, m.stack = a :: rest ∧ m.heap a = some f ∧ f.point = .running c ∧
      p = (a, L.next c) := by
  rw [Machine.current] at hp
  split at hp
  · cases hp
  · rename_i a rest hst
    split at hp
    · rename_i f hf
      split at hp
      · rename_i c hpt
        exact ⟨a, rest, f, c, hst, hf, hpt, (Option.some.inj hp).symm⟩
      · cases hp
    · cases hp

/-- Every resumption goes to a coroutine that is not suspended at a `co_await`. -/
def Disciplined (m : Machine L) : Label L → Prop
  | .drive (.start v) => m.NotAwaiting (.var v)
  | .drive _ => True
  | .exec => ∀ p ∈ m.current, p.2.Disciplined m p.1

instance (m : Machine L) (l : Label L) : Decidable (Disciplined m l) :=
  match l with
  | .drive (.start _) => inferInstanceAs (Decidable (m.NotAwaiting _))
  | .drive (.create _ _ _ _) | .drive (.defaultConstruct _) | .drive (.moveConstruct _ _)
  | .drive (.moveAssign _ _) | .drive (.destroy _) | .drive (.resume _) => isTrue trivial
  | .exec => inferInstanceAs (Decidable (∀ p ∈ m.current, p.2.Disciplined m p.1))

/-- The invariant of disciplined runs. -/
def Inv (m : Machine L) : Prop := ∃ rank, Owned rank m [] ∧ Linked m

theorem inv_start0 (mem : L.Mem) : Inv (.start0 mem) := by
  have hheap : ∀ x f, (Machine.start0 mem).heap x ≠ some f := by
    intro x f hf
    cases hf
  have hnone : ∀ (p : Place L) c, ¬ (Machine.start0 mem).graph.holds p c := by
    intro p c hc
    cases p with
    | var v => cases hc
    | slot a s =>
      obtain ⟨f, hf, _⟩ := hc
      exact hheap a f hf
  refine ⟨fun _ => 0, ⟨?_, ?_, List.nodup_nil, ?_⟩, ?_⟩
  · exact ⟨fun h => absurd h (hnone _ _), fun h => absurd h (hnone _ _),
      fun h => absurd h (hnone _ _), fun h => absurd h (hnone _ _),
      fun h => absurd h List.not_mem_nil, List.nodup_nil, fun h => absurd h List.not_mem_nil,
      fun ⟨f, hf⟩ => absurd hf (hheap _ f), fun h => absurd h (hnone _ _)⟩
  · exact fun ⟨f, hf⟩ => absurd hf (hheap _ f)
  · intro a
    simp [Machine.start0]
  · exact ⟨fun h => absurd h (hheap _ _), fun h => absurd h List.not_mem_nil, .nil,
      fun h => absurd h (hheap _ _), fun h => absurd h (hheap _ _),
      fun h => absurd h (hheap _ _), fun h => absurd h (hheap _ _)⟩

/-! ## Transfers of control -/

variable {rank : Addr → Nat} {a : Addr} {rest : List Addr} {m : Machine L}

/-- The resumer of a coroutine reaches it through its continuation. -/
theorem Linked.under_continuation {p : Addr} (hl : Linked m) (ho : Owned rank m [])
    (hst : m.stack = a :: rest) (hpa : Awaits m p a) : ∀ b ∈ rest.head?, Under m b p := by
  intro b hb
  have hnested := hl.nested
  rw [hst, List.isChain_cons] at hnested
  obtain ⟨s, d, hd, hchain⟩ := hnested.1 b hb
  cases hchain with
  | refl =>
    -- The resumer would be the continuation, which does not run.
    obtain ⟨v, hv⟩ := hpa.holds
    obtain ⟨fp, w, k, hfp, hppt, _⟩ := hpa
    obtain ⟨hbp, _⟩ := Place.slot.inj (ho.forest.unique hd hv)
    have hbmem : b ∈ m.stack := by
      rw [hst]
      exact List.mem_cons_of_mem _ (List.mem_of_mem_head? hb)
    have hbrun := (hl.running_iff (hbp ▸ hfp)).mpr hbmem
    rw [hppt] at hbrun
    cases hbrun
  | @tail y _ hdy hya =>
    obtain rfl : y = p := Awaits.unique ho hya hpa
    exact ⟨s, d, hd, hdy⟩

/-- Final suspension: the continuation runs in place of the completed coroutine,
or its resumer does. -/
theorem finalSuspend_linked {f : Frame L} (h : Ready Linked rank a rest [] m)
    (hf : m.heap a = some f) (hout : ∃ r, f.outcome = .ok r) :
    ∃ m', m.finalSuspend a rest = .ok m' ∧ Inv m' := by
  obtain ⟨f₀, c₀, hf₀, hpt⟩ := h.running
  obtain rfl : f = f₀ := Option.some.inj (hf.symm.trans hf₀)
  have hrun : f.point.isRunning = true := by
    rw [hpt]
    rfl
  let f₁ : Frame L := { f with point := .final }
  let m₁ : Machine L := { m.store a f₁ with stack := rest }
  have hheap₁ : m₁.heap = Function.update m.heap a (some f₁) := rfl
  have hf₁ : m₁.heap a = some f₁ := Function.update_self _ _ _
  have hsame : SameHandles m m₁ := sameHandles_replace hf hheap₁ rfl rfl rfl rfl
  have hpop := h.kept.pop h.owned h.stack hf hheap₁ rfl rfl rfl rfl
    fun _ => hout
  rw [finalSuspend_eq hf]
  cases hcont : f.promise.continuation with
  | none =>
    refine ⟨m₁, rfl, rank, h.owned.sameHandles hsame, hpop.mono ?_⟩
    rintro y (⟨_, hy⟩ | ⟨_, hy⟩)
    · cases hy
    · rw [hcont] at hy
      cases hy
  | some p =>
    have hpa := h.kept.continued hf (Point.not_final_of_running hrun) hcont
    have hne : p ≠ a := by
      rintro rfl
      have haw := hpa.isAwaiting hf
      rw [Point.not_awaiting_of_running hrun] at haw
      cases haw
    obtain ⟨fp, w, k, hfp, hppt, hs⟩ := hpa
    have hfp₁ : m₁.heap p = some fp := (Function.update_of_ne hne _ _).trans hfp
    refine ⟨{ m₁.store p { fp with point := .resumed w k } with stack := p :: rest }, ?_, rank,
      ?_, ?_⟩
    · exact resume_of_enter hfp₁ (by rw [hppt]; rfl)
    · refine (h.owned.sameHandles hsame).sameHandles ?_
      exact sameHandles_replace hfp₁ rfl rfl rfl rfl rfl
    · refine hpop.back ?_ hfp₁ hppt hs hf₁ rfl ?_ rfl rfl
      · rintro y (⟨_, hy⟩ | ⟨_, hy⟩)
        · cases hy
        · rw [hcont, Option.some.injEq] at hy
          exact hy.symm
      · exact fun b hb => under_replace hf hheap₁ rfl (Point.not_awaiting_of_running hrun)
          (h.kept.under_continuation h.owned h.stack ⟨fp, w, k, hfp, hppt, hs⟩ b hb)

/-- Between two steps the links are kept by all that moves handles only. -/
instance : Kept (Linked (L := L)) where
  running_iff h hf := h.running_iff hf
  stack_live h ha := h.stack_live ha
  rank_lt h ho hst := h.rank_lt ho hst
  outcome h hg hfin := h.outcome hg hfin
  quiet := by
    intro m m' T rank _ temps _ h ho ho' hq _ hT hlive
    refine h.quiet ho' hq (fun x f hx hf => ?_) (fun x hx hTx => ?_) fun x hx => ?_
    · rcases hT x f hx hf with ⟨_, c, _, hc⟩ | ⟨c, hc, _⟩
      · exact ⟨c, Or.inl hc⟩
      · exact ⟨c, Or.inr hc⟩
    · have hmem := List.mem_of_mem_tail hx
      obtain ⟨f, hf⟩ := h.stack_live hmem
      rcases hT x f hTx hf with ⟨rest, _, hst, _⟩ | ⟨c, hc, _⟩
      · rw [hst] at hx
        exact h.head_not_mem ho hst hx
      · have hrun := (h.running_iff hf).mpr hmem
        rw [hc] at hrun
        cases hrun
    · exact hlive x hx x (h.stack_live hx) (Nat.le_refl _)
  create h ho kind body := h.create ho.heap_next kind body
  congr h hheap hstack := h.congr hheap hstack
  stay := by
    intro m a f f' c h hf hrun hpt hslots hcont
    have hrun' : f'.point.isRunning = true := by rw [hpt]; rfl
    exact h.store hf rfl rfl hslots hcont (hrun'.trans hrun.symm)
      ((Point.not_final_of_running hrun').trans (Point.not_final_of_running hrun).symm)
      (Point.not_awaiting_of_running hrun) (Point.not_awaiting_of_running hrun')
      (fun hfin => by rw [hpt] at hfin; cases hfin) fun w k d hw => by rw [hpt] at hw; cases hw
  suspend := by
    intro m rank a rest f h hf k
    let m₁ : Machine L := { m.store a { f with point := .external k } with stack := rest }
    have hheap₁ : m₁.heap = Function.update m.heap a (some { f with point := .external k }) := rfl
    refine (h.kept.pop h.owned h.stack hf hheap₁ rfl rfl rfl rfl
      fun hfin => Bool.noConfusion hfin).mono ?_
    rintro y (⟨_, hy⟩ | ⟨hy, _⟩) <;> cases hy
  finalSuspend h hf hout _ := finalSuspend_linked h hf hout

/-- A coroutine that is neither running, awaiting nor completed runs its body. -/
theorem Point.enter_running {pt : Point L} (hrun : pt.isRunning = false)
    (hno : pt.isAwaiting = false) (hfin : pt.isFinal = false) :
    ∃ code, pt.enter = some (.running code) := by
  cases pt with
  | initial code => exact ⟨code, rfl⟩
  | external code => exact ⟨code, rfl⟩
  | awaiting w k => cases hno
  | running code => cases hrun
  | resumed w k => cases hrun
  | final => cases hfin

/-- What is not awaiting can be entered, if the running coroutine reaches it. -/
theorem Linked.entered {c : Addr} {g : Frame L} (hl : Linked m) (hg : m.heap c = some g)
    (hidle : g.point.isRunning = false) (hno : g.point.isAwaiting = false)
    (hfin : g.point.isFinal = false) (hunder : ∀ b ∈ m.stack.head?, Under m b c) :
    ∃ pt, g.point.enter = some pt ∧ Linked (m.entered c g pt) := by
  obtain ⟨code, hcode⟩ := Point.enter_running hidle hno hfin
  exact ⟨_, hcode, hl.enter hg hfin hno hidle hunder rfl rfl rfl rfl ⟨code, rfl⟩⟩

/-- `co_await` of an Awaiter. -/
theorem await_linked (h : Ready Linked rank a rest [] m) (w : L.Aw) (k : L.Outcome → L.Code)
    (hno : m.NotAwaiting (.slot a (.inr w))) :
    ∃ m', m.perform a rest (.await w k) = .ok m' ∧ Inv m' := by
  refine h.await w k (fun f hf hrun hfinal => ?_) fun f c g hf hslot hg hca hidle hfin => ?_
  · refine h.kept.store hf rfl rfl rfl rfl hrun.symm (Point.not_final_of_running hrun).symm
      (Point.not_awaiting_of_running hrun) rfl (fun hfin => Bool.noConfusion hfin) ?_
    intro v k' c hv hc
    obtain ⟨rfl, _⟩ := Point.resumed.inj hv
    exact hfinal c hc
  · have hnoc := hno c g (holds_slot hf hslot) hg
    obtain ⟨f', hf', hrun⟩ := h.head
    obtain rfl : f = f' := Option.some.inj (hf.symm.trans hf')
    -- The coroutine suspends, its child is linked to it, and the child runs.
    let f₁ : Frame L := { f with point := .awaiting w k }
    let m₁ : Machine L := { m.store a f₁ with stack := rest }
    let g₂ : Frame L := { g with promise := { g.promise with continuation := some a } }
    let m₂ : Machine L := m.waiting a rest f w k c g
    have hheap₁ : m₁.heap = Function.update m.heap a (some f₁) := rfl
    have hheap₂ : m₂.heap = Function.update m₁.heap c (some g₂) := rfl
    have hg₁ : m₁.heap c = some g := (Function.update_of_ne hca _ _).trans hg
    have hac : Awaits m₁ a c := ⟨f₁, w, k, Function.update_self _ _ _, rfl, hslot⟩
    have hpop := h.kept.pop h.owned h.stack hf hheap₁ rfl rfl rfl rfl
      fun hfin => Bool.noConfusion hfin
    have hlink : Linked m₂ := hpop.link
      (h.owned.sameHandles (sameHandles_replace hf hheap₁ rfl rfl rfl rfl))
      (fun y hy => hy.elim And.left fun hy => Bool.noConfusion hy.1) hac hg₁ hfin hnoc rfl rfl rfl
      rfl rfl
    refine hlink.entered (Function.update_self _ _ _) hidle hnoc hfin fun b hb => ?_
    have hnested := h.kept.nested
    rw [h.stack, List.isChain_cons] at hnested
    obtain ⟨s, d, hd, hchain⟩ := under_replace hf hheap₁ rfl
      (Point.not_awaiting_of_running hrun) (hnested.1 b hb)
    exact under_replace hg₁ hheap₂ rfl hnoc ⟨s, d, hd, hchain.tail hac⟩

/-- A coroutine past the suspension of a `co_await` receives the outcome of its
child. -/
theorem resumed_ok {f : Frame L} {w : L.Aw} {k : L.Outcome → L.Code} (ho : Owned rank m [])
    (hl : Linked m) (hf : m.heap a = some f) (hpt : f.point = .resumed w k) :
    ∃ m', (m.awaitResume (.slot a (.inr w)) >>= fun p => p.2.goto a (k p.1)) = .ok m' ∧
      Inv m' := by
  refine awaitResume_kept ho hl hf hpt fun c g hs hg => ?_
  obtain ⟨g', hg', hfin⟩ := hl.resumed hf hpt hs
  obtain rfl : g = g' := Option.some.inj (hg.symm.trans hg')
  obtain ⟨r, hr⟩ := hl.outcome hg hfin
  have hno : g.point.isAwaiting = false := by
    cases hgp : g.point <;> simp [hgp, Point.isFinal, Point.isAwaiting] at hfin ⊢
  refine ⟨r, hr, hl.store hg rfl rfl g.moveOut_slots g.moveOut_continuation
    (by rw [g.moveOut_point]) (by rw [g.moveOut_point]) hno (by rw [g.moveOut_point]; exact hno)
    (fun _ => moveOut_outcome hr) fun w' k' d hw => ?_⟩
  rw [g.moveOut_point] at hw
  rw [hw] at hfin
  cases hfin

/-- A disciplined step of the running coroutine succeeds and keeps the invariant. -/
theorem exec_ok (h : Inv m) (hd : Disciplined m .exec) : ∃ m', m.exec = .ok m' ∧ Inv m' := by
  obtain ⟨rank, ho, hl⟩ := h
  cases hst : m.stack with
  | nil => exact ⟨m, by rw [exec, hst], rank, ho, hl⟩
  | cons a rest =>
    obtain ⟨f, hf, ⟨c, hpt⟩ | ⟨w, k, hpt⟩⟩ := head_of_kept hl hst
    · have hdisc := hd _ (Machine.current_of_running hst hf hpt)
      rw [exec_of_running hst hf hpt]
      have hready : Ready Linked rank a rest [] m := ⟨ho, hl, hst, f, c, hf, hpt⟩
      refine hready.perform (L.next c) (fun x k hi d g hx hg hidle hfin => ?_) fun w k hi => ?_
      · rw [hi] at hdisc
        refine hl.entered hg hidle (hdisc d g hx hg) hfin fun b hb => ?_
        rw [hst, List.head?_cons, Option.mem_some_iff] at hb
        exact hb ▸ ⟨.inl x, d, hx, .refl⟩
      · rw [hi] at hdisc ⊢
        exact await_linked hready w k hdisc
    · rw [exec_of_resumed hst hf hpt]
      exact resumed_ok ho hl hf hpt

/-! ## One step of the driver -/

/-- A disciplined operation of the driver succeeds and keeps the invariant. -/
theorem drive_ok (h : Inv m) (hst : m.stack = []) {op : DriverOp L} (hen : op.Enabled m)
    (hd : Disciplined m (.drive op)) : ∃ m', m.drive op = .ok m' ∧ Inv m' := by
  obtain ⟨rank, ho, hl⟩ := h
  refine drive_kept ho hl hst hen fun c g hop hg hidle hfin => ?_
  refine hl.entered hg hidle ?_ hfin fun b hb => ?_
  · rcases hop with ⟨v, rfl, hc⟩ | ⟨_, k, hk⟩
    · exact hd c g hc hg
    · rw [hk]
      rfl
  · rw [hst] at hb
    cases hb

/-- A disciplined step never leaves defined behaviour and keeps the invariant. -/
theorem step_ok (h : Inv m) {l : Label L} (hen : l.Enabled m) (hd : Disciplined m l) :
    ∃ m', m.step l = .ok m' ∧ Inv m' := by
  cases l with
  | drive op => exact drive_ok h hen.1 hen.2 hd
  | exec => exact exec_ok h hd

/-- The states of disciplined runs satisfy the invariant. -/
theorem inv_of_reach (h : (system L).Reach Disciplined m) : Inv m := by
  refine h.invariant ?_ ?_
  · rintro s ⟨mem, rfl⟩
    exact inv_start0 mem
  · intro s l s' hs hen hd hok
    obtain ⟨s'', hok', hinv⟩ := step_ok hs hen hd
    obtain rfl : s'' = s' := Except.ok.inj (hok'.symm.trans hok)
    exact hinv

end VixStandard.Task
