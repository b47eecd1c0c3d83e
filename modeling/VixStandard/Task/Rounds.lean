import VixStandard.Task.Lockstep

/-!
# Driving a Task to completion

`Resumes` is one resumption of a Task as its driver makes it: it resumes the
innermost suspended coroutine of the chain, by `start()` if that is the Task's
own and by its handle otherwise, and waits until no coroutine runs.  `Rounds`
repeats it.

A round takes the machine from one stop of the resumption to the next
(`Matches.resumes`).  With the direct-style meaning of `finish_denote` this gives
the main result `refines_direct`: a Task that is resumed again and again does
what its body does in direct style, and is done after one more round than there
are suspensions.
-/

namespace VixStandard.Task

open VixStandard.Lib Machine

/-! ## Rounds -/

section Rounds

variable {L : Lang}

/-- The running coroutines go on until none runs. -/
inductive Settles : Machine L → Machine L → Prop where
  | idle {m : Machine L} (hst : m.stack = []) : Settles m m
  | exec {m m₁ m' : Machine L} (hst : m.stack ≠ []) (hok : m.exec = .ok m₁)
      (hrest : Settles m₁ m') : Settles m m'

/-- How the driver resumes the coroutine `a` in the chain of the Task `v` with the
coroutine `r`. -/
def resumption (v : L.Var) (r a : Addr) : DriverOp L :=
  if a = r then .start v else .resume a

/-- One resumption of the Task `v`. -/
def Resumes (v : L.Var) (m m' : Machine L) : Prop :=
  ∃ r a m₁, m.vars v = some (some r) ∧ Innermost m r a ∧
    (Label.drive (resumption v r a)).Enabled m ∧ m.step (.drive (resumption v r a)) = .ok m₁ ∧
    Settles m₁ m'

/-- A number of resumptions of the Task `v`. -/
inductive Rounds (v : L.Var) : Nat → Machine L → Machine L → Prop where
  | zero (m : Machine L) : Rounds v 0 m m
  | succ {k : Nat} {m m₁ m' : Machine L} (hfirst : Resumes v m m₁) (hrest : Rounds v k m₁ m') :
      Rounds v (k + 1) m m'

variable {m m₁ m₂ : Machine L} {v : L.Var}

theorem Settles.unique (h₁ : Settles m m₁) (h₂ : Settles m m₂) : m₁ = m₂ := by
  induction h₁ with
  | idle hst =>
    cases h₂ with
    | idle _ => rfl
    | exec hne _ _ => exact absurd hst hne
  | exec hne hok _ ih =>
    cases h₂ with
    | idle hst => exact absurd hst hne
    | exec _ hok' hrest => exact ih (Except.ok.inj (hok'.symm.trans hok) ▸ hrest)

theorem Resumes.unique (h₁ : Resumes v m m₁) (h₂ : Resumes v m m₂) : m₁ = m₂ := by
  obtain ⟨r, a, n₁, hr, ha, _, hok₁, hs₁⟩ := h₁
  obtain ⟨r', b, n₂, hr', hb, _, hok₂, hs₂⟩ := h₂
  obtain rfl : r = r' := Option.some.inj (Option.some.inj (hr.symm.trans hr'))
  obtain rfl := ha.unique hb
  obtain rfl : n₁ = n₂ := Except.ok.inj (hok₁.symm.trans hok₂)
  exact hs₁.unique hs₂

theorem Rounds.unique {k : Nat} (h₁ : Rounds v k m m₁) (h₂ : Rounds v k m m₂) : m₁ = m₂ := by
  induction h₁ with
  | zero m =>
    cases h₂
    rfl
  | succ hfirst _ ih =>
    cases h₂ with
    | succ hfirst' hrest' => exact ih (hfirst'.unique hfirst ▸ hrest')

end Rounds

/-! ## A round and the resumption -/

variable {V : Type} [DecidableEq V] {n : Nat} {Val Exc Op Resp Mem : Type}
  {act : Op → Mem → Resp × Mem} {moved : Val → Val}

/-- Between two rounds, the Task `v` stands where its resumption stopped. -/
structure Matches (m : Machine (program V n Exc act moved)) (v : V)
    (s : Resumption.Stop Op Resp Mem (Outcome Val Exc)) : Prop where
  inv : Inv m
  idle : m.stack = []
  mem : m.mem = s.mem
  log : m.log = s.log
  rest : match s.rest with
    | .inl o => Ends m v o
    | .inr t => Stops m v t

variable {m : Machine (program V n Exc act moved)} {v : V}

/-- The coroutines that run in a round stop where the resumption stops. -/
theorem Goes.settles {t : Resumption Op Resp (Outcome Val Exc)} (h : Inv m) (hgoes : Goes m v t) :
    ∃ m', Settles m m' ∧ Matches m' v (t.advance act m.mem m.log) := by
  have hrun : ∀ {m : Machine (program V n Exc act moved)} {t}, Runs m v t → m.stack ≠ [] := by
    intro m t hruns hst
    obtain ⟨a, st, hst', _⟩ := hruns
    rw [hst] at hst'
    cases hst'
  induction t generalizing m with
  | done o =>
    rcases hgoes with hruns | ⟨o', ho, hst, hends⟩
    · obtain ⟨m', _, _, hfalse⟩ := exec_follows h hruns
      exact hfalse.elim
    · obtain rfl := Resumption.done.inj ho
      exact ⟨m, .idle hst, h, hst, rfl, rfl, hends⟩
  | tau t ih =>
    rcases hgoes with hruns | ⟨o, ho, _⟩
    · obtain ⟨m₁, hok, hinv, hmem, hlog, hgoes⟩ := exec_follows h hruns
      obtain ⟨m', hsettles, hmatch⟩ := ih hinv hgoes
      rw [hmem, hlog] at hmatch
      exact ⟨m', .exec (hrun hruns) hok hsettles, hmatch⟩
    · cases ho
  | effect op k ih =>
    rcases hgoes with hruns | ⟨o, ho, _⟩
    · obtain ⟨m₁, hok, hinv, hmem, hlog, hgoes⟩ := exec_follows h hruns
      obtain ⟨m', hsettles, hmatch⟩ := ih _ hinv hgoes
      rw [hmem, hlog] at hmatch
      exact ⟨m', .exec (hrun hruns) hok hsettles, hmatch⟩
    · cases ho
  | suspend t ih =>
    rcases hgoes with hruns | ⟨o, ho, _⟩
    · obtain ⟨m₁, hok, hinv, hmem, hlog, hst, hstops⟩ := exec_follows h hruns
      exact ⟨m₁, .exec (hrun hruns) hok (.idle hst), hinv, hst, hmem, hlog, hstops⟩
    · cases ho

/-- The frames above a suspended coroutine are awaiting, up to the Task. -/
theorem Waits.awaits {s : Bool} {a : Addr} {f : Frame (program V n Exc act moved)}
    {cont : Option Addr} {K : Outcome Val Exc → Resumption Op Resp (Outcome Val Exc)}
    {st : List Addr} (h : Waits m v s a cont K st) (hst : st = []) (hf : m.heap a = some f)
    (hfin : f.point.isFinal = false) : ∃ r g, m.vars v = some (some r) ∧ m.heap r = some g ∧
      g.point.isFinal = false ∧ Relation.ReflTransGen (Awaits m) r a := by
  induction h generalizing f with
  | root hv => exact ⟨_, f, hv, hf, hfin, .refl⟩
  | awaited k _ hp _ _ hpt hw _ _ ih =>
    obtain ⟨r, g, hr, hg, hgfin, hchain⟩ := ih hst hp (by rw [hpt]; rfl)
    exact ⟨r, g, hr, hg, hgfin, hchain.tail ⟨_, (), _, hp, hpt, hw⟩⟩
  | started => cases hst

/-- What a driver sees of a Task that is suspended. -/
theorem Stops.pending {t : Resumption Op Resp (Outcome Val Exc)} (h : Stops m v t) :
    m.done (.var v) = .ok false ∧ m.result (.var v) = .ok (.error .notCompleted) := by
  obtain ⟨a, f, hchain, hf, hpt⟩ := h
  cases hchain with
  | @mk _ f' _ _ _ _ _ hf' _ _ _ _ _ hwaits =>
    have hfin : f.point.isFinal = false := by
      rcases hpt with ⟨c, hpt⟩ | ⟨⟨c, hpt⟩, _⟩ <;> rw [hpt] <;> rfl
    obtain ⟨r, g, hr, hg, hgfin, _⟩ := hwaits.awaits rfl hf hfin
    have hread : m.read (.var v) = .ok (some r) :=
      congrArg Except.ok (Option.join_eq_some_iff.mpr hr)
    rw [done_of_some hread hg, result_of_some hread hg, hgfin]
    exact ⟨rfl, rfl⟩

/-- What a driver sees of a Task that has completed, which `start()` leaves alone. -/
theorem Ends.completed {o : Outcome Val Exc} (h : Ends m v o) :
    m.done (.var v) = .ok true ∧ m.result (.var v) = .ok o ∧ m.drive (.start v) = .ok m := by
  obtain ⟨r, hr, hheld⟩ := h
  cases hheld with
  | @completed _ g _ hg hpt hout _ =>
    have hread : m.read (.var v) = .ok (some r) :=
      congrArg Except.ok (Option.join_eq_some_iff.mpr hr)
    have hfin : g.point.isFinal = true := by rw [hpt]; rfl
    rw [done_of_some hread hg, result_of_some hread hg, drive_start hread hg, hfin]
    exact ⟨rfl, hout, rfl⟩

/-- The innermost suspended coroutine of a Task is resumed and goes on. -/
theorem Stops.enter {t : Resumption Op Resp (Outcome Val Exc)} (h : Stops m v t) (hinv : Inv m)
    (hst : m.stack = []) : ∃ r a m₁, m.vars v = some (some r) ∧ Innermost m r a ∧
      (Label.drive (resumption v r a)).Enabled m ∧ m.drive (resumption v r a) = .ok m₁ ∧
      Inv m₁ ∧ Goes m₁ v t ∧ m₁.mem = m.mem ∧ m₁.log = m.log := by
  obtain ⟨a, f, hchain, hf, hpt⟩ := h
  cases hchain with
  | @mk s f' E H cont K t hf' hexc hcont hE hH hat hwaits =>
    obtain rfl : f = f' := Option.some.inj (hf.symm.trans hf')
    have hfin : f.point.isFinal = false := by
      rcases hpt with ⟨c, hpt⟩ | ⟨⟨c, hpt⟩, _⟩ <;> rw [hpt] <;> rfl
    have hno : f.point.isAwaiting = false := by
      rcases hpt with ⟨c, hpt⟩ | ⟨⟨c, hpt⟩, _⟩ <;> rw [hpt] <;> rfl
    obtain ⟨r, _, hr, _, _, hraw⟩ := hwaits.awaits rfl hf hfin
    have hin : Innermost m r a := ⟨hraw, f, hf, hno⟩
    have hen : (resumption v r a : DriverOp (program V n Exc act moved)).Enabled m := by
      unfold resumption
      split
      · exact fun hnone => by simp [hr] at hnone
      · rename_i har
        rcases hpt with ⟨c, hpt⟩ | ⟨_, hv⟩
        · exact ⟨f, c, hf, hpt⟩
        · exact absurd (Option.some.inj (Option.some.inj (hv.symm.trans hr))) har
    have hdisc : Disciplined m (.drive (resumption v r a)) := by
      unfold resumption
      split
      · rename_i har
        intro c g hc hg
        obtain rfl : r = c := Option.some.inj (Option.some.inj (hr.symm.trans hc))
        obtain rfl : f = g := Option.some.inj (hf.symm.trans (har ▸ hg))
        exact hno
      · trivial
    obtain ⟨m₁, hok, hinv₁⟩ := drive_ok hinv hst hen hdisc
    -- The machine in which `a` runs, by `start()` or by its handle.
    obtain ⟨b, henter, rfl, ht⟩ : ∃ b : Body n Val Exc Op Resp s,
        f.point.enter = some (.running (.body b)) ∧ H = .empty ∧ t = denote f.kind b E := by
      cases hat with
      | initial b hpt hH => exact ⟨b, by rw [hpt]; rfl, hH, rfl⟩
      | external b hpt hH => exact ⟨b, by rw [hpt]; rfl, hH, rfl⟩
      | _ => rcases hpt with ⟨c, hpt⟩ | ⟨⟨c, hpt⟩, _⟩ <;> simp_all
    let f₁ : Frame (program V n Exc act moved) := { f with point := .running (.body b) }
    let m₂ : Machine (program V n Exc act moved) := { m.store a f₁ with stack := a :: m.stack }
    have hresume : m.resume a = .ok m₂ := resume_of_enter hf henter
    have hdrive : m.drive (resumption v r a) = .ok m₂ := by
      unfold resumption
      split
      · rename_i har
        have hread : m.read (.var v) = .ok (some a) :=
          congrArg Except.ok (Option.join_eq_some_iff.mpr (har ▸ hr))
        rw [drive_start hread hf, hfin, if_neg Bool.false_ne_true]
        exact hresume
      · exact hresume
    obtain rfl : m₁ = m₂ := Except.ok.inj (hok.symm.trans hdrive)
    obtain ⟨rank, ho, hl⟩ := hinv
    refine ⟨r, a, m₂, hr, hin, ⟨hst, hen⟩, hdrive, hinv₁, Or.inl ⟨a, [], ?_, ?_⟩, rfl, rfl⟩
    · exact congrArg (a :: ·) hst
    · have hkeep : ∀ {x}, x ≠ a → m₂.heap x = m.heap x := fun hxa => Function.update_of_ne hxa _ _
      have hslot : ∀ {y : Slot (program V n Exc act moved)} {C : Content Val Exc Op Resp},
          Holds m s (f.slots y) C → Holds m₂ s (f.slots y) C := by
        intro y C hy
        refine hy.frame fun c g hc hg => (hkeep fun hca => ?_).trans hg
        exact slot_ne_owner ho hf (hca ▸ hc)
      rw [ht]
      refine .mk (Function.update_self _ _ _) hexc hcont (fun y => hslot (hE y)) (hslot hH)
        (.body (f := f₁) b rfl rfl) (hwaits.frame ho rfl fun x g hg hnb => ?_)
      exact (hkeep fun hxa => hnb (hxa ▸ .self)).trans hg

/-- A round takes the machine to the next stop. -/
theorem Matches.resumes {s : Resumption.Stop Op Resp Mem (Outcome Val Exc)}
    (h : Matches m v s) : ∃ m', Resumes v m m' ∧ Matches m' v (s.resume act) := by
  obtain ⟨hinv, hst, hmem, hlog, hrest⟩ := h
  obtain ⟨rest, mem, log⟩ := s
  cases rest with
  | inl o =>
    have hends : Ends m v o := hrest
    obtain ⟨_, _, hstart⟩ := hends.completed
    obtain ⟨r, hr, hheld⟩ := hends
    cases hheld with
    | @completed _ g _ hg hpt _ _ =>
      have hin : Innermost m r r := ⟨.refl, g, hg, by rw [hpt]; rfl⟩
      have hself : (resumption v r r : DriverOp (program V n Exc act moved)) = .start v := if_pos rfl
      have hen : (DriverOp.start v : DriverOp (program V n Exc act moved)).Enabled m :=
        fun hnone => by simp [hr] at hnone
      refine ⟨m, ⟨r, r, m, hr, hin, ?_, ?_, .idle hst⟩, hinv, hst, hmem, hlog, hrest⟩
      · rw [hself]
        exact ⟨hst, hen⟩
      · rw [hself]
        exact hstart
  | inr t =>
    have hstops : Stops m v t := hrest
    obtain ⟨r, a, m₁, hr, hin, hen, hok, hinv₁, hgoes, hmem₁, hlog₁⟩ := hstops.enter hinv hst
    obtain ⟨m', hsettles, hmatch⟩ := hgoes.settles hinv₁
    rw [hmem₁, hlog₁, hmem, hlog] at hmatch
    exact ⟨m', ⟨r, a, m₁, hr, hin, hen, hok, hsettles⟩, hmatch⟩

theorem Matches.rounds {s : Resumption.Stop Op Resp Mem (Outcome Val Exc)} (h : Matches m v s)
    (k : Nat) : ∃ m', Rounds v k m m' ∧ Matches m' v (Resumption.Stop.resumes act k s) := by
  induction k generalizing m s with
  | zero => exact ⟨m, .zero m, h⟩
  | succ k ih =>
    obtain ⟨m₁, hfirst, h₁⟩ := h.resumes
    obtain ⟨m', hrest, h'⟩ := ih h₁
    exact ⟨m', .succ hfirst hrest, h'⟩

/-- A Task that was just created stands at the beginning of its body. -/
theorem create_matches {s : Bool} (h : Inv m) (hst : m.stack = []) (hv : m.vars v = none)
    (kind : Kind) (b : Body n Val Exc Op Resp s) :
    ∃ m₀, m.drive (.create v kind (.body b) []) = .ok m₀ ∧
      Matches m₀ v ⟨.inr (denote kind b fun _ => .empty), m.mem, m.log⟩ := by
  have hen : (DriverOp.create v kind (.body b) [] : DriverOp (program V n Exc act moved)).Enabled m :=
    ⟨hv, fun p hp => absurd hp List.not_mem_nil⟩
  obtain ⟨m₀, hok, hinv⟩ := drive_ok h hst hen trivial
  obtain rfl := Except.ok.inj hok
  refine ⟨_, hok, hinv, hst, rfl, rfl, m.next, _, ?_, Function.update_self _ _ _,
    Or.inr ⟨⟨_, rfl⟩, Function.update_self _ _ _⟩⟩
  rw [← Resumption.bind_done (denote kind b fun _ => .empty)]
  exact .mk (Function.update_self _ _ _) rfl rfl (fun _ => .empty) .empty (.initial b rfl rfl)
    (.root (Function.update_self _ _ _))

/-- A Task does what its body does in direct style.  Nothing runs before the first
`start()`.  A round is possible in every state and has one outcome.  Up to as many
rounds as there are suspensions the Task is not done and `result()` throws; after
that it is done, `result()` gives the outcome of the body, `start()` changes
nothing, and the side effects are those of the body in the same order. -/
theorem refines_direct (h : (system (program V n Exc act moved)).Reach Disciplined m)
    (hst : m.stack = []) (hv : m.vars v = none) {s : Bool} (kind : Kind)
    (b : Body n Val Exc Op Resp s) :
    ∃ m₀, m.step (.drive (.create v kind (.body b) [])) = .ok m₀ ∧
      m₀.stack = [] ∧ m₀.mem = m.mem ∧ m₀.log = m.log ∧
      ∀ k, ∃ m', Rounds v k m₀ m' ∧ (∀ m'', Rounds v k m₀ m'' → m'' = m') ∧
        let d := direct act kind b (fun _ => .empty) m.mem
        (k ≤ d.suspensions →
          m'.done (.var v) = .ok false ∧ m'.result (.var v) = .ok (.error .notCompleted)) ∧
        (d.suspensions < k →
          m'.done (.var v) = .ok true ∧ m'.result (.var v) = .ok d.value ∧
            m'.step (.drive (.start v)) = .ok m' ∧ m'.mem = d.mem ∧ m'.log = m.log ++ d.effects) := by
  obtain ⟨m₀, hok, hmatch⟩ := create_matches (inv_of_reach h) hst hv kind b
  refine ⟨m₀, hok, hmatch.idle, hmatch.mem, hmatch.log, fun k => ?_⟩
  obtain ⟨m', hrounds, hinv, _, hmem, hlog, hrest⟩ := hmatch.rounds k
  have hd : (denote kind b fun _ => .empty).finish act m.mem =
      direct act kind b (fun _ => .empty) m.mem := finish_denote kind b _ m.mem
  refine ⟨m', hrounds, fun m'' hrounds' => hrounds'.unique hrounds, ?_, ?_⟩
  · intro hk
    rw [← hd] at hk
    obtain ⟨t, ht⟩ := Resumption.resumes_lt_finish act _ m.mem m.log hk
    rw [ht] at hrest
    exact Stops.pending hrest
  · intro hk
    rw [← hd] at hk
    rw [Resumption.resumes_finish act _ m.mem m.log hk, hd] at hmem hlog hrest
    obtain ⟨hdone, hresult, hstart⟩ := Ends.completed hrest
    exact ⟨hdone, hresult, hstart, hmem, hlog⟩

/-- A Task that awaits a sub-task which suspends once is done after two rounds. -/
theorem refines_direct_awaitValue :
    ∃ m₀ m' : Machine Plain, (Machine.start0 () : Machine Plain).step
        (.drive (.create () .value (.body (awaitValue .void)) [])) = .ok m₀ ∧
      Rounds () 2 m₀ m' ∧ m'.result (.var ()) = .ok (.ok (some 2)) := by
  obtain ⟨m₀, hok, _, _, _, hrounds⟩ :=
    refines_direct (v := ()) (.init ⟨(), rfl⟩ : (system Plain).Reach Disciplined (.start0 ()))
      rfl rfl .value (awaitValue .void)
  obtain ⟨m', hm', _, _, hdone⟩ := hrounds 2
  exact ⟨m₀, m', hok, hm', (hdone (Nat.lt_succ_self 1)).2.1⟩

end VixStandard.Task
