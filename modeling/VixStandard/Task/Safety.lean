import VixStandard.Task.Lifecycle

/-!
# What can go wrong in a run

A run need not be disciplined: a `start()` or a `co_await` may resume a coroutine past the
child that it waits for.  `Sound` is what still holds in every state.

* The frames form an ownership forest.
* The running coroutines are those on the stack, and each one was started by those below
  it (`Started`): they own it through a Task variable, directly or indirectly.
* A continuation is the coroutine whose Awaiter owns the frame.  A completed coroutine has
  no Awaiter any more, so no continuation is completed, and by the order of the stack none
  is running (`Stacked.continuation_suspended`).

Hence no step meets a destroyed frame or one that is not suspended.  What is left is the
value of an unfinished child (`step_error_iff`).  Nor is a frame lost (`run_memory`).

All this is about Tasks in variables: those of the driver, and the parameters, locals and
Awaiters of bodies.  Tasks are made by calls, moved from variable to variable, started and
destroyed, their results are read, assigned to and moved out, and suspended leaves are resumed.
No Task is kept in the result of another one, so that `head = std::move(head.result().next)`
and `head.result().next = std::move(head)` are not among the steps.

* `Stacked.replace` and `Stacked.quiet` are the two ways in which a state changes, and they
  make the invariant an instance of `Kept`.
* `exec_sound` and `drive_sound` add the transfers of control.
-/

namespace VixStandard.Task

open VixStandard.Lib VixStandard.Lib.Ownership Machine

variable {L : Lang}

/-- `b` owns, in a Task variable, `a` or a coroutine that `a` is below. -/
def Started (m : Machine L) (b a : Addr) : Prop :=
  ∃ x d, m.graph.holds (.slot b (.inl x)) d ∧ Below Place.home m.graph d a

/-- What holds of the points, the stack and the continuations in every run. -/
structure Stacked (m : Machine L) : Prop where
  running_iff : ∀ {a f}, m.heap a = some f → (f.point.isRunning = true ↔ a ∈ m.stack)
  stack_live : ∀ {a}, a ∈ m.stack → m.graph.live a
  nested : m.stack.Pairwise fun a b => Started m b a
  continued : ∀ {c g p}, m.heap c = some g → g.promise.continuation = some p →
    ∃ w, m.graph.holds (.slot p (.inr w)) c
  outcome : ∀ {c g}, m.heap c = some g → g.point.isFinal = true → ∃ r, g.outcome = .ok r
  /-- The scope of a completed body has ended. -/
  left : ∀ {c g}, m.heap c = some g → g.point.isFinal = true → ∀ s, s.scoped = true →
    g.slots s = none

/-- The invariant of all runs. -/
def Sound (m : Machine L) : Prop := ∃ rank, Owned rank m [] ∧ Stacked m

variable {rank : Addr → Nat} {temps temps' : List Addr} {m m' : Machine L} {a b c : Addr}
  {rest : List Addr}

/-! ## Who started whom -/

theorem Started.rank_lt (ho : Owned rank m temps) (h : Started m b a) : rank b < rank a := by
  obtain ⟨x, d, hd, hb⟩ := h
  exact Nat.lt_of_lt_of_le (ho.forest.ranked hd rfl) (ho.forest.rank_le_of_below hb)

/-- What `a` owns was started as well. -/
theorem Started.held {s : Slot L} (h : Started m b a) (hc : m.graph.holds (.slot a s) c) :
    Started m b c := by
  obtain ⟨x, d, hd, hb⟩ := h
  exact ⟨x, d, hd, .held hb rfl hc⟩

theorem Started.trans (h : Started m b a) (h' : Started m a c) : Started m b c := by
  obtain ⟨x, d, hd, hb⟩ := h
  obtain ⟨y, e, he, hb'⟩ := h'
  exact ⟨x, d, hd, (Below.held hb rfl he).trans hb'⟩

/-- The coroutine whose Awaiter owns `a` was started too, for no Task variable owns `a`. -/
theorem Started.awaiter {p : Addr} {w : L.Aw} (ho : Owned rank m temps) (h : Started m b a)
    (hp : m.graph.holds (.slot p (.inr w)) a) : Started m b p := by
  obtain ⟨x, d, hd, hb⟩ := h
  cases hb with
  | self =>
    have hplace := ho.forest.unique hd hp
    simp at hplace
  | @held q y _ hy hq hqa =>
    obtain rfl := ho.forest.unique hqa hp
    obtain rfl : p = y := Option.some.inj hq
    exact ⟨x, d, hd, hy⟩

theorem Started.sameHandles (hs : SameHandles m m') (h : Started m b a) : Started m' b a := by
  obtain ⟨x, d, hd, hb⟩ := h
  exact ⟨x, d, (hs.holds _ _).mpr hd, hb.mono fun q e he => (hs.holds q e).mpr he⟩

/-- Operations on variables of coroutines that rank at or above `a` keep the frames that
lead to `a`. -/
theorem below_quiet {T : Addr → Prop} {d : Addr} (ho : Owned rank m temps) (hq : Quiet T m m')
    (hT : ∀ x, T x → m.graph.live x → rank a ≤ rank x)
    (hlive : ∀ x, m.graph.live x → rank x ≤ rank a → m'.graph.live x)
    (hb : Below Place.home m.graph d c) (hle : rank c ≤ rank a) :
    Below Place.home m'.graph d c := by
  induction hb with
  | self => exact .self
  | @held q y z _ hq' hz ih =>
    cases q with
    | var v => cases hq'
    | slot x s =>
      obtain rfl : x = y := Option.some.inj hq'
      have hlt := ho.forest.ranked hz rfl
      have hx := ho.forest.home_live hz rfl
      refine .held (ih (by omega)) rfl ((hq.holds_iff ?_ (hlive x hx (by omega)) s z).mpr hz)
      intro hTx
      have := hT x hTx hx
      omega

theorem Started.quiet {T : Addr → Prop} (ho : Owned rank m temps) (hq : Quiet T m m')
    (hT : ∀ x, T x → m.graph.live x → rank a ≤ rank x)
    (hlive : ∀ x, m.graph.live x → rank x ≤ rank a → m'.graph.live x) (h : Started m b c)
    (hle : rank c ≤ rank a) : Started m' b c := by
  have hlt := h.rank_lt ho
  obtain ⟨x, d, hd, hb⟩ := h
  have hblive := ho.forest.home_live hd rfl
  refine ⟨x, d, (hq.holds_iff (fun hTb => ?_) (hlive b hblive (by omega)) _ d).mpr hd,
    below_quiet ho hq hT hlive hb hle⟩
  have := hT b hTb hblive
  omega

/-! ## One frame changes -/

/-- The frame `a` gets another point or promise, and the stack follows. -/
theorem Stacked.replace {f f' : Frame L} (h : Stacked m) (hf : m.heap a = some f)
    (hheap : m'.heap = Function.update m.heap a (some f')) (hslots : f'.slots = f.slots)
    (hs : SameHandles m m')
    (hstack : ∀ x, x ∈ m'.stack ↔ if x = a then f'.point.isRunning = true else x ∈ m.stack)
    (hnested : m'.stack.Pairwise fun a b => Started m b a)
    (hcont : ∀ p, f'.promise.continuation = some p →
      ∃ w, m.graph.holds (.slot p (.inr w)) a)
    (hout : f'.point.isFinal = true → ∃ r, f'.outcome = .ok r)
    (hleft : f'.point.isFinal = true → ∀ s, s.scoped = true → f.slots s = none) :
    Stacked m' := by
  refine ⟨fun {x g} hg => ?_, fun {x} hx => ?_, ?_, fun {c g p} hg hp => ?_, fun {c g} hg hfin => ?_,
    fun {c g} hg hfin => ?_⟩
  · rw [hstack]
    rcases heap_cases hheap hg with ⟨rfl, rfl⟩ | ⟨hne, hg⟩
    · rw [if_pos rfl]
    · rw [if_neg hne]
      exact h.running_iff hg
  · by_cases hxa : x = a
    · exact ⟨f', hxa ▸ heap_self hheap⟩
    · obtain ⟨g, hg⟩ := h.stack_live (by simpa [hxa] using (hstack x).mp hx)
      exact ⟨g, (heap_of_ne hheap hxa).trans hg⟩
  · exact hnested.imp fun hab => hab.sameHandles hs
  · simp only [hs.holds]
    rcases heap_cases hheap hg with ⟨rfl, rfl⟩ | ⟨_, hg⟩
    · exact hcont p hp
    · exact h.continued hg hp
  · rcases heap_cases hheap hg with ⟨rfl, rfl⟩ | ⟨_, hg⟩
    · exact hout hfin
    · exact h.outcome hg hfin
  · rcases heap_cases hheap hg with ⟨rfl, rfl⟩ | ⟨_, hg⟩
    · rw [hslots]
      exact hleft hfin
    · exact h.left hg hfin

/-- The frame of a running coroutine changes, and the coroutine goes on running. -/
theorem Stacked.stay {f f' : Frame L} (h : Stacked m) (hf : m.heap a = some f)
    (hrun : f.point.isRunning = true) (hrun' : f'.point.isRunning = true)
    (hslots : f'.slots = f.slots) (hcont : f'.promise.continuation = f.promise.continuation) :
    Stacked (m.store a f') := by
  have hno : f'.point.isFinal ≠ true := by simp [Point.not_final_of_running hrun']
  refine h.replace hf rfl hslots (sameHandles_replace hf rfl hslots rfl rfl rfl) (fun x => ?_)
    h.nested (fun p hp => h.continued hf (hcont ▸ hp)) (fun hfin => absurd hfin hno)
    fun hfin => absurd hfin hno
  by_cases hx : x = a
  · subst hx
    rw [if_pos rfl]
    exact iff_of_true ((h.running_iff hf).mp hrun) hrun'
  · rw [if_neg hx]
    rfl

/-- The promise of a suspended or completed coroutine changes. -/
theorem Stacked.promise {f f' : Frame L} (h : Stacked m) (hf : m.heap a = some f)
    (hpoint : f'.point = f.point) (hslots : f'.slots = f.slots)
    (hcont : ∀ p, f'.promise.continuation = some p → ∃ w, m.graph.holds (.slot p (.inr w)) a)
    (hout : f'.point.isFinal = true → ∃ r, f'.outcome = .ok r) : Stacked (m.store a f') := by
  refine h.replace hf rfl hslots (sameHandles_replace hf rfl hslots rfl rfl rfl) (fun x => ?_)
    h.nested hcont hout fun hfin => h.left hf (hpoint ▸ hfin)
  by_cases hx : x = a
  · subst hx
    rw [if_pos rfl, hpoint]
    exact (h.running_iff hf).symm
  · rw [if_neg hx]
    rfl

/-- A suspended coroutine is resumed that all running ones started. -/
theorem Stacked.enter {g : Frame L} {pt : Point L} (h : Stacked m) (hg : m.heap c = some g)
    (hpt : g.point.enter = some pt) (hstarted : ∀ b ∈ m.stack, Started m b c) :
    Stacked { m.store c { g with point := pt } with stack := c :: m.stack } := by
  have hrun := Point.running_of_enter hpt
  have hno : pt.isFinal ≠ true := by simp [Point.not_final_of_running hrun]
  refine h.replace hg rfl rfl (sameHandles_replace hg rfl rfl rfl rfl rfl) (fun x => ?_)
    (List.pairwise_cons.mpr ⟨hstarted, h.nested⟩) (fun p hp => h.continued hg hp)
    (fun hfin => absurd hfin hno) fun hfin => absurd hfin hno
  by_cases hx : x = c
  · simp [hx, hrun]
  · simp [hx]

/-- The running coroutines below the head started it. -/
theorem Stacked.started (h : Stacked m) (hst : m.stack = a :: rest) (hb : b ∈ rest) :
    Started m b a := by
  have hnested := h.nested
  rw [hst, List.pairwise_cons] at hnested
  exact hnested.1 b hb

theorem Stacked.rank_le (h : Stacked m) (ho : Owned rank m temps) (hst : m.stack = a :: rest)
    {f : Frame L} (hf : m.heap b = some f) (hrun : f.point.isRunning = true) : rank b ≤ rank a := by
  have hb := (h.running_iff hf).mp hrun
  rw [hst] at hb
  rcases List.mem_cons.mp hb with rfl | hb
  · exact Nat.le_refl _
  · exact Nat.le_of_lt ((h.started hst hb).rank_lt ho)

theorem Stacked.head_not_mem (h : Stacked m) (ho : Owned rank m temps)
    (hst : m.stack = a :: rest) : a ∉ rest :=
  fun ha => Nat.lt_irrefl _ ((h.started hst ha).rank_lt ho)

/-- The head of the stack stops running. -/
theorem Stacked.pop {f f' : Frame L} (h : Stacked m) (ho : Owned rank m temps)
    (hst : m.stack = a :: rest) (hf : m.heap a = some f) (hrun : f'.point.isRunning = false)
    (hslots : f'.slots = f.slots) (hcont : f'.promise.continuation = f.promise.continuation)
    (hout : f'.point.isFinal = true → ∃ r, f'.outcome = .ok r)
    (hleft : f'.point.isFinal = true → ∀ s, s.scoped = true → f.slots s = none) :
    Stacked { m.store a f' with stack := rest } := by
  have hnested := h.nested
  rw [hst, List.pairwise_cons] at hnested
  refine h.replace hf rfl hslots (sameHandles_replace hf rfl hslots rfl rfl rfl) (fun x => ?_)
    hnested.2 (fun p hp => h.continued hf (hcont ▸ hp)) hout hleft
  by_cases hx : x = a
  · subst hx
    simp [hrun, h.head_not_mem ho hst]
  · simp [hx, hst]

/-- The coroutine that runs after `a` is suspended, and not at its final suspension: its
Awaiter still owns `a`, and it did not start `a`. -/
theorem Stacked.continuation_suspended {f : Frame L} {p : Addr} (h : Stacked m)
    (ho : Owned rank m temps) (hst : m.stack = a :: rest) (hf : m.heap a = some f)
    (hp : f.promise.continuation = some p) :
    ∃ w g, m.graph.holds (.slot p (.inr w)) a ∧ p ≠ a ∧ m.heap p = some g ∧
      g.point.isRunning = false ∧ g.point.isFinal = false := by
  obtain ⟨w, hw⟩ := h.continued hf hp
  obtain ⟨g, hg⟩ := ho.forest.home_live hw rfl
  have hlt := ho.forest.ranked hw rfl
  refine ⟨w, g, hw, fun hpa => Nat.lt_irrefl _ (hpa ▸ hlt), hg, ?_, ?_⟩
  · by_contra hrun
    have hmem := (h.running_iff hg).mp (by simpa using hrun)
    rw [hst] at hmem
    rcases List.mem_cons.mp hmem with rfl | hmem
    · exact Nat.lt_irrefl _ hlt
    · have hself := ((h.started hst hmem).awaiter ho hw).rank_lt ho
      exact Nat.lt_irrefl _ hself
  · by_contra hfin
    have hslot := h.left hg (by simpa using hfin) (.inr w) rfl
    obtain ⟨g', hg', hs⟩ := hw
    obtain rfl : g = g' := Option.some.inj (hg.symm.trans hg')
    rw [hslot] at hs
    cases hs

/-! ## Handles move -/

/-- Operations on the variables of coroutines that are not completed, and that rank at or
above all that run. -/
theorem Stacked.quiet {T : Addr → Prop} {rank' : Addr → Nat} (h : Stacked m)
    (ho : Owned rank m temps) (ho' : Owned rank' m' temps') (hq : Quiet T m m')
    (hm : Moves temps temps' m m')
    (hfin : ∀ x f, T x → m.heap x = some f → f.point.isFinal = false)
    (hT : ∀ b ∈ m.stack, ∀ x, T x → m.graph.live x → rank b ≤ rank x)
    (hlive : ∀ b ∈ m.stack, ∀ x, m.graph.live x → rank x ≤ rank b → m'.graph.live x) :
    Stacked m' := by
  refine ⟨fun {x g'} hg' => ?_, fun {x} hx => ?_, ?_, fun {c g' p} hg' hp => ?_,
    fun {c g'} hg' hf => ?_, fun {c g'} hg' hf s hs => ?_⟩
  · obtain ⟨g, hg, _, _, hpt, _⟩ := hq.frame hg'
    rw [hq.stack, hpt]
    exact h.running_iff hg
  · rw [hq.stack] at hx
    exact hlive x hx x (h.stack_live hx) (Nat.le_refl _)
  · rw [hq.stack]
    refine h.nested.imp_of_mem fun {b c} hb _ hbc => ?_
    exact hbc.quiet ho hq (hT b hb) (hlive b hb) (Nat.le_refl _)
  · obtain ⟨g, hg, _, hprom, _⟩ := hq.frame hg'
    rw [hprom] at hp
    obtain ⟨w, hw⟩ := h.continued hg hp
    have hfree : c ∉ temps := fun hc => ho.forest.temp_free hc hw
    rcases ho'.forest.owned ⟨g', hg'⟩ with hc | ⟨r, hr⟩
    · rcases hm.temps hc with hc | ⟨q, hqc, hno⟩
      · exact absurd hc hfree
      · exact absurd (ho.forest.unique hqc hw) (hno p w)
    · rcases hm.holds hr with hc | ⟨q, hqc, hkeep⟩
      · exact absurd hc hfree
      · obtain ⟨v, rfl⟩ := hkeep p w (ho.forest.unique hqc hw)
        exact ⟨v, hr⟩
  · obtain ⟨g, hg, hkind, hprom, hpt, _⟩ := hq.frame hg'
    obtain ⟨r, hr⟩ := h.outcome hg (hpt ▸ hf)
    exact ⟨r, by rw [← hr, Frame.outcome, Frame.outcome, hkind, hprom]⟩
  · obtain ⟨g, hg, _, _, hpt, hslots⟩ := hq.frame hg'
    have hgfin : g.point.isFinal = true := hpt ▸ hf
    have hTc : ¬ T c := fun hTc => by simp [hfin c g hTc hg] at hgfin
    rw [hslots hTc]
    exact h.left hg hgfin s hs

/-- A call adds a frame that owns nothing. -/
theorem Stacked.create (h : Stacked m) (ho : Owned rank m temps) (kind : Kind) (body : L.Code) :
    Stacked (m.create kind body).2 := by
  have hold : ∀ {x g}, (m.create kind body).2.heap x = some g →
      (x = m.next ∧ g = .fresh kind body) ∨ (x ≠ m.next ∧ m.heap x = some g) :=
    fun hg => heap_cases rfl hg
  have hnext : m.next ∉ m.stack := fun hmem => by
    obtain ⟨f, hf⟩ := h.stack_live hmem
    rw [ho.heap_next] at hf
    cases hf
  refine ⟨fun {x g} hg => ?_, fun {x} hx => ?_, ?_, fun {c g p} hg hp => ?_, fun {c g} hg hfin => ?_,
    fun {c g} hg hfin => ?_⟩
  · rcases hold hg with ⟨rfl, rfl⟩ | ⟨_, hg⟩
    · exact iff_of_false (fun hr => by cases hr) hnext
    · exact h.running_iff hg
  · obtain ⟨f, hf⟩ := h.stack_live hx
    exact live_replace rfl ⟨f, hf⟩
  · refine List.Pairwise.imp (fun {b c} hbc => ?_) h.nested
    obtain ⟨x, d, hd, hb⟩ := hbc
    exact ⟨x, d, (create_holds ho kind body _ _).mpr hd,
      hb.mono fun q e he => (create_holds ho kind body q e).mpr he⟩
  · simp only [create_holds ho kind body]
    rcases hold hg with ⟨rfl, rfl⟩ | ⟨_, hg⟩
    · cases hp
    · exact h.continued hg hp
  · rcases hold hg with ⟨rfl, rfl⟩ | ⟨_, hg⟩
    · cases hfin
    · exact h.outcome hg hfin
  · rcases hold hg with ⟨rfl, rfl⟩ | ⟨_, hg⟩
    · cases hfin
    · exact h.left hg hfin

/-- Only the frames and the stack matter. -/
theorem Started.congr (hheap : m'.heap = m.heap) (h : Started m b a) : Started m' b a := by
  have hslot : ∀ {x s d}, m.graph.holds (.slot x s) d → m'.graph.holds (.slot x s) d := by
    rintro x s d ⟨f, hf, hs⟩
    exact ⟨f, by rw [hheap]; exact hf, hs⟩
  obtain ⟨x, d, hd, hb⟩ := h
  refine ⟨x, d, hslot hd, ?_⟩
  clear hd
  induction hb with
  | self => exact .self
  | @held q y z _ hq hz ih =>
    cases q with
    | var v => cases hq
    | slot x s => exact .held ih hq (hslot hz)

theorem Stacked.congr (h : Stacked m) (hheap : m'.heap = m.heap) (hstack : m'.stack = m.stack) :
    Stacked m' := by
  refine ⟨?_, fun {a} ha => ?_, ?_, fun {c g p} hg hp => ?_, ?_, ?_⟩
  · rw [hheap, hstack]
    exact h.running_iff
  · obtain ⟨f, hf⟩ := h.stack_live (hstack ▸ ha)
    exact ⟨f, by rw [hheap]; exact hf⟩
  · rw [hstack]
    exact h.nested.imp fun hab => hab.congr hheap
  · rw [hheap] at hg
    obtain ⟨w, f, hf, hw⟩ := h.continued hg hp
    exact ⟨w, f, by rw [hheap]; exact hf, hw⟩
  · rw [hheap]
    exact h.outcome
  · rw [hheap]
    exact h.left

/-! ## Transfers of control -/

/-- Final suspension: the continuation runs in place of the completed coroutine, or its
resumer does. -/
theorem finalSuspend_stacked {f : Frame L} (h : Ready Stacked rank a rest [] m)
    (hf : m.heap a = some f) (hout : ∃ r, f.outcome = .ok r)
    (hleft : ∀ s, s.scoped = true → f.slots s = none) :
    ∃ m', m.finalSuspend a rest = .ok m' ∧ Sound m' := by
  let f₁ : Frame L := { f with point := .final }
  let m₁ : Machine L := { m.store a f₁ with stack := rest }
  have hs : SameHandles m m₁ := sameHandles_replace hf rfl rfl rfl rfl rfl
  have h₁ : Stacked m₁ := h.kept.pop h.owned h.stack hf rfl rfl rfl (fun _ => hout)
    fun _ => hleft
  rw [finalSuspend_eq hf]
  cases hcont : f.promise.continuation with
  | none => exact ⟨m₁, rfl, rank, h.owned.sameHandles hs, h₁⟩
  | some p =>
    obtain ⟨w, g, hw, hpa, hg, hidle, hfin⟩ :=
      h.kept.continuation_suspended h.owned h.stack hf hcont
    obtain ⟨pt, hpt⟩ := Point.exists_enter hidle hfin
    have hg₁ : m₁.heap p = some g := (Function.update_of_ne hpa _ _).trans hg
    refine ⟨{ m₁.store p { g with point := pt } with stack := p :: rest },
      resume_of_enter hg₁ hpt, rank,
      (h.owned.sameHandles hs).sameHandles (sameHandles_replace hg₁ rfl rfl rfl rfl rfl),
      h₁.enter hg₁ hpt fun b hb => ?_⟩
    exact ((h.kept.started h.stack hb).awaiter h.owned hw).sameHandles hs

instance : Kept (Stacked (L := L)) where
  running_iff h hf := h.running_iff hf
  stack_live h ha := h.stack_live ha
  rank_lt h ho hst b hb := (h.started hst hb).rank_lt ho
  outcome h hg hfin := h.outcome hg hfin
  quiet := by
    intro m m' T rank _ temps _ h ho ho' hq hm hT hlive
    refine h.quiet ho ho' hq hm (fun x f hx hf => ?_) (fun b hb x hx ⟨f, hf⟩ => ?_) hlive
    · rcases hT x f hx hf with ⟨_, c, _, hc⟩ | ⟨c, hc, _⟩ <;> rw [hc] <;> rfl
    · rcases hT x f hx hf with ⟨rest, _, hst, _⟩ | ⟨_, _, hle⟩
      · obtain ⟨g, hg⟩ := h.stack_live hb
        exact h.rank_le ho hst hg ((h.running_iff hg).mpr hb)
      · exact hle b hb
  create h ho kind body := h.create ho kind body
  congr h hheap hstack := h.congr hheap hstack
  stay h hf hrun hpt hslots hcont := h.stay hf hrun (by rw [hpt]; rfl) hslots hcont
  suspend h hf k := h.kept.pop h.owned h.stack hf rfl rfl rfl (fun hfin => by cases hfin)
    fun hfin => by cases hfin
  finalSuspend h hf hout hleft := finalSuspend_stacked h hf hout hleft

/-- What is not completed can be entered, if all running coroutines started it. -/
theorem Stacked.entered {g : Frame L} (h : Stacked m) (hg : m.heap c = some g)
    (hidle : g.point.isRunning = false) (hfin : g.point.isFinal = false)
    (hstarted : ∀ b ∈ m.stack, Started m b c) :
    ∃ pt, g.point.enter = some pt ∧ Stacked (m.entered c g pt) := by
  obtain ⟨pt, hpt⟩ := Point.exists_enter hidle hfin
  exact ⟨pt, hpt, h.enter hg hpt hstarted⟩

/-- `co_await` of any Awaiter. -/
theorem await_stacked (h : Ready Stacked rank a rest [] m) (w : L.Aw) (k : L.Outcome → L.Code) :
    ∃ m', m.perform a rest (.await w k) = .ok m' ∧ Sound m' := by
  refine h.await w k (fun f hf hrun _ => h.kept.stay hf hrun rfl rfl rfl)
    fun f c g hf hslot hg hca hidle hfin => ?_
  have hc : m.graph.holds (.slot a (.inr w)) c := holds_slot hf hslot
  -- The coroutine suspends, its child is linked to it, and the child runs.
  let m₁ : Machine L := { m.store a { f with point := .awaiting w k } with stack := rest }
  let m₂ : Machine L := m.waiting a rest f w k c g
  have hg₁ : m₁.heap c = some g := (Function.update_of_ne hca _ _).trans hg
  have hs₁ : SameHandles m m₁ := sameHandles_replace hf rfl rfl rfl rfl rfl
  have hs₂ : SameHandles m₁ m₂ := sameHandles_replace hg₁ rfl rfl rfl rfl rfl
  have h₁ : Stacked m₁ := h.kept.pop h.owned h.stack hf rfl rfl rfl
    (fun hfin => by cases hfin) fun hfin => by cases hfin
  have h₂ : Stacked m₂ := by
    refine h₁.promise hg₁ rfl rfl (fun p hp => ?_) fun hg₂fin => ?_
    · obtain rfl : a = p := Option.some.inj hp
      exact ⟨w, (hs₁.holds _ _).mpr hc⟩
    · have hgfin : g.point.isFinal = true := hg₂fin
      rw [hfin] at hgfin
      cases hgfin
  refine h₂.entered (Function.update_self _ _ _) hidle hfin fun b hb => ?_
  have hbc : Started m b c := (h.kept.started h.stack hb).held hc
  exact (hbc.sameHandles hs₁).sameHandles hs₂

/-! ## `await_resume` -/

/-- The running coroutine is past the suspension of a `co_await`, and its child is an
unfinished `Task<T>`. -/
def ResumedEarly (m : Machine L) : Prop :=
  ∃ a rest f w k c g, m.stack = a :: rest ∧ m.heap a = some f ∧ f.point = .resumed w k ∧
    f.slots (.inr w) = some c ∧ m.heap c = some g ∧ g.kind = .value ∧ g.point.isFinal = false

/-- The only thing that `result()` and `await_resume()` can miss is the value. -/
theorem Frame.outcome_error {g : Frame L} {e : Fault} (h : g.outcome = .error e) :
    e = .emptyValue ∧ g.kind = .value ∧ g.promise.exception = none ∧ g.promise.value = none := by
  rw [Frame.outcome] at h
  split at h
  · cases h
  · rename_i hexn
    split at h
    · cases h
    · rename_i hkind
      split at h
      · cases h
      · rename_i hvalue
        exact ⟨(Except.error.inj h).symm, hkind, hexn, hvalue⟩

theorem resumed_sound {f : Frame L} {w : L.Aw} {k : L.Outcome → L.Code} (ho : Owned rank m [])
    (h : Stacked m) (hst : m.stack = a :: rest) (hf : m.heap a = some f)
    (hpt : f.point = .resumed w k) :
    (∃ m', m.exec = .ok m' ∧ Sound m') ∨ (m.exec = .error .emptyValue ∧ ResumedEarly m) := by
  have hread := read_slot hf (.inr w)
  rw [exec_of_resumed hst hf hpt]
  by_cases hchild : ∀ c g, f.slots (.inr w) = some c → m.heap c = some g → ∃ r, g.outcome = .ok r
  · refine Or.inl (awaitResume_kept ho h hf hpt fun c g hs hg => ?_)
    obtain ⟨r, hr⟩ := hchild c g hs hg
    exact ⟨r, hr, h.promise hg g.moveOut_point g.moveOut_slots
      (fun p hp => h.continued hg (g.moveOut_continuation ▸ hp)) fun _ => moveOut_outcome hr⟩
  · push Not at hchild
    obtain ⟨c, g, hs, hg, hno⟩ := hchild
    rw [hs] at hread
    cases hout : g.outcome with
    | ok r => exact absurd hout (hno r)
    | error e =>
      obtain ⟨rfl, hkind, _, _⟩ := Frame.outcome_error hout
      refine Or.inr ⟨?_, a, rest, f, w, k, c, g, hst, hf, hpt, hs, hg, hkind, ?_⟩
      · rw [awaitResume_of_some hread hg, hout]
        rfl
      · by_contra hfin
        obtain ⟨r, hr⟩ := h.outcome hg (by simpa using hfin)
        exact hno r hr

/-- A step of the running coroutine succeeds, or reads the value of an unfinished child. -/
theorem exec_sound (h : Sound m) :
    (∃ m', m.exec = .ok m' ∧ Sound m') ∨ (m.exec = .error .emptyValue ∧ ResumedEarly m) := by
  obtain ⟨rank, ho, hs⟩ := h
  cases hst : m.stack with
  | nil => exact Or.inl ⟨m, by rw [exec, hst], rank, ho, hs⟩
  | cons a rest =>
    obtain ⟨f, hf, ⟨c, hpt⟩ | ⟨w, k, hpt⟩⟩ := head_of_kept hs hst
    · rw [exec_of_running hst hf hpt]
      have hready : Ready Stacked rank a rest [] m := ⟨ho, hs, hst, f, c, hf, hpt⟩
      refine Or.inl (hready.perform (L.next c) (fun x k _ d g hx hg hidle hfin => ?_)
        fun w k hi => hi ▸ await_stacked hready w k)
      refine hs.entered hg hidle hfin fun b hb => ?_
      have had : Started m a d := ⟨x, d, hx, .self⟩
      rw [hst] at hb
      rcases List.mem_cons.mp hb with rfl | hb
      · exact had
      · exact (hs.started hst hb).trans had
    · exact resumed_sound ho hs hst hf hpt

/-! ## The driver -/

/-- No operation of the driver faults. -/
theorem drive_sound (h : Sound m) (hst : m.stack = []) {op : DriverOp L} (hen : op.Enabled m) :
    ∃ m', m.drive op = .ok m' ∧ Sound m' := by
  obtain ⟨rank, ho, hs⟩ := h
  refine drive_kept ho hs hst hen fun c g _ hg hidle hfin => ?_
  refine hs.entered hg hidle hfin fun b hb => ?_
  rw [hst] at hb
  exact absurd hb List.not_mem_nil

/-! ## Runs -/

theorem sound_start0 (mem : L.Mem) : Sound (.start0 mem : Machine L) := by
  obtain ⟨rank, ho⟩ := owning_start0 mem
  have hnone : ∀ c g, (Machine.start0 mem : Machine L).heap c = some g → False :=
    fun c g hg => by cases hg
  refine ⟨rank, ho, fun hf => (hnone _ _ hf).elim, fun hmem => absurd hmem List.not_mem_nil,
    List.Pairwise.nil, fun hg => (hnone _ _ hg).elim, fun hg => (hnone _ _ hg).elim,
    fun hg => (hnone _ _ hg).elim⟩

theorem step_sound (h : Sound m) {l : Label L} (hen : l.Enabled m) :
    (∃ m', m.step l = .ok m' ∧ Sound m') ∨
      (l = .exec ∧ m.step l = .error .emptyValue ∧ ResumedEarly m) := by
  cases l with
  | drive op => exact Or.inl (drive_sound h hen.1 hen.2)
  | exec => exact (exec_sound h).imp_right fun he => ⟨rfl, he⟩

/-- An access to a result never goes wrong. -/
theorem access_sound {x : Access L} (h : Sound m) (hen : (AccessLabel.access c x).Enabled m) :
    ∃ m', m.access c x = .ok m' ∧ Sound m' := by
  obtain ⟨rank, ho, hs⟩ := h
  obtain ⟨f, hf, _, ⟨r, hout⟩, hok⟩ := access_spec hen
  have hout' : (f.access x).outcome = .ok (r.map fun o => o.map x.apply) := by
    rw [Frame.outcome_access, hout]
    rfl
  exact ⟨_, hok, rank, ho.sameHandles (sameHandles_access hf x),
    hs.promise hf rfl rfl (fun p hp => hs.continued hf hp) fun _ => ⟨_, hout'⟩⟩

theorem accessStep_sound (h : Sound m) {l : AccessLabel L} (hen : l.Enabled m) :
    (∃ m', m.accessStep l = .ok m' ∧ Sound m') ∨
      (l = .step .exec ∧ m.accessStep l = .error .emptyValue ∧ ResumedEarly m) := by
  cases l with
  | step l =>
    rcases step_sound h hen with hok | ⟨rfl, herr⟩
    · exact Or.inl hok
    · exact Or.inr ⟨rfl, herr⟩
  | access c x => exact Or.inl (access_sound h hen)

/-- The states of all runs are sound, and an unfinished coroutine has nothing in its
promise. -/
theorem sound_of_reach (h : (accessSystem L).Reach Transition.anyStep m) :
    Sound m ∧ ∀ a f, m.heap a = some f → f.Unset := by
  refine h.invariant (P := fun m => Sound m ∧ ∀ a f, m.heap a = some f → f.Unset) ?_ ?_
  · rintro s ⟨mem, rfl⟩
    exact ⟨sound_start0 mem, fun a f hf => by cases hf⟩
  · rintro s l s' ⟨hs, hunset⟩ hen _ hok
    constructor
    · rcases accessStep_sound hs hen with ⟨s'', hok', hs'⟩ | ⟨_, herr, _⟩
      · exact Except.ok.inj (hok'.symm.trans hok) ▸ hs'
      · cases herr.symm.trans hok
    · obtain ⟨rank, ho, _⟩ := hs
      intro a f' hf'
      rcases (accessStep_advances ho.heap_next hen hok).frame hf' with ⟨f, hf, hbecomes⟩ | ⟨_, hf'⟩
      · exact hbecomes.unset (hunset a f hf)
      · exact hf'

/-- Without any discipline, the only thing that goes wrong in a run is that a coroutine
which was resumed too early reads the value of its unfinished `Task<T>`, and it does so
whenever it gets there.  No step uses a destroyed frame, destroys or resumes a coroutine
that is not suspended, or uses a null handle.  The runs are those of Tasks in variables. -/
theorem step_error_iff (h : (accessSystem L).Reach Transition.anyStep m) {l : AccessLabel L}
    (hen : l.Enabled m) (e : Fault) :
    m.accessStep l = .error e ↔ e = .emptyValue ∧ l = .step .exec ∧ ResumedEarly m := by
  obtain ⟨hs, hunset⟩ := sound_of_reach h
  constructor
  · intro herr
    rcases accessStep_sound hs hen with ⟨m', hok, _⟩ | ⟨hl, herr', hearly⟩
    · cases hok.symm.trans herr
    · exact ⟨Except.error.inj (herr.symm.trans herr'), hl, hearly⟩
  · rintro ⟨rfl, rfl, a, rest, f, w, k, c, g, hst, hf, hpt, hslot, hg, hkind, hfin⟩
    obtain ⟨hvalue, hexn⟩ := hunset c g hg hfin
    have hread := read_slot hf (.inr w)
    rw [hslot] at hread
    show m.exec = .error .emptyValue
    rw [exec_of_resumed hst hf hpt, awaitResume_of_some hread hg]
    simp [Frame.outcome, hexn, hkind, hvalue]
    rfl

/-- The coroutine is suspended at its `co_await`, and `start()` resumes it past its
unfinished child. -/
theorem step_error_iff_toSuspension : ∃ m : Machine Plain,
    (accessSystem Plain).Reach Transition.anyStep m ∧ ResumedEarly m ∧
      m.accessStep (.step .exec) = .error .emptyValue := by
  have hreplay : ∃ m : Machine Plain, (system Plain).replay Transition.anyStep (.start0 ())
      (toSuspension .value ++ [.drive (.start ())]) = some m ∧ m.stack = [0] ∧
        m.step .exec = .error .emptyValue := ⟨_, rfl, rfl, rfl⟩
  obtain ⟨m, hm, hst, herr⟩ := hreplay
  obtain ⟨steps, hrun, _, hall⟩ := Transition.Run.of_replay hm
  have hreach := reach_accesses (hrun.reach (.init ⟨(), rfl⟩) hall)
  have hen : (AccessLabel.step .exec).Enabled m := by
    show m.stack ≠ []
    rw [hst]
    exact List.cons_ne_nil _ _
  exact ⟨m, hreach, ((step_error_iff hreach hen .emptyValue).mp herr).2.2, herr⟩

/-! ## Memory in every run -/

/-- The frames of a state, in whatever order their coroutines were resumed. -/
structure FrameTree (m : Machine L) : Prop where
  /-- A live frame has exactly one owner, a Task variable or a variable of a live
  frame. -/
  owner : ∀ a, m.graph.live a → ∃! p, m.HasPlace p ∧ m.graph.holds p a
  /-- A handle is of a live frame. -/
  held : ∀ p a, m.graph.holds p a → m.graph.live a
  /-- A live frame is at or below one that a Task variable owns. -/
  root : ∀ a, m.graph.live a → ∃ v r, m.graph.holds (.var v) r ∧ Below Place.home m.graph r a
  /-- A continuation is a live coroutine that is not completed, and its Awaiter owns the
  frame. -/
  continuation : ∀ c g p, m.heap c = some g → g.promise.continuation = some p →
    ∃ f w, m.heap p = some f ∧ f.point.isFinal = false ∧ f.slots (.inr w) = some c
  /-- The running coroutines are those on the stack, and none is there twice. -/
  running : m.stack.Nodup ∧ ∀ a, a ∈ m.stack ↔ ∃ f, m.heap a = some f ∧ f.point.isRunning = true
  /-- What runs above a coroutine was started by it. -/
  nested : m.stack.Pairwise fun a b => Started m b a
  /-- No frame is destroyed twice, and the frames that are gone were destroyed. -/
  destroyed_once : m.destroyed.Nodup ∧
    ∀ a, a ∈ m.destroyed ↔ a < m.next ∧ ¬ m.graph.live a

theorem FrameTree.of_sound (h : Sound m) : FrameTree m := by
  obtain ⟨rank, ho, hs⟩ := h
  refine ⟨fun a ha => ?_, fun p a => ho.forest.held_live, fun a => ho.root,
    fun c g p hg hp => ?_, ⟨?_, fun a => ⟨fun ha => ?_, ?_⟩⟩, hs.nested, ho.destroyed_nodup,
    fun a => ho.mem_destroyed⟩
  · rcases ho.forest.owned ha with ht | ⟨p, hp⟩
    · exact absurd ht List.not_mem_nil
    · exact ⟨p, ⟨.of_home fun b hb => ho.forest.home_live hp hb, hp⟩,
        fun q hq => ho.forest.unique hq.2 hp⟩
  · obtain ⟨w, f, hf, hw⟩ := hs.continued hg hp
    refine ⟨f, w, hf, ?_, hw⟩
    by_contra hfin
    have hempty := hs.left hf (by simpa using hfin) (.inr w) rfl
    rw [hempty] at hw
    cases hw
  · refine hs.nested.imp ?_
    rintro a _ hab rfl
    exact Nat.lt_irrefl _ (hab.rank_lt ho)
  · obtain ⟨f, hf⟩ := hs.stack_live ha
    exact ⟨f, hf, (hs.running_iff hf).mpr ha⟩
  · rintro ⟨f, hf, hrun⟩
    exact (hs.running_iff hf).mp hrun

/-- Between the steps of the driver, destroying a Task frees the frames at or below its
handle and does nothing else. -/
theorem destroy_of_sound (h : Sound m) (hst : m.stack = []) (v : L.Var) :
    ∃ m', m.drive (.destroy v) = .ok m' ∧
      (∀ x f, m'.heap x = some f ↔ m.heap x = some f ∧
        ¬ ∃ c, m.graph.holds (.var v) c ∧ Below Place.home m.graph c x) ∧
      m'.mem = m.mem ∧ m'.log = m.log := by
  obtain ⟨rank, ho, hs⟩ := h
  obtain ⟨m₁, hreset, _, hq, _, hdead⟩ := reset_spec ho (show m.HasPlace (.var v) from trivial)
    fun r f c hf hr => by simp [not_running_of_idle hs hst hf] at hr
  refine ⟨{ m₁ with vars := Function.update m₁.vars v none }, ?_, fun x f => ?_, hq.mem, hq.log⟩
  · rw [Machine.drive, bind_of_ok hreset]
  · constructor
    · intro hf
      have hold := heap_of_reset_var hreset hf
      exact ⟨hold, fun hb => (hdead x ⟨f, hold⟩).mpr hb ⟨f, hf⟩⟩
    · rintro ⟨hf, hnb⟩
      by_contra hne
      refine hnb ((hdead x ⟨f, hf⟩).mp ?_)
      rintro ⟨g, hg⟩
      obtain rfl : f = g := Option.some.inj (hf.symm.trans (heap_of_reset_var hreset hg))
      exact hne hg

/-- However a driver and its bodies call `start()`, no frame is lost: each is owned
once, destroying a Task frees exactly the frames below it, and when no Task variable
owns a frame, all that were made have been destroyed.  The runs are those of Tasks in
variables. -/
theorem run_memory (h : (accessSystem L).Reach Transition.anyStep m) :
    FrameTree m ∧
      (∀ v, (Label.drive (.destroy v)).Enabled m → ∃ m',
        m.step (.drive (.destroy v)) = .ok m' ∧
        (∀ x f, m'.heap x = some f ↔ m.heap x = some f ∧
          ¬ ∃ c, m.graph.holds (.var v) c ∧ Below Place.home m.graph c x) ∧
        m'.mem = m.mem ∧ m'.log = m.log) ∧
      ((∀ v c, m.vars v ≠ some (some c)) →
        ∀ a, m.heap a = none ∧ (a < m.next → a ∈ m.destroyed)) := by
  obtain ⟨hs, _⟩ := sound_of_reach h
  have htree := FrameTree.of_sound hs
  refine ⟨htree, fun v hen => destroy_of_sound hs hen.1 v, fun hvars a => ?_⟩
  have hdead : ¬ m.graph.live a := by
    intro ha
    obtain ⟨v, r, hv, _⟩ := htree.root a ha
    exact hvars v r hv
  refine ⟨Option.eq_none_iff_forall_ne_some.mpr fun f hf => hdead ⟨f, hf⟩, fun hlt => ?_⟩
  exact (htree.destroyed_once.2 a).mpr ⟨hlt, hdead⟩

/-- A coroutine that was resumed past its child still owns it. -/
theorem run_memory_resumed : ∃ m : Machine Plain,
    (accessSystem Plain).Reach Transition.anyStep m ∧ m.stack = [0] ∧ m.heap 1 ≠ none ∧
      FrameTree m := by
  have hreplay : ∃ m : Machine Plain, (system Plain).replay Transition.anyStep (.start0 ())
      (toSuspension .value ++ [.drive (.start ())]) = some m ∧ m.stack = [0] ∧
        (m.heap 1).isSome := ⟨_, rfl, rfl, rfl⟩
  obtain ⟨m, hm, hst, hlive⟩ := hreplay
  obtain ⟨steps, hrun, _, hall⟩ := Transition.Run.of_replay hm
  have hreach := reach_accesses (hrun.reach (.init ⟨(), rfl⟩) hall)
  exact ⟨m, hreach, hst, Option.isSome_iff_ne_none.mp hlive, (run_memory hreach).1⟩

end VixStandard.Task
