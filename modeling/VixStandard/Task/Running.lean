import VixStandard.Task.Links

/-!
# A running coroutine in the middle of a statement

Two invariants are proved of the machine: one of disciplined runs and one of all runs.  They
say different things of the coroutines that wait, but most statements of a body only move
handles, and these keep both for the same reasons.

* `Moves` is what a handle operation does with the frames that Awaiters own.
* `Ready` is the situation of a running coroutine in the middle of a statement.
* `Kept` lists what these reasons ask of an invariant.  The two invariants are its instances.
* Each handle operation has one lemma about `Ready`.  So do `start()` and `co_await`, up to
  the coroutine that they enter, which is left to each invariant.
* `Ready.perform` and `drive_kept` put them together for the statements of a body and for the
  operations of the driver.
-/

namespace VixStandard.Task

open VixStandard.Lib VixStandard.Lib.Ownership Machine

variable {L : Lang}

/-! ## Handles move -/

/-- The Awaiters that own a frame stay in their coroutine, and temporaries get nothing
from them. -/
structure Moves (temps temps' : List Addr) (m m' : Machine L) : Prop where
  holds : ∀ {r c}, m'.graph.holds r c → c ∈ temps ∨ ∃ q, m.graph.holds q c ∧
    ∀ p w, q = .slot p (.inr w) → ∃ v, r = .slot p (.inr v)
  temps : ∀ {c}, c ∈ temps' → c ∈ temps ∨ ∃ q, m.graph.holds q c ∧ ∀ p w, q ≠ .slot p (.inr w)

/-- No handle gets to another place. -/
theorem moves_of_holds {temps temps' : List Addr} {m m' : Machine L}
    (htemps : ∀ {c}, c ∈ temps' → c ∈ temps)
    (hholds : ∀ q c, m'.graph.holds q c → m.graph.holds q c) : Moves temps temps' m m' :=
  ⟨fun hr => Or.inr ⟨_, hholds _ _ hr, fun _ w hq => ⟨w, hq⟩⟩, fun hc => Or.inl (htemps hc)⟩

theorem var_home_ne {v : L.Var} {x : Addr} : (Place.var v : Place L).home ≠ some x :=
  fun hx => by cases hx

/-- A handle of a Task variable does not come from an Awaiter. -/
theorem var_not_awaiter {v : L.Var} (p : Addr) (w : L.Aw) :
    (Place.var v : Place L) ≠ .slot p (.inr w) :=
  fun hq => by cases hq

/-! ## The situation and the invariant -/

/-- The coroutine `a` runs on top of `rest`, and the statement it executes holds `temps` in
temporaries. -/
structure Ready (P : Machine L → Prop) (rank : Addr → Nat) (a : Addr) (rest temps : List Addr)
    (m : Machine L) : Prop where
  owned : Owned rank m temps
  kept : P m
  stack : m.stack = a :: rest
  running : ∃ f c, m.heap a = some f ∧ f.point = .running c

/-- The invariant holds, and no handle is in a temporary. -/
def Settled (P : Machine L → Prop) (m : Machine L) : Prop := ∃ rank, Owned rank m [] ∧ P m

/-- What the statements of a body ask of an invariant. -/
class Kept (P : Machine L → Prop) : Prop where
  running_iff : ∀ {m a f}, P m → m.heap a = some f → (f.point.isRunning = true ↔ a ∈ m.stack)
  stack_live : ∀ {m a}, P m → a ∈ m.stack → m.graph.live a
  /-- The running coroutines below the innermost one rank below it. -/
  rank_lt : ∀ {m rank temps a rest}, P m → Owned rank m temps → m.stack = a :: rest →
    ∀ b ∈ rest, rank b < rank a
  outcome : ∀ {m c g}, P m → m.heap c = some g → g.point.isFinal = true → ∃ r, g.outcome = .ok r
  /-- Handles move between the variables of the innermost coroutine, of coroutines that have
  not started and rank above all that run, and of the driver. -/
  quiet : ∀ {m m' T rank rank' temps temps'}, P m → Owned rank m temps → Owned rank' m' temps' →
    Quiet T m m' → Moves temps temps' m m' →
    (∀ x f, T x → m.heap x = some f → (∃ rest c, m.stack = x :: rest ∧ f.point = .running c) ∨
      ∃ c, f.point = .initial c ∧ ∀ b ∈ m.stack, rank b ≤ rank x) →
    (∀ b ∈ m.stack, ∀ x, m.graph.live x → rank x ≤ rank b → m'.graph.live x) → P m'
  create : ∀ {m rank temps}, P m → Owned rank m temps → ∀ kind body, P (m.create kind body).2
  /-- The invariant is a matter of the frames and the stack. -/
  congr : ∀ {m m'}, P m → m'.heap = m.heap → m'.stack = m.stack → P m'
  /-- A running coroutine goes on, or its promise changes. -/
  stay : ∀ {m a f f' c}, P m → m.heap a = some f → f.point.isRunning = true →
    f'.point = .running c → f'.slots = f.slots →
    f'.promise.continuation = f.promise.continuation → P (m.store a f')
  suspend : ∀ {m rank a rest f}, Ready P rank a rest [] m → m.heap a = some f → ∀ k,
    P { m.store a { f with point := .external k } with stack := rest }
  finalSuspend : ∀ {m rank a rest f}, Ready P rank a rest [] m → m.heap a = some f →
    (∃ r, f.outcome = .ok r) → (∀ s, s.scoped = true → f.slots s = none) →
    ∃ m', m.finalSuspend a rest = .ok m' ∧ Settled P m'

section Statements

variable {P : Machine L → Prop} {rank : Addr → Nat} {a : Addr} {rest temps temps' : List Addr}
  {m m' : Machine L}

theorem Ready.live (h : Ready P rank a rest temps m) : m.graph.live a := by
  obtain ⟨f, _, hf, _⟩ := h.running
  exact ⟨f, hf⟩

/-- The frame of a running coroutine. -/
theorem Ready.head (h : Ready P rank a rest temps m) :
    ∃ f, m.heap a = some f ∧ f.point.isRunning = true := by
  obtain ⟨f, c, hf, hpt⟩ := h.running
  exact ⟨f, hf, by rw [hpt]; rfl⟩

theorem Ready.not_below (h : Ready P rank a rest temps m) {s : Slot L} {c x : Addr}
    (hx : rank x ≤ rank a) (hc : m.graph.holds (.slot a s) c) :
    ¬ Below Place.home m.graph c x := by
  intro hb
  have hle := h.owned.forest.rank_le_of_below hb
  have hlt := h.owned.forest.ranked hc rfl
  omega

theorem Ready.held_ne (h : Ready P rank a rest temps m) {s : Slot L} {c : Addr}
    (hc : m.graph.holds (.slot a s) c) : c ≠ a :=
  fun hca => Nat.lt_irrefl _ (hca ▸ h.owned.forest.ranked hc rfl)

variable [hP : Kept P]

theorem Ready.stack_le (h : Ready P rank a rest temps m) : ∀ b ∈ m.stack, rank b ≤ rank a := by
  rw [h.stack]
  intro b hb
  rcases List.mem_cons.mp hb with rfl | hb
  · exact Nat.le_refl _
  · exact Nat.le_of_lt (hP.rank_lt h.kept h.owned h.stack b hb)

/-- No running coroutine ranks above the innermost one. -/
theorem Ready.rank_le (h : Ready P rank a rest temps m) {r : Addr} {f : Frame L}
    (hf : m.heap r = some f) (hr : f.point.isRunning = true) : rank r ≤ rank a :=
  h.stack_le r ((hP.running_iff h.kept hf).mp hr)

theorem Ready.running_lt (h : Ready P rank a rest temps m) {s : Slot L} {r c : Addr} {f : Frame L}
    (hf : m.heap r = some f) (hr : f.point.isRunning = true)
    (hc : m.graph.holds (.slot a s) c) : rank r < rank c :=
  Nat.lt_of_le_of_lt (h.rank_le hf hr) (h.owned.forest.ranked hc rfl)

/-- Operations on the variables of `a` and of frames that have not started keep the situation
if no frame that ranks at or below `a` ends. -/
theorem Ready.quiet {T : Addr → Prop} (h : Ready P rank a rest temps m)
    (ho : Owned rank m' temps') (hq : Quiet T m m') (hm : Moves temps temps' m m')
    (hT : ∀ x f, T x → m.heap x = some f → x = a ∨ ∃ c, f.point = .initial c ∧ rank a ≤ rank x)
    (hlive : ∀ x, m.graph.live x → rank x ≤ rank a → m'.graph.live x) :
    Ready P rank a rest temps' m' := by
  obtain ⟨f, c, hf, hpt⟩ := h.running
  refine ⟨ho, hP.quiet h.kept h.owned ho hq hm ?_ ?_, hq.stack.trans h.stack, ?_⟩
  · intro x g hx hg
    rcases hT x g hx hg with rfl | ⟨d, hd, hle⟩
    · obtain rfl : f = g := Option.some.inj (hf.symm.trans hg)
      exact Or.inl ⟨rest, c, h.stack, hpt⟩
    · exact Or.inr ⟨d, hd, fun b hb => Nat.le_trans (h.stack_le b hb) hle⟩
  · intro b hb x hx hxb
    exact hlive x hx (Nat.le_trans hxb (h.stack_le b hb))
  · obtain ⟨f', hf'⟩ := hlive a ⟨f, hf⟩ (Nat.le_refl _)
    obtain ⟨g, hg, _, _, hpt', _⟩ := hq.frame hf'
    obtain rfl : f = g := Option.some.inj (hf.symm.trans hg)
    exact ⟨f', c, hf', hpt'.trans hpt⟩

/-! ## Handle operations of a body -/

theorem Ready.reset (h : Ready P rank a rest temps m) (s : Slot L) :
    ∃ m', m.reset (.slot a s) = .ok m' ∧ Ready P rank a rest temps m' ∧
      ∀ b, ¬ m'.graph.holds (.slot a s) b := by
  obtain ⟨m', hok, howned, hq, hholds, hdead⟩ := reset_spec h.owned
    (show m.HasPlace (.slot a s) from h.live) fun r f c hf hr hc => h.running_lt hf hr hc
  refine ⟨m', hok, h.quiet howned hq ?_ ?_ ?_, fun b hb => ((hholds _ b).mp hb).1 rfl⟩
  · exact moves_of_holds (fun hc => hc) fun q c hc => ((hholds q c).mp hc).2.1
  · exact fun x f hx _ => Or.inl (Option.some.inj hx).symm
  · intro x hx hle
    by_contra hnx
    obtain ⟨c, hc, hb⟩ := (hdead x hx).mp hnx
    exact h.not_below hle hc hb

/-- Move assignment between Task variables of `a`, or between its Awaiters. -/
theorem Ready.moveAssign (h : Ready P rank a rest temps m) {s t : Slot L}
    (hst : ∀ w, t = .inr w → ∃ v, s = .inr v) :
    ∃ m', m.moveAssign (.slot a s) (.slot a t) = .ok m' ∧ Ready P rank a rest temps m' := by
  have hhome : ∀ {u : Slot L} {x : Addr}, (Place.slot a u).home = some x → a = x :=
    fun hx => Option.some.inj hx
  obtain ⟨m', hok, howned, hq, hholds, hlive⟩ := moveAssign_spec h.owned
    (show m.HasPlace (.slot a s) from h.live) (show m.HasPlace (.slot a t) from h.live)
    (fun r f c hf hr hc => h.running_lt hf hr hc)
    (fun x c hx hc => h.not_below (hhome hx ▸ Nat.le_refl _) hc)
    (fun x c hx hc => hhome hx ▸ h.owned.forest.ranked hc rfl)
  refine ⟨m', hok, h.quiet howned hq ⟨fun {r c} hr => Or.inr ?_, Or.inl⟩ ?_
    fun x hx hle => hlive x hx fun c hc => h.not_below hle hc⟩
  · rcases hholds r c hr with hr | ⟨rfl, hc⟩
    · exact ⟨r, hr, fun _ w hq => ⟨w, hq⟩⟩
    · refine ⟨_, hc, fun p w hq => ?_⟩
      obtain ⟨rfl, ht⟩ := Place.slot.inj hq
      obtain ⟨v, rfl⟩ := hst w ht
      exact ⟨v, rfl⟩
  · exact fun x f hx _ => Or.inl (hx.elim hhome hhome).symm

/-- A Task variable gives its handle to a temporary. -/
theorem Ready.exchange (h : Ready P rank a rest temps m) (x : L.Local) :
    ∃ o m', m.exchange (.slot a (.inl x)) = .ok (o, m') ∧
      Ready P rank a rest (o.toList ++ temps) m' ∧ ∀ c, o = some c → rank a < rank c := by
  obtain ⟨o, m', hok, howned, hq, hread, hlive, hholds⟩ :=
    exchange_spec h.owned (show m.HasPlace (.slot a (.inl x)) from h.live)
  refine ⟨o, m', hok, h.quiet howned hq ⟨fun {r c} hr => Or.inr ?_, fun {c} hc => ?_⟩ ?_
    fun x hx _ => (hlive x).mpr hx, ?_⟩
  · exact ⟨r, ((hholds r c).mp hr).2, fun _ w hq => ⟨w, hq⟩⟩
  · rcases List.mem_append.mp hc with hc | hc
    · exact Or.inr ⟨_, (hread c).mpr (Option.mem_toList.mp hc), fun p w hq => by simp at hq⟩
    · exact Or.inl hc
  · exact fun x f hx _ => Or.inl (Option.some.inj hx).symm
  · exact fun c hc => h.owned.forest.ranked ((hread c).mpr hc) rfl

theorem Ready.write {o : Option Addr} (h : Ready P rank a rest (o.toList ++ temps) m) {s : Slot L}
    (hempty : ∀ b, ¬ m.graph.holds (.slot a s) b) (hrank : ∀ c, o = some c → rank a < rank c) :
    ∃ m', m.write (.slot a s) o = .ok m' ∧ Ready P rank a rest temps m' := by
  obtain ⟨m', hok, howned, hq, hlive, hholds⟩ := store_spec h.owned
    (show m.HasPlace (.slot a s) from h.live) hempty
    fun x c hx hc => (Option.some.inj hx : a = x) ▸ hrank c hc
  refine ⟨m', hok, h.quiet howned hq ⟨fun {r c} hr => ?_, fun hc => Or.inl ?_⟩ ?_
    fun x hx _ => (hlive x).mpr hx⟩
  · rcases (hholds r c).mp hr with hr | ⟨_, hc⟩
    · exact Or.inr ⟨r, hr, fun _ w hq => ⟨w, hq⟩⟩
    · exact Or.inl (List.mem_append_left _ (Option.mem_toList.mpr hc))
  · exact List.mem_append_right _ hc
  · exact fun x f hx _ => Or.inl (Option.some.inj hx).symm

/-- A call in a body: the new frame ranks just above the caller, and below all that the
caller owned. -/
theorem Ready.create (h : Ready P rank a rest [] m) (kind : Kind) (body : L.Code)
    (args : List (L.Local × L.Local)) :
    ∃ rank' m', bindArgs m.next (args.map fun p => (p.1, .slot a (.inl p.2)))
        (m.create kind body).2 = .ok m' ∧
      Ready P rank' a rest [m.next] m' ∧ rank' a < rank' m.next := by
  have hane : a ≠ m.next := Nat.ne_of_lt (h.owned.lt_next h.live)
  obtain ⟨rank', howned₁, hlt, habove⟩ := create_above h.owned h.live kind body
  obtain ⟨f, c, hf, hpt⟩ := h.running
  have h₁ : Ready P rank' a rest [m.next] (m.create kind body).2 := by
    refine ⟨howned₁, hP.create h.kept h.owned kind body, h.stack, f, c, ?_, hpt⟩
    exact (Function.update_of_ne hane _ _).trans hf
  let places : List (L.Local × Place L) := args.map fun p => (p.1, .slot a (.inl p.2))
  have hplaces : ∀ q ∈ places, (∃ x : L.Local, q.2 = .slot a (.inl x)) ∧
      (m.create kind body).2.HasPlace q.2 ∧
      (∀ x, q.2.home = some x → rank' x ≤ rank' m.next) ∧
      ∀ d, (m.create kind body).2.graph.holds q.2 d → rank' m.next < rank' d := by
    intro q hq
    obtain ⟨p, _, rfl⟩ := List.mem_map.mp hq
    refine ⟨⟨p.2, rfl⟩, h₁.live, fun x hx => ?_, fun d hd => ?_⟩
    · obtain rfl : a = x := Option.some.inj hx
      exact Nat.le_of_lt hlt
    · have hd' := (create_holds h.owned kind body _ d).mp hd
      exact habove d (h.owned.forest.held_live hd') (h.owned.forest.ranked hd' rfl)
  obtain ⟨m', hok, howned', hq, hlive', _, hholds'⟩ := bindArgs_spec howned₁
    (fun r g hg hr => Nat.le_trans (h₁.rank_le hg hr) (Nat.le_of_lt hlt))
    fun q hq => (hplaces q hq).2
  refine ⟨rank', m', hok, h₁.quiet howned' hq ⟨fun {r d} hr => Or.inr ?_, Or.inl⟩ ?_ ?_, hlt⟩
  · rcases hholds' r d hr with hr | ⟨q, hqmem, hd⟩
    · exact ⟨r, hr, fun _ w hq => ⟨w, hq⟩⟩
    · obtain ⟨x, hx⟩ := (hplaces q hqmem).1
      exact ⟨q.2, hd, fun p w hpw => by simp [hx] at hpw⟩
  · rintro x g (rfl | ⟨q, hqmem, hx⟩) hg
    · refine Or.inr ⟨body, ?_, Nat.le_of_lt hlt⟩
      have hself : (m.create kind body).2.heap m.next = some (.fresh kind body) :=
        Function.update_self _ _ _
      rw [hself, Option.some.injEq] at hg
      rw [← hg]
      rfl
    · obtain ⟨y, hy⟩ := (hplaces q hqmem).1
      rw [hy] at hx
      exact Or.inl (Option.some.inj hx).symm
  · exact fun x hx hle => hlive' x hx (by omega)

/-- What is read of the frame behind a handle. -/
theorem Ready.read (h : Ready P rank a rest temps m) (s : Slot L) :
    (m.read (.slot a s) = .ok none) ∨
      ∃ c g, m.read (.slot a s) = .ok (some c) ∧ m.graph.holds (.slot a s) c ∧
        m.heap c = some g ∧ g.point.isRunning = false := by
  obtain ⟨o, hread, ho⟩ := read_ok (show m.HasPlace (.slot a s) from h.live)
  cases o with
  | none => exact Or.inl hread
  | some c =>
    have hc : m.graph.holds (.slot a s) c := (ho c).mpr rfl
    obtain ⟨g, hg⟩ := h.owned.forest.held_live hc
    refine Or.inr ⟨c, g, hread, hc, hg, ?_⟩
    by_contra hrun
    exact Nat.lt_irrefl _ (h.running_lt hg (by simpa using hrun) hc)

theorem Ready.done (h : Ready P rank a rest temps m) (s : Slot L) :
    ∃ b, m.done (.slot a s) = .ok b := by
  rcases h.read s with hread | ⟨c, g, hread, _, hg, _⟩
  · exact ⟨_, done_of_none hread⟩
  · exact ⟨_, done_of_some hread hg⟩

theorem Ready.result (h : Ready P rank a rest temps m) (s : Slot L) :
    ∃ r, m.result (.slot a s) = .ok r := by
  rcases h.read s with hread | ⟨c, g, hread, _, hg, _⟩
  · exact ⟨_, result_of_none hread⟩
  · rw [result_of_some hread hg]
    cases hfin : g.point.isFinal with
    | true => exact hP.outcome h.kept hg hfin
    | false => exact ⟨_, rfl⟩

/-! ## Resumptions -/

theorem Point.exists_enter {pt : Point L} (hrun : pt.isRunning = false)
    (hfin : pt.isFinal = false) : ∃ pt', pt.enter = some pt' := by
  cases pt <;> simp_all [Point.enter, Point.isRunning, Point.isFinal]

/-- The coroutine `c` runs on top of the others. -/
def Machine.entered (m : Machine L) (c : Addr) (g : Frame L) (pt : Point L) : Machine L :=
  { m.store c { g with point := pt } with stack := c :: m.stack }

/-- The coroutine `a` waits at a `co_await`, and it is the continuation of its child `c`. -/
def Machine.waiting (m : Machine L) (a : Addr) (rest : List Addr) (f : Frame L) (w : L.Aw)
    (k : L.Outcome → L.Code) (c : Addr) (g : Frame L) : Machine L :=
  { m.store a { f with point := .awaiting w k } with stack := rest }.store c
    { g with promise := { g.promise with continuation := some a } }

/-- `start()` in a body runs the coroutine on top of the caller, if it is not completed. -/
theorem Ready.start (h : Ready P rank a rest [] m) (s : Slot L)
    (henter : ∀ c g, m.graph.holds (.slot a s) c → m.heap c = some g →
      g.point.isRunning = false → g.point.isFinal = false →
      ∃ pt, g.point.enter = some pt ∧ P (m.entered c g pt)) :
    ∃ r m', m.start (.slot a s) = .ok (r, m') ∧ Owned rank m' [] ∧ P m' ∧
      ∃ f, m'.heap a = some f ∧ f.point.isRunning = true := by
  rcases h.read s with hread | ⟨c, g, hread, hc, hg, hidle⟩
  · exact ⟨_, m, start_of_none hread, h.owned, h.kept, h.head⟩
  · have hstart := start_of_some hread hg
    cases hfin : g.point.isFinal with
    | true =>
      rw [hfin] at hstart
      exact ⟨_, m, hstart, h.owned, h.kept, h.head⟩
    | false =>
      obtain ⟨pt, hpt, hentered⟩ := henter c g hc hg hidle hfin
      obtain ⟨f, hf, hrun⟩ := h.head
      rw [hfin, resume_of_enter hg hpt] at hstart
      refine ⟨_, _, hstart, ?_, hentered, f, ?_, hrun⟩
      · exact h.owned.sameHandles (sameHandles_replace hg rfl rfl rfl rfl rfl)
      · exact (Function.update_of_ne (h.held_ne hc).symm _ _).trans hf

/-- A `co_await` goes on if its child is completed, and otherwise runs the child in place of
the caller. -/
theorem Ready.await (h : Ready P rank a rest [] m) (w : L.Aw) (k : L.Outcome → L.Code)
    (hready : ∀ f, m.heap a = some f → f.point.isRunning = true →
      (∀ c, f.slots (.inr w) = some c → ∃ g, m.heap c = some g ∧ g.point.isFinal = true) →
      P (m.store a { f with point := .resumed w k }))
    (hwait : ∀ f c g, m.heap a = some f → f.slots (.inr w) = some c → m.heap c = some g →
      c ≠ a → g.point.isRunning = false → g.point.isFinal = false →
      ∃ pt, g.point.enter = some pt ∧ P ((m.waiting a rest f w k c g).entered c
        { g with promise := { g.promise with continuation := some a } } pt)) :
    ∃ m', m.perform a rest (.await w k) = .ok m' ∧ Settled P m' := by
  obtain ⟨f, hf, hrun⟩ := h.head
  -- The two cases in which `await_ready()` holds.
  have hgoes : m.awaitReady (.slot a (.inr w)) = .ok true →
      (∀ c, f.slots (.inr w) = some c → ∃ g, m.heap c = some g ∧ g.point.isFinal = true) →
      ∃ m', m.perform a rest (.await w k) = .ok m' ∧ Settled P m' := fun hr hfinal =>
    ⟨_, await_of_ready hf hr, rank,
      h.owned.sameHandles (sameHandles_replace hf rfl rfl rfl rfl rfl), hready f hf hrun hfinal⟩
  rcases h.read (.inr w) with hread | ⟨c, g, hread, hc, hg, hidle⟩
  · refine hgoes (awaitReady_of_none hread) fun c hc => ?_
    rw [read_slot hf, hc] at hread
    cases hread
  · have hslot : f.slots (.inr w) = some c := by
      obtain ⟨f₁, hf₁, hc₁⟩ := hc
      exact Option.some.inj (hf.symm.trans hf₁) ▸ hc₁
    cases hfin : g.point.isFinal with
    | true =>
      refine hgoes (by rw [awaitReady_of_some hread hg, hfin]) fun d hd => ?_
      obtain rfl : c = d := Option.some.inj (hslot.symm.trans hd)
      exact ⟨g, hg, hfin⟩
    | false =>
      have hca : c ≠ a := h.held_ne hc
      obtain ⟨pt, hpt, hentered⟩ := hwait f c g hf hslot hg hca hidle hfin
      let m₁ : Machine L := { m.store a { f with point := .awaiting w k } with stack := rest }
      let m₂ : Machine L := m.waiting a rest f w k c g
      have hg₁ : m₁.heap c = some g := (Function.update_of_ne hca _ _).trans hg
      have hg₂ : m₂.heap c = some { g with promise := { g.promise with continuation := some a } } :=
        Function.update_self _ _ _
      have hs₁ : SameHandles m m₁ := sameHandles_replace hf rfl rfl rfl rfl rfl
      have hs₂ : SameHandles m₁ m₂ := sameHandles_replace hg₁ rfl rfl rfl rfl rfl
      refine ⟨_, ?_, rank, ?_, hentered⟩
      · rw [await_of_not_ready hf hslot hca hg hfin]
        exact resume_of_enter hg₂ hpt
      · exact ((h.owned.sameHandles hs₁).sameHandles hs₂).sameHandles
          (sameHandles_replace hg₂ rfl rfl rfl rfl rfl)

/-! ## The end of a statement and of a body -/

/-- A running coroutine goes on with its body. -/
theorem goto_kept {f : Frame L} (ho : Owned rank m []) (h : P m)
    (hf : m.heap a = some f) (hrun : f.point.isRunning = true) (code : L.Code) :
    ∃ m', m.goto a code = .ok m' ∧ Settled P m' :=
  ⟨_, setPoint_ok hf _, rank, ho.sameHandles (sameHandles_replace hf rfl rfl rfl rfl rfl),
    hP.stay h hf hrun rfl rfl rfl⟩

/-- A coroutine past the suspension of a `co_await` takes the outcome of its child. -/
theorem awaitResume_kept {f : Frame L} {w : L.Aw} {k : L.Outcome → L.Code} (ho : Owned rank m [])
    (h : P m) (hf : m.heap a = some f) (hpt : f.point = .resumed w k)
    (hchild : ∀ c g, f.slots (.inr w) = some c → m.heap c = some g →
      ∃ r, g.outcome = .ok r ∧ P (m.store c g.moveOut)) :
    ∃ m', (m.awaitResume (.slot a (.inr w)) >>= fun p => p.2.goto a (k p.1)) = .ok m' ∧
      Settled P m' := by
  have hrun : f.point.isRunning = true := by
    rw [hpt]
    rfl
  have hread := read_slot hf (.inr w)
  cases hs : f.slots (.inr w) with
  | none =>
    rw [hs] at hread
    obtain ⟨m', hgoto, hkept⟩ := goto_kept ho h hf hrun (k (.error .emptyAwait))
    exact ⟨m', (bind_of_ok (awaitResume_of_none hread) _).trans hgoto, hkept⟩
  | some c =>
    rw [hs] at hread
    have hca : a ≠ c := by
      rintro rfl
      exact Nat.lt_irrefl _ (ho.forest.ranked (holds_slot hf hs) rfl)
    obtain ⟨g, hg⟩ := ho.forest.held_live (holds_slot hf hs)
    obtain ⟨r, hr, h₁⟩ := hchild c g hs hg
    have ho₁ : Owned rank (m.store c g.moveOut) [] :=
      ho.sameHandles (sameHandles_replace hg rfl g.moveOut_slots rfl rfl rfl)
    obtain ⟨m', hgoto, hkept⟩ :=
      goto_kept ho₁ h₁ ((Function.update_of_ne hca _ _).trans hf) hrun (k r)
    have hresume : m.awaitResume (.slot a (.inr w)) = .ok (r, m.store c g.moveOut) := by
      rw [awaitResume_of_some hread hg, hr]
      rfl
    exact ⟨m', (bind_of_ok hresume _).trans hgoto, hkept⟩

/-- A statement that has done its work goes on with the rest of the body. -/
theorem Ready.then_goto {m₁ : Machine L} {i : Instr L.Code L.Local L.Aw L.Val L.Exc L.Op L.Resp}
    (h₁ : Ready P rank a rest [] m₁) (code : L.Code)
    (hperform : m.perform a rest i = m₁.goto a code) :
    ∃ m', m.perform a rest i = .ok m' ∧ Settled P m' := by
  obtain ⟨f, hf, hrun⟩ := h₁.head
  rw [hperform]
  exact goto_kept h₁.owned h₁.kept hf hrun code

/-- The end of a body empties its scope. -/
theorem Ready.leaveScope {f : Frame L} (h : Ready P rank a rest [] m) (hf : m.heap a = some f) :
    ∃ m', m.leaveScope a = .ok m' ∧ Ready P rank a rest [] m' ∧ m'.heap a = some f.leave := by
  obtain ⟨m', hok, howned, hq, hlive⟩ := leaveScope_spec h.owned ⟨f, hf⟩
    fun r g hg hr => h.rank_le hg hr
  obtain ⟨g, hg, hdestroy⟩ := bind_eq_ok hok
  obtain rfl : f = g := Option.some.inj (hf.symm.trans (frame_eq_ok hg))
  have hshrunk := shrunk_of_destroyAll hdestroy
  refine ⟨m', hok, h.quiet howned hq ?_ (fun x _ hx _ => Or.inl hx) hlive, ?_⟩
  · exact moves_of_holds (fun hc => hc) fun q c hc =>
      (leave_spec h.owned hf).2.2.2 q c (hshrunk.holds hc)
  · obtain ⟨f', hf'⟩ := hlive a h.live (Nat.le_refl _)
    have hself : (m.store a f.leave).heap a = some f.leave := Function.update_self _ _ _
    rw [hf', ← hshrunk.heap hf', hself]

/-- A change of the promise that leaves the continuation alone. -/
theorem Ready.promise {f : Frame L} (h : Ready P rank a rest [] m) (hf : m.heap a = some f)
    {p : Promise L} (hcont : p.continuation = f.promise.continuation) :
    Ready P rank a rest [] (m.store a { f with promise := p }) := by
  obtain ⟨f₀, c₀, hf₀, hpt⟩ := h.running
  obtain rfl : f = f₀ := Option.some.inj (hf.symm.trans hf₀)
  have hrun : f.point.isRunning = true := by
    rw [hpt]
    rfl
  exact ⟨h.owned.sameHandles (sameHandles_replace hf rfl rfl rfl rfl rfl),
    hP.stay h.kept hf hrun hpt rfl hcont, h.stack, _, c₀, Function.update_self _ _ _, hpt⟩

theorem Frame.leave_scoped (f : Frame L) (s : Slot L) (hs : s.scoped = true) :
    f.leave.slots s = none := if_pos hs

theorem Ready.coReturn (h : Ready P rank a rest [] m) (r : Except (Exn L.Exc) L.Val)
    (k : Exn L.Exc → L.Code) :
    ∃ m', m.perform a rest (.coReturn r k) = .ok m' ∧ Settled P m' := by
  obtain ⟨f, c₀, hf, hpt⟩ := h.running
  obtain ⟨hframe, hcont⟩ := returnValue_frame f r
  have h₁ : Ready P rank a rest [] (m.store a (returnValue f r).1) := by
    rw [hframe]
    exact h.promise hf hcont
  rw [coReturn_eq hf]
  cases hthrown : (returnValue f r).2 with
  | some e =>
    obtain ⟨f₁, hf₁, hrun₁⟩ := h₁.head
    exact goto_kept h₁.owned h₁.kept hf₁ hrun₁ (k e)
  | none =>
    have hf₁ : (m.store a (returnValue f r).1).heap a = some (returnValue f r).1 :=
      Function.update_self _ _ _
    obtain ⟨m₂, hleave, h₂, hf₂⟩ := h₁.leaveScope hf₁
    have hout : ∃ o, (returnValue f r).1.leave.outcome = .ok o := by
      rw [Frame.outcome]
      cases hk : f.kind with
      | void => cases he : f.promise.exception <;> simp [returnValue, hk, he, Frame.leave]
      | value =>
        cases r with
        | ok v => cases he : f.promise.exception <;> simp [returnValue, hk, he, Frame.leave]
        | error e => simp [returnValue, hk] at hthrown
    obtain ⟨m', hfinal, hkept⟩ := hP.finalSuspend h₂ hf₂ hout (Frame.leave_scoped _)
    exact ⟨m', (bind_of_ok hleave _).trans hfinal, hkept⟩

theorem Ready.throw (h : Ready P rank a rest [] m) (e : Exn L.Exc) :
    ∃ m', m.perform a rest (.throw e) = .ok m' ∧ Settled P m' := by
  obtain ⟨f, c₀, hf, hpt⟩ := h.running
  obtain ⟨m₁, hleave, h₁, hf₁⟩ := h.leaveScope hf
  let p : Promise L := { f.leave.promise with exception := some e }
  have h₂ : Ready P rank a rest [] (m₁.store a { f.leave with promise := p }) := h₁.promise hf₁ rfl
  obtain ⟨m', hfinal, hkept⟩ := hP.finalSuspend h₂ (Function.update_self _ _ _) ⟨_, rfl⟩
    (Frame.leave_scoped f)
  refine ⟨m', ?_, hkept⟩
  rw [perform, bind_of_ok hleave, bind_of_ok (unhandledException_ok hf₁ e)]
  exact hfinal

/-- A statement of a running body, if what its `start()` enters, or its `co_await`, keeps the
invariant. -/
theorem Ready.perform (h : Ready P rank a rest [] m)
    (i : Instr L.Code L.Local L.Aw L.Val L.Exc L.Op L.Resp)
    (hstart : ∀ x k, i = .start x k → ∀ c g, m.graph.holds (.slot a (.inl x)) c →
      m.heap c = some g → g.point.isRunning = false → g.point.isFinal = false →
      ∃ pt, g.point.enter = some pt ∧ P (m.entered c g pt))
    (hawait : ∀ w k, i = .await w k →
      ∃ m', m.perform a rest i = .ok m' ∧ Settled P m') :
    ∃ m', m.perform a rest i = .ok m' ∧ Settled P m' := by
  cases i with
  | effect op k =>
    obtain ⟨f, hf, hrun⟩ := h.head
    let m₁ : Machine L := { m with mem := (L.act op m.mem).2, log := m.log ++ [op] }
    have hsame : SameHandles m m₁ := ⟨fun _ => rfl, rfl, rfl, rfl⟩
    have h₁ : P m₁ := hP.congr h.kept rfl rfl
    exact goto_kept (h.owned.sameHandles hsame) h₁ hf hrun (k (L.act op m.mem).1)
  | suspend k =>
    obtain ⟨f, hf, _⟩ := h.head
    refine ⟨{ m.store a { f with point := .external k } with stack := rest }, ?_, rank,
      h.owned.sameHandles (sameHandles_replace hf rfl rfl rfl rfl rfl), hP.suspend h hf k⟩
    rw [Machine.perform, bind_of_ok (setPoint_ok hf _)]
  | call x kind body args k =>
    obtain ⟨rank', m₁, hbind, h₁, hlt⟩ := h.create kind body args
    obtain ⟨m₂, hreset, h₂, hempty⟩ := h₁.reset (.inl x)
    have h₂' : Ready P rank' a rest ((some m.next).toList ++ []) m₂ := h₂
    obtain ⟨m₃, hwrite, h₃⟩ := h₂'.write hempty fun c hc => Option.some.inj hc ▸ hlt
    refine h₃.then_goto k ?_
    have hcreate : m.create kind body = (m.next, (m.create kind body).2) := rfl
    rw [Machine.perform, hcreate]
    simp only [bind_of_ok hbind, bind_of_ok hreset, bind_of_ok hwrite]
  | move x y k =>
    obtain ⟨m₁, hmove, h₁⟩ := h.moveAssign (s := .inl x) (t := .inl y) fun w hw => by cases hw
    exact h₁.then_goto k (by rw [Machine.perform, bind_of_ok hmove])
  | drop x k =>
    obtain ⟨m₁, hreset, h₁, _⟩ := h.reset (.inl x)
    exact h₁.then_goto k (by rw [Machine.perform, bind_of_ok hreset])
  | start x k =>
    obtain ⟨r, m₁, hok, ho₁, h₁, f, hf, hrun⟩ := h.start (.inl x) (hstart x k rfl)
    rw [Machine.perform, bind_of_ok hok]
    exact goto_kept ho₁ h₁ hf hrun (k r)
  | done x k =>
    obtain ⟨b, hdone⟩ := h.done (.inl x)
    exact h.then_goto (k b) (by rw [Machine.perform, bind_of_ok hdone])
  | result x k =>
    obtain ⟨r, hresult⟩ := h.result (.inl x)
    exact h.then_goto (k r) (by rw [Machine.perform, bind_of_ok hresult])
  | coAwait w x k =>
    obtain ⟨o, m₁, hex, h₁, hlt⟩ := h.exchange x
    obtain ⟨m₂, hreset, h₂, hempty⟩ := h₁.reset (.inr w)
    obtain ⟨m₃, hwrite, h₃⟩ := h₂.write hempty hlt
    refine h₃.then_goto k ?_
    rw [Machine.perform, bind_of_ok hex]
    simp only [bind_of_ok hreset, bind_of_ok hwrite]
  | moveAwaiter w v k =>
    obtain ⟨m₁, hmove, h₁⟩ := h.moveAssign (s := .inr w) (t := .inr v) fun _ _ => ⟨w, rfl⟩
    exact h₁.then_goto k (by rw [Machine.perform, bind_of_ok hmove])
  | dropAwaiter w k =>
    obtain ⟨m₁, hreset, h₁, _⟩ := h.reset (.inr w)
    exact h₁.then_goto k (by rw [Machine.perform, bind_of_ok hreset])
  | await w k => exact hawait w k rfl
  | coReturn r k => exact h.coReturn r k
  | throw e => exact h.throw e

/-- The innermost running coroutine is at a statement or past the suspension of a
`co_await`. -/
theorem head_of_kept (h : P m) (hst : m.stack = a :: rest) :
    ∃ f, m.heap a = some f ∧
      ((∃ c, f.point = .running c) ∨ ∃ w k, f.point = .resumed w k) := by
  have hmem : a ∈ m.stack := by
    rw [hst]
    exact List.mem_cons_self
  obtain ⟨f, hf⟩ := hP.stack_live h hmem
  have hrun := (hP.running_iff h hf).mpr hmem
  refine ⟨f, hf, ?_⟩
  cases hpt : f.point with
  | running c => exact Or.inl ⟨c, rfl⟩
  | resumed w k => exact Or.inr ⟨w, k, rfl⟩
  | initial c => rw [hpt] at hrun; cases hrun
  | external c => rw [hpt] at hrun; cases hrun
  | awaiting w k => rw [hpt] at hrun; cases hrun
  | final => rw [hpt] at hrun; cases hrun

/-! ## The driver -/

theorem not_running_of_idle (h : P m) (hst : m.stack = []) {r : Addr} {f : Frame L}
    (hf : m.heap r = some f) : f.point.isRunning = false := by
  by_contra hr
  have hmem := (hP.running_iff h hf).mp (by simpa using hr)
  rw [hst] at hmem
  exact absurd hmem List.not_mem_nil

/-- The driver changes Task variables while no coroutine runs. -/
theorem quiet_idle {T : Addr → Prop} {rank' : Addr → Nat} (h : P m) (hst : m.stack = [])
    (ho : Owned rank m temps) (ho' : Owned rank' m' temps') (hq : Quiet T m m')
    (hm : Moves temps temps' m m')
    (hT : ∀ x f, T x → m.heap x = some f → ∃ c, f.point = .initial c) : P m' := by
  have hnone : ∀ b, b ∉ m.stack := by simp [hst]
  refine hP.quiet h ho ho' hq hm (fun x f hx hf => Or.inr ?_) fun b hb => absurd hb (hnone b)
  obtain ⟨c, hc⟩ := hT x f hx hf
  exact ⟨c, hc, fun b hb => absurd hb (hnone b)⟩

/-- A call by the driver: the new frame ranks below all others. -/
theorem create_kept (ho : Owned rank m []) (h : P m) (hst : m.stack = []) {v : L.Var}
    (hv : m.vars v = none) (kind : Kind) (body : L.Code) (args : List (L.Local × L.Var)) :
    ∃ m', m.drive (.create v kind body args) = .ok m' ∧ Settled P m' ∧
      Quiet (fun x => x = m.next) (m.create kind body).2 m' ∧
      ∀ q c, m'.graph.holds q c → m.graph.holds q c ∨ (∃ p ∈ args, m.graph.holds (.var p.2) c) ∨
        q = .var v := by
  obtain ⟨rank', ho₁, hlowest⟩ := create_lowest ho kind body
  have h₁ : P (m.create kind body).2 := hP.create h ho kind body
  have hst₁ : (m.create kind body).2.stack = [] := hst
  let places : List (L.Local × Place L) := args.map fun p => (p.1, .var p.2)
  have hplaces : ∀ q ∈ places, (∃ u, q.2 = .var u) ∧ (m.create kind body).2.HasPlace q.2 ∧
      (∀ x, q.2.home = some x → rank' x ≤ rank' m.next) ∧
      ∀ d, (m.create kind body).2.graph.holds q.2 d → rank' m.next < rank' d := by
    intro q hq
    obtain ⟨p, _, rfl⟩ := List.mem_map.mp hq
    refine ⟨⟨p.2, rfl⟩, trivial, fun x hx => absurd hx var_home_ne, fun d hd => ?_⟩
    exact hlowest d (ho.forest.held_live ((create_holds ho kind body _ d).mp hd))
  obtain ⟨m₂, hbind, ho₂, hq₂, _, hvars₂, hheld₂⟩ := bindArgs_spec ho₁
    (fun r g hg hr => by simp [not_running_of_idle h₁ hst₁ hg] at hr) fun q hq => (hplaces q hq).2
  have ho₂' : Owned rank' m₂ ((some m.next).toList ++ []) := ho₂
  obtain ⟨m', hwrite, ho', hq', _, hholds'⟩ := store_spec ho₂' (show m₂.HasPlace (.var v) from trivial)
    (fun b hb => by
      have hvb : m.vars v = some (some b) := hvars₂ v b hb
      rw [hv] at hvb
      cases hvb)
    fun x c hx _ => absurd hx var_home_ne
  have hq : Quiet (fun x => x = m.next) (m.create kind body).2 m' := by
    refine (hq₂.mono ?_).trans (hq'.mono fun x hx => absurd hx var_home_ne)
    rintro x (rfl | ⟨q, hq, hx⟩)
    · rfl
    · obtain ⟨p, _, rfl⟩ := List.mem_map.mp hq
      exact absurd hx var_home_ne
  -- The frame of the call is in a temporary until the variable gets it.
  have hmoves : Moves [m.next] [] (m.create kind body).2 m' := by
    refine ⟨fun {r c} hr => ?_, fun hc => absurd hc List.not_mem_nil⟩
    rcases (hholds' r c).mp hr with hr | ⟨_, hc⟩
    · rcases hheld₂ r c hr with hr | ⟨q, hqmem, hc⟩
      · exact Or.inr ⟨r, hr, fun _ w hq => ⟨w, hq⟩⟩
      · obtain ⟨u, hu⟩ := (hplaces q hqmem).1
        exact Or.inr ⟨_, hc, fun p w hq => absurd (hu.symm.trans hq) (var_not_awaiter p w)⟩
    · exact Or.inl (List.mem_singleton.mpr (Option.some.inj hc).symm)
  refine ⟨m', ?_, ⟨rank', ho', quiet_idle h₁ hst₁ ho₁ ho' hq hmoves ?_⟩, hq, ?_⟩
  · have hcreate : m.create kind body = (m.next, (m.create kind body).2) := rfl
    rw [Machine.drive, hcreate]
    exact (bind_of_ok hbind _).trans hwrite
  · rintro x f rfl hf
    have hself : (m.create kind body).2.heap m.next = some (.fresh kind body) :=
      Function.update_self _ _ _
    rw [hself, Option.some.injEq] at hf
    exact ⟨body, by rw [← hf]; rfl⟩
  · intro q c hc
    rcases (hholds' q c).mp hc with hc | ⟨hq, _⟩
    · rcases hheld₂ q c hc with hc | ⟨p, hp, hc⟩
      · exact Or.inl ((create_holds ho kind body q c).mp hc)
      · obtain ⟨p₀, hp₀, rfl⟩ := List.mem_map.mp hp
        exact Or.inr (Or.inl ⟨p₀, hp₀, (create_holds ho kind body _ c).mp hc⟩)
    · exact Or.inr (Or.inr hq)

/-- The constructor from a Task moves what it owns to another variable. -/
theorem moveConstruct_kept (ho : Owned rank m []) (h : P m) (hst : m.stack = []) {v w : L.Var}
    (hv : m.vars v = none) :
    ∃ m', m.drive (.moveConstruct v w) = .ok m' ∧ Settled P m' := by
  obtain ⟨o, m₁, hex, ho₁, hq₁, hread₁, _, hholds₁⟩ :=
    exchange_spec ho (show m.HasPlace (.var w) from trivial)
  have hempty : ∀ b, ¬ m₁.graph.holds (.var v) b := by
    intro b hb
    have hvb : m.vars v = some (some b) := ((hholds₁ _ b).mp hb).2
    rw [hv] at hvb
    cases hvb
  obtain ⟨m', hwrite, ho', hq', _, hholds'⟩ := store_spec ho₁
    (show m₁.HasPlace (.var v) from trivial) hempty fun x c hx _ => absurd hx var_home_ne
  refine ⟨m', ?_, rank, ho', quiet_idle h hst ho ho' (hq₁.trans hq')
    ⟨fun {r c} hr => ?_, Or.inl⟩ fun x f hx _ => absurd hx var_home_ne⟩
  · rw [Machine.drive, bind_of_ok hex]
    exact hwrite
  · rcases (hholds' r c).mp hr with hr | ⟨_, hc⟩
    · exact Or.inr ⟨r, ((hholds₁ r c).mp hr).2, fun _ w hq => ⟨w, hq⟩⟩
    · exact Or.inr ⟨_, (hread₁ c).mpr hc, fun p w hq => absurd hq (var_not_awaiter p w)⟩

/-- The destructor of a Task frees what it owns, and the variable is gone. -/
theorem destroy_kept (ho : Owned rank m []) (h : P m) (hst : m.stack = []) (v : L.Var) :
    ∃ m', m.drive (.destroy v) = .ok m' ∧ Settled P m' := by
  obtain ⟨m₁, hreset, ho₁, hq, hholds, _⟩ := reset_spec ho (show m.HasPlace (.var v) from trivial)
    fun r f c hf hr _ => by simp [not_running_of_idle h hst hf] at hr
  have h₁ : P m₁ := quiet_idle h hst ho ho₁ hq
    (moves_of_holds (fun hc => hc) fun q c hc => ((hholds q c).mp hc).2.1)
    fun x f hx _ => absurd hx var_home_ne
  refine ⟨{ m₁ with vars := Function.update m₁.vars v none }, ?_, rank,
    ho₁.setVar (fun b hb => ((hholds _ b).mp hb).1 rfl) rfl, hP.congr h₁ rfl rfl⟩
  rw [Machine.drive, bind_of_ok hreset]

/-- An operation of the driver, if what it enters keeps the invariant. -/
theorem drive_kept (ho : Owned rank m []) (h : P m) (hst : m.stack = []) {op : DriverOp L}
    (hen : op.Enabled m)
    (hresume : ∀ c g, (∃ v, op = .start v ∧ m.graph.holds (.var v) c) ∨
        (op = .resume c ∧ ∃ k, g.point = .external k) →
      m.heap c = some g → g.point.isRunning = false → g.point.isFinal = false →
      ∃ pt, g.point.enter = some pt ∧ P (m.entered c g pt)) :
    ∃ m', m.drive op = .ok m' ∧ Settled P m' := by
  have hrun : ∀ r f, m.heap r = some f → ¬ f.point.isRunning = true := by
    intro r f hf hr
    simp [not_running_of_idle h hst hf] at hr
  have henter : ∀ {c g pt}, m.heap c = some g → g.point.enter = some pt ∧ P (m.entered c g pt) →
      ∃ m', m.resume c = .ok m' ∧ Settled P m' := fun hg hpt =>
    ⟨_, resume_of_enter hg hpt.1, rank,
      ho.sameHandles (sameHandles_replace hg rfl rfl rfl rfl rfl), hpt.2⟩
  cases op with
  | create v kind body args =>
    obtain ⟨m', hok, hkept, _⟩ := create_kept ho h hst hen.1 kind body args
    exact ⟨m', hok, hkept⟩
  | defaultConstruct v =>
    have hempty : ∀ b, ¬ m.graph.holds (.var v) b := by
      intro b hb
      have hv : m.vars v = none := hen
      rw [graph_holds_var, hv] at hb
      cases hb
    have ho' : Owned rank m ((none : Option Addr).toList ++ []) := ho
    obtain ⟨m', hwrite, ho₁, hq, _, hholds⟩ := store_spec ho' (show m.HasPlace (.var v) from trivial)
      hempty fun x c hx _ => absurd hx var_home_ne
    refine ⟨m', hwrite, rank, ho₁, quiet_idle h hst ho ho₁ hq
      (moves_of_holds (fun hc => hc) fun q c hc => ?_) fun x f hx _ => absurd hx var_home_ne⟩
    rcases (hholds q c).mp hc with hc | ⟨_, hc⟩
    · exact hc
    · cases hc
  | moveConstruct v w => exact moveConstruct_kept ho h hst hen.1
  | moveAssign v w =>
    obtain ⟨m', hok, ho', hq, hholds, _⟩ := moveAssign_spec ho (show m.HasPlace (.var v) from trivial)
      (show m.HasPlace (.var w) from trivial) (fun r f c hf hr => absurd hr (hrun r f hf))
      (fun x c hx => absurd hx var_home_ne) fun x c hx => absurd hx var_home_ne
    refine ⟨m', hok, rank, ho', quiet_idle h hst ho ho' hq ⟨fun {r c} hr => Or.inr ?_, Or.inl⟩
      fun x f hx _ => hx.elim (fun hx => absurd hx var_home_ne) fun hx => absurd hx var_home_ne⟩
    rcases hholds r c hr with hr | ⟨_, hc⟩
    · exact ⟨r, hr, fun _ w hq => ⟨w, hq⟩⟩
    · exact ⟨_, hc, fun p w hq => absurd hq (var_not_awaiter p w)⟩
  | destroy v => exact destroy_kept ho h hst v
  | start v =>
    obtain ⟨o, hread, hheld⟩ := read_ok (show m.HasPlace (.var v) from trivial)
    cases o with
    | none =>
      refine ⟨m, ?_, rank, ho, h⟩
      rw [Machine.drive, bind_of_ok (start_of_none hread)]
    | some c =>
      have hc : m.graph.holds (.var v) c := (hheld c).mpr rfl
      obtain ⟨g, hg⟩ := ho.forest.held_live hc
      rw [drive_start hread hg]
      cases hfin : g.point.isFinal with
      | true => exact ⟨m, rfl, rank, ho, h⟩
      | false =>
        obtain ⟨pt, hpt⟩ := hresume c g (Or.inl ⟨v, rfl, hc⟩) hg (not_running_of_idle h hst hg) hfin
        exact henter hg hpt
  | resume a =>
    obtain ⟨f, c, hf, hfpt⟩ := hen
    obtain ⟨pt, hpt⟩ := hresume a f (Or.inr ⟨rfl, c, hfpt⟩) hf (not_running_of_idle h hst hf)
      (by rw [hfpt]; rfl)
    exact henter hf hpt

end Statements

end VixStandard.Task
