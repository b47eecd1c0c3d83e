import VixStandard.Task.Discipline
import VixStandard.Task.Program

/-!
# What a `co_await` waits for

A coroutine that is past the suspension of `co_await w` is about to run
`await_resume()` on the child of `w`.  It ought to get there only after the child
has completed; otherwise a `Task<T>` reads a value that is not there, and a
`Task<void>` reports a completion that has not happened.

`start()` breaks this when it is called on a Task whose coroutine is suspended
at a `co_await`: it resumes that coroutine past its unfinished child
(`start_resumes_awaiting_coroutine`).  A `co_await` of such a Task does the same.
No other step does (`await_safe_iff_disciplined`).
-/

namespace VixStandard.Task

open VixStandard.Lib Machine

variable {L : Lang}

/-- Every coroutine past the suspension of a `co_await` has a child that has
completed, or none. -/
def AwaitSafe (m : Machine L) : Prop :=
  ∀ a f w k c, m.heap a = some f → f.point = .resumed w k → f.slots (.inr w) = some c →
    ∃ g, m.heap c = some g ∧ g.point.isFinal = true

theorem awaitSafe_of_inv {m : Machine L} (h : Inv m) : AwaitSafe m := by
  obtain ⟨_, _, hl⟩ := h
  exact fun a f w k c hf hpt hc => hl.resumed hf hpt hc

/-! ## Steps that are not disciplined

They resume a coroutine that waits for a child, and the child is not done. -/

section Undisciplined

variable {rank : Addr → Nat} {m m' : Machine L} {c : Addr} {g : Frame L}

theorem not_awaitSafe {w : L.Aw} {k : L.Outcome → L.Code} {d : Addr} {e : Frame L}
    (hg : m.heap c = some g) (hpt : g.point = .resumed w k) (hs : g.slots (.inr w) = some d)
    (he : m.heap d = some e) (hfin : e.point.isFinal = false) : ¬ AwaitSafe m := by
  intro h
  obtain ⟨e', he', hfin'⟩ := h c g w k d hg hpt hs
  obtain rfl : e = e' := Option.some.inj (he.symm.trans he')
  rw [hfin] at hfin'
  cases hfin'

/-- What a coroutine at a `co_await` waits for. -/
theorem awaiting_child (ho : Owned rank m []) (hl : Linked m) (hg : m.heap c = some g)
    (haw : g.point.isAwaiting = true) :
    ∃ w k d e, g.point = .awaiting w k ∧ g.slots (.inr w) = some d ∧ rank c < rank d ∧
      m.heap d = some e ∧ e.point.isFinal = false := by
  obtain ⟨w, k, hpt⟩ : ∃ w k, g.point = .awaiting w k := by
    cases hpt : g.point <;> simp_all [Point.isAwaiting]
  obtain ⟨d, e, hs, he, hfin, _⟩ := hl.awaiting hg hpt fun hF => hF
  exact ⟨w, k, d, e, hpt, hs, ho.forest.ranked (holds_slot hg hs) rfl, he, hfin⟩

theorem not_awaitSafe_of_drive_start {v : L.Var} (ho : Owned rank m []) (hl : Linked m)
    (hc : m.graph.holds (.var v) c) (hg : m.heap c = some g) (haw : g.point.isAwaiting = true)
    (hok : m.drive (.start v) = .ok m') : ¬ AwaitSafe m' := by
  obtain ⟨w, k, d, e, hpt, hs, hlt, he, hfin⟩ := awaiting_child ho hl hg haw
  have hdc : d ≠ c := fun hdc => Nat.lt_irrefl _ (hdc ▸ hlt)
  have hread : m.read (.var v) = .ok (some c) :=
    congrArg Except.ok (Option.join_eq_some_iff.mpr hc)
  rw [drive_start hread hg, hpt, resume_of_enter hg (by rw [hpt]; rfl)] at hok
  obtain rfl := Except.ok.inj hok
  exact not_awaitSafe (Function.update_self _ _ _) rfl hs
    ((Function.update_of_ne hdc _ _).trans he) hfin

theorem not_awaitSafe_of_start {a : Addr} {rest : List Addr} {f : Frame L} {x : L.Local}
    {k : Except (Exn L.Exc) Unit → L.Code} (ho : Owned rank m []) (hl : Linked m)
    (hf : m.heap a = some f) (hx : f.slots (.inl x) = some c) (hg : m.heap c = some g)
    (haw : g.point.isAwaiting = true) (hok : m.perform a rest (.start x k) = .ok m') :
    ¬ AwaitSafe m' := by
  obtain ⟨w, k', d, e, hpt, hs, hlt, he, hfin⟩ := awaiting_child ho hl hg haw
  have hac : rank a < rank c := ho.forest.ranked (holds_slot hf hx) rfl
  have hdc : d ≠ c := fun hdc => Nat.lt_irrefl _ (hdc ▸ hlt)
  have hca : c ≠ a := fun hca => Nat.lt_irrefl _ (hca ▸ hac)
  have hda : d ≠ a := fun hda => Nat.lt_asymm hac (hda ▸ hlt)
  have hread := read_slot hf (.inl x)
  rw [hx] at hread
  have hstart := start_of_some hread hg
  rw [hpt, resume_of_enter hg (by rw [hpt]; rfl)] at hstart
  rw [perform, bind_of_ok hstart] at hok
  let m₁ : Machine L :=
    { m.store c { g with point := .resumed w k' } with stack := c :: m.stack }
  have hf₁ : m₁.heap a = some f := (Function.update_of_ne hca.symm _ _).trans hf
  have hgoto : m₁.setPoint a (.running (k (.ok ()))) = .ok m' := hok
  rw [setPoint_ok hf₁] at hgoto
  obtain rfl := Except.ok.inj hgoto
  have hc' : (Function.update m.heap c (some { g with point := .resumed w k' })) c =
      some { g with point := .resumed w k' } := Function.update_self _ _ _
  exact not_awaitSafe ((Function.update_of_ne hca _ _).trans hc') rfl hs
    ((Function.update_of_ne hda _ _).trans ((Function.update_of_ne hdc _ _).trans he)) hfin

theorem not_awaitSafe_of_await {a : Addr} {rest : List Addr} {f : Frame L} {v : L.Aw}
    {k : L.Outcome → L.Code} (ho : Owned rank m []) (hl : Linked m)
    (hf : m.heap a = some f) (hv : f.slots (.inr v) = some c) (hg : m.heap c = some g)
    (haw : g.point.isAwaiting = true) (hok : m.perform a rest (.await v k) = .ok m') :
    ¬ AwaitSafe m' := by
  obtain ⟨w, k', d, e, hpt, hs, hlt, he, hfin⟩ := awaiting_child ho hl hg haw
  have hac : rank a < rank c := ho.forest.ranked (holds_slot hf hv) rfl
  have hdc : d ≠ c := fun hdc => Nat.lt_irrefl _ (hdc ▸ hlt)
  have hca : c ≠ a := fun hca => Nat.lt_irrefl _ (hca ▸ hac)
  have hda : d ≠ a := fun hda => Nat.lt_asymm hac (hda ▸ hlt)
  rw [await_of_not_ready hf hv hca hg (by rw [hpt]; rfl),
    resume_of_enter (Function.update_self _ _ _) (by rw [hpt]; rfl)] at hok
  obtain rfl := Except.ok.inj hok
  refine not_awaitSafe (Function.update_self _ _ _) rfl hs ?_ hfin
  exact (Function.update_of_ne hdc _ _).trans
    ((Function.update_of_ne hdc _ _).trans ((Function.update_of_ne hda _ _).trans he))

/-- A step into a safe state was disciplined. -/
theorem disciplined_of_awaitSafe (h : Inv m) {l : Label L} (hok : m.step l = .ok m')
    (hsafe : AwaitSafe m') : Disciplined m l := by
  obtain ⟨rank, ho, hl⟩ := h
  have hno : ∀ {b : Bool}, (b = true → False) → b = false := fun hb => by simpa using hb
  cases l with
  | drive op =>
    cases op with
    | start v =>
      intro c g hc hg
      exact hno fun haw => not_awaitSafe_of_drive_start ho hl hc hg haw hok hsafe
    | _ => trivial
  | exec =>
    intro p hp
    obtain ⟨a, rest, f, code, hst, hf, hpt, rfl⟩ := current_eq_some hp
    have hperform : m.perform a rest (L.next code) = .ok m' :=
      (exec_of_running hst hf hpt).symm.trans hok
    cases hi : L.next code with
    | start x k =>
      rw [hi] at hperform
      rintro c g ⟨f', hf', hc⟩ hg
      obtain rfl : f = f' := Option.some.inj (hf.symm.trans hf')
      exact hno fun haw => not_awaitSafe_of_start ho hl hf hc hg haw hperform hsafe
    | await w k =>
      rw [hi] at hperform
      rintro c g ⟨f', hf', hc⟩ hg
      obtain rfl : f = f' := Option.some.inj (hf.symm.trans hf')
      exact hno fun haw => not_awaitSafe_of_await ho hl hf hc hg haw hperform hsafe
    | _ => trivial

end Undisciplined

/-- A run is safe throughout exactly when all its resumptions go to coroutines
that do not wait for a child.  Such a run never leaves defined behaviour. -/
theorem await_safe_iff_disciplined {mem : L.Mem} {steps : List (Machine L × Label L)}
    {m : Machine L} (hrun : (system L).Run (.start0 mem) steps m) :
    ((∀ s ∈ Transition.states steps m, AwaitSafe s) ↔ ∀ p ∈ steps, Disciplined p.1 p.2) ∧
      ((∀ p ∈ steps, Disciplined p.1 p.2) →
        ∀ l : Label L, l.Enabled m → Disciplined m l → ∃ m', m.step l = .ok m') := by
  constructor
  · have hkeep : ∀ (s : Machine L) (l : Label L) s', Inv s → l.Enabled s → Disciplined s l →
        s.step l = .ok s' → Inv s' := by
      intro s l s' hs hen hd hok
      obtain ⟨s'', hok', hinv⟩ := step_ok hs hen hd
      exact Except.ok.inj (hok'.symm.trans hok) ▸ hinv
    have hbreak : ∀ (s : Machine L) (l : Label L) s', Inv s → l.Enabled s → s.step l = .ok s' →
        AwaitSafe s' → Disciplined s l :=
      fun s l s' hs _ hok hsafe => disciplined_of_awaitSafe hs hok hsafe
    exact hrun.all_good_iff (fun _ => awaitSafe_of_inv) hkeep hbreak (inv_start0 mem)
  · intro hall l hen hd
    obtain ⟨m', hok, _⟩ := step_ok (inv_of_reach (hrun.reach (.init ⟨mem, rfl⟩) hall)) hen hd
    exact ⟨m', hok⟩

/-! ## The step that breaks it -/

/-- The child is resumed by its own handle and completes. -/
def toCompletion (kind : Kind) : List (Label Plain) :=
  toSuspension kind ++ [.drive (.resume 1), .exec]

theorem reach_of_replay (labels : List (Label Plain)) {m : Machine Plain}
    (h : (system Plain).replay Transition.anyStep (.start0 ()) labels = some m) :
    (system Plain).Reach Transition.anyStep m := by
  obtain ⟨steps, hrun, _, hall⟩ := Transition.Run.of_replay h
  exact hrun.reach (.init ⟨(), rfl⟩) hall

/-- A `start()` of a Task that waits for a suspended child resumes it at once.
Its `await_resume()` then reads the value that a `Task<T>` child does not have
yet, or returns although a `Task<void>` child is not done. -/
theorem start_resumes_awaiting_coroutine :
    (∃ m : Machine Plain, (system Plain).Reach Transition.anyStep m ∧ ¬ AwaitSafe m ∧
      Label.exec.Enabled m ∧ m.step .exec = .error .emptyValue) ∧
    ∃ m : Machine Plain, (system Plain).Reach Transition.anyStep m ∧ ¬ AwaitSafe m ∧
      Label.exec.Enabled m ∧ ∃ m', m.step .exec = .ok m' ∧ m'.stack = [0] ∧
        ∃ f, m'.heap 1 = some f ∧ f.point.isFinal = false := by
  have hbad : ∀ (m : Machine Plain) f w k g, m.heap 0 = some f → f.point = .resumed w k →
      f.slots (.inr w) = some 1 → m.heap 1 = some g → g.point.isFinal = false → ¬ AwaitSafe m := by
    intro m f w k g hf hpt hs hg hfin h
    obtain ⟨g', hg', hfin'⟩ := h 0 f w k 1 hf hpt hs
    obtain rfl : g = g' := Option.some.inj (hg.symm.trans hg')
    rw [hfin] at hfin'
    cases hfin'
  have hexec : ([0] : List Addr) ≠ [] := List.cons_ne_nil _ _
  constructor
  · refine ⟨_, reach_of_replay (toSuspension .value ++ [.drive (.start ())]) rfl, ?_⟩
    exact ⟨hbad _ _ () _ _ rfl rfl rfl rfl rfl, hexec, rfl⟩
  · refine ⟨_, reach_of_replay (toSuspension .void ++ [.drive (.start ())]) rfl, ?_⟩
    exact ⟨hbad _ _ () _ _ rfl rfl rfl rfl rfl, hexec, _, rfl, rfl, _, rfl, rfl⟩

/-- In a run in which the child completes first, all states are safe. -/
theorem await_safe_iff_disciplined_toCompletion :
    ∃ steps, ∃ m : Machine Plain, (system Plain).Run (.start0 ()) steps m ∧
      steps.map Prod.snd = toCompletion .value ∧ (∃ f w k, m.heap 0 = some f ∧ f.point = .resumed w k) ∧
      ∀ s ∈ Transition.states steps m, AwaitSafe s := by
  have hreplay : ∃ m : Machine Plain, (system Plain).replay Disciplined (.start0 ())
      (toCompletion .value) = some m ∧ ∃ f w k, m.heap 0 = some f ∧ f.point = .resumed w k :=
    ⟨_, rfl, _, (), _, rfl, rfl⟩
  obtain ⟨m, hm, hpoint⟩ := hreplay
  obtain ⟨steps, hrun, hlabels, hall⟩ := Transition.Run.of_replay hm
  exact ⟨steps, m, hrun, hlabels, hpoint, (await_safe_iff_disciplined hrun).1.mpr hall⟩

end VixStandard.Task
