import Mathlib.Data.List.Basic

/-!
# Transition systems whose steps can fault

A system has initial states, labels that are enabled in some states only, and
a step that either returns the next state or faults.  A guard singles out the
steps that a discipline allows.  `Reach` collects the states that disciplined
steps reach, and `Run` records the steps themselves.

There are two rules.

* `Reach.invariant` is the induction over a disciplined run.
* `Run.all_good_iff` is for a property that a step keeps exactly when its guard
  holds: a run stays inside the property if and only if every step of it meets
  the guard.

`replay` computes the state that given labels lead to, and `Run.of_replay` gives
the run it goes through.
-/

namespace VixStandard.Lib

/-- A transition system over states `σ` and labels `ℓ` that faults with `ε`. -/
structure Transition (σ ℓ ε : Type*) where
  /-- The states a run starts in. -/
  init : σ → Prop
  /-- The labels that a state offers. -/
  enabled : σ → ℓ → Prop
  /-- The effect of a label. -/
  step : σ → ℓ → Except ε σ

namespace Transition

variable {σ ℓ ε : Type*} (T : Transition σ ℓ ε)

/-- The states that steps allowed by `guard` reach. -/
inductive Reach (guard : σ → ℓ → Prop) : σ → Prop where
  | init {s : σ} : T.init s → Reach guard s
  | step {s s' : σ} {l : ℓ} : Reach guard s → T.enabled s l → guard s l →
      T.step s l = .ok s' → Reach guard s'

/-- The guard that allows every step. -/
def anyStep : σ → ℓ → Prop := fun _ _ => True

variable {T}

/-- What holds initially and is kept by every allowed step holds in every state
that allowed steps reach. -/
theorem Reach.invariant {guard : σ → ℓ → Prop} {P : σ → Prop}
    (hinit : ∀ s, T.init s → P s)
    (hstep : ∀ s l s', P s → T.enabled s l → guard s l → T.step s l = .ok s' → P s')
    {s : σ} (h : T.Reach guard s) : P s := by
  induction h with
  | init hs => exact hinit _ hs
  | step _ hen hg hok ih => exact hstep _ _ _ ih hen hg hok

variable (T)

/-- The state that a list of labels leads to, if every label is enabled and
allowed by `guard`, and no step faults. -/
def replay (guard : σ → ℓ → Prop) [∀ s l, Decidable (T.enabled s l)]
    [∀ s l, Decidable (guard s l)] : σ → List ℓ → Option σ
  | s, [] => some s
  | s, l :: ls =>
    if T.enabled s l ∧ guard s l then
      match T.step s l with
      | .ok s' => replay guard s' ls
      | .error _ => none
    else none

instance (s : σ) (l : ℓ) : Decidable (anyStep s l) := isTrue trivial

/-- A finite run, with the state before each step and its label, oldest first. -/
inductive Run : σ → List (σ × ℓ) → σ → Prop where
  | nil (s : σ) : Run s [] s
  | cons {s s' s'' : σ} {l : ℓ} {steps : List (σ × ℓ)} : T.enabled s l →
      T.step s l = .ok s' → Run s' steps s'' → Run s ((s, l) :: steps) s''

/-- The states a run goes through, the last one included. -/
def states (steps : List (σ × ℓ)) (last : σ) : List σ := steps.map Prod.fst ++ [last]

variable {T}

/-- Let `Inv` be an invariant of the steps that meet the guard, which implies
`Good`, and suppose that a step that does not meet the guard leaves `Good`.  Then
a run stays good throughout exactly when every step of it meets the guard. -/
theorem Run.all_good_iff {guard : σ → ℓ → Prop} {Inv Good : σ → Prop}
    (hgood : ∀ s, Inv s → Good s)
    (hkeep : ∀ s l s', Inv s → T.enabled s l → guard s l → T.step s l = .ok s' → Inv s')
    (hbreak : ∀ s l s', Inv s → T.enabled s l → T.step s l = .ok s' → Good s' → guard s l)
    {s last : σ} {steps : List (σ × ℓ)} (hrun : T.Run s steps last) (hs : Inv s) :
    (∀ t ∈ states steps last, Good t) ↔ ∀ p ∈ steps, guard p.1 p.2 := by
  induction hrun with
  | nil s => simpa [states] using hgood s hs
  | @cons s s' s'' l steps hen hok hrest ih =>
    have hhead : s' ∈ states steps s'' := by
      cases hrest with
      | nil => simp [states]
      | cons _ _ _ => simp [states]
    constructor
    · intro hall p hp
      have hs' : guard s l := hbreak s l s' hs hen hok (hall s' (List.mem_cons_of_mem _ hhead))
      rcases List.mem_cons.mp hp with rfl | hp'
      · exact hs'
      · exact (ih (hkeep s l s' hs hen hs' hok)).mp
          (fun t ht => hall t (List.mem_cons_of_mem _ ht)) p hp'
    · intro hall t ht
      have hinv' := hkeep s l s' hs hen (hall (s, l) List.mem_cons_self) hok
      rcases List.mem_cons.mp ht with rfl | ht'
      · exact hgood _ hs
      · exact (ih hinv').mpr (fun p hp => hall p (List.mem_cons_of_mem _ hp)) t ht'

theorem Run.reach {guard : σ → ℓ → Prop} {s last : σ} {steps : List (σ × ℓ)}
    (hrun : T.Run s steps last) (hs : T.Reach guard s) (hall : ∀ p ∈ steps, guard p.1 p.2) :
    T.Reach guard last := by
  induction hrun with
  | nil s => exact hs
  | @cons s s' s'' l steps hen hok _ ih =>
    exact ih (hs.step hen (hall (s, l) List.mem_cons_self) hok)
      fun p hp => hall p (List.mem_cons_of_mem _ hp)

/-- The run that `replay` goes through. -/
theorem Run.of_replay {guard : σ → ℓ → Prop} [∀ s l, Decidable (T.enabled s l)]
    [∀ s l, Decidable (guard s l)] {ls : List ℓ} :
    ∀ {s s' : σ}, T.replay guard s ls = some s' → ∃ steps, T.Run s steps s' ∧
      steps.map Prod.snd = ls ∧ ∀ p ∈ steps, guard p.1 p.2 := by
  induction ls with
  | nil =>
    intro s s' hs
    rw [Transition.replay, Option.some.injEq] at hs
    exact ⟨[], hs ▸ .nil s, rfl, fun p hp => absurd hp List.not_mem_nil⟩
  | cons l ls ih =>
    intro s s' hs
    rw [Transition.replay] at hs
    split at hs
    · rename_i hl
      split at hs
      · rename_i s₁ hok
        obtain ⟨steps, hrun, hlabels, hall⟩ := ih hs
        refine ⟨(s, l) :: steps, .cons hl.1 hok hrun, by rw [List.map_cons, hlabels], ?_⟩
        intro p hp
        rcases List.mem_cons.mp hp with rfl | hp
        · exact hl.2
        · exact hall p hp
      · cases hs
    · cases hs

end Transition

end VixStandard.Lib
