import Mathlib.Data.List.Infix
import Mathlib.Data.Set.Defs
import Mathlib.Logic.Basic

/-!
# Walks in a range

Values that have a position on the line, and steps that move them by a weight.  A
step is undefined if it would leave the range.

* `run_iff`: a run of steps is defined exactly if none of its beginnings leaves the
  range, and then moves by the sum of the weights.
* `run_undo`: what undoes each step, from the last to the first, undoes the run.
* `run_perm`: if no step goes backward, the order of the steps does not matter.
-/

namespace VixStandard.Lib

/-- Every position in the range has one value, and a step moves by its weight. -/
structure Walk {A B : Type} (range : Set Int) (position : A → Int) (weight : B → Int)
    (step : A → B → Option A) : Prop where
  injective : ∀ {a a' : A}, position a = position a' → a = a'
  mem_range : ∀ a : A, position a ∈ range
  surjective : ∀ v ∈ range, ∃ a : A, position a = v
  step_iff : ∀ {a : A} {b : B} {a' : A}, step a b = some a' ↔ position a' = position a + weight b

namespace Walk

variable {A B : Type} {range : Set Int} {position : A → Int} {weight : B → Int}
  {step : A → B → Option A} {a r : A} {b : B} {bs bs' : List B}

/-- How far the steps move. -/
def net (weight : B → Int) : List B → Int
  | [] => 0
  | b :: bs => weight b + net weight bs

@[simp] theorem net_nil : net weight [] = 0 := rfl

@[simp] theorem net_cons : net weight (b :: bs) = weight b + net weight bs := rfl

theorem net_append : net weight (bs ++ bs') = net weight bs + net weight bs' := by
  induction bs with
  | nil => simp
  | cons b bs ih =>
    simp only [List.cons_append, net_cons, ih]
    omega

theorem net_perm (h : bs.Perm bs') : net weight bs = net weight bs' := by
  induction h with
  | nil => rfl
  | cons b _ ih => simp only [net_cons, ih]
  | swap b b' bs =>
    simp only [net_cons]
    omega
  | trans _ _ ih ih' => exact ih.trans ih'

theorem net_nonneg (h : ∀ b ∈ bs, 0 ≤ weight b) : 0 ≤ net weight bs := by
  induction bs with
  | nil => exact Int.le_refl 0
  | cons b bs ih =>
    have hb := h b List.mem_cons_self
    have hbs := ih fun b' hb' => h b' (List.mem_cons_of_mem b hb')
    rw [net_cons]
    omega

/-- A beginning moves at most as far as the whole, if no step goes backward. -/
theorem net_prefix_le (h : ∀ b ∈ bs, 0 ≤ weight b) (hpre : bs' <+: bs) :
    net weight bs' ≤ net weight bs := by
  obtain ⟨rest, rfl⟩ := hpre
  have hrest : 0 ≤ net weight rest :=
    net_nonneg fun b hb => h b (List.mem_append_right bs' hb)
  rw [net_append]
  omega

theorem exists_step (hw : Walk range position weight step) (h : position a + weight b ∈ range) :
    ∃ a', step a b = some a' := by
  obtain ⟨a', ha'⟩ := hw.surjective _ h
  exact ⟨a', hw.step_iff.mpr ha'⟩

/-- A run is defined exactly if no beginning of it leaves the range. -/
theorem run_iff (hw : Walk range position weight step) :
    bs.foldlM step a = some r ↔
      (∀ bs', bs' <+: bs → position a + net weight bs' ∈ range) ∧
        position r = position a + net weight bs := by
  induction bs generalizing a with
  | nil =>
    simp only [List.foldlM_nil, List.prefix_nil, forall_eq, net_nil, Int.add_zero]
    constructor
    · intro h
      obtain rfl := Option.some.inj h
      exact ⟨hw.mem_range a, rfl⟩
    · rintro ⟨_, hr⟩
      exact congrArg some (hw.injective hr).symm
  | cons b bs ih =>
    rw [List.foldlM_cons, Option.bind_eq_bind, Option.bind_eq_some_iff]
    constructor
    · rintro ⟨a', hstep, hrun⟩
      have ha' := hw.step_iff.mp hstep
      obtain ⟨hrange, hr⟩ := ih.mp hrun
      rw [ha', Int.add_assoc] at hr
      refine ⟨fun bs' hpre => ?_, by rwa [net_cons]⟩
      rcases List.prefix_cons_iff.mp hpre with rfl | ⟨rest, rfl, hrest⟩
      · simpa using hw.mem_range a
      · rw [net_cons, ← Int.add_assoc, ← ha']
        exact hrange rest hrest
    · rintro ⟨hrange, hr⟩
      have hfirst : position a + weight b ∈ range := by
        simpa using hrange [b] (List.prefix_append [b] bs)
      obtain ⟨a', hstep⟩ := hw.exists_step hfirst
      have ha' := hw.step_iff.mp hstep
      refine ⟨a', hstep, ih.mpr ⟨fun bs' hpre => ?_, ?_⟩⟩
      · rw [ha', Int.add_assoc, ← net_cons]
        exact hrange (b :: bs') (List.prefix_cons_iff.mpr (Or.inr ⟨bs', rfl, hpre⟩))
      · rw [ha', Int.add_assoc, ← net_cons]
        exact hr

/-- Undoing the steps from the last to the first is always defined. -/
theorem run_undo (hw : Walk range position weight step) {undo : B → B}
    (hundo : ∀ b, weight (undo b) = -weight b) (h : bs.foldlM step a = some r) :
    (bs.reverse.map undo).foldlM step r = some a := by
  induction bs generalizing a with
  | nil =>
    obtain rfl := Option.some.inj h
    rfl
  | cons b bs ih =>
    rw [List.foldlM_cons, Option.bind_eq_bind, Option.bind_eq_some_iff] at h
    obtain ⟨a', hstep, hrun⟩ := h
    have hback : step a' (undo b) = some a := by
      rw [hw.step_iff, hundo, hw.step_iff.mp hstep]
      omega
    rw [List.reverse_cons, List.map_append, List.foldlM_append, ih hrun]
    simpa using hback

/-- Forward steps may be taken in any order. -/
theorem run_perm (hw : Walk range position weight step)
    (hrange : ∀ u ∈ range, ∀ w ∈ range, ∀ v, u ≤ v → v ≤ w → v ∈ range)
    (hforward : ∀ b ∈ bs, 0 ≤ weight b) (hperm : bs'.Perm bs)
    (hr : position r = position a + net weight bs) : bs'.foldlM step a = some r := by
  have hforward' : ∀ b ∈ bs', 0 ≤ weight b := fun b hb => hforward b (hperm.mem_iff.mp hb)
  refine hw.run_iff.mpr ⟨fun done hdone => ?_, by rw [hr, net_perm hperm]⟩
  -- What is reached on the way lies between the start and the end.
  have hend := net_prefix_le hforward' hdone
  have hstart : 0 ≤ net weight done := net_nonneg fun b hb => hforward' b (hdone.subset hb)
  rw [net_perm hperm] at hend
  exact hrange _ (hw.mem_range a) _ (hw.mem_range r) _ (by omega) (by omega)

end Walk

end VixStandard.Lib
