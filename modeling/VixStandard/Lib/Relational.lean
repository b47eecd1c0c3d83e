import Mathlib.Logic.Basic

/-!
# Two computations that succeed

`Agree Q x y` compares two computations that can fail: if both succeed, `Q`
relates their results.  It says nothing about a computation that fails, so it
goes together with a proof that both succeed.

The rules follow the structure of a program.  `Agree.bind` takes two sequences of
steps apart, `Agree.ok` ends them, `Agree.ite` follows a test that both make
alike, and `Agree.mono` weakens what is known at the end.
-/

namespace VixStandard.Lib

universe u v w z

variable {ε : Type u} {ε' : Type v} {α α' : Type w} {β β' : Type z}

/-- If both computations succeed, their results are related. -/
def Agree (Q : α → β → Prop) (x : Except ε α) (y : Except ε' β) : Prop :=
  ∀ a b, x = .ok a → y = .ok b → Q a b

theorem Agree.ok {Q : α → β → Prop} {a : α} {b : β} (h : Q a b) :
    Agree Q (.ok a : Except ε α) (.ok b : Except ε' β) := by
  intro a' b' ha hb
  exact Except.ok.inj ha ▸ Except.ok.inj hb ▸ h

theorem Agree.refl (x : Except ε α) : Agree Eq x x := by
  intro a b ha hb
  exact Except.ok.inj (ha.symm.trans hb)

theorem Agree.error_left {Q : α → β → Prop} {e : ε} {y : Except ε' β} :
    Agree Q (.error e) y := by
  intro a b ha
  cases ha

theorem Agree.error_right {Q : α → β → Prop} {x : Except ε α} {e : ε'} :
    Agree Q x (.error e : Except ε' β) := by
  intro a b _ hb
  cases hb

theorem Agree.mono {Q Q' : α → β → Prop} {x : Except ε α} {y : Except ε' β}
    (h : Agree Q x y) (hle : ∀ a b, Q a b → Q' a b) : Agree Q' x y :=
  fun a b ha hb => hle a b (h a b ha hb)

theorem Agree.bind {P : α → β → Prop} {Q : α' → β' → Prop} {x : Except ε α} {y : Except ε' β}
    {f : α → Except ε α'} {h : β → Except ε' β'} (hxy : Agree P x y)
    (hfh : ∀ a b, P a b → Agree Q (f a) (h b)) : Agree Q (x >>= f) (y >>= h) := by
  cases x with
  | error e => exact .error_left
  | ok a =>
    cases y with
    | error e => exact .error_right
    | ok b => exact hfh a b (hxy a b rfl rfl)

theorem Agree.ite {Q : α → β → Prop} {p q : Prop} [Decidable p] [Decidable q] (hpq : p ↔ q)
    {x x' : Except ε α} {y y' : Except ε' β} (hthen : p → Agree Q x y)
    (helse : ¬ p → Agree Q x' y') : Agree Q (if p then x else x') (if q then y else y') := by
  by_cases hp : p
  · rw [if_pos hp, if_pos (hpq.mp hp)]
    exact hthen hp
  · rw [if_neg hp, if_neg fun hq => hp (hpq.mpr hq)]
    exact helse hp

end VixStandard.Lib
