import Mathlib.Data.List.Basic

/-!
# Resumptions

A resumption is a computation that performs effects and can suspend.  `tau`
stands for an internal step, so a machine can be compared with a resumption one
step at a time.

* `bind` is sequential composition.
* `finish` runs to the end and counts the suspensions on the way; `finish_bind`
  says how it composes.
* `advance` runs to the next suspension or to the end, and `Stop.resumes` repeats
  it.  `resumes_finish` says that more resumptions than there are suspensions
  reach the end, with the effects of `finish`, and `resumes_lt_finish` that fewer
  do not.
-/

namespace VixStandard.Lib

/-- Computations with effects `Op`, responses `Resp` and result `A`. -/
inductive Resumption (Op Resp A : Type) where
  | done (a : A)
  | tau (t : Resumption Op Resp A)
  | effect (op : Op) (k : Resp → Resumption Op Resp A)
  | suspend (t : Resumption Op Resp A)

namespace Resumption

variable {Op Resp Mem A B : Type}

def bind : Resumption Op Resp A → (A → Resumption Op Resp B) → Resumption Op Resp B
  | done a, k => k a
  | tau t, k => tau (t.bind k)
  | effect op h, k => effect op fun r => (h r).bind k
  | suspend t, k => suspend (t.bind k)

@[simp] theorem done_bind (a : A) (k : A → Resumption Op Resp B) : (done a).bind k = k a := rfl

@[simp] theorem tau_bind (t : Resumption Op Resp A) (k : A → Resumption Op Resp B) :
    (tau t).bind k = tau (t.bind k) := rfl

@[simp] theorem effect_bind (op : Op) (h : Resp → Resumption Op Resp A)
    (k : A → Resumption Op Resp B) : (effect op h).bind k = effect op fun r => (h r).bind k := rfl

@[simp] theorem suspend_bind (t : Resumption Op Resp A) (k : A → Resumption Op Resp B) :
    (suspend t).bind k = suspend (t.bind k) := rfl

theorem bind_assoc {C : Type} (t : Resumption Op Resp A) (k : A → Resumption Op Resp B)
    (h : B → Resumption Op Resp C) : (t.bind k).bind h = t.bind fun a => (k a).bind h := by
  induction t with
  | done a => rfl
  | tau t ih => rw [tau_bind, tau_bind, tau_bind, ih]
  | effect op f ih =>
    rw [effect_bind, effect_bind, effect_bind]
    exact congrArg (effect op) (funext ih)
  | suspend t ih => rw [suspend_bind, suspend_bind, suspend_bind, ih]

@[simp] theorem bind_done (t : Resumption Op Resp A) : t.bind done = t := by
  induction t with
  | done a => rfl
  | tau t ih => rw [tau_bind, ih]
  | effect op f ih =>
    rw [effect_bind]
    exact congrArg (effect op) (funext ih)
  | suspend t ih => rw [suspend_bind, ih]

/-! ## Running to the end -/

/-- What a computation leaves when it is run to the end. -/
structure Result (Op Mem A : Type) where
  value : A
  mem : Mem
  effects : List Op
  suspensions : Nat

variable (act : Op → Mem → Resp × Mem)

/-- Runs to the end, and on past the suspensions. -/
def finish : Resumption Op Resp A → Mem → Result Op Mem A
  | done a, mem => ⟨a, mem, [], 0⟩
  | tau t, mem => t.finish mem
  | effect op k, mem =>
    let r := (k (act op mem).1).finish (act op mem).2
    { r with effects := op :: r.effects }
  | suspend t, mem =>
    let r := t.finish mem
    { r with suspensions := r.suspensions + 1 }

/-- One computation after another. -/
def Result.andThen (r : Result Op Mem A) (s : A → Mem → Result Op Mem B) : Result Op Mem B :=
  let r' := s r.value r.mem
  ⟨r'.value, r'.mem, r.effects ++ r'.effects, r.suspensions + r'.suspensions⟩

theorem finish_bind (t : Resumption Op Resp A) (k : A → Resumption Op Resp B) (mem : Mem) :
    (t.bind k).finish act mem = (t.finish act mem).andThen fun a => (k a).finish act := by
  induction t generalizing mem with
  | done a => simp [finish, Result.andThen]
  | tau t ih => exact ih mem
  | effect op f ih => simp [finish, Result.andThen, ih]
  | suspend t ih =>
    simp only [suspend_bind, finish, ih, Result.andThen]
    rw [Nat.add_right_comm]

/-! ## Running from stop to stop -/

/-- Where a computation stops, with the program's state and the effects so far. -/
structure Stop (Op Resp Mem A : Type) where
  rest : A ⊕ Resumption Op Resp A
  mem : Mem
  log : List Op

/-- Runs to the next suspension or to the end. -/
def advance : Resumption Op Resp A → Mem → List Op → Stop Op Resp Mem A
  | done a, mem, log => ⟨.inl a, mem, log⟩
  | tau t, mem, log => t.advance mem log
  | effect op k, mem, log => (k (act op mem).1).advance (act op mem).2 (log ++ [op])
  | suspend t, mem, log => ⟨.inr t, mem, log⟩

/-- Resumes a computation that has not ended. -/
def Stop.resume (s : Stop Op Resp Mem A) : Stop Op Resp Mem A :=
  match s.rest with
  | .inl _ => s
  | .inr t => t.advance act s.mem s.log

/-- Resumes a number of times. -/
def Stop.resumes : Nat → Stop Op Resp Mem A → Stop Op Resp Mem A
  | 0, s => s
  | n + 1, s => Stop.resumes n (s.resume act)

/-- A computation that has ended stays as it is. -/
theorem resumes_done (n : Nat) (a : A) (mem : Mem) (log : List Op) :
    Stop.resumes act n (⟨.inl a, mem, log⟩ : Stop Op Resp Mem A) = ⟨.inl a, mem, log⟩ := by
  induction n with
  | zero => rfl
  | succ n ih => exact ih

/-- The end is reached when there were more resumptions than suspensions. -/
theorem resumes_finish (t : Resumption Op Resp A) (mem : Mem) (log : List Op) {n : Nat}
    (hn : (t.finish act mem).suspensions < n) :
    Stop.resumes act n ⟨.inr t, mem, log⟩ =
      ⟨.inl (t.finish act mem).value, (t.finish act mem).mem,
        log ++ (t.finish act mem).effects⟩ := by
  obtain ⟨n, rfl⟩ := Nat.exists_eq_succ_of_ne_zero (Nat.ne_of_gt (Nat.zero_lt_of_lt hn))
  induction t generalizing mem log n with
  | done a =>
    simp only [finish, List.append_nil]
    exact resumes_done act n a mem log
  | tau t ih => exact ih mem log n hn
  | effect op k ih =>
    have h := ih (act op mem).1 (act op mem).2 (log ++ [op]) n hn
    rw [List.append_assoc] at h
    exact h
  | suspend t ih =>
    have hn' : (t.finish act mem).suspensions < n := Nat.lt_of_succ_lt_succ hn
    obtain ⟨n, rfl⟩ := Nat.exists_eq_succ_of_ne_zero (Nat.ne_of_gt (Nat.zero_lt_of_lt hn'))
    exact ih mem log n hn'

/-- Before that, the computation is suspended. -/
theorem resumes_lt_finish (t : Resumption Op Resp A) (mem : Mem) (log : List Op) {n : Nat}
    (hn : n ≤ (t.finish act mem).suspensions) :
    ∃ t', (Stop.resumes act n ⟨.inr t, mem, log⟩).rest = .inr t' := by
  induction t generalizing mem log n with
  | done a =>
    obtain rfl : n = 0 := Nat.le_zero.mp hn
    exact ⟨_, rfl⟩
  | tau t ih =>
    cases n with
    | zero => exact ⟨_, rfl⟩
    | succ n => exact ih mem log hn
  | effect op k ih =>
    cases n with
    | zero => exact ⟨_, rfl⟩
    | succ n => exact ih (act op mem).1 (act op mem).2 (log ++ [op]) hn
  | suspend t ih =>
    cases n with
    | zero => exact ⟨_, rfl⟩
    | succ n => exact ih mem log (Nat.le_of_succ_le_succ hn)

end Resumption

end VixStandard.Lib
