import VixStandard.Time.Instant

/-!
# Deadlines

A timeout of `d` from `start` can be tested in two ways: by the deadline
`start + d`, or by the time elapsed since `start`.  They agree at every later
reading of the clock as long as `start + d` is in the range of the ticks
(`deadline_agrees`).  Beyond it the sum overflows, so that
`start + Duration::max()` is only a deadline at the epoch of the clock.
-/

namespace VixStandard.Time

open VixStandard.Lib

/-- The readings of a steady clock. -/
structure SteadyClock where
  reading : Nat → Instant
  monotone : ∀ {i j}, i ≤ j → reading i ≤ reading j
  nonneg : ∀ i, 0 ≤ (reading i).value.val

/-- Both tests are defined, and the deadline is past exactly when more than `d`
has elapsed, and in the future exactly when less has. -/
def DeadlineAgrees (start : Instant) (d : Duration) (now : Instant) : Prop :=
  ∃ deadline e, start.add d = some deadline ∧ start.elapsed now = some e ∧
    (deadline.isPast now = true ↔ d < e) ∧ (deadline.isFuture now = true ↔ e < d)

variable {start now : Instant} {d : Duration}

/-- The time between two readings is in the range. -/
theorem elapsed_defined (hstart : 0 ≤ start.value.val) (hnow : start ≤ now) :
    ∃ e, start.elapsed now = some e ∧ e.value.val = now.value.val - start.value.val := by
  have hmax := now.value.fits.2
  have hfits : IntType.int64.Fits (now.value.val - start.value.val) := by
    have hle := Instant.le_iff.mp hnow
    rw [IntType.fits_int64]
    have hbound : now.value.val ≤ 9223372036854775807 := hmax
    omega
  exact ⟨⟨_, hfits⟩, Instant.since_eq_some_iff.mpr rfl, rfl⟩

/-- The two tests agree exactly if the deadline is in the range. -/
theorem deadlineAgrees_iff (hstart : 0 ≤ start.value.val) (hnow : start ≤ now) :
    DeadlineAgrees start d now ↔ IntType.int64.Fits (start.value.val + d.value.val) := by
  constructor
  · intro h
    obtain ⟨deadline, _, hadd, _⟩ := h
    rw [← Instant.add_eq_some_iff.mp hadd]
    exact deadline.value.fits
  · intro hfits
    obtain ⟨e, he, hval⟩ := elapsed_defined hstart hnow
    refine ⟨⟨⟨_, hfits⟩⟩, e, Instant.add_eq_some_iff.mpr rfl, he, ?_, ?_⟩
    · simp only [Instant.isPast, decide_eq_true_eq, Instant.lt_iff, Duration.lt_iff, hval]
      omega
    · simp only [Instant.isFuture, decide_eq_true_eq, Instant.lt_iff, Duration.lt_iff, hval]
      omega

/-- For every clock and every non-negative Duration whose sum with the start is
in the range of the ticks, the two tests agree at every later reading, the
deadline is not before the start, and once it is past it stays past. -/
theorem deadline_agrees (clock : SteadyClock) {i j : Nat} (hij : i ≤ j) (hd : 0 ≤ d.value.val)
    (hfits : (clock.reading i).value.val + d.value.val ≤ IntType.int64.max) :
    DeadlineAgrees (clock.reading i) d (clock.reading j) ∧
      ∃ deadline, (clock.reading i).add d = some deadline ∧ clock.reading i ≤ deadline ∧
        ∀ k, j ≤ k → deadline.isPast (clock.reading j) = true →
          deadline.isPast (clock.reading k) = true := by
  have hstart := clock.nonneg i
  have hrange : IntType.int64.Fits ((clock.reading i).value.val + d.value.val) := by
    have hmax : (clock.reading i).value.val + d.value.val ≤ 9223372036854775807 := hfits
    rw [IntType.fits_int64]
    omega
  refine ⟨(deadlineAgrees_iff hstart (clock.monotone hij)).mpr hrange, ⟨⟨_, hrange⟩⟩,
    Instant.add_eq_some_iff.mpr rfl, ?_, ?_⟩
  · show (clock.reading i).value.val ≤ (clock.reading i).value.val + d.value.val
    omega
  · intro k hjk hpast
    have hle := Instant.le_iff.mp (clock.monotone hjk)
    simp only [Instant.isPast, decide_eq_true_eq, Instant.lt_iff] at hpast ⊢
    omega

/-- A clock that stands at one tick. -/
def oneTick : SteadyClock where
  reading _ := ⟨Chrono.Ratio.one.num⟩
  monotone _ := Int.le_refl _
  nonneg _ := by decide

/-- One tick after the epoch, a deadline after the longest Duration overflows. -/
theorem max_deadline_overflows :
    ∃ clock : SteadyClock, (clock.reading 0).add Duration.max = none ∧
      ¬ DeadlineAgrees (clock.reading 0) Duration.max (clock.reading 0) := by
  have hnone : (oneTick.reading 0).add Duration.max = none := by decide
  refine ⟨oneTick, hnone, ?_⟩
  intro h
  obtain ⟨deadline, _, hadd, _⟩ := h
  rw [hnone] at hadd
  cases hadd

/-- The longest Duration that still gives a deadline there. -/
theorem deadline_agrees_oneTick :
    DeadlineAgrees (oneTick.reading 0) ⟨⟨9223372036854775806, by decide⟩⟩ (oneTick.reading 1) ∧
      ∃ deadline, (oneTick.reading 0).add ⟨⟨9223372036854775806, by decide⟩⟩ = some deadline ∧
        oneTick.reading 0 ≤ deadline ∧
        ∀ k, 1 ≤ k → deadline.isPast (oneTick.reading 1) = true →
          deadline.isPast (oneTick.reading k) = true :=
  deadline_agrees oneTick (Nat.zero_le 1) (by decide) (by decide)

end VixStandard.Time
