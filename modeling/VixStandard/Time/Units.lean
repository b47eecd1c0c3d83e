import VixStandard.Time.Duration

/-!
# Units

The twelve conversions of a Duration, from and to six units, are two functions of the
unit: `TimeUnit.build` and `TimeUnit.count`.  A Duration is built by multiplying with
the nanoseconds of the unit and counted by a division that truncates
(`build_eq_some_iff`, `count_eq_some_iff`); everything else follows from that.
-/

namespace VixStandard.Time

open VixStandard.Lib

inductive TimeUnit where
  | nanoseconds
  | microseconds
  | milliseconds
  | seconds
  | minutes
  | hours
  deriving DecidableEq, Repr

namespace TimeUnit

/-- The nanoseconds of a unit. -/
def nanos : TimeUnit → Int
  | nanoseconds => 1
  | microseconds => 1000
  | milliseconds => 1000000
  | seconds => 1000000000
  | minutes => 60000000000
  | hours => 3600000000000

/-- The factory of a unit. -/
def build : TimeUnit → Rep → Option Duration
  | nanoseconds, value => some (Duration.nanoseconds value)
  | microseconds, value => Duration.microseconds value
  | milliseconds, value => Duration.milliseconds value
  | seconds, value => Duration.seconds value
  | minutes, value => Duration.minutes value
  | hours, value => Duration.hours value

/-- The count of whole units. -/
def count : TimeUnit → Duration → Option Rep
  | nanoseconds, d => some d.countNanoseconds
  | microseconds, d => d.countMicroseconds
  | milliseconds, d => d.countMilliseconds
  | seconds, d => d.countSeconds
  | minutes, d => d.countMinutes
  | hours, d => d.countHours

variable {u w : TimeUnit} {d d' : Duration} {n : Rep}

theorem nanos_pos (u : TimeUnit) : 0 < u.nanos := by
  cases u <;> decide

/-- A coarser unit is a multiple of a finer one. -/
theorem nanos_dvd (h : u.nanos ≤ w.nanos) :
    u.nanos * (w.nanos / u.nanos) = w.nanos := by
  revert h
  cases u <;> cases w <;> decide

theorem build_eq_some_iff : u.build n = some d ↔ d.value.val = n.val * u.nanos := by
  cases u with
  | nanoseconds =>
    have hone : n.val * nanoseconds.nanos = n.val := Int.mul_one _
    rw [hone]
    constructor
    · intro h
      rw [← Option.some.inj h]
      rfl
    · intro h
      exact congrArg some (Duration.ext (IntType.Value.ext h.symm))
  | microseconds | milliseconds | seconds | minutes | hours =>
    exact Duration.map_mk_eq_some_iff.trans (durationCast_of_den rfl)

theorem count_eq_some_iff : u.count d = some n ↔ n.val = d.value.val.tdiv u.nanos := by
  cases u with
  | nanoseconds =>
    have hone : d.value.val.tdiv nanoseconds.nanos = d.value.val := Int.tdiv_one _
    rw [hone]
    constructor
    · intro h
      rw [← Option.some.inj h]
      rfl
    · intro h
      exact congrArg some (IntType.Value.ext h.symm)
  | microseconds | milliseconds | seconds | minutes | hours =>
    exact durationCast_of_num rfl

/-- Counting is always defined. -/
theorem count_defined (u : TimeUnit) (d : Duration) :
    ∃ n, u.count d = some n ∧ n.val = d.value.val.tdiv u.nanos :=
  ⟨⟨_, IntType.fits_tdiv_of_pos d.value.fits u.nanos_pos⟩, count_eq_some_iff.mpr rfl, rfl⟩

/-- What is rebuilt from a count lies between zero and the Duration, less than a unit
away from it. -/
theorem build_count (h : u.count d = some n) :
    ∃ d', u.build n = some d' ∧ (d'.isZero = true ∨ d'.value.val.sign = d.value.val.sign) ∧
      d'.value.val.natAbs ≤ d.value.val.natAbs ∧
      (d.value.val - d'.value.val).natAbs < u.nanos.natAbs := by
  have hn := count_eq_some_iff.mp h
  have hbetween := tdiv_mul_between d.value.val u.nanos
  have hfits := IntType.fits_of_between d.value.fits hbetween
  have hsplit := Int.tdiv_mul_add_tmod d.value.val u.nanos
  obtain ⟨hlt, _⟩ := tmod_bounds d.value.val (Int.ne_of_gt u.nanos_pos)
  refine ⟨⟨⟨_, hfits⟩⟩, build_eq_some_iff.mpr (by rw [hn]), ?_, ?_, ?_⟩
  · rw [Duration.isZero_iff]
    show d.value.val.tdiv u.nanos * u.nanos = 0 ∨
      (d.value.val.tdiv u.nanos * u.nanos).sign = d.value.val.sign
    generalize d.value.val.tdiv u.nanos * u.nanos = p at hbetween
    rcases Int.lt_trichotomy p 0 with hneg | hp | hpos
    · right
      rw [Int.sign_eq_neg_one_of_neg hneg, Int.sign_eq_neg_one_of_neg (by omega)]
    · exact Or.inl hp
    · right
      rw [Int.sign_eq_one_of_pos hpos, Int.sign_eq_one_of_pos (by omega)]
  · show (d.value.val.tdiv u.nanos * u.nanos).natAbs ≤ d.value.val.natAbs
    omega
  · show (d.value.val - d.value.val.tdiv u.nanos * u.nanos).natAbs < u.nanos.natAbs
    omega

/-- A count in a finer unit determines that in a coarser one. -/
theorem count_coarser (h : u.nanos ≤ w.nanos) (hn : u.count d = some n) {k : Rep}
    (hk : w.count d = some k) : k.val = n.val.tdiv (w.nanos / u.nanos) := by
  rw [count_eq_some_iff.mp hk, count_eq_some_iff.mp hn, tdiv_tdiv _ (Int.le_of_lt u.nanos_pos),
    nanos_dvd h]

theorem count_mono (h : d.value.val ≤ d'.value.val) (hn : u.count d = some n) {k : Rep}
    (hk : u.count d' = some k) : n.val ≤ k.val := by
  rw [count_eq_some_iff.mp hk, count_eq_some_iff.mp hn]
  exact Int.tdiv_le_tdiv u.nanos_pos h

theorem count_neg (h : d ≠ Duration.min) (hn : u.count d = some n) :
    ∃ d' k, d.neg = some d' ∧ u.count d' = some k ∧ k.val = -n.val := by
  have hfits : IntType.int64.Fits (-d.value.val) := by
    have hmin : d.value.val ≠ -9223372036854775808 :=
      fun hmin => h (Duration.ext (IntType.Value.ext hmin))
    have hd := IntType.fits_int64.mp d.value.fits
    rw [IntType.fits_int64]
    omega
  obtain ⟨k, hk, hval⟩ := count_defined u ⟨⟨-d.value.val, hfits⟩⟩
  refine ⟨⟨⟨_, hfits⟩⟩, k, Duration.neg_eq_some_iff.mpr rfl, hk, ?_⟩
  rw [hval, count_eq_some_iff.mp hn]
  exact Int.neg_tdiv _ _

/-- What was built is counted back, in every unit. -/
theorem count_build (h : IntType.int64.Fits (n.val * u.nanos)) :
    ∃ d, u.build n = some d ∧ u.count d = some n ∧
      ∀ w : TimeUnit, ∃ k, w.count d = some k ∧ k.val = (n.val * u.nanos).tdiv w.nanos := by
  refine ⟨⟨⟨_, h⟩⟩, build_eq_some_iff.mpr rfl, count_eq_some_iff.mpr ?_, fun w => count_defined w _⟩
  exact (Int.mul_tdiv_cancel _ (Int.ne_of_gt u.nanos_pos)).symm

end TimeUnit

/-- The conversions between Durations and units agree with each other on the whole
range. -/
theorem unit_conversions :
    (∀ (u : TimeUnit) (d : Duration), ∃ n, u.count d = some n ∧
      (∃ d', u.build n = some d' ∧ (d'.isZero = true ∨ d'.value.val.sign = d.value.val.sign) ∧
        d'.value.val.natAbs ≤ d.value.val.natAbs ∧
        (d.value.val - d'.value.val).natAbs < u.nanos.natAbs) ∧
      (∀ w : TimeUnit, u.nanos ≤ w.nanos → ∀ k, w.count d = some k →
        k.val = n.val.tdiv (w.nanos / u.nanos)) ∧
      (∀ d' : Duration, ¬ d' < d → ∀ k, u.count d' = some k → n.val ≤ k.val) ∧
      (d ≠ Duration.min → ∃ d' k, d.neg = some d' ∧ u.count d' = some k ∧ k.val = -n.val)) ∧
    ∀ (u : TimeUnit) (n : Rep), IntType.int64.Fits (n.val * u.nanos) →
      ∃ d, u.build n = some d ∧ u.count d = some n ∧ ∀ w : TimeUnit, ∃ k, w.count d = some k ∧
        k.val = (n.val * u.nanos).tdiv w.nanos := by
  refine ⟨fun u d => ?_, fun u n => TimeUnit.count_build⟩
  obtain ⟨n, hn, _⟩ := TimeUnit.count_defined u d
  refine ⟨n, hn, TimeUnit.build_count hn, fun w h k => TimeUnit.count_coarser h hn,
    fun d' h k => ?_, fun h => TimeUnit.count_neg h hn⟩
  rw [Duration.lt_iff] at h
  exact TimeUnit.count_mono (Int.not_lt.mp h) hn

end VixStandard.Time
