import VixStandard.Time.Instant

/-!
# At the ends of the range

Division and differences are the operations whose result may leave the range of
`int64` although no operand is near it in kind: `min() / -1`, and the time between two
Instants that are further apart than the longest Duration.

* `division_total`: everywhere else division and remainder are defined and fit
  together.
* `since_sign`: where the difference of the ticks is in range, `since()` has the sign
  that it documents, and undoes an addition.
-/

namespace VixStandard.Time

open VixStandard.Lib

variable {lhs rhs : Duration} {scalar : Rep}

/-! ## Division -/

/-- The quotient that is greater than every Duration. -/
def QuotientOverflows (lhs : Duration) (divisor : Int) : Prop := lhs = Duration.min ∧ divisor = -1

theorem fits_quotient {divisor : Rep} (hne : divisor.val ≠ 0)
    (h : ¬ QuotientOverflows lhs divisor.val) :
    IntType.int64.Fits (lhs.value.val.tdiv divisor.val) := by
  refine (IntType.fits_tdiv_iff lhs.value.fits divisor.fits hne).mpr ?_
  rintro ⟨_, hmin, hone⟩
  exact h ⟨Duration.ext (IntType.Value.ext hmin), hone⟩

theorem div_defined (hne : scalar.val ≠ 0) (h : ¬ QuotientOverflows lhs scalar.val) :
    ∃ q, lhs.div scalar = some q ∧ lhs.divAssign scalar = some q ∧
      q.value.val = lhs.value.val.tdiv scalar.val := by
  have hdiv : lhs.divAssign scalar = some ⟨⟨_, fits_quotient hne h⟩⟩ :=
    Duration.divAssign_eq_some_iff.mpr ⟨hne, rfl⟩
  exact ⟨_, hdiv, hdiv, rfl⟩

theorem ratio_rem_defined (hne : rhs.value.val ≠ 0) (h : ¬ QuotientOverflows lhs rhs.value.val) :
    ∃ q r, lhs.ratio rhs = some q ∧ lhs.rem rhs = some r ∧
      (∃ p, Duration.scalarMul q rhs = some p ∧ p.add r = some lhs) ∧
      r.value.val.natAbs < rhs.value.val.natAbs ∧
      (r.isZero = true ∨ r.value.val.sign = lhs.value.val.sign) := by
  have hquot := fits_quotient hne h
  have hrem := IntType.fits_tmod lhs.value.fits rhs.value.val
  have hsplit : lhs.value.val.tdiv rhs.value.val * rhs.value.val +
      lhs.value.val.tmod rhs.value.val = lhs.value.val := Int.tdiv_mul_add_tmod _ _
  have hprod : IntType.int64.Fits (lhs.value.val.tdiv rhs.value.val * rhs.value.val) :=
    IntType.fits_of_between lhs.value.fits (tdiv_mul_between _ _)
  obtain ⟨hlt, hsign⟩ := tmod_bounds lhs.value.val hne
  refine ⟨⟨_, hquot⟩, ⟨⟨_, hrem⟩⟩, Duration.ratio_eq_some_iff.mpr ⟨hne, rfl⟩,
    Duration.rem_eq_some_iff.mpr ⟨hne, hquot, rfl⟩, ⟨⟨⟨_, hprod⟩⟩, ?_, ?_⟩, hlt, ?_⟩
  · refine Duration.mulAssign_eq_some_iff.mpr ?_
    exact Int.mul_comm _ _
  · exact Duration.addAssign_eq_some_iff.mpr hsplit.symm
  · rcases hsign with hzero | hsign
    · exact Or.inl (decide_eq_true hzero)
    · exact Or.inr hsign

/-- Division by anything but zero is defined, except for `min()` by -1, and so is the
remainder.  They fit together: the quotient times the divisor and the remainder add up
to the dividend, and the remainder is smaller than the divisor and has the sign of the
dividend. -/
theorem division_total (lhs : Duration) :
    (∀ scalar : Rep, scalar.val ≠ 0 → ¬ QuotientOverflows lhs scalar.val →
      ∃ q, lhs.div scalar = some q ∧ lhs.divAssign scalar = some q ∧
        q.value.val = lhs.value.val.tdiv scalar.val) ∧
    ∀ rhs : Duration, rhs.value.val ≠ 0 → ¬ QuotientOverflows lhs rhs.value.val →
      ∃ q r, lhs.ratio rhs = some q ∧ lhs.rem rhs = some r ∧
        (∃ p, Duration.scalarMul q rhs = some p ∧ p.add r = some lhs) ∧
        r.value.val.natAbs < rhs.value.val.natAbs ∧
        (r.isZero = true ∨ r.value.val.sign = lhs.value.val.sign) :=
  ⟨fun _ hne h => div_defined hne h, fun _ hne h => ratio_rem_defined hne h⟩

/-- `min()` by -1 has no quotient, and C++ then gives the remainder no meaning either. -/
theorem min_division_undefined :
    Duration.min.div ⟨-1, by decide⟩ = none ∧ Duration.min.divAssign ⟨-1, by decide⟩ = none ∧
      Duration.min.ratio ⟨⟨-1, by decide⟩⟩ = none ∧ Duration.min.rem ⟨⟨-1, by decide⟩⟩ = none := by
  decide

/-! ## Differences -/

/-- The sign of `since()` is the order of the Instants, and it is what has to be added
to the earlier one.  `until()` is its opposite, if that is a Duration. -/
theorem since_sign (a b : Instant) (h : IntType.int64.Fits (a.value.val - b.value.val)) :
    ∃ d, a.since b = some d ∧ (d.isPositive = true ↔ b < a) ∧ (d.isZero = true ↔ a = b) ∧
      (d.isNegative = true ↔ a < b) ∧ a.sub b = some d ∧ b.add d = some a ∧
      (a.value.val - b.value.val ≠ IntType.int64.min →
        ∃ n, d.neg = some n ∧ a.untilLater b = some n) := by
  have hsince : a.since b = some ⟨⟨_, h⟩⟩ := Instant.since_eq_some_iff.mpr rfl
  refine ⟨⟨⟨_, h⟩⟩, hsince, ?_, ?_, ?_, hsince, ?_, ?_⟩
  · rw [Duration.isPositive_iff, Instant.lt_iff]
    exact Int.sub_pos
  · rw [Duration.isZero_iff, Instant.ext_iff, IntType.Value.ext_iff]
    exact Int.sub_eq_zero
  · rw [Duration.isNegative_iff, Instant.lt_iff]
    show a.value.val - b.value.val < 0 ↔ a.value.val < b.value.val
    omega
  · refine Instant.add_eq_some_iff.mpr ?_
    show a.value.val = b.value.val + (a.value.val - b.value.val)
    omega
  · intro hmin
    have hneg : IntType.int64.Fits (b.value.val - a.value.val) := by
      have hmin' : a.value.val - b.value.val ≠ -9223372036854775808 := hmin
      rw [IntType.fits_int64] at h ⊢
      omega
    refine ⟨⟨⟨_, hneg⟩⟩, Duration.neg_eq_some_iff.mpr ?_, Instant.since_eq_some_iff.mpr rfl⟩
    show b.value.val - a.value.val = -(a.value.val - b.value.val)
    omega

/-- The latest Instant is after the earliest one, but the time between them is no
Duration. -/
theorem extreme_instants_apart :
    let latest := Instant.fromChrono ⟨IntType.int64.max, by decide⟩
    let earliest := Instant.fromChrono ⟨IntType.int64.min, by decide⟩
    earliest < latest ∧ latest.since earliest = none ∧ latest.untilLater earliest = none ∧
      latest.sub earliest = none := by
  decide

/-- An hour apart. -/
theorem since_sign_hour :
    ∃ d, (Instant.fromChrono ⟨3600000000000, by decide⟩).since (.fromChrono ⟨0, by decide⟩) = some d ∧
      d.isPositive = true := by
  obtain ⟨d, hd, hpos, _⟩ := since_sign (.fromChrono ⟨3600000000000, by decide⟩)
    (.fromChrono ⟨0, by decide⟩) (by decide)
  exact ⟨d, hd, hpos.mpr (by decide)⟩

end VixStandard.Time
