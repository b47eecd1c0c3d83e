import VixStandard.Time.Duration

/-!
# Durations of std::chrono

A Duration is made from a `std::chrono::duration` of any integral representation and
any period, and converted to one by `as()`.  Both are one `duration_cast`.

* `chrono_exact`: the conversion is truncation toward zero if the count times the
  numerator of the reduced ratio of the periods is in the range of the type that
  `duration_cast` computes in, and not otherwise.
* `chrono_round_trip`: there and back, a period of whole nanoseconds loses nothing but
  the part below one period, where the counts fit the types on the way.

A program that converts between periods whose quotient is no `std::ratio` does not
compile.
-/

namespace VixStandard.Time

open VixStandard.Lib Chrono

/-- `std::nano` -/
def nano : Ratio := Ratio.inv (.whole (IntType.int64.cast 1000000000) (by decide))

namespace Duration

/-- The constructor from a `std::chrono::duration` with the count `value`. -/
def ofChrono {R : Integral} {p : Ratio} (cf : Conversion p nano) (value : R.Value) :
    Option Duration :=
  (Chrono.durationCast (.int .int64) R cf.ratio value).map fun count =>
    ⟨Rep.ofChrono count⟩

/-- The count of the `std::chrono::duration` that `as()` returns. -/
def as (R : Integral) {q : Ratio} (cf : Conversion nano q) (d : Duration) : Option R.Value :=
  Chrono.durationCast R (.int .int64) cf.ratio ⟨d.value.val, d.value.fits⟩

end Duration

section Exact

variable {R : Integral} {p q : Ratio}

theorem ofChrono_exact_iff {cf : Conversion p nano} {value : R.Value}
    (h : IntType.int64.Fits (p.count nano value.val)) :
    (∃ d, Duration.ofChrono cf value = some d ∧ d.value.val = p.count nano value.val) ↔
      (commonType (.int .int64) R).Fits (value.val * cf.ratio.num.val) := by
  rw [cf.count_eq] at h ⊢
  have hcast : (Integral.int .int64).Fits _ := h
  rw [← durationCast_exact_iff hcast]
  constructor
  · rintro ⟨d, hd, hval⟩
    obtain ⟨count, hcount, rfl⟩ := Option.map_eq_some_iff.mp hd
    exact ⟨count, hcount, hval⟩
  · rintro ⟨count, hcount, hval⟩
    exact ⟨_, Option.map_eq_some_iff.mpr ⟨count, hcount, rfl⟩, hval⟩

theorem as_exact_iff {cf : Conversion nano q} {d : Duration}
    (h : R.Fits (nano.count q d.value.val)) :
    (∃ r, d.as R cf = some r ∧ r.val = nano.count q d.value.val) ↔
      (commonType R (.int .int64)).Fits (d.value.val * cf.ratio.num.val) := by
  rw [cf.count_eq] at h ⊢
  exact durationCast_exact_iff h

end Exact

/-- Where the truncated count is representable, the conversion in either direction gives
it if, and only if, the count times the numerator of the ratio is in the range of the
common type of both representations and `intmax_t`. -/
theorem chrono_exact :
    (∀ {R : Integral} {p : Ratio} (cf : Conversion p nano) (value : R.Value),
      IntType.int64.Fits (p.count nano value.val) →
      ((∃ d, Duration.ofChrono cf value = some d ∧ d.value.val = p.count nano value.val) ↔
        (commonType (.int .int64) R).Fits (value.val * cf.ratio.num.val))) ∧
    ∀ {R : Integral} {q : Ratio} (cf : Conversion nano q) (d : Duration),
      R.Fits (nano.count q d.value.val) →
      ((∃ r, d.as R cf = some r ∧ r.val = nano.count q d.value.val) ↔
        (commonType R (.int .int64)).Fits (d.value.val * cf.ratio.num.val)) :=
  ⟨fun _ _ h => ofChrono_exact_iff h, fun _ _ h => as_exact_iff h⟩

/-! ## There and back -/

section RoundTrip

variable {R : Integral} {p : Ratio} {cf : Conversion p nano}

theorem ofChrono_of_whole (hwhole : cf.ratio.den.val = 1) (value : R.Value)
    (hC : (commonType (.int .int64) R).Fits (value.val * cf.ratio.num.val))
    (hfits : IntType.int64.Fits (value.val * cf.ratio.num.val)) :
    Duration.ofChrono cf value = some ⟨⟨_, hfits⟩⟩ := by
  have hcount : p.count nano value.val = value.val * cf.ratio.num.val := by
    rw [cf.count_eq, hwhole, Int.tdiv_one]
  have hexact : ∃ d, Duration.ofChrono cf value = some d ∧
      d.value.val = p.count nano value.val := (ofChrono_exact_iff (hcount ▸ hfits)).mpr hC
  obtain ⟨d, hd, hval⟩ := hexact
  rw [hd]
  exact congrArg some (Duration.ext (IntType.Value.ext (hval.trans hcount)))

theorem as_of_whole (hwhole : cf.ratio.den.val = 1) (cf' : Conversion nano p) (d : Duration)
    (hC : (commonType R (.int .int64)).Fits d.value.val)
    (hfits : R.Fits (d.value.val.tdiv cf.ratio.num.val)) : d.as R cf' = some ⟨_, hfits⟩ := by
  obtain ⟨hnum, hden⟩ := cf.inverse cf'
  have hcount : nano.count p d.value.val = d.value.val.tdiv cf.ratio.num.val := by
    rw [cf'.count_eq, hnum, hden, hwhole, Int.mul_one]
  have hC' : (commonType R (.int .int64)).Fits (d.value.val * cf'.ratio.num.val) := by
    rw [hnum, hwhole, Int.mul_one]
    exact hC
  have hexact : ∃ r, d.as R cf' = some r ∧ r.val = nano.count p d.value.val :=
    (as_exact_iff (hcount ▸ hfits)).mpr hC'
  obtain ⟨r, hr, hval⟩ := hexact
  rw [hr]
  exact congrArg some (Integral.Value.ext (hval.trans hcount))

theorem commonType_comm (R R' : Integral) : commonType R R' = commonType R' R := by
  unfold commonType
  rw [Bool.or_comm]

end RoundTrip

/-- A period of whole nanoseconds, with any integral representation.  A count is found again
if its product with the period fits `int64` and the common type.  If the count of a Duration
fits the common type, and its whole periods the representation, the Duration is found again
up to the part below one period, which is cut off once and for all. -/
theorem chrono_round_trip {R : Integral} {p : Ratio} (cf : Conversion p nano)
    (cf' : Conversion nano p) (hwhole : cf.ratio.den.val = 1) :
    (∀ value : R.Value, (commonType (.int .int64) R).Fits (value.val * cf.ratio.num.val) →
      IntType.int64.Fits (value.val * cf.ratio.num.val) →
      ∃ d, Duration.ofChrono cf value = some d ∧ d.value.val = value.val * cf.ratio.num.val ∧
        d.as R cf' = some value) ∧
    ∀ d : Duration, (commonType R (.int .int64)).Fits d.value.val →
      R.Fits (d.value.val.tdiv cf.ratio.num.val) →
      ∃ r d', d.as R cf' = some r ∧ Duration.ofChrono cf r = some d' ∧
        d'.value.val = d.value.val - d.value.val.tmod cf.ratio.num.val ∧
        d'.as R cf' = some r := by
  have hpos := cf.ratio.num_pos
  have hback : ∀ value : R.Value,
      (commonType (.int .int64) R).Fits (value.val * cf.ratio.num.val) →
      (hfits : IntType.int64.Fits (value.val * cf.ratio.num.val)) →
      (⟨⟨_, hfits⟩⟩ : Duration).as R cf' = some value := by
    intro value hC hfits
    have hquot : (value.val * cf.ratio.num.val).tdiv cf.ratio.num.val = value.val :=
      Int.mul_tdiv_cancel _ (Int.ne_of_gt hpos)
    rw [as_of_whole hwhole cf' ⟨⟨_, hfits⟩⟩ (commonType_comm _ _ ▸ hC)
      (hquot.symm ▸ value.fits)]
    exact congrArg some (Integral.Value.ext hquot)
  refine ⟨fun value hC hfits => ?_, fun d hC hfits => ?_⟩
  · exact ⟨_, ofChrono_of_whole hwhole value hC hfits, rfl, hback value hC hfits⟩
  · -- The whole periods lie between zero and `d`.
    have hbetween := tdiv_mul_between d.value.val cf.ratio.num.val
    have hC' := IntType.fits_of_between hC hbetween
    have hfits' := IntType.fits_of_between d.value.fits hbetween
    refine ⟨⟨_, hfits⟩, _, as_of_whole hwhole cf' d hC hfits,
      ofChrono_of_whole hwhole ⟨_, hfits⟩ (commonType_comm _ _ ▸ hC') hfits', ?_,
      hback ⟨_, hfits⟩ (commonType_comm _ _ ▸ hC') hfits'⟩
    have hsum := Int.tdiv_mul_add_tmod d.value.val cf.ratio.num.val
    show d.value.val.tdiv cf.ratio.num.val * cf.ratio.num.val = _
    omega

/-- A period of a third of a second. -/
def third : Ratio := Ratio.inv (.whole ⟨3, by decide⟩ (by decide))

def thirdToNano : Conversion third nano where
  ratio :=
    { num := nano.den
      den := third.den
      num_pos := Int.pos_of_sign_eq_one rfl
      den_pos := Int.pos_of_sign_eq_one rfl
      coprime := rfl }
  divide_eq := by rfl

/-- To `std::chrono::seconds`, the period of which is `Ratio.one`. -/
def nanoToSecond : Conversion nano .one where
  ratio := nano
  divide_eq := by rfl

def secondToNano : Conversion .one nano where
  ratio := nano.inv
  divide_eq := by rfl

/-- A second and one nanosecond: the nanosecond is cut off. -/
theorem chrono_round_trip_second :
    ∃ r : (Integral.int .int64).Value, ∃ d',
      (Duration.nanoseconds ⟨1000000001, by decide⟩).as (.int .int64) nanoToSecond = some r ∧
        Duration.ofChrono secondToNano r = some d' ∧ d'.value.val = 1000000000 := by
  obtain ⟨r, d', hr, hd', hval, _⟩ :=
    (chrono_round_trip (R := .int .int64) secondToNano nanoToSecond rfl).2
      (Duration.nanoseconds ⟨1000000001, by decide⟩) (by decide) (by decide)
  exact ⟨r, d', hr, hd', hval⟩

/-- Ten billion thirds of a second fit a Duration, but not their product with the
numerator.  No whole second is in -1 ns, but `as()` with an unsigned count finds more. -/
theorem chrono_not_exact :
    (third.count nano 10000000000 = 3333333333333333333 ∧
      Duration.ofChrono (R := .int .int64) thirdToNano ⟨10000000000, by decide⟩ = none) ∧
    (nano.count .one (-1) = 0 ∧ (Integral.int .uint64).Fits 0 ∧
      (Duration.nanoseconds ⟨-1, by decide⟩).as (.int .uint64) nanoToSecond =
        some ⟨18446744073, by decide⟩) := by
  refine ⟨⟨by decide, rfl⟩, by decide, by decide, rfl⟩

end VixStandard.Time
