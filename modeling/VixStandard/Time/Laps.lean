import VixStandard.Lib.Walk
import VixStandard.Time.Deadline

/-!
# Runs of additions to an Instant and to a Duration

An Instant or a Duration that is changed over and over is a walk in the range of its
count (`Walk`).  Two uses of that:

* `shifts_exact`: any run of `+=` and `-=` on an Instant.  It is defined as long as
  the exact sum stays in the range at every step, and it can always be undone.
* `laps_total`: the laps of a stopwatch.  They are defined at all readings of a steady
  clock, and in any order they add up to the time elapsed.
-/

namespace VixStandard.Time

open VixStandard.Lib

/-- The counts of a Duration and of an Instant. -/
def ticks : Set Int := {v | IntType.int64.Fits v}

theorem ticks_between (u : Int) (hu : u ∈ ticks) (w : Int) (hw : w ∈ ticks) (v : Int)
    (huv : u ≤ v) (hvw : v ≤ w) : v ∈ ticks :=
  ⟨Int.le_trans hu.1 huv, Int.le_trans hvw hw.2⟩

/-! ## Shifting an Instant -/

/-- A call of `operator+=` or of `operator-=`. -/
inductive Shift where
  | forward (duration : Duration)
  | backward (duration : Duration)

namespace Shift

/-- The call for the same Duration with the other sign. -/
def undo : Shift → Shift
  | forward duration => backward duration
  | backward duration => forward duration

/-- The ticks that are added. -/
def amount : Shift → Int
  | forward duration => duration.value.val
  | backward duration => -duration.value.val

theorem amount_undo (s : Shift) : s.undo.amount = -s.amount := by
  cases s with
  | forward duration => rfl
  | backward duration => exact (Int.neg_neg _).symm

end Shift

namespace Instant

def shift (self : Instant) : Shift → Option Instant
  | .forward duration => self.add duration
  | .backward duration => self.subDuration duration

theorem shift_eq_some_iff {self r : Instant} {s : Shift} :
    self.shift s = some r ↔ r.value.val = self.value.val + s.amount := by
  cases s with
  | forward duration => exact add_eq_some_iff
  | backward duration => exact subDuration_eq_some_iff

theorem walk_shift : Walk ticks (fun i : Instant => i.value.val) Shift.amount shift where
  injective h := Instant.ext (IntType.Value.ext h)
  mem_range i := i.value.fits
  surjective v hv := ⟨⟨⟨v, hv⟩⟩, rfl⟩
  step_iff := shift_eq_some_iff

theorem walk_add :
    Walk ticks (fun i : Instant => i.value.val) (fun d : Duration => d.value.val) add where
  injective h := Instant.ext (IntType.Value.ext h)
  mem_range i := i.value.fits
  surjective v hv := ⟨⟨⟨v, hv⟩⟩, rfl⟩
  step_iff := add_eq_some_iff

end Instant

theorem Duration.walk_addAssign :
    Walk ticks (fun d : Duration => d.value.val) (fun d : Duration => d.value.val)
      Duration.addAssign where
  injective h := Duration.ext (IntType.Value.ext h)
  mem_range d := d.value.fits
  surjective v hv := ⟨⟨⟨v, hv⟩⟩, rfl⟩
  step_iff := Duration.addAssign_eq_some_iff

/-- Any run of `+=` and `-=` on an Instant is defined exactly if the exact sum is in the
range after every call, and then gives the sum.  The time since the start is the sum of
the amounts whenever that is a Duration at all.  The opposite calls in the opposite order
are then defined and lead back to the start. -/
theorem shifts_exact (start r : Instant) (shifts : List Shift) :
    (shifts.foldlM Instant.shift start = some r ↔
      (∀ done, done <+: shifts →
        IntType.int64.Fits (start.value.val + Walk.net Shift.amount done)) ∧
      r.value.val = start.value.val + Walk.net Shift.amount shifts) ∧
    (shifts.foldlM Instant.shift start = some r →
      (∀ d : Duration, r.since start = some d ↔ d.value.val = Walk.net Shift.amount shifts) ∧
      (shifts.reverse.map Shift.undo).foldlM Instant.shift r = some start) := by
  refine ⟨Instant.walk_shift.run_iff, fun h => ⟨fun d => ?_, ?_⟩⟩
  · have hr : r.value.val = start.value.val + Walk.net Shift.amount shifts :=
      (Instant.walk_shift.run_iff.mp h).2
    rw [Instant.since_eq_some_iff, hr]
    omega
  · exact Instant.walk_shift.run_undo Shift.amount_undo h

/-! ## Laps -/

/-- The time from each Instant to the next. -/
def laps : List Instant → Option (List Duration)
  | earlier :: later :: rest => do
    let lap ← later.since earlier
    let following ← laps (later :: rest)
    some (lap :: following)
  | _ => some []

/-- Laps between readings that do not go back are defined, and none is negative. -/
theorem exists_laps {i : Instant} {is : List Instant} (hnonneg : 0 ≤ i.value.val)
    (hsorted : (i :: is).Pairwise (· ≤ ·)) :
    ∃ ds, laps (i :: is) = some ds ∧ (∀ d ∈ ds, 0 ≤ d.value.val) ∧
      (is.getLastD i).value.val =
        i.value.val + Walk.net (fun d : Duration => d.value.val) ds := by
  induction is generalizing i with
  | nil =>
    refine ⟨[], rfl, ?_, (Int.add_zero _).symm⟩
    intro d hd
    cases hd
  | cons j is ih =>
    obtain ⟨hfirst, hrest⟩ := List.pairwise_cons.mp hsorted
    have hij : i ≤ j := hfirst j List.mem_cons_self
    have hle := Instant.le_iff.mp hij
    obtain ⟨lap, hlap, hval⟩ := elapsed_defined hnonneg hij
    obtain ⟨ds, hds, hds_nonneg, hlast⟩ := ih (Int.le_trans hnonneg hle) hrest
    have hlap' : j.since i = some lap := hlap
    refine ⟨lap :: ds, by simp [laps, hlap', hds], ?_, ?_⟩
    · intro d hd
      rcases List.mem_cons.mp hd with rfl | hd
      · omega
      · exact hds_nonneg d hd
    · rw [List.getLastD_cons, hlast, Walk.net_cons, hval]
      omega

/-- At any readings of a steady clock, from the first to the last, all laps are defined.
Added to a zero Duration in any order they give the time elapsed, without an overflow on the
way, and added in any order to the first reading they give the last one. -/
theorem laps_total (clock : SteadyClock) {i : Nat} {is : List Nat}
    (hsorted : (i :: is).Pairwise (· ≤ ·)) :
    ∃ (ds : List Duration) (total : Duration), laps ((i :: is).map clock.reading) = some ds ∧
      (clock.reading i).elapsed (clock.reading (is.getLastD i)) = some total ∧
      ∀ ds' : List Duration, ds'.Perm ds →
        ds'.foldlM Duration.addAssign Duration.zero = some total ∧
        ds'.foldlM Instant.add (clock.reading i) = some (clock.reading (is.getLastD i)) := by
  have hsorted' : ((i :: is).map clock.reading).Pairwise (· ≤ ·) :=
    List.pairwise_map.mpr (hsorted.imp fun h => clock.monotone h)
  obtain ⟨ds, hds, hnonneg, hlast⟩ := exists_laps (clock.nonneg i) hsorted'
  rw [List.getLastD_map] at hlast
  have hle : clock.reading i ≤ clock.reading (is.getLastD i) := by
    have hnet := Walk.net_nonneg hnonneg
    rw [Instant.le_iff]
    omega
  obtain ⟨total, htotal, hval⟩ := elapsed_defined (clock.nonneg i) hle
  refine ⟨ds, total, hds, htotal, fun ds' hperm => ⟨?_, ?_⟩⟩
  · refine Duration.walk_addAssign.run_perm ticks_between hnonneg hperm ?_
    have hzero : Duration.zero.value.val = 0 := rfl
    omega
  · exact Instant.walk_add.run_perm ticks_between hnonneg hperm hlast

/-- A clock that stops after a thousand ticks. -/
def thousandTicks : SteadyClock where
  reading k := ⟨⟨Nat.min k 1000, by
    have hle : Nat.min k 1000 ≤ 1000 := Nat.min_le_right k 1000
    rw [IntType.fits_int64]
    omega⟩⟩
  monotone h := Int.ofNat_le.mpr
    (Nat.le_min.mpr ⟨Nat.le_trans (Nat.min_le_left _ _) h, Nat.min_le_right _ _⟩)
  nonneg _ := Int.natCast_nonneg _

theorem laps_total_thousandTicks :
    ∃ (ds : List Duration) (total : Duration),
      laps ([0, 3, 500, 2000].map thousandTicks.reading) = some ds ∧
      (thousandTicks.reading 0).elapsed (thousandTicks.reading 2000) = some total ∧
      ∀ ds' : List Duration, ds'.Perm ds →
        ds'.foldlM Duration.addAssign Duration.zero = some total ∧
        ds'.foldlM Instant.add (thousandTicks.reading 0) = some (thousandTicks.reading 2000) :=
  laps_total thousandTicks (by decide)

end VixStandard.Time
