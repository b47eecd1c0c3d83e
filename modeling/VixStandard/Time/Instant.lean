import VixStandard.Time.Duration

/-!
# Instant

`vix::Instant` keeps a reading of `std::chrono::steady_clock`, whose ticks are
nanoseconds in an `int64`.  The functions that read the clock take the reading as
an argument.
-/

namespace VixStandard.Time

open VixStandard.Lib Chrono

/-- An Instant: its count of ticks since the epoch of the clock. -/
@[ext] structure Instant where
  value : Rep
  deriving DecidableEq

namespace Instant

/-- The order of the ticks, which `operator<=>` compares. -/
instance : LT Instant := ⟨fun lhs rhs => lhs.value.val < rhs.value.val⟩

instance : LE Instant := ⟨fun lhs rhs => lhs.value.val ≤ rhs.value.val⟩

instance (lhs rhs : Instant) : Decidable (lhs < rhs) :=
  inferInstanceAs (Decidable (lhs.value.val < rhs.value.val))

theorem lt_iff {lhs rhs : Instant} : lhs < rhs ↔ lhs.value.val < rhs.value.val := Iff.rfl

theorem le_iff {lhs rhs : Instant} : lhs ≤ rhs ↔ lhs.value.val ≤ rhs.value.val := Iff.rfl

def fromChrono (value : Rep) : Instant := ⟨value⟩

def since (self earlier : Instant) : Option Duration := do
  let ticks ← IntType.sub self.value earlier.value
  (durationCast Ratio.one ticks).map Duration.mk

/-- `until(later)` -/
def untilLater (self later : Instant) : Option Duration := later.since self

def elapsed (self now : Instant) : Option Duration := now.since self

def isPast (self now : Instant) : Bool := self < now

def isFuture (self now : Instant) : Bool := now < self

/-- `operator+=` and the two `operator+`. -/
def add (self : Instant) (duration : Duration) : Option Instant := do
  let ticks ← durationCast Ratio.one duration.value
  (IntType.add self.value ticks).map Instant.mk

/-- `operator-=` and `instant - duration`. -/
def subDuration (self : Instant) (duration : Duration) : Option Instant := do
  let ticks ← durationCast Ratio.one duration.value
  (IntType.sub self.value ticks).map Instant.mk

/-- `lhs - rhs` -/
def sub (lhs rhs : Instant) : Option Duration := lhs.since rhs

/-- `operator<=>` -/
def compare (lhs rhs : Instant) : Ordering := Ord.compare lhs.value.val rhs.value.val

theorem map_mk_eq_some_iff {o : Option Rep} {r : Instant} :
    o.map Instant.mk = some r ↔ o = some r.value := by
  rw [Option.map_eq_some_iff]
  constructor
  · intro h
    obtain ⟨ticks, hticks, hr⟩ := h
    rw [← hr]
    exact hticks
  · intro h
    exact ⟨r.value, h, rfl⟩

theorem since_eq_some_iff {self earlier : Instant} {d : Duration} :
    self.since earlier = some d ↔ d.value.val = self.value.val - earlier.value.val := by
  have hsince : self.since earlier =
      (IntType.sub self.value earlier.value).map Duration.mk := by
    unfold since
    simp only [durationCast_one]
    cases IntType.sub self.value earlier.value <;> rfl
  rw [hsince, Duration.map_mk_eq_some_iff]
  exact IntType.sub_eq_some_iff

theorem add_eq_some_iff {self r : Instant} {d : Duration} :
    self.add d = some r ↔ r.value.val = self.value.val + d.value.val := by
  have hadd : self.add d = (IntType.add self.value d.value).map Instant.mk := by
    unfold add
    rw [durationCast_one]
    rfl
  rw [hadd, map_mk_eq_some_iff]
  exact IntType.add_eq_some_iff

theorem subDuration_eq_some_iff {self r : Instant} {d : Duration} :
    self.subDuration d = some r ↔ r.value.val = self.value.val - d.value.val := by
  have hsub : self.subDuration d = (IntType.sub self.value d.value).map Instant.mk := by
    unfold subDuration
    rw [durationCast_one]
    rfl
  rw [hsub, map_mk_eq_some_iff]
  exact IntType.sub_eq_some_iff

end Instant

end VixStandard.Time
