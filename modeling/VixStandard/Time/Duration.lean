import VixStandard.Lib.Chrono

/-!
# Duration

`vix::Duration` keeps an `int64` count of nanoseconds.  It converts between
units by `std::chrono::duration_cast`, which multiplies or divides the count
(`durationCast_eq`).  A multiplication that leaves the range has no meaning in C++,
and is `none` here.

The compound operators work on the count, and the binary ones on a copy by the
compound ones.  Each has one lemma, which says on which exact integers it is
defined and what it then gives.
-/

namespace VixStandard.Time

open VixStandard.Lib Chrono

/-- The representation of a count. -/
abbrev Rep := IntType.int64.Value

/-- The count of a `std::chrono::duration`. -/
def Rep.ofChrono (count : (Integral.int .int64).Value) : Rep := ⟨count.val, count.fits⟩

/-- `std::chrono::duration_cast` between durations with `int64` counts, the quotient of
whose periods is `cf`. -/
def durationCast (cf : Ratio) (count : Rep) : Option Rep :=
  (Chrono.durationCast (.int .int64) (.int .int64) cf ⟨count.val, count.fits⟩).map Rep.ofChrono

theorem durationCast_eq (cf : Ratio) (count : Rep) :
    durationCast cf count =
      if cf.num.val = 1 ∧ cf.den.val = 1 then some count
      else if cf.den.val = 1 then IntType.mul count cf.num
      else if cf.num.val = 1 then IntType.div count cf.den
      else (IntType.mul count cf.num).bind fun product => IntType.div product cf.den := by
  have hcast : ∀ v : Rep, (Integral.int .int64).cast v.val = ⟨v.val, v.fits⟩ :=
    fun v => Integral.Value.ext (IntType.cast_val v.fits)
  have hmul : ∀ a b : Rep, IntType.mulMod a b = IntType.mul a b := fun _ _ => rfl
  show (castIn .int64 (.int .int64) (.int .int64) cf ⟨count.val, count.fits⟩).map _ = _
  unfold castIn
  simp only [cast_eq count.fits, cast_eq cf.num.fits, cast_eq cf.den.fits, hmul, hcast]
  split
  · rfl
  split
  · cases IntType.mul count cf.num <;> rfl
  split
  · cases IntType.div count cf.den <;> rfl
  · cases IntType.mul count cf.num with
    | none => rfl
    | some product =>
      show ((IntType.div product cf.den).map _).map _ = IntType.div product cf.den
      cases IntType.div product cf.den <;> rfl

section Cast

variable {cf : Ratio} {count r : Rep}

/-- Into a period that divides the other one, the count is multiplied. -/
theorem durationCast_of_den (h : cf.den.val = 1) :
    durationCast cf count = some r ↔ r.val = count.val * cf.num.val := by
  rw [durationCast_eq]
  split
  · rename_i hone
    rw [hone.1, Int.mul_one, Option.some.injEq, IntType.Value.ext_iff]
    exact eq_comm
  · exact IntType.mul_eq_some_iff

/-- Into a multiple of the period the count is divided, which is always defined. -/
theorem durationCast_of_num (h : cf.num.val = 1) :
    durationCast cf count = some r ↔ r.val = count.val.tdiv cf.den.val := by
  rw [durationCast_eq]
  split
  · rename_i hone
    rw [hone.2, Int.tdiv_one, Option.some.injEq, IntType.Value.ext_iff]
    exact eq_comm
  split
  · rename_i hne hden
    exact absurd ⟨h, hden⟩ hne
  · rw [IntType.div_eq_some_iff]
    exact and_iff_right (Int.ne_of_gt cf.den_pos)

theorem durationCast_one : durationCast .one count = some count := by
  rw [durationCast_of_den rfl]
  exact (Int.mul_one count.val).symm

end Cast

/-- A Duration: its count of nanoseconds. -/
@[ext] structure Duration where
  value : Rep
  deriving DecidableEq

namespace Duration

/-- The nanoseconds of a microsecond. -/
def thousand : Ratio := .whole ⟨1000, by decide⟩ (by decide)

/-- The nanoseconds of a millisecond. -/
def million : Ratio := .whole ⟨1000000, by decide⟩ (by decide)

/-- The nanoseconds of a second. -/
def billion : Ratio := .whole ⟨1000000000, by decide⟩ (by decide)

/-- The nanoseconds of a minute. -/
def sixtyBillion : Ratio := .whole ⟨60000000000, by decide⟩ (by decide)

/-- The nanoseconds of an hour. -/
def hourNanos : Ratio := .whole ⟨3600000000000, by decide⟩ (by decide)

def nanoseconds (value : Rep) : Duration := ⟨value⟩

def microseconds (value : Rep) : Option Duration :=
  (durationCast thousand value).map Duration.mk

def milliseconds (value : Rep) : Option Duration :=
  (durationCast million value).map Duration.mk

def seconds (value : Rep) : Option Duration :=
  (durationCast billion value).map Duration.mk

def minutes (value : Rep) : Option Duration :=
  (durationCast sixtyBillion value).map Duration.mk

def hours (value : Rep) : Option Duration :=
  (durationCast hourNanos value).map Duration.mk

def countNanoseconds (d : Duration) : Rep := d.value

def countMicroseconds (d : Duration) : Option Rep := durationCast thousand.inv d.value

def countMilliseconds (d : Duration) : Option Rep := durationCast million.inv d.value

def countSeconds (d : Duration) : Option Rep := durationCast billion.inv d.value

def countMinutes (d : Duration) : Option Rep := durationCast sixtyBillion.inv d.value

def countHours (d : Duration) : Option Rep := durationCast hourNanos.inv d.value

def zero : Duration := ⟨IntType.int64.zero⟩

def min : Duration := ⟨⟨IntType.int64.min, by decide⟩⟩

def max : Duration := ⟨⟨IntType.int64.max, by decide⟩⟩

def isZero (d : Duration) : Bool := d.countNanoseconds.val = 0

def isPositive (d : Duration) : Bool := d.countNanoseconds.val > 0

def isNegative (d : Duration) : Bool := d.countNanoseconds.val < 0

theorem isZero_iff {d : Duration} : d.isZero = true ↔ d.value.val = 0 := decide_eq_true_iff

theorem isPositive_iff {d : Duration} : d.isPositive = true ↔ 0 < d.value.val :=
  decide_eq_true_iff

theorem isNegative_iff {d : Duration} : d.isNegative = true ↔ d.value.val < 0 :=
  decide_eq_true_iff

/-- The order of the counts, which `operator<=>` compares. -/
instance : LT Duration := ⟨fun lhs rhs => lhs.value.val < rhs.value.val⟩

theorem lt_iff {lhs rhs : Duration} : lhs < rhs ↔ lhs.value.val < rhs.value.val := Iff.rfl

/-- `operator<=>` -/
def compare (lhs rhs : Duration) : Ordering := Ord.compare lhs.value.val rhs.value.val

/-! ## Operators -/

/-- `operator+=` -/
def addAssign (self other : Duration) : Option Duration :=
  (IntType.add self.value other.value).map Duration.mk

/-- `operator-=` -/
def subAssign (self other : Duration) : Option Duration :=
  (IntType.sub self.value other.value).map Duration.mk

/-- `operator*=` -/
def mulAssign (self : Duration) (scalar : Rep) : Option Duration :=
  (IntType.mul self.value scalar).map Duration.mk

/-- `operator/=` -/
def divAssign (self : Duration) (scalar : Rep) : Option Duration :=
  (IntType.div self.value scalar).map Duration.mk

/-- `operator+()` -/
def plus (self : Duration) : Duration := self

/-- `operator-()` -/
def neg (self : Duration) : Option Duration := (IntType.neg self.value).map Duration.mk

def add (lhs rhs : Duration) : Option Duration := lhs.addAssign rhs

def sub (lhs rhs : Duration) : Option Duration := lhs.subAssign rhs

/-- `duration * scalar` -/
def mul (duration : Duration) (scalar : Rep) : Option Duration := duration.mulAssign scalar

/-- `scalar * duration` -/
def scalarMul (scalar : Rep) (duration : Duration) : Option Duration := duration.mulAssign scalar

/-- `duration / scalar` -/
def div (duration : Duration) (scalar : Rep) : Option Duration := duration.divAssign scalar

/-- `lhs / rhs` -/
def ratio (lhs rhs : Duration) : Option Rep := IntType.div lhs.value rhs.value

/-- `lhs % rhs` -/
def rem (lhs rhs : Duration) : Option Duration :=
  (IntType.mod lhs.value rhs.value).map Duration.mk

section Operators

variable {self other d : Duration} {scalar n : Rep}

theorem map_mk_eq_some_iff {o : Option Rep} : o.map Duration.mk = some d ↔ o = some d.value := by
  rw [Option.map_eq_some_iff]
  constructor
  · intro h
    obtain ⟨r, hr, hd⟩ := h
    rw [← hd]
    exact hr
  · intro h
    exact ⟨d.value, h, rfl⟩

theorem addAssign_eq_some_iff :
    self.addAssign other = some d ↔ d.value.val = self.value.val + other.value.val :=
  map_mk_eq_some_iff.trans IntType.add_eq_some_iff

theorem subAssign_eq_some_iff :
    self.subAssign other = some d ↔ d.value.val = self.value.val - other.value.val :=
  map_mk_eq_some_iff.trans IntType.sub_eq_some_iff

theorem mulAssign_eq_some_iff :
    self.mulAssign scalar = some d ↔ d.value.val = self.value.val * scalar.val :=
  map_mk_eq_some_iff.trans IntType.mul_eq_some_iff

theorem divAssign_eq_some_iff :
    self.divAssign scalar = some d ↔
      scalar.val ≠ 0 ∧ d.value.val = self.value.val.tdiv scalar.val :=
  map_mk_eq_some_iff.trans IntType.div_eq_some_iff

theorem neg_eq_some_iff : self.neg = some d ↔ d.value.val = -self.value.val :=
  map_mk_eq_some_iff.trans IntType.neg_eq_some_iff

theorem ratio_eq_some_iff :
    self.ratio other = some n ↔
      other.value.val ≠ 0 ∧ n.val = self.value.val.tdiv other.value.val :=
  IntType.div_eq_some_iff

theorem rem_eq_some_iff :
    self.rem other = some d ↔ other.value.val ≠ 0 ∧
      IntType.int64.Fits (self.value.val.tdiv other.value.val) ∧
        d.value.val = self.value.val.tmod other.value.val :=
  map_mk_eq_some_iff.trans IntType.mod_eq_some_iff

end Operators

/-- Milliseconds are a multiple of nanoseconds, if they fit. -/
theorem milliseconds_eq_some_iff {n : Rep} {d : Duration} :
    milliseconds n = some d ↔ d.value.val = n.val * 1000000 :=
  map_mk_eq_some_iff.trans (durationCast_of_den rfl)

/-- Counting whole milliseconds truncates, and is always defined. -/
theorem countMilliseconds_eq_some_iff {d : Duration} {n : Rep} :
    d.countMilliseconds = some n ↔ n.val = d.value.val.tdiv 1000000 :=
  durationCast_of_num rfl

end Duration

end VixStandard.Time
