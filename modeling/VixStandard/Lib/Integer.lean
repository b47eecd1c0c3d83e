import Mathlib.Algebra.Group.Nat.Defs

/-!
# Fixed-width integers

The integer types of a language with 8 to 64 bits.  A value is an integer with
the proof that it is in range.

Signed arithmetic has no meaning outside the range, so `add`, `sub`, `mul` and
`div` give `none` there; each is specified by the exact integer it stands for
(`add_eq_some_iff` and its siblings).  `cast` is the conversion between types,
which is modulo the size of the target (`cast_val`).
-/

namespace VixStandard.Lib

/-! ## Truncating division -/

/-- The remainder is smaller than the divisor, and has the sign of the dividend. -/
theorem tmod_bounds (v : Int) {w : Int} (hw : w ≠ 0) :
    (v.tmod w).natAbs < w.natAbs ∧ (v.tmod w = 0 ∨ (v.tmod w).sign = v.sign) := by
  refine ⟨?_, ?_⟩
  · rw [Int.natAbs_tmod]
    exact Nat.mod_lt _ (by omega)
  · by_cases hzero : v.tmod w = 0
    · exact Or.inl hzero
    · refine Or.inr ?_
      rcases Int.lt_trichotomy v 0 with hneg | hv | hpos
      · have hnonneg := Int.tmod_nonneg w (Int.neg_nonneg_of_nonpos (Int.le_of_lt hneg))
        rw [Int.neg_tmod] at hnonneg
        rw [Int.sign_eq_neg_one_of_neg hneg, Int.sign_eq_neg_one_of_neg (by omega)]
      · rw [hv, Int.zero_tmod] at hzero
        exact absurd rfl hzero
      · have hnonneg := Int.tmod_nonneg w (Int.le_of_lt hpos)
        rw [Int.sign_eq_one_of_pos hpos, Int.sign_eq_one_of_pos (by omega)]

/-- The multiple of the divisor that is left lies between zero and the dividend. -/
theorem tdiv_mul_between (v w : Int) :
    0 ≤ v.tdiv w * w ∧ v.tdiv w * w ≤ v ∨ v ≤ v.tdiv w * w ∧ v.tdiv w * w ≤ 0 := by
  have hsplit := Int.tdiv_mul_add_tmod v w
  have habs : (v.tmod w).natAbs ≤ v.natAbs := by
    rw [Int.natAbs_tmod]
    exact Nat.mod_le _ _
  rcases Int.le_total 0 v with hpos | hneg
  · have hnonneg := Int.tmod_nonneg w hpos
    omega
  · have hnonneg := Int.tmod_nonneg w (Int.neg_nonneg_of_nonpos hneg)
    rw [Int.neg_tmod] at hnonneg
    omega

/-- Two truncations are one. -/
theorem tdiv_tdiv (v : Int) {a b : Int} (ha : 0 ≤ a) :
    (v.tdiv a).tdiv b = v.tdiv (a * b) := by
  have hnonneg : ∀ v : Int, 0 ≤ v → (v.tdiv a).tdiv b = v.tdiv (a * b) := by
    intro v hv
    rw [Int.tdiv_eq_ediv_of_nonneg hv, Int.tdiv_eq_ediv_of_nonneg hv,
      Int.tdiv_eq_ediv_of_nonneg (Int.ediv_nonneg hv ha), Int.ediv_ediv_of_nonneg ha]
  rcases Int.le_total 0 v with hpos | hneg
  · exact hnonneg v hpos
  · have hflip := hnonneg (-v) (Int.neg_nonneg_of_nonpos hneg)
    rw [Int.neg_tdiv, Int.neg_tdiv, Int.neg_tdiv] at hflip
    exact Int.neg_inj.mp hflip

/-! ## Integer types -/

/-- An integer type. -/
structure IntType where
  bits : Nat
  signed : Bool
  eight_le : 8 ≤ bits
  le_64 : bits ≤ 64

namespace IntType

def min (T : IntType) : Int := if T.signed then -((2 ^ (T.bits - 1) : Nat) : Int) else 0

def max (T : IntType) : Int :=
  if T.signed then ((2 ^ (T.bits - 1) : Nat) : Int) - 1 else ((2 ^ T.bits : Nat) : Int) - 1

/-- The integers of the type. -/
def Fits (T : IntType) (v : Int) : Prop := T.min ≤ v ∧ v ≤ T.max

instance (T : IntType) (v : Int) : Decidable (T.Fits v) := inferInstanceAs (Decidable (_ ∧ _))

/-- A value of the type. -/
@[ext] structure Value (T : IntType) where
  val : Int
  fits : T.Fits val
  deriving DecidableEq

def int64 : IntType := ⟨64, true, by decide, by decide⟩

def uint64 : IntType := ⟨64, false, by decide, by decide⟩

def uint16 : IntType := ⟨16, false, by decide, by decide⟩

theorem fits_int64 {v : Int} :
    int64.Fits v ↔ -9223372036854775808 ≤ v ∧ v ≤ 9223372036854775807 := Iff.rfl

theorem fits_uint64 {v : Int} : uint64.Fits v ↔ 0 ≤ v ∧ v ≤ 18446744073709551615 := Iff.rfl

theorem fits_uint16 {v : Int} : uint16.Fits v ↔ 0 ≤ v ∧ v ≤ 65535 := Iff.rfl

variable {T : IntType}

theorem fits_zero (T : IntType) : T.Fits 0 := by
  have hpow : 0 < 2 ^ (T.bits - 1) := Nat.two_pow_pos _
  have hpow' : 0 < 2 ^ T.bits := Nat.two_pow_pos _
  unfold Fits min max
  split <;> omega

def zero (T : IntType) : T.Value := ⟨0, T.fits_zero⟩

/-- No value has more than 20 digits. -/
theorem natAbs_lt (v : T.Value) : v.val.natAbs < 10 ^ 20 := by
  obtain ⟨v, hmin, hmax⟩ := v
  have hbits : 2 ^ T.bits ≤ 2 ^ 64 := Nat.pow_le_pow_right (by decide) T.le_64
  have hhalf : 2 ^ (T.bits - 1) ≤ 2 ^ 64 :=
    Nat.pow_le_pow_right (by decide) (Nat.le_trans (Nat.sub_le _ _) T.le_64)
  have hdigits : 2 ^ 64 < 10 ^ 20 := by decide
  unfold min at hmin
  unfold max at hmax
  show v.natAbs < 10 ^ 20
  generalize 2 ^ T.bits = a at *
  generalize 2 ^ (T.bits - 1) = b at *
  cases hs : T.signed with
  | true =>
    simp only [hs, if_true] at hmin hmax
    omega
  | false =>
    simp only [hs, Bool.false_eq_true, if_false] at hmin hmax
    omega

/-- The values of an unsigned type are not negative. -/
theorem signed_of_neg {v : T.Value} (h : v.val < 0) : T.signed = true := by
  obtain ⟨v, hmin, hmax⟩ := v
  cases hs : T.signed with
  | true => rfl
  | false =>
    simp only [min, hs, Bool.false_eq_true, if_false] at hmin
    exact absurd h (Int.not_lt.mpr hmin)

theorem fits_min (T : IntType) : T.Fits T.min := by
  have hzero := T.fits_zero
  unfold Fits at *
  omega

theorem min_neg (h : T.signed = true) : T.min < 0 := by
  have hpow : 0 < 2 ^ (T.bits - 1) := Nat.two_pow_pos _
  simp only [min, h, if_true]
  omega

theorem nonneg_of_unsigned {v : Int} (hs : T.signed = false) (h : T.Fits v) : 0 ≤ v := by
  have hmin := h.1
  simpa only [min, hs, Bool.false_eq_true, if_false] using hmin

/-! ## Checked arithmetic -/

/-- The value that an exact result stands for. -/
def check (T : IntType) (v : Int) : Option T.Value :=
  if h : T.Fits v then some ⟨v, h⟩ else none

theorem check_eq_some_iff {v : Int} {r : T.Value} : T.check v = some r ↔ r.val = v := by
  unfold check
  split
  · rename_i h
    rw [Option.some.injEq]
    constructor
    · intro hr
      rw [← hr]
    · intro hr
      exact Value.ext hr.symm
  · rename_i h
    constructor
    · intro hr
      cases hr
    · intro hr
      exact absurd (hr ▸ r.fits) h

theorem check_eq_none_iff {v : Int} : T.check v = none ↔ ¬ T.Fits v := by
  unfold check
  split <;> simp_all

def add (a b : T.Value) : Option T.Value := T.check (a.val + b.val)

def sub (a b : T.Value) : Option T.Value := T.check (a.val - b.val)

def mul (a b : T.Value) : Option T.Value := T.check (a.val * b.val)

/-- Division truncates toward zero. -/
def div (a b : T.Value) : Option T.Value :=
  if b.val = 0 then none else T.check (a.val.tdiv b.val)

theorem add_eq_some_iff {a b r : T.Value} : add a b = some r ↔ r.val = a.val + b.val :=
  check_eq_some_iff

theorem sub_eq_some_iff {a b r : T.Value} : sub a b = some r ↔ r.val = a.val - b.val :=
  check_eq_some_iff

theorem mul_eq_some_iff {a b r : T.Value} : mul a b = some r ↔ r.val = a.val * b.val :=
  check_eq_some_iff

theorem div_eq_some_iff {a b r : T.Value} :
    div a b = some r ↔ b.val ≠ 0 ∧ r.val = a.val.tdiv b.val := by
  unfold div
  split
  · simp_all
  · simp_all [check_eq_some_iff]

def neg (a : T.Value) : Option T.Value := T.check (-a.val)

/-- The remainder has the sign of the dividend.  It has no meaning where the quotient
has none. -/
def mod (a b : T.Value) : Option T.Value :=
  if b.val ≠ 0 ∧ T.Fits (a.val.tdiv b.val) then T.check (a.val.tmod b.val) else none

theorem neg_eq_some_iff {a r : T.Value} : neg a = some r ↔ r.val = -a.val :=
  check_eq_some_iff

theorem mod_eq_some_iff {a b r : T.Value} :
    mod a b = some r ↔
      b.val ≠ 0 ∧ T.Fits (a.val.tdiv b.val) ∧ r.val = a.val.tmod b.val := by
  unfold mod
  split
  · simp_all [check_eq_some_iff]
  · simp_all

/-- What lies between zero and a value is a value. -/
theorem fits_of_between {v w : Int} (hv : T.Fits v) (h : 0 ≤ w ∧ w ≤ v ∨ v ≤ w ∧ w ≤ 0) :
    T.Fits w := by
  have hzero := T.fits_zero
  unfold Fits at *
  omega

theorem fits_tmod {v : Int} (hv : T.Fits v) (w : Int) : T.Fits (v.tmod w) := by
  have habs : (v.tmod w).natAbs ≤ v.natAbs := by
    rw [Int.natAbs_tmod]
    exact Nat.mod_le _ _
  refine fits_of_between hv ?_
  rcases Int.le_total 0 v with hpos | hneg
  · have hnonneg := Int.tmod_nonneg w hpos
    omega
  · have hnonneg := Int.tmod_nonneg w (Int.neg_nonneg_of_nonpos hneg)
    rw [Int.neg_tmod] at hnonneg
    omega

/-- Divided by a positive number, a value comes closer to zero. -/
theorem fits_tdiv_of_pos {v w : Int} (hv : T.Fits v) (hw : 0 < w) : T.Fits (v.tdiv w) := by
  have habs : (v.tdiv w).natAbs ≤ v.natAbs := Int.natAbs_tdiv_le_natAbs v w
  refine fits_of_between hv ?_
  rcases Int.le_total 0 v with hpos | hneg
  · have hnonneg := Int.tdiv_nonneg hpos (Int.le_of_lt hw)
    omega
  · have hnonneg := Int.tdiv_nonneg (Int.neg_nonneg_of_nonpos hneg) (Int.le_of_lt hw)
    rw [Int.neg_tdiv] at hnonneg
    omega

/-- A signed type has one more negative than positive values. -/
theorem fits_signed (h : T.signed = true) {v : Int} : T.Fits v ↔ -(T.max + 1) ≤ v ∧ v ≤ T.max := by
  unfold Fits min max
  simp only [h, if_true]
  omega

/-- Only the least value of a signed type has a quotient outside of the type, by -1. -/
theorem fits_tdiv_iff {v w : Int} (hv : T.Fits v) (hw : T.Fits w) (hne : w ≠ 0) :
    T.Fits (v.tdiv w) ↔ ¬ (T.signed = true ∧ v = T.min ∧ w = -1) := by
  cases hs : T.signed with
  | false =>
    have hnonneg := nonneg_of_unsigned hs hw
    have hpos : 0 < w := by omega
    exact iff_of_true (fits_tdiv_of_pos hv hpos) (fun h => by cases h.1)
  | true =>
    have hmin : T.min = -(T.max + 1) := by
      unfold min max
      simp only [hs, if_true]
      omega
    have hbound := (fits_signed hs).mp hv
    rcases Int.lt_or_gt_of_ne hne with hneg | hpos
    · by_cases hone : w = -1
      · subst hone
        rw [Int.tdiv_neg, Int.tdiv_one, fits_signed hs]
        constructor
        · rintro ⟨_, hle⟩ ⟨_, hv', _⟩
          omega
        · intro h
          have hne' : v ≠ T.min := fun hv' => h ⟨rfl, hv', rfl⟩
          omega
      · -- The quotient by -2 or less is at most half of the dividend.
        have habs : (v.tdiv w).natAbs ≤ v.natAbs / 2 := by
          rw [Int.natAbs_tdiv]
          exact Nat.div_le_div_left (by omega) (by decide)
        have hmax : 0 ≤ T.max := T.fits_zero.2
        refine iff_of_true ((fits_signed hs).mpr ?_) (fun h => hone h.2.2)
        omega
    · exact iff_of_true (fits_tdiv_of_pos hv hpos) (fun h => by omega)

/-! ## Conversion -/

/-- The integer of the type that is congruent to `v`. -/
def wrap (T : IntType) (v : Int) : Int :=
  (v - T.min) % ((2 ^ T.bits : Nat) : Int) + T.min

theorem size_eq (T : IntType) : ((2 ^ T.bits : Nat) : Int) = T.max - T.min + 1 := by
  obtain ⟨b, hb⟩ : ∃ b, T.bits = b + 1 := ⟨T.bits - 1, by have := T.eight_le; omega⟩
  unfold min max
  rw [hb, Nat.add_sub_cancel, Nat.pow_succ]
  split <;> omega

theorem fits_wrap (T : IntType) (v : Int) : T.Fits (T.wrap v) := by
  have hsize := T.size_eq
  have hpos : (0 : Int) < ((2 ^ T.bits : Nat) : Int) := by
    have := Nat.two_pow_pos T.bits
    omega
  have hnonneg := Int.emod_nonneg (v - T.min) (Int.ne_of_gt hpos)
  have hlt := Int.emod_lt_of_pos (v - T.min) hpos
  unfold Fits wrap
  omega

/-- `static_cast<T>` -/
def cast (T : IntType) (v : Int) : T.Value := ⟨T.wrap v, T.fits_wrap v⟩

/-- Nothing changes within the range. -/
theorem cast_val {v : Int} (h : T.Fits v) : (T.cast v).val = v := by
  have hsize := T.size_eq
  obtain ⟨hmin, hmax⟩ := h
  show (v - T.min) % ((2 ^ T.bits : Nat) : Int) + T.min = v
  rw [Int.emod_eq_of_lt (by omega) (by omega)]
  omega

/-- Multiplication, which is modulo the size of an unsigned type. -/
def mulMod (a b : T.Value) : Option T.Value :=
  if T.signed then mul a b else some (T.cast (a.val * b.val))

theorem mulMod_of_fits {a b : T.Value} (h : T.Fits (a.val * b.val)) :
    mulMod a b = some ⟨a.val * b.val, h⟩ := by
  unfold mulMod
  split
  · exact mul_eq_some_iff.mpr rfl
  · exact congrArg some (Value.ext (cast_val h))

/-- A value that is not negative is one of the widest unsigned type. -/
theorem fits_uint64_of_nonneg {v : Int} (h : T.Fits v) (hv : 0 ≤ v) : uint64.Fits v := by
  have hbits : 2 ^ T.bits ≤ 2 ^ 64 := Nat.pow_le_pow_right (by decide) T.le_64
  have hhalf : 2 ^ (T.bits - 1) ≤ 2 ^ 64 :=
    Nat.pow_le_pow_right (by decide) (Nat.le_trans (Nat.sub_le _ _) T.le_64)
  have hmax := h.2
  unfold max at hmax
  rw [fits_uint64]
  split at hmax
  · omega
  · omega

/-- A value of any other type is one of the widest signed type. -/
theorem fits_int64_of_ne {v : Int} (h : T.Fits v) (hne : T.signed = true ∨ T.bits ≠ 64) :
    int64.Fits v := by
  have hle := T.le_64
  have hhalf : 2 ^ (T.bits - 1) ≤ 2 ^ 63 := Nat.pow_le_pow_right (by decide) (by omega)
  obtain ⟨hmin, hmax⟩ := h
  unfold min at hmin
  unfold max at hmax
  rw [fits_int64]
  cases hs : T.signed with
  | true =>
    simp only [hs, if_true] at hmin hmax
    omega
  | false =>
    have hne' : T.bits ≠ 64 := hne.resolve_left (by rw [hs]; decide)
    have hbits : 2 ^ T.bits ≤ 2 ^ 63 := Nat.pow_le_pow_right (by decide) (by omega)
    simp only [hs, Bool.false_eq_true, if_false] at hmin hmax
    omega

end IntType

end VixStandard.Lib
