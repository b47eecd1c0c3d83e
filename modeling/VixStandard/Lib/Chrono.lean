import VixStandard.Lib.Integer

/-!
# Conversions between durations of any unit

The part of `<ratio>` and `<chrono>` that converts a count of one period into a count
of another, for every integral representation.

* `Ratio` is a positive rational number in lowest terms, and `Ratio.divide` is
  `std::ratio_divide`.
* `durationCast` is `std::chrono::duration_cast`.  It computes in the common type of
  both representations and `intmax_t`, which is unsigned if one of them is the widest
  unsigned type.

The cast is exact, up to truncation, exactly if the product of the count and the
numerator of the ratio is in the range of the common type (`durationCast_exact_iff`).
-/

namespace VixStandard.Lib.Chrono

open IntType

/-! ## Ratios -/

/-- A positive rational number in lowest terms. -/
structure Ratio where
  num : int64.Value
  den : int64.Value
  num_pos : 0 < num.val
  den_pos : 0 < den.val
  coprime : Int.gcd num.val den.val = 1

/-- A whole number. -/
def Ratio.whole (n : int64.Value) (h : 0 < n.val) : Ratio where
  num := n
  den := ⟨1, by decide⟩
  num_pos := h
  den_pos := Int.pos_of_sign_eq_one rfl
  coprime := Int.gcd_one_right n.val

/-- The quotient of a period and itself. -/
def Ratio.one : Ratio := .whole ⟨1, by decide⟩ (Int.pos_of_sign_eq_one rfl)

/-- The quotient for the way back. -/
def Ratio.inv (r : Ratio) : Ratio where
  num := r.den
  den := r.num
  num_pos := r.den_pos
  den_pos := r.num_pos
  coprime := Int.gcd_comm r.den.val r.num.val ▸ r.coprime

/-- The ratio in lowest terms.  A program in which it cannot be represented is
ill-formed. -/
def Ratio.make (n d : Int) (hn : 0 < n) (hd : 0 < d) : Option Ratio :=
  if h : int64.Fits (n / Int.gcd n d) ∧ int64.Fits (d / Int.gcd n d) then
    some
      { num := ⟨_, h.1⟩
        den := ⟨_, h.2⟩
        num_pos := Int.ediv_pos_of_pos_of_dvd hn (Int.natCast_nonneg _) (Int.gcd_dvd_left n d)
        den_pos := Int.ediv_pos_of_pos_of_dvd hd (Int.natCast_nonneg _) (Int.gcd_dvd_right n d)
        coprime := Int.gcd_ediv_gcd_ediv_gcd (Int.gcd_pos_of_ne_zero_left d (Int.ne_of_gt hn)) }
  else none

/-- `std::ratio_divide` -/
def Ratio.divide (p q : Ratio) : Option Ratio :=
  Ratio.make (p.num.val * q.den.val) (p.den.val * q.num.val) (Int.mul_pos p.num_pos q.den_pos)
    (Int.mul_pos p.den_pos q.num_pos)

/-- How many whole periods `q` there are in `c` periods `p`, toward zero. -/
def Ratio.count (p q : Ratio) (c : Int) : Int :=
  (c * (p.num.val * q.den.val)).tdiv (p.den.val * q.num.val)

/-- The quotient of two periods that a program converts between. -/
structure Conversion (p q : Ratio) where
  ratio : Ratio
  divide_eq : p.divide q = some ratio

theorem Ratio.make_eq {n d : Int} {hn : 0 < n} {hd : 0 < d} {r : Ratio}
    (h : Ratio.make n d hn hd = some r) :
    ∃ g : Int, 0 < g ∧ n = r.num.val * g ∧ d = r.den.val * g := by
  unfold Ratio.make at h
  split at h
  · refine ⟨Int.gcd n d, ?_, ?_⟩
    · exact Int.natCast_pos.mpr (Int.gcd_pos_of_ne_zero_left d (Int.ne_of_gt hn))
    · rw [← Option.some.inj h]
      exact ⟨(Int.ediv_mul_cancel (Int.gcd_dvd_left n d)).symm,
        (Int.ediv_mul_cancel (Int.gcd_dvd_right n d)).symm⟩
  · cases h

/-- In lowest terms the quotient counts the same. -/
theorem Conversion.count_eq {p q : Ratio} (cf : Conversion p q) (c : Int) :
    p.count q c = (c * cf.ratio.num.val).tdiv cf.ratio.den.val := by
  obtain ⟨g, hg, hn, hd⟩ := Ratio.make_eq cf.divide_eq
  unfold Ratio.count
  rw [hn, hd, ← Int.mul_assoc]
  exact Int.mul_tdiv_mul_of_pos_left _ _ hg

theorem Ratio.make_val {n d : Int} {hn : 0 < n} {hd : 0 < d} {r : Ratio}
    (h : Ratio.make n d hn hd = some r) :
    r.num.val = n / Int.gcd n d ∧ r.den.val = d / Int.gcd n d := by
  unfold Ratio.make at h
  split at h
  · rw [← Option.some.inj h]
    exact ⟨rfl, rfl⟩
  · cases h

/-- The way back has the inverse quotient. -/
theorem Conversion.inverse {p q : Ratio} (cf : Conversion p q) (cf' : Conversion q p) :
    cf'.ratio.num.val = cf.ratio.den.val ∧ cf'.ratio.den.val = cf.ratio.num.val := by
  obtain ⟨hnum, hden⟩ := Ratio.make_val cf.divide_eq
  obtain ⟨hnum', hden'⟩ := Ratio.make_val cf'.divide_eq
  have hn : q.num.val * p.den.val = p.den.val * q.num.val := Int.mul_comm _ _
  have hd : q.den.val * p.num.val = p.num.val * q.den.val := Int.mul_comm _ _
  rw [hnum', hden', hnum, hden, hn, hd, Int.gcd_comm (p.den.val * q.num.val)]
  exact ⟨rfl, rfl⟩

/-! ## Representations -/

/-- The integral types: those of `IntType`, and `bool`. -/
inductive Integral where
  | int (T : IntType)
  | bool

def Integral.Fits : Integral → Int → Prop
  | int T, v => T.Fits v
  | bool, v => v = 0 ∨ v = 1

instance (R : Integral) (v : Int) : Decidable (R.Fits v) :=
  match R with
  | .int T => inferInstanceAs (Decidable (T.Fits v))
  | .bool => inferInstanceAs (Decidable (_ ∨ _))

/-- A value of the type. -/
@[ext] structure Integral.Value (R : Integral) where
  val : Int
  fits : R.Fits val

/-- `static_cast<R>` -/
def Integral.cast : (R : Integral) → Int → R.Value
  | int T, v => ⟨T.wrap v, T.fits_wrap v⟩
  | bool, v => if v = 0 then ⟨0, Or.inl rfl⟩ else ⟨1, Or.inr rfl⟩

theorem Integral.cast_val {R : Integral} {v : Int} (h : R.Fits v) : (R.cast v).val = v := by
  cases R with
  | int T => exact IntType.cast_val h
  | bool =>
    rcases h with rfl | rfl
    · rfl
    · rfl

/-- Whether the type is the unsigned type that is as wide as `intmax_t`. -/
def Integral.isUint64 : Integral → Bool
  | int T => T.bits == 64 && !T.signed
  | bool => false

/-- The common type of two types and `intmax_t`. -/
def commonType (R R' : Integral) : IntType :=
  if R.isUint64 || R'.isUint64 then uint64 else int64

theorem commonType_cases (R R' : Integral) :
    (R.isUint64 = false ∧ R'.isUint64 = false ∧ commonType R R' = int64) ∨
      ((R.isUint64 = true ∨ R'.isUint64 = true) ∧ commonType R R' = uint64) := by
  unfold commonType
  cases hR : R.isUint64 <;> cases hR' : R'.isUint64 <;> simp

variable {R R' To From : Integral} {v w : Int}

theorem commonType_fits_of_nonneg (R R' : Integral) (h : int64.Fits v) (hv : 0 ≤ v) :
    (commonType R R').Fits v := by
  rcases commonType_cases R R' with ⟨_, _, hC⟩ | ⟨_, hC⟩
  · rw [hC]
    exact h
  · rw [hC]
    exact fits_uint64_of_nonneg h hv

theorem Integral.fits_uint64 (h : R.Fits v) (hv : 0 ≤ v) : uint64.Fits v := by
  cases R with
  | int T => exact fits_uint64_of_nonneg h hv
  | bool =>
    rw [IntType.fits_uint64]
    rcases h with rfl | rfl <;> omega

theorem Integral.fits_int64 (h : R.Fits v) (hR : R.isUint64 = false) : int64.Fits v := by
  cases R with
  | int T =>
    refine fits_int64_of_ne h ?_
    cases hs : T.signed with
    | true => exact Or.inl rfl
    | false => exact Or.inr (by simpa [Integral.isUint64, hs] using hR)
  | bool =>
    rw [IntType.fits_int64]
    rcases h with rfl | rfl <;> omega

theorem Integral.eq_uint64 (hR : R.isUint64 = true) : R = int uint64 := by
  cases R with
  | int T =>
    obtain ⟨bits, signed, hge, hle⟩ := T
    simp only [Integral.isUint64, Bool.and_eq_true, beq_iff_eq, Bool.not_eq_true'] at hR
    obtain ⟨rfl, rfl⟩ := hR
    rfl
  | bool => cases hR

theorem Integral.nonneg (h : R.Fits v) (hR : R.isUint64 = true) : 0 ≤ v := by
  rw [Integral.eq_uint64 hR] at h
  exact h.1

/-- A number between zero and one of the type is of the type. -/
theorem Integral.fits_of_between (h : R.Fits v) (hw : 0 ≤ w ∧ w ≤ v) : R.Fits w := by
  cases R with
  | int T => exact IntType.fits_of_between h (Or.inl hw)
  | bool =>
    have h' : v = 0 ∨ v = 1 := h
    show w = 0 ∨ w = 1
    omega

/-! ## The cast -/

/-- The conversion of a count by the quotient `cf` of the periods, computed in `C`. -/
def castIn (C : IntType) (To From : Integral) (cf : Ratio) (count : From.Value) :
    Option To.Value :=
  if cf.num.val = 1 ∧ cf.den.val = 1 then some (To.cast count.val)
  else if cf.den.val = 1 then
    (mulMod (C.cast count.val) (C.cast cf.num.val)).map fun v => To.cast v.val
  else if cf.num.val = 1 then
    (div (C.cast count.val) (C.cast cf.den.val)).map fun v => To.cast v.val
  else
    (mulMod (C.cast count.val) (C.cast cf.num.val)).bind fun product =>
      (div product (C.cast cf.den.val)).map fun v => To.cast v.val

/-- `std::chrono::duration_cast` -/
def durationCast (To From : Integral) (cf : Ratio) (count : From.Value) : Option To.Value :=
  castIn (commonType To From) To From cf count

/-- The cast is defined and gives the integer `v`. -/
def IsExact (o : Option To.Value) (v : Int) : Prop := ∃ r, o = some r ∧ r.val = v

section Cast

variable {cf : Ratio} {count : From.Value}

theorem isExact_cast (h : To.Fits v) : IsExact (some (To.cast v)) v := ⟨_, rfl, Integral.cast_val h⟩

/-- The count is in the range of the common type if its product with the numerator is. -/
theorem fits_count {T : IntType} (h : T.Fits (v * cf.num.val)) : T.Fits v := by
  have hone : 1 ≤ cf.num.val := cf.num_pos
  refine IntType.fits_of_between h ?_
  rcases Int.le_total 0 v with hpos | hneg
  · have hle := Int.mul_le_mul_of_nonneg_left hone hpos
    omega
  · have hle := Int.mul_le_mul_of_nonpos_left hneg hone
    omega

theorem cast_eq {T : IntType} (h : T.Fits v) : T.cast v = ⟨v, h⟩ :=
  IntType.Value.ext (IntType.cast_val h)

/-- Where the product does not leave the common type, the cast is exact. -/
theorem durationCast_of_fits (h : To.Fits ((count.val * cf.num.val).tdiv cf.den.val))
    (hC : (commonType To From).Fits (count.val * cf.num.val)) :
    IsExact (durationCast To From cf count) ((count.val * cf.num.val).tdiv cf.den.val) := by
  have hnum := commonType_fits_of_nonneg To From cf.num.fits
    (Int.le_of_lt cf.num_pos)
  have hden := commonType_fits_of_nonneg To From cf.den.fits
    (Int.le_of_lt cf.den_pos)
  have hdiv : ∀ a : (commonType To From).Value, a.val = count.val * cf.num.val →
      IsExact ((div a ⟨cf.den.val, hden⟩).map fun v => To.cast v.val)
        ((count.val * cf.num.val).tdiv cf.den.val) := by
    intro a ha
    have hquot := fits_tdiv_of_pos hC cf.den_pos
    have hok : div a ⟨cf.den.val, hden⟩ = some ⟨_, hquot⟩ :=
      div_eq_some_iff.mpr ⟨Int.ne_of_gt cf.den_pos, by rw [ha]⟩
    rw [hok]
    exact isExact_cast h
  unfold durationCast castIn
  simp only [cast_eq (fits_count hC), cast_eq hnum, cast_eq hden]
  split
  · rename_i hone
    rw [hone.1, hone.2, Int.mul_one, Int.tdiv_one] at h ⊢
    exact isExact_cast h
  split
  · rename_i hone
    rw [hone, Int.tdiv_one] at h ⊢
    rw [mulMod_of_fits hC]
    exact isExact_cast h
  split
  · rename_i hone
    exact hdiv _ (by rw [hone, Int.mul_one])
  · rw [mulMod_of_fits hC]
    exact hdiv _ rfl

/-- The value of a cast to the widest unsigned type. -/
theorem cast_uint64 (v : Int) : (uint64.cast v).val = v % 18446744073709551616 := by
  show (v - 0) % 18446744073709551616 + 0 = v % 18446744073709551616
  rw [Int.sub_zero, Int.add_zero]

/-- A signed product overflows. -/
theorem castIn_int64_overflows (hcount : int64.Fits count.val) (hnum : cf.num.val ≠ 1)
    (hden : cf.den.val ≠ 1) (hC : ¬ int64.Fits (count.val * cf.num.val)) :
    castIn int64 To From cf count = none := by
  have hmul : mulMod (int64.cast count.val) (int64.cast cf.num.val) = none := by
    rw [cast_eq hcount, cast_eq cf.num.fits]
    exact check_eq_none_iff.mpr hC
  unfold castIn
  rw [if_neg (fun h => hnum h.1), if_neg hden, if_neg hnum, hmul]
  rfl

/-- An unsigned product is reduced before it is divided. -/
theorem castIn_uint64 (hden : cf.den.val ≠ 1) :
    castIn uint64 To From cf count =
      some (To.cast ((count.val * cf.num.val % 18446744073709551616).tdiv cf.den.val)) := by
  have hcast : ∀ {v : Int}, int64.Fits v → 0 < v → (uint64.cast v).val = v :=
    fun hv hpos => IntType.cast_val (fits_uint64_of_nonneg hv (Int.le_of_lt hpos))
  have hdiv : ∀ a : uint64.Value, a.val = count.val * cf.num.val % 18446744073709551616 →
      (div a (uint64.cast cf.den.val)).map (fun v => To.cast v.val) =
        some (To.cast ((count.val * cf.num.val % 18446744073709551616).tdiv cf.den.val)) := by
    intro a ha
    have hquot : uint64.Fits ((count.val * cf.num.val % 18446744073709551616).tdiv cf.den.val) :=
      ha ▸ fits_tdiv_of_pos a.fits cf.den_pos
    have hok : div a (uint64.cast cf.den.val) = some ⟨_, hquot⟩ := by
      refine div_eq_some_iff.mpr ?_
      rw [hcast cf.den.fits cf.den_pos, ha]
      exact ⟨Int.ne_of_gt cf.den_pos, rfl⟩
    rw [hok]
    rfl
  unfold castIn
  rw [if_neg (fun h => hden h.2), if_neg hden]
  split
  · rename_i hone
    refine hdiv _ ?_
    rw [cast_uint64, hone, Int.mul_one]
  · refine hdiv (uint64.cast _) ?_
    rw [cast_uint64, cast_uint64 count.val, hcast cf.num.fits cf.num_pos, Int.mul_emod,
      Int.emod_emod, ← Int.mul_emod]

/-- Outside of the range of the signed common type the cast is not exact. -/
theorem not_isExact_int64 (h : To.Fits ((count.val * cf.num.val).tdiv cf.den.val))
    (hTo : To.isUint64 = false) (hFrom : From.isUint64 = false)
    (hC : ¬ int64.Fits (count.val * cf.num.val)) :
    ¬ IsExact (castIn int64 To From cf count) ((count.val * cf.num.val).tdiv cf.den.val) := by
  have hcount : int64.Fits count.val := Integral.fits_int64 count.fits hFrom
  have hnum : cf.num.val ≠ 1 := by
    intro hone
    rw [hone, Int.mul_one] at hC
    exact hC hcount
  have hden : cf.den.val ≠ 1 := by
    intro hone
    rw [hone, Int.tdiv_one] at h
    exact hC (Integral.fits_int64 h hTo)
  rw [castIn_int64_overflows hcount hnum hden hC]
  rintro ⟨r, hr, _⟩
  cases hr

/-- What a reduced product gives, divided, is not the exact quotient. -/
theorem cast_reduced_ne {x d : Int} (hd : int64.Fits d) (hpos : 0 < d) (h : To.Fits (x.tdiv d))
    (hneg : x < 0 → To.isUint64 = true) (hC : ¬ uint64.Fits x) :
    (To.cast ((x % 18446744073709551616).tdiv d)).val ≠ x.tdiv d := by
  rw [IntType.fits_int64] at hd
  rw [IntType.fits_uint64] at hC
  have hnonneg : 0 ≤ x % 18446744073709551616 := Int.emod_nonneg x (by decide)
  have hlt : x % 18446744073709551616 < 18446744073709551616 := Int.emod_lt_of_pos x (by decide)
  have hquot : 0 ≤ (x % 18446744073709551616).tdiv d := Int.tdiv_nonneg hnonneg (Int.le_of_lt hpos)
  rcases Int.lt_or_le x 0 with hx | hx
  · -- The quotient cannot be negative, so that it is zero.
    have huint := Integral.eq_uint64 (hneg hx)
    subst huint
    have hzero : x.tdiv d = 0 := by
      have hflip := Int.tdiv_nonneg (Int.neg_nonneg_of_nonpos (Int.le_of_lt hx))
        (Int.le_of_lt hpos)
      rw [Int.neg_tdiv] at hflip
      exact Int.le_antisymm (by omega) h.1
    have hgt : -d < x := by
      have hrem := Int.tdiv_mul_add_tmod x d
      have hbound := (tmod_bounds x (Int.ne_of_gt hpos)).1
      rw [hzero] at hrem
      omega
    have hone : 1 ≤ (x % 18446744073709551616).tdiv d := by
      rw [Int.tdiv_eq_ediv_of_nonneg hnonneg]
      exact (Int.le_ediv_iff_mul_le hpos).mpr (by omega)
    have hfits : (Integral.int uint64).Fits ((x % 18446744073709551616).tdiv d) :=
      fits_tdiv_of_pos (IntType.fits_uint64.mpr (by omega)) hpos
    rw [Integral.cast_val hfits, hzero]
    omega
  · -- The quotient is too small.
    have hsmall : (x % 18446744073709551616).tdiv d < x.tdiv d := by
      rw [Int.tdiv_eq_ediv_of_nonneg hnonneg, Int.tdiv_eq_ediv_of_nonneg hx]
      refine (Int.le_ediv_iff_mul_le hpos).mpr ?_
      have hle := Int.ediv_mul_le (x % 18446744073709551616) (Int.ne_of_gt hpos)
      rw [Int.add_mul, Int.one_mul]
      omega
    rw [Integral.cast_val (Integral.fits_of_between h ⟨hquot, Int.le_of_lt hsmall⟩)]
    exact Int.ne_of_lt hsmall

/-- Outside of the range of the unsigned common type the cast is not exact. -/
theorem not_isExact_uint64 (h : To.Fits ((count.val * cf.num.val).tdiv cf.den.val))
    (huint : To.isUint64 = true ∨ From.isUint64 = true)
    (hC : ¬ uint64.Fits (count.val * cf.num.val)) :
    ¬ IsExact (castIn uint64 To From cf count) ((count.val * cf.num.val).tdiv cf.den.val) := by
  have hneg : count.val * cf.num.val < 0 → To.isUint64 = true := by
    intro hlt
    refine huint.resolve_right fun hFrom => ?_
    have hcount := Integral.nonneg count.fits hFrom
    exact Int.not_le.mpr hlt (Int.mul_nonneg hcount (Int.le_of_lt cf.num_pos))
  have hden : cf.den.val ≠ 1 := by
    intro hone
    rw [hone, Int.tdiv_one] at h
    rcases Int.lt_or_le (count.val * cf.num.val) 0 with hlt | hle
    · exact Int.not_le.mpr hlt (Integral.nonneg h (hneg hlt))
    · exact hC (Integral.fits_uint64 h hle)
  rw [castIn_uint64 hden]
  rintro ⟨r, hr, hval⟩
  rw [← Option.some.inj hr] at hval
  exact cast_reduced_ne cf.den.fits cf.den_pos h hneg hC hval

/-- The cast is exact where, and only where, the product of the count and the numerator is
in the range of the common type. -/
theorem durationCast_exact_iff (h : To.Fits ((count.val * cf.num.val).tdiv cf.den.val)) :
    IsExact (durationCast To From cf count) ((count.val * cf.num.val).tdiv cf.den.val) ↔
      (commonType To From).Fits (count.val * cf.num.val) := by
  refine ⟨fun hexact => Decidable.byContradiction fun hC => ?_, durationCast_of_fits h⟩
  unfold durationCast at hexact
  rcases commonType_cases To From with ⟨hTo, hFrom, hcommon⟩ | ⟨huint, hcommon⟩
  · rw [hcommon] at hexact hC
    exact not_isExact_int64 h hTo hFrom hC hexact
  · rw [hcommon] at hexact hC
    exact not_isExact_uint64 h huint hC hexact

end Cast

end VixStandard.Lib.Chrono
