import VixStandard.Time.Instant

/-!
# Expressions of Durations and Instants

A program combines Durations and Instants, and the scalars that multiply and divide
them, by the operators of the two classes.  `Expr.eval` is what the library computes,
operator by operator, and `Expr.exact` is what integer arithmetic without bounds gives.

Each operator is defined exactly where its exact result is in range
(`BinaryOp.run_eq_some_iff`).  By induction so is every expression, and its value is the
exact one (`Expr.eval_eq_some_iff`).
-/

namespace VixStandard.Time

open VixStandard.Lib

/-- The sorts of an expression. -/
inductive ExprSort where
  | scalar
  | duration
  | instant

abbrev ExprSort.Val : ExprSort → Type
  | scalar => Rep
  | duration => Duration
  | instant => Instant

/-- The integer that a value holds. -/
def ExprSort.toInt : {s : ExprSort} → s.Val → Int
  | scalar, n => n.val
  | duration, d => d.value.val
  | instant, t => t.value.val

theorem ExprSort.toInt_fits : ∀ {s : ExprSort} (v : s.Val), IntType.int64.Fits (toInt v)
  | scalar, n => n.fits
  | duration, d => d.value.fits
  | instant, t => t.value.fits

theorem ExprSort.toInt_injective : ∀ {s : ExprSort} {v w : s.Val}, toInt v = toInt w → v = w
  | scalar, _, _, h => IntType.Value.ext h
  | duration, _, _, h => Duration.ext (IntType.Value.ext h)
  | instant, _, _, h => Instant.ext (IntType.Value.ext h)

open ExprSort (toInt)

/-- The unary operators of Duration. -/
inductive UnaryOp where
  | plus
  | minus

/-- The operators with two operands, by their sorts.  A compound assignment has the
value that the variable on its left then holds. -/
inductive BinaryOp : ExprSort → ExprSort → ExprSort → Type where
  | add : BinaryOp .duration .duration .duration
  | addAssign : BinaryOp .duration .duration .duration
  | sub : BinaryOp .duration .duration .duration
  | subAssign : BinaryOp .duration .duration .duration
  | mul : BinaryOp .duration .scalar .duration
  | scalarMul : BinaryOp .scalar .duration .duration
  | mulAssign : BinaryOp .duration .scalar .duration
  | div : BinaryOp .duration .scalar .duration
  | divAssign : BinaryOp .duration .scalar .duration
  | ratio : BinaryOp .duration .duration .scalar
  | rem : BinaryOp .duration .duration .duration
  /-- `instant + duration`. -/
  | advance : BinaryOp .instant .duration .instant
  /-- `duration + instant`. -/
  | advanceLeft : BinaryOp .duration .instant .instant
  /-- `instant += duration`. -/
  | advanceAssign : BinaryOp .instant .duration .instant
  /-- `instant - duration`. -/
  | goBack : BinaryOp .instant .duration .instant
  /-- `instant -= duration`. -/
  | goBackAssign : BinaryOp .instant .duration .instant
  /-- `instant - instant`. -/
  | difference : BinaryOp .instant .instant .duration
  | since : BinaryOp .instant .instant .duration
  | untilLater : BinaryOp .instant .instant .duration

inductive Expr : ExprSort → Type where
  | val {s : ExprSort} (v : s.Val) : Expr s
  | unary (op : UnaryOp) (e : Expr .duration) : Expr .duration
  | binary {s t u : ExprSort} (op : BinaryOp s t u) (l : Expr s) (r : Expr t) : Expr u

/-! ## The library -/

def UnaryOp.run : UnaryOp → Duration → Option Duration
  | plus, d => some d.plus
  | minus, d => d.neg

def BinaryOp.run : {s t u : ExprSort} → BinaryOp s t u → s.Val → t.Val → Option u.Val
  | _, _, _, add, l, r => Duration.add l r
  | _, _, _, addAssign, l, r => Duration.addAssign l r
  | _, _, _, sub, l, r => Duration.sub l r
  | _, _, _, subAssign, l, r => Duration.subAssign l r
  | _, _, _, mul, l, r => Duration.mul l r
  | _, _, _, scalarMul, l, r => Duration.scalarMul l r
  | _, _, _, mulAssign, l, r => Duration.mulAssign l r
  | _, _, _, div, l, r => Duration.div l r
  | _, _, _, divAssign, l, r => Duration.divAssign l r
  | _, _, _, ratio, l, r => Duration.ratio l r
  | _, _, _, rem, l, r => Duration.rem l r
  | _, _, _, advance, l, r => Instant.add l r
  | _, _, _, advanceLeft, l, r => Instant.add r l
  | _, _, _, advanceAssign, l, r => Instant.add l r
  | _, _, _, goBack, l, r => Instant.subDuration l r
  | _, _, _, goBackAssign, l, r => Instant.subDuration l r
  | _, _, _, difference, l, r => Instant.sub l r
  | _, _, _, since, l, r => Instant.since l r
  | _, _, _, untilLater, l, r => Instant.untilLater l r

/-- The value that the library computes, if it computes one. -/
def Expr.eval : {s : ExprSort} → Expr s → Option s.Val
  | _, val v => some v
  | _, unary op e => e.eval.bind op.run
  | _, binary op l r => l.eval.bind fun v => r.eval.bind fun w => op.run v w

/-! ## Exact arithmetic -/

def UnaryOp.exact : UnaryOp → Int → Int
  | plus, v => v
  | minus, v => -v

def BinaryOp.exact : {s t u : ExprSort} → BinaryOp s t u → Int → Int → Int
  | _, _, _, add, v, w | _, _, _, addAssign, v, w => v + w
  | _, _, _, sub, v, w | _, _, _, subAssign, v, w => v - w
  | _, _, _, mul, v, w | _, _, _, scalarMul, v, w | _, _, _, mulAssign, v, w => v * w
  | _, _, _, div, v, w | _, _, _, divAssign, v, w | _, _, _, ratio, v, w => v.tdiv w
  | _, _, _, rem, v, w => v.tmod w
  | _, _, _, advance, v, w | _, _, _, advanceLeft, v, w | _, _, _, advanceAssign, v, w => v + w
  | _, _, _, goBack, v, w | _, _, _, goBackAssign, v, w => v - w
  | _, _, _, difference, v, w | _, _, _, since, v, w => v - w
  | _, _, _, untilLater, v, w => w - v

/-- The operands of a division: the divisor is not zero, and the quotient that belongs
to a remainder is in range. -/
def BinaryOp.Divides : {s t u : ExprSort} → BinaryOp s t u → Int → Int → Prop
  | _, _, _, div, _, w | _, _, _, divAssign, _, w | _, _, _, ratio, _, w => w ≠ 0
  | _, _, _, rem, v, w => w ≠ 0 ∧ IntType.int64.Fits (v.tdiv w)
  | _, _, _, _, _, _ => True

/-- The exact value. -/
def Expr.exact : {s : ExprSort} → Expr s → Int
  | _, val v => toInt v
  | _, unary op e => op.exact e.exact
  | _, binary op l r => op.exact l.exact r.exact

/-- Every subexpression has an exact value, which is in range. -/
def Expr.InRange : {s : ExprSort} → Expr s → Prop
  | _, val _ => True
  | _, unary op e => e.InRange ∧ IntType.int64.Fits (op.exact e.exact)
  | _, binary op l r => l.InRange ∧ r.InRange ∧ op.Divides l.exact r.exact ∧
      IntType.int64.Fits (op.exact l.exact r.exact)

/-! ## The library is exact -/

theorem UnaryOp.run_eq_some_iff {op : UnaryOp} {v z : Duration} :
    op.run v = some z ↔ z.value.val = op.exact v.value.val := by
  cases op with
  | plus =>
    constructor
    · intro h
      exact congrArg (fun d => d.value.val) (Option.some.inj h).symm
    · intro h
      exact congrArg some (Duration.ext (IntType.Value.ext h.symm))
  | minus => exact Duration.neg_eq_some_iff

theorem BinaryOp.run_eq_some_iff {s t u : ExprSort} {op : BinaryOp s t u} {v : s.Val} {w : t.Val}
    {z : u.Val} :
    op.run v w = some z ↔
      op.Divides (toInt v) (toInt w) ∧ toInt z = op.exact (toInt v) (toInt w) := by
  cases op with
  | add | addAssign => exact Duration.addAssign_eq_some_iff.trans (and_iff_right trivial).symm
  | sub | subAssign => exact Duration.subAssign_eq_some_iff.trans (and_iff_right trivial).symm
  | mul | mulAssign => exact Duration.mulAssign_eq_some_iff.trans (and_iff_right trivial).symm
  | scalarMul =>
    refine Duration.mulAssign_eq_some_iff.trans ?_
    rw [Int.mul_comm]
    exact (and_iff_right trivial).symm
  | div | divAssign => exact Duration.divAssign_eq_some_iff
  | ratio => exact Duration.ratio_eq_some_iff
  | rem => exact Duration.rem_eq_some_iff.trans and_assoc.symm
  | advance | advanceAssign => exact Instant.add_eq_some_iff.trans (and_iff_right trivial).symm
  | advanceLeft =>
    refine Instant.add_eq_some_iff.trans ?_
    rw [Int.add_comm]
    exact (and_iff_right trivial).symm
  | goBack | goBackAssign => exact Instant.subDuration_eq_some_iff.trans (and_iff_right trivial).symm
  | difference | since | untilLater =>
    exact Instant.since_eq_some_iff.trans (and_iff_right trivial).symm

/-- An integer in range is held by a value of every sort. -/
theorem ExprSort.exists_val {v : Int} (h : IntType.int64.Fits v) :
    ∀ s : ExprSort, ∃ z : s.Val, toInt z = v
  | scalar => ⟨⟨v, h⟩, rfl⟩
  | duration => ⟨⟨⟨v, h⟩⟩, rfl⟩
  | instant => ⟨⟨⟨v, h⟩⟩, rfl⟩

theorem Expr.InRange.fits {s : ExprSort} {e : Expr s} (h : e.InRange) :
    IntType.int64.Fits e.exact := by
  cases e with
  | val v => exact ExprSort.toInt_fits v
  | unary op e => exact h.2
  | binary op l r => exact h.2.2.2

/-- An expression is evaluated exactly if everything in it is in range, and to the
exact value. -/
theorem Expr.eval_eq_some_iff {s : ExprSort} {e : Expr s} {z : s.Val} :
    e.eval = some z ↔ e.InRange ∧ toInt z = e.exact := by
  induction e with
  | val v =>
    constructor
    · intro h
      exact ⟨trivial, congrArg toInt (Option.some.inj h).symm⟩
    · intro h
      exact congrArg some (ExprSort.toInt_injective h.2.symm)
  | unary op e ih =>
    rw [Expr.eval, Option.bind_eq_some_iff]
    constructor
    · intro h
      obtain ⟨v, hv, hrun⟩ := h
      obtain ⟨hrange, hexact⟩ := ih.mp hv
      have hz : toInt z = op.exact e.exact := hexact ▸ UnaryOp.run_eq_some_iff.mp hrun
      exact ⟨⟨hrange, hz ▸ ExprSort.toInt_fits z⟩, hz⟩
    · intro h
      obtain ⟨⟨hrange, _⟩, hz⟩ := h
      obtain ⟨v, hv⟩ := ExprSort.exists_val hrange.fits .duration
      refine ⟨v, ih.mpr ⟨hrange, hv⟩, UnaryOp.run_eq_some_iff.mpr ?_⟩
      show toInt z = op.exact (toInt v)
      rw [hv, hz]
      rfl
  | @binary s t u op l r ihl ihr =>
    rw [Expr.eval, Option.bind_eq_some_iff]
    constructor
    · intro h
      obtain ⟨v, hv, h⟩ := h
      obtain ⟨w, hw, hrun⟩ := Option.bind_eq_some_iff.mp h
      obtain ⟨hl, hv⟩ := ihl.mp hv
      obtain ⟨hr, hw⟩ := ihr.mp hw
      obtain ⟨hdiv, hz⟩ := BinaryOp.run_eq_some_iff.mp hrun
      rw [hv, hw] at hdiv hz
      exact ⟨⟨hl, hr, hdiv, hz ▸ ExprSort.toInt_fits z⟩, hz⟩
    · intro h
      obtain ⟨⟨hl, hr, hdiv, _⟩, hz⟩ := h
      obtain ⟨v, hv⟩ := ExprSort.exists_val hl.fits s
      obtain ⟨w, hw⟩ := ExprSort.exists_val hr.fits t
      refine ⟨v, ihl.mpr ⟨hl, hv⟩, Option.bind_eq_some_iff.mpr ⟨w, ihr.mpr ⟨hr, hw⟩, ?_⟩⟩
      refine BinaryOp.run_eq_some_iff.mpr ?_
      rw [hv, hw]
      exact ⟨hdiv, hz⟩

/-- What is in range is evaluated. -/
theorem Expr.InRange.eval {s : ExprSort} {e : Expr s} (h : e.InRange) :
    ∃ z, e.eval = some z ∧ toInt z = e.exact := by
  obtain ⟨z, hz⟩ := ExprSort.exists_val h.fits s
  exact ⟨z, Expr.eval_eq_some_iff.mpr ⟨h, hz⟩, hz⟩

/-- The arithmetic of Durations and Instants is exact where everything is in range:
the library computes the exact value, whatever the shape of the expression, and orders
two results as their exact values. -/
theorem arithmetic_exact :
    (∀ {s : ExprSort} (e : Expr s), e.InRange → ∃ z, e.eval = some z ∧ toInt z = e.exact) ∧
    (∀ {s : ExprSort} (e f : Expr s), e.InRange → f.InRange → e.exact = f.exact →
      e.eval = f.eval) ∧
    (∀ (e f : Expr .duration) v w, e.eval = some v → f.eval = some w →
      Duration.compare v w = compare e.exact f.exact) ∧
    ∀ (e f : Expr .instant) v w, e.eval = some v → f.eval = some w →
      Instant.compare v w = compare e.exact f.exact := by
  refine ⟨fun e he => he.eval, fun e f he hf h => ?_, fun e f v w hv hw => ?_,
    fun e f v w hv hw => ?_⟩
  · obtain ⟨z, hz, hexact⟩ := he.eval
    rw [hz, Expr.eval_eq_some_iff.mpr ⟨hf, hexact.trans h⟩]
  · rw [← (Expr.eval_eq_some_iff.mp hv).2, ← (Expr.eval_eq_some_iff.mp hw).2]
    rfl
  · rw [← (Expr.eval_eq_some_iff.mp hv).2, ← (Expr.eval_eq_some_iff.mp hw).2]
    rfl

/-- `min() % -1`. -/
def minRem : Expr .duration :=
  .binary .rem (.val Duration.min) (.val (⟨⟨-1, by decide⟩⟩ : Duration))

/-- Every value in it is in range and the divisor is not zero, but it has no meaning. -/
theorem minRem_undefined :
    minRem.exact = 0 ∧ IntType.int64.Fits minRem.exact ∧ (-1 : Int) ≠ 0 ∧ minRem.eval = none := by
  decide

end VixStandard.Time
