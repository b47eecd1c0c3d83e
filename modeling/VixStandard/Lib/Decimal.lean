import Mathlib.Algebra.Group.Nat.Defs
import Mathlib.Data.List.Induction

/-!
# Decimal texts

Byte strings that stand for numbers in base 10.

* `value` and `print` go between digit strings and natural numbers.  A digit
  string is the print of its value after some zeros (`eq_zeros_append_print`).
* A `Literal` is an optional `-` and digits.  `Literal.value` is its integer and
  `printInt` writes one.  A literal is what `printInt` writes of its value
  exactly if it is `Canonical`, and is longer otherwise.
-/

namespace VixStandard.Lib.Decimal

/-- A byte string. -/
abbrev Text := List UInt8

def zero : UInt8 := 48

def minus : UInt8 := 45

def isDigit (b : UInt8) : Bool := 48 ≤ b.toNat && b.toNat ≤ 57

/-- The number that a digit stands for. -/
def digitVal (b : UInt8) : Nat := b.toNat - 48

/-- The digit of a number below ten. -/
def digit (d : Nat) : UInt8 := (Nat.digitChar d).toUInt8

/-- The number that a digit string stands for, its most significant digit first. -/
def value (ds : Text) : Nat := ds.foldl (fun n b => 10 * n + digitVal b) 0

/-- The digits of a number, without redundant zeros. -/
def print (n : Nat) : Text := (Nat.toDigits 10 n).map Char.toUInt8

/-- All bytes are digits. -/
def Digits (ds : Text) : Prop := ∀ b ∈ ds, isDigit b = true

/-! ## Digits -/

theorem toNat_digit {d : Nat} (hd : d < 10) : (digit d).toNat = 48 + d := by
  revert d
  decide

theorem isDigit_digit {d : Nat} (hd : d < 10) : isDigit (digit d) = true := by
  revert d
  decide

theorem digitVal_digit {d : Nat} (hd : d < 10) : digitVal (digit d) = d := by
  revert d
  decide

theorem digit_eq_zero_iff {d : Nat} (hd : d < 10) : digit d = zero ↔ d = 0 := by
  revert d
  decide

theorem digitVal_lt {b : UInt8} (hb : isDigit b = true) : digitVal b < 10 := by
  simp only [isDigit, Bool.and_eq_true, decide_eq_true_eq] at hb
  unfold digitVal
  omega

theorem digit_digitVal {b : UInt8} (hb : isDigit b = true) : digit (digitVal b) = b := by
  have hnat := toNat_digit (digitVal_lt hb)
  simp only [isDigit, Bool.and_eq_true, decide_eq_true_eq] at hb
  apply UInt8.toNat_inj.mp
  rw [hnat]
  unfold digitVal
  omega

theorem digitVal_eq_zero_iff {b : UInt8} (hb : isDigit b = true) :
    digitVal b = 0 ↔ b = zero := by
  rw [← digit_eq_zero_iff (digitVal_lt hb), digit_digitVal hb]

theorem not_isDigit_minus : isDigit minus = false := rfl

/-! ## Digit strings -/

theorem Digits.cons_iff {b : UInt8} {ds : Text} :
    Digits (b :: ds) ↔ isDigit b = true ∧ Digits ds := List.forall_mem_cons

theorem Digits.append_iff {ds es : Text} : Digits (ds ++ es) ↔ Digits ds ∧ Digits es :=
  List.forall_mem_append

theorem takeWhile_digits_append {ds rest : Text} (hds : Digits ds)
    (hrest : ∀ b ∈ rest.head?, isDigit b = false) : (ds ++ rest).takeWhile isDigit = ds := by
  have hnil : rest.takeWhile isDigit = [] := by
    cases rest with
    | nil => rfl
    | cons b rest => simp [hrest b rfl]
  rw [List.takeWhile_append_of_pos hds, hnil, List.append_nil]

/-- Digits at the end of a text are found from there: what stands before them
ends with a byte that is not a digit. -/
theorem append_digits_inj {x y ds es : Text} {b : UInt8} (hb : isDigit b = false)
    (hds : Digits ds) (hes : Digits es) (h : x ++ b :: ds = y ++ b :: es) : x = y ∧ ds = es := by
  have hrev : ds.reverse ++ b :: x.reverse = es.reverse ++ b :: y.reverse := by
    simpa using congrArg List.reverse h
  have hstop : ∀ z : Text, ∀ c ∈ (b :: z).head?, isDigit c = false := by
    intro z c hc
    rw [← Option.some.inj hc]
    exact hb
  have hds' : Digits ds.reverse := fun c hc => hds c (List.mem_reverse.mp hc)
  have hes' : Digits es.reverse := fun c hc => hes c (List.mem_reverse.mp hc)
  have hdigits : ds.reverse = es.reverse := by
    rw [← takeWhile_digits_append hds' (hstop x.reverse), hrev,
      takeWhile_digits_append hes' (hstop y.reverse)]
  rw [hdigits] at hrev
  have htail := List.append_cancel_left hrev
  exact ⟨List.reverse_inj.mp (List.cons.inj htail).2, List.reverse_inj.mp hdigits⟩

@[simp] theorem value_nil : value [] = 0 := rfl

theorem value_append_singleton (ds : Text) (b : UInt8) :
    value (ds ++ [b]) = 10 * value ds + digitVal b := by
  simp [value]

theorem value_singleton (b : UInt8) : value [b] = digitVal b := by
  simp [value]

/-- A leading zero does not count. -/
theorem value_zero_cons (ds : Text) : value (zero :: ds) = value ds := rfl

theorem value_replicate_zero_append (k : Nat) (ds : Text) :
    value (List.replicate k zero ++ ds) = value ds := by
  induction k with
  | zero => rfl
  | succ k ih => rw [List.replicate_succ, List.cons_append, value_zero_cons, ih]

/-- A digit string without a leading zero does not stand for zero. -/
theorem value_pos {ds : Text} (hne : ds ≠ []) (hds : Digits ds) (hhead : ds.head? ≠ some zero) :
    0 < value ds := by
  induction ds using List.reverseRecOn with
  | nil => exact absurd rfl hne
  | append_singleton ds b ih =>
    rw [value_append_singleton]
    obtain ⟨hds, hb⟩ := Digits.append_iff.mp hds
    cases ds with
    | nil =>
      have hbz : b ≠ zero := by simpa using hhead
      have hd := (digitVal_eq_zero_iff (Digits.cons_iff.mp hb).1).not.mpr hbz
      omega
    | cons c ds =>
      have hpos := ih (List.cons_ne_nil _ _) hds (by simpa using hhead)
      omega

/-! ## Printing -/

theorem print_of_lt {n : Nat} (hn : n < 10) : print n = [digit n] := by
  simp [print, digit, Nat.toDigits_of_lt_base hn]

theorem print_of_le {n : Nat} (hn : 10 ≤ n) : print n = print (n / 10) ++ [digit (n % 10)] := by
  simp [print, digit, Nat.toDigits_of_base_le (by decide : 1 < 10) hn]

theorem print_ne_nil (n : Nat) : print n ≠ [] := by
  simp [print]

theorem digits_print (n : Nat) : Digits (print n) := by
  induction n using Nat.strongRecOn with
  | ind n ih =>
    by_cases hn : n < 10
    · rw [print_of_lt hn]
      simpa [Digits] using isDigit_digit hn
    · rw [print_of_le (by omega)]
      refine Digits.append_iff.mpr ⟨ih (n / 10) (by omega), ?_⟩
      simpa [Digits] using isDigit_digit (Nat.mod_lt n (by omega))

@[simp] theorem value_print (n : Nat) : value (print n) = n := by
  induction n using Nat.strongRecOn with
  | ind n ih =>
    by_cases hn : n < 10
    · rw [print_of_lt hn, value_singleton, digitVal_digit hn]
    · rw [print_of_le (by omega), value_append_singleton, ih (n / 10) (by omega),
        digitVal_digit (Nat.mod_lt n (by omega))]
      omega

theorem head?_print {n : Nat} (hn : n ≠ 0) : (print n).head? ≠ some zero := by
  induction n using Nat.strongRecOn with
  | ind n ih =>
    by_cases hlt : n < 10
    · rw [print_of_lt hlt]
      simpa using (digit_eq_zero_iff hlt).not.mpr hn
    · obtain ⟨c, ds, hc⟩ := List.exists_cons_of_ne_nil (print_ne_nil (n / 10))
      have hhead := ih (n / 10) (by omega) (by omega)
      rw [print_of_le (by omega), hc]
      rwa [hc] at hhead

/-- A digit string without a leading zero is the print of its value. -/
theorem print_value {ds : Text} (hne : ds ≠ []) (hds : Digits ds) (hhead : ds.head? ≠ some zero) :
    print (value ds) = ds := by
  induction ds using List.reverseRecOn with
  | nil => exact absurd rfl hne
  | append_singleton ds b ih =>
    obtain ⟨hds, hb⟩ := Digits.append_iff.mp hds
    have hlt := digitVal_lt (Digits.cons_iff.mp hb).1
    have hdigit := digit_digitVal (Digits.cons_iff.mp hb).1
    rw [value_append_singleton]
    cases ds with
    | nil => rw [value_nil, Nat.mul_zero, Nat.zero_add, print_of_lt hlt, hdigit, List.nil_append]
    | cons c ds =>
      have hhead' : (c :: ds).head? ≠ some zero := by simpa using hhead
      have hpos := value_pos (List.cons_ne_nil c ds) hds hhead'
      have hdiv : (10 * value (c :: ds) + digitVal b) / 10 = value (c :: ds) := by omega
      have hmod : (10 * value (c :: ds) + digitVal b) % 10 = digitVal b := by omega
      rw [print_of_le (by omega), hdiv, hmod, ih (List.cons_ne_nil c ds) hds hhead', hdigit]

/-- A digit string is the print of its value after some zeros. -/
theorem eq_zeros_append_print {ds : Text} (hne : ds ≠ []) (hds : Digits ds) :
    ∃ k, ds = List.replicate k zero ++ print (value ds) := by
  induction ds with
  | nil => exact absurd rfl hne
  | cons b ds ih =>
    by_cases hb : b = zero
    · subst hb
      rw [value_zero_cons]
      cases ds with
      | nil => exact ⟨0, rfl⟩
      | cons c ds =>
        obtain ⟨k, hk⟩ := ih (List.cons_ne_nil c ds) (Digits.cons_iff.mp hds).2
        refine ⟨k + 1, ?_⟩
        rw [List.replicate_succ, List.cons_append, ← hk]
    · exact ⟨0, (print_value hne hds (by simpa using hb)).symm⟩

theorem length_print_le {n k : Nat} (hk : 0 < k) (hn : n < 10 ^ k) : (print n).length ≤ k := by
  rw [print, List.length_map]
  exact (Nat.length_toDigits_le_iff (by decide) hk).mpr hn

/-! ## Literals -/

/-- An optional `-` and one or more digits. -/
structure Literal where
  neg : Bool
  digits : Text
  ne_nil : digits ≠ []
  digits_ok : Digits digits

namespace Literal

def sign : Bool → Text
  | true => [minus]
  | false => []

@[simp] theorem sign_true : sign true = [minus] := rfl

@[simp] theorem sign_false : sign false = [] := rfl

def text (l : Literal) : Text := sign l.neg ++ l.digits

def value (l : Literal) : Int :=
  if l.neg then -(Decimal.value l.digits : Int) else Decimal.value l.digits

/-- `-` only for a negative number, and no redundant zeros. -/
def Canonical (l : Literal) : Prop :=
  l.digits.head? ≠ some zero ∨ (l.neg = false ∧ l.digits = [zero])

theorem text_ne_nil (l : Literal) : l.text ≠ [] := by
  simp [text, l.ne_nil]

theorem head?_digits (l : Literal) : l.digits.head? ≠ some minus := by
  intro h
  have hdigit := l.digits_ok minus (List.mem_of_mem_head? h)
  rw [not_isDigit_minus] at hdigit
  cases hdigit

/-- A text is a literal in one way only. -/
theorem text_injective {l l' : Literal} (h : l.text = l'.text) : l = l' := by
  have hl := l.head?_digits
  have hl' := l'.head?_digits
  obtain ⟨neg, ds, hne, hds⟩ := l
  obtain ⟨neg', ds', hne', hds'⟩ := l'
  cases neg with
  | true =>
    cases neg' with
    | true =>
      obtain rfl : ds = ds' := (List.cons.inj h).2
      rfl
    | false =>
      obtain rfl : minus :: ds = ds' := h
      exact absurd rfl hl'
  | false =>
    cases neg' with
    | true =>
      obtain rfl : ds = minus :: ds' := h
      exact absurd rfl hl
    | false =>
      obtain rfl : ds = ds' := h
      rfl

end Literal

/-! ## Printing integers -/

/-- The canonical text of an integer. -/
def printInt (v : Int) : Text := Literal.sign (v < 0) ++ print v.natAbs

/-- The canonical text of an integer, as a literal. -/
def ofInt (v : Int) : Literal := ⟨v < 0, print v.natAbs, print_ne_nil _, digits_print _⟩

theorem ofInt_text (v : Int) : (ofInt v).text = printInt v := rfl

theorem ofInt_value (v : Int) : (ofInt v).value = v := by
  simp only [ofInt, Literal.value, value_print, decide_eq_true_eq]
  split <;> omega

theorem ofInt_canonical (v : Int) : (ofInt v).Canonical := by
  by_cases hv : v = 0
  · subst hv
    exact Or.inr ⟨rfl, rfl⟩
  · exact Or.inl (head?_print (by omega))

theorem printInt_injective {v w : Int} (h : printInt v = printInt w) : v = w := by
  rw [← ofInt_text, ← ofInt_text] at h
  rw [← ofInt_value v, Literal.text_injective h, ofInt_value]

theorem digits_printInt {v : Int} (hv : 0 ≤ v) : Digits (printInt v) := by
  have hneg : ¬ v < 0 := Int.not_lt.mpr hv
  simpa [printInt, hneg] using digits_print v.natAbs

theorem length_printInt_le {v : Int} {k : Nat} (hk : 0 < k) (hv : v.natAbs < 10 ^ k) :
    (printInt v).length ≤ k + 1 := by
  have hlen := length_print_le hk hv
  unfold printInt
  cases hneg : decide (v < 0) <;> simp [Literal.sign] <;> omega

/-- Between a literal and the canonical text of its value there are some zeros,
and a `-` if the literal is a negative zero. -/
theorem Literal.text_eq (l : Literal) :
    ∃ k, l.text = sign l.neg ++ (List.replicate k zero ++ print l.value.natAbs) := by
  obtain ⟨neg, ds, hne, hds⟩ := l
  obtain ⟨k, hk⟩ := eq_zeros_append_print hne hds
  have habs : (Literal.value ⟨neg, ds, hne, hds⟩).natAbs = Decimal.value ds := by
    cases neg <;> simp [Literal.value]
  exact ⟨k, by rw [habs, ← hk]; rfl⟩

theorem Literal.neg_of_value_neg {l : Literal} (h : l.value < 0) : l.neg = true := by
  unfold Literal.value at h
  split at h
  · assumption
  · omega

theorem Literal.length_printInt_le (l : Literal) :
    (printInt l.value).length ≤ l.text.length := by
  obtain ⟨k, hk⟩ := l.text_eq
  rw [hk, printInt]
  by_cases h : l.value < 0
  · simp [h, Literal.neg_of_value_neg h]
  · simp only [h, decide_false, sign_false, List.nil_append, List.length_append]
    omega

/-- A literal is what is printed of its value exactly if it is canonical. -/
theorem Literal.printInt_eq_iff (l : Literal) : printInt l.value = l.text ↔ l.Canonical := by
  constructor
  · intro h
    rw [← ofInt_text] at h
    rw [← Literal.text_injective h]
    exact ofInt_canonical _
  · intro h
    obtain ⟨neg, ds, hne, hds⟩ := l
    rcases h with hhead | ⟨rfl, rfl⟩
    · have hpos := value_pos hne hds hhead
      have hprint := print_value hne hds hhead
      cases neg with
      | true =>
        have hneg : -(Decimal.value ds : Int) < 0 := by omega
        simp [printInt, Literal.value, Literal.text, Literal.sign, hpos, hprint]
      | false =>
        have hnonneg : ¬ (Decimal.value ds : Int) < 0 := by omega
        simp [printInt, Literal.value, Literal.text, Literal.sign, hnonneg, hprint]
    · have hzero : Decimal.value [zero] = 0 := rfl
      have hprint : print 0 = [zero] := rfl
      simp [printInt, Literal.value, Literal.text, Literal.sign, hzero, hprint]

/-- Any other literal is longer. -/
theorem Literal.length_printInt_lt {l : Literal} (h : ¬ l.Canonical) :
    (printInt l.value).length < l.text.length := by
  refine Nat.lt_of_le_of_ne l.length_printInt_le fun hlen => h (l.printInt_eq_iff.mp ?_)
  obtain ⟨k, hk⟩ := l.text_eq
  rw [hk, printInt] at hlen
  rw [hk, printInt]
  by_cases hneg : l.value < 0
  · simp [hneg, Literal.neg_of_value_neg hneg] at hlen ⊢
    simp [hlen]
  · cases hn : l.neg with
    | true =>
      simp [hneg, hn, Literal.sign] at hlen
      omega
    | false =>
      simp [hneg, hn, Literal.sign] at hlen ⊢
      simp [hlen]

end VixStandard.Lib.Decimal
