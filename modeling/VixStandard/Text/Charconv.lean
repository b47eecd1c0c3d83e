import Mathlib.Data.List.TakeWhile
import VixStandard.Lib.Decimal
import VixStandard.Lib.Integer

/-!
# Integer conversions of the standard library

The part of `<charconv>` that parsing and serializing integers rests on, in
base 10.

* `std::from_chars` matches the longest prefix that is a literal: an optional
  `-`, for signed types only, and digits (`longestLiteral_eq_some_iff`).
* `std::to_chars` writes the canonical text if it fits in the buffer.
-/

namespace VixStandard.Text

open VixStandard.Lib VixStandard.Lib.Decimal

/-- `std::errc`, as far as `<charconv>` uses it. -/
inductive Errc where
  | none
  | invalidArgument
  | resultOutOfRange
  | valueTooLarge
  deriving DecidableEq, Repr

/-! ## `std::from_chars` -/

theorem digits_takeWhile (s : Text) : Digits (s.takeWhile isDigit) := fun _ hb =>
  (List.mem_takeWhile_imp hb)

/-- The literal with the given sign and the digits that a text starts with. -/
def signedDigits (neg : Bool) (s : Text) : Option Literal :=
  let ds := s.takeWhile isDigit
  if h : ds = [] then none else some ⟨neg, ds, h, digits_takeWhile s⟩

/-- The longest prefix that is a literal. -/
def longestLiteral (signed : Bool) (s : Text) : Option Literal :=
  if signed && s.head? == some minus then signedDigits true s.tail else signedDigits false s

theorem signedDigits_eq_some_iff {neg : Bool} {s : Text} {l : Literal} :
    signedDigits neg s = some l ↔ l.neg = neg ∧
      ∃ rest, s = l.digits ++ rest ∧ ∀ b ∈ rest.head?, isDigit b = false := by
  constructor
  · intro h
    simp only [signedDigits] at h
    split at h
    · cases h
    · obtain rfl := Option.some.inj h
      refine ⟨rfl, s.dropWhile isDigit, List.takeWhile_append_dropWhile.symm, ?_⟩
      intro b hb
      have hhead := List.head?_dropWhile_not isDigit s
      rw [Option.mem_def.mp hb] at hhead
      simpa using hhead
  · rintro ⟨rfl, rest, rfl, hrest⟩
    simp [signedDigits, takeWhile_digits_append l.digits_ok hrest, l.ne_nil]

/-- The literal that is found is a prefix of the text, and no digit follows it. -/
theorem longestLiteral_eq_some_iff {signed : Bool} {s : Text} {l : Literal} :
    longestLiteral signed s = some l ↔ (l.neg = true → signed = true) ∧
      ∃ rest, s = l.text ++ rest ∧ ∀ b ∈ rest.head?, isDigit b = false := by
  unfold longestLiteral
  split
  · rename_i hminus
    obtain ⟨hsigned, hhead⟩ := Bool.and_eq_true_iff.mp hminus
    obtain ⟨s, rfl⟩ : ∃ s', s = minus :: s' := by
      cases s with
      | nil => cases hhead
      | cons b s => exact ⟨s, by simpa using hhead⟩
    rw [signedDigits_eq_some_iff]
    constructor
    · rintro ⟨hneg, rest, hs, hrest⟩
      exact ⟨fun _ => hsigned, rest, by simpa [Literal.text, hneg] using hs, hrest⟩
    · rintro ⟨_, rest, hs, hrest⟩
      have hneg : l.neg = true := by
        obtain ⟨b, ds, hds⟩ := List.exists_cons_of_ne_nil l.ne_nil
        have hb := l.head?_digits
        cases hn : l.neg with
        | true => rfl
        | false => simp_all [Literal.text]
      exact ⟨hneg, rest, by simpa [Literal.text, hneg] using hs, hrest⟩
  · rename_i hminus
    rw [signedDigits_eq_some_iff]
    constructor
    · rintro ⟨hneg, rest, hs, hrest⟩
      exact ⟨by simp [hneg], rest, by simpa [Literal.text, hneg] using hs, hrest⟩
    · rintro ⟨hsigned, rest, hs, hrest⟩
      have hneg : l.neg = false := by
        cases hn : l.neg with
        | false => rfl
        | true => simp [hs, Literal.text, hn, hsigned hn] at hminus
      exact ⟨hneg, rest, by simpa [Literal.text, hneg] using hs, hrest⟩

/-- A text that is a literal as a whole is found as such. -/
theorem longestLiteral_text {signed : Bool} {l : Literal} (hl : l.neg = true → signed = true) :
    longestLiteral signed l.text = some l :=
  longestLiteral_eq_some_iff.mpr ⟨hl, [], (List.append_nil _).symm, fun _ hb => nomatch hb⟩

/-- What `std::from_chars` returns, and the value that it leaves in its argument. -/
structure FromCharsResult (T : IntType) where
  /-- The number of bytes before `ptr`. -/
  ptr : Nat
  ec : Errc
  value : T.Value

/-- `std::from_chars(first, last, value, 10)` -/
def fromChars (T : IntType) (s : Text) (value : T.Value) : FromCharsResult T :=
  match longestLiteral T.signed s with
  | none => ⟨0, .invalidArgument, value⟩
  | some l =>
    if h : T.Fits l.value then ⟨l.text.length, .none, ⟨l.value, h⟩⟩
    else ⟨l.text.length, .resultOutOfRange, value⟩

/-! ## `std::to_chars` -/

/-- What `std::to_chars` returns, and the buffer it leaves. -/
structure ToCharsResult where
  /-- The number of bytes before `ptr`. -/
  ptr : Nat
  ec : Errc
  buffer : Text

/-- `std::to_chars(first, last, value)`, on the bytes of the buffer.  If the text
does not fit, what the buffer holds is unspecified; here it stays as it is. -/
def toChars {T : IntType} (buffer : Text) (value : T.Value) : ToCharsResult :=
  let text := printInt value.val
  if text.length ≤ buffer.length then
    ⟨text.length, .none, text ++ buffer.drop text.length⟩
  else ⟨buffer.length, .valueTooLarge, buffer⟩

end VixStandard.Text
