import VixStandard.Text.Classification
import VixStandard.Text.RoundTrip

/-!
# Reading a serialized integer as another type

What `serialize` writes may be read as a type that is narrower, wider, of another
sign, or `bool`, and other text may come after it.  No type is named in the text, so
the reader's type alone decides.

* `longest_append_iff`: a literal is the longest one if no digit follows it.
* `not_startsWith_cons`: a first byte with which no literal starts.
* `parse_serialize_across`: what every reader makes of every serialized integer.
-/

namespace VixStandard.Text

open VixStandard.Lib VixStandard.Lib.Decimal

section Literals

variable {signed : Bool} {s rest : Text} {l : Literal} {b : UInt8}

/-- A literal is the longest one if no digit follows it. -/
theorem longest_append_iff (hsign : l.neg = true → signed = true) :
    Longest signed (l.text ++ rest) l ↔ ∀ b ∈ rest.head?, isDigit b = false := by
  rw [← longestLiteral_eq_some, longestLiteral_eq_some_iff]
  constructor
  · rintro ⟨_, rest', hrest, hhead⟩
    rwa [List.append_cancel_left hrest]
  · exact fun hhead => ⟨hsign, rest, rfl, hhead⟩

/-- A literal starts with a digit or, if it is negative, with a `-`. -/
theorem head_text (l : Literal) :
    ∃ b t, l.text = b :: t ∧ (isDigit b = true ∧ l.neg = false ∨ b = minus ∧ l.neg = true) := by
  cases hneg : l.neg with
  | true => exact ⟨minus, l.digits, by simp [Literal.text, hneg], Or.inr ⟨rfl, rfl⟩⟩
  | false =>
    obtain ⟨b, ds, hds⟩ := List.exists_cons_of_ne_nil l.ne_nil
    have hb : isDigit b = true := l.digits_ok b (by rw [hds]; exact List.mem_cons_self)
    exact ⟨b, ds, by simp [Literal.text, hneg, hds], Or.inl ⟨hb, rfl⟩⟩

/-- No literal starts with a byte that is neither a digit nor a `-` that is allowed. -/
theorem not_startsWith_cons (hb : isDigit b = false) (hminus : signed = true → b ≠ minus) :
    ¬ StartsWith signed (b :: s) l := by
  rintro ⟨hsign, hpre⟩
  obtain ⟨b', t, htext, hfirst⟩ := head_text l
  rw [htext] at hpre
  obtain rfl := (List.cons_prefix_cons.mp hpre).1
  rcases hfirst with ⟨hdigit, _⟩ | ⟨heq, hneg⟩
  · rw [hb] at hdigit
    cases hdigit
  · exact hminus (hsign hneg) heq

end Literals

section Readers

variable {T U : IntType} {rest : Text}

/-- The text of a bool starts with a letter. -/
theorem parse_integral_bool (T : IntType) (b : Bool) :
    parse (.integral T) (if b then ascii "true" else ascii "false") =
      .error ⟨.invalidValue, 0⟩ := by
  cases b with
  | true =>
    refine parse_integral_eq_iff.mpr (.invalidValue (by decide) fun l => ?_)
    exact not_startsWith_cons (by decide) fun _ => by decide
  | false =>
    refine parse_integral_eq_iff.mpr (.invalidValue (by decide) fun l => ?_)
    exact not_startsWith_cons (by decide) fun _ => by decide

/-- The text of an integer is no text of a bool, whatever follows. -/
theorem parse_bool_printInt (v : Int) (rest : Text) :
    parse .bool (printInt v ++ rest) = .error ⟨.invalidValue, 0⟩ := by
  obtain ⟨b, t, htext, hfirst⟩ := head_text (ofInt v)
  rw [ofInt_text] at htext
  have hletter : b ≠ 116 ∧ b ≠ 102 := by
    rcases hfirst with ⟨hdigit, _⟩ | ⟨rfl, _⟩
    · constructor <;> rintro rfl <;> cases hdigit
    · decide
  have htrue : ascii "true" = [116, 114, 117, 101] := by decide
  have hfalse : ascii "false" = [102, 97, 108, 115, 101] := by decide
  simp [parse, parseBool, htext, htrue, hfalse, hletter.1, hletter.2, makeParseError]

/-- The integer is in range: all of the text is read, or all but what follows. -/
theorem parse_printInt_of_fits {v : Int} (hv : T.Fits v)
    (hrest : ∀ b ∈ rest.head?, isDigit b = false) :
    parse (.integral T) (printInt v ++ rest) =
      if rest = [] then .ok ⟨v, hv⟩ else .error ⟨.trailingCharacters, (printInt v).length⟩ := by
  have hsign : (ofInt v).neg = true → T.signed = true := fun hneg =>
    IntType.signed_of_neg (v := ⟨v, hv⟩) (of_decide_eq_true hneg)
  have hlongest : Longest T.signed (printInt v ++ rest) (ofInt v) :=
    (longest_append_iff hsign).mpr hrest
  have hvalue : T.Fits (ofInt v).value := (ofInt_value v).symm ▸ hv
  rw [parse_integral_eq_iff]
  split
  · rename_i hnil
    have hok : (⟨(ofInt v).value, hvalue⟩ : T.Value) = ⟨v, hv⟩ := IntType.Value.ext (ofInt_value v)
    rw [← hok]
    exact .success hvalue hlongest (by rw [hnil, List.append_nil, ofInt_text])
  · rename_i hne
    refine .trailingCharacters hlongest hvalue fun htext => hne ?_
    rw [ofInt_text] at htext
    exact List.self_eq_append_right.mp htext

/-- The integer is out of range, and an unsigned type does not read the `-` either. -/
theorem parse_printInt_of_not_fits {v : Int} (hv : ¬ T.Fits v)
    (hrest : ∀ b ∈ rest.head?, isDigit b = false) :
    parse (.integral T) (printInt v ++ rest) =
      .error ⟨if v < 0 ∧ T.signed = false then .invalidValue else .outOfRange, 0⟩ := by
  rw [parse_integral_eq_iff]
  obtain ⟨b, t, htext, hfirst⟩ := head_text (ofInt v)
  split
  · rename_i hneg
    rw [ofInt_text] at htext
    have hminus : b = minus := by
      rcases hfirst with ⟨_, hpos⟩ | ⟨hb, _⟩
      · exact absurd (of_decide_eq_false hpos) (not_not.mpr hneg.1)
      · exact hb
    rw [htext, hminus]
    refine .invalidValue (List.cons_ne_nil _ _) fun l => ?_
    exact not_startsWith_cons rfl fun hsigned => by rw [hneg.2] at hsigned; cases hsigned
  · rename_i hneg
    have hsign : (ofInt v).neg = true → T.signed = true := by
      intro hminus
      by_contra hsigned
      exact hneg ⟨of_decide_eq_true hminus, Bool.not_eq_true _ ▸ hsigned⟩
    refine .outOfRange ((longest_append_iff hsign).mpr hrest) ?_
    rwa [ofInt_value]

/-- An error right behind the integer says that it was read and that no digit follows. -/
theorem of_parse_printInt_trailing {v : Int}
    (h : parse (.integral T) (printInt v ++ rest) =
      .error ⟨.trailingCharacters, (printInt v).length⟩) :
    T.Fits v ∧ rest ≠ [] ∧ ∀ b ∈ rest.head?, isDigit b = false := by
  generalize hn : (printInt v).length = n at h
  cases parse_integral_eq_iff.mp h with
  | @trailingCharacters l hlongest hfits htext =>
    -- Two prefixes of one length are the same literal.
    have hpre : l.text <+: (ofInt v).text :=
      List.prefix_of_prefix_length_le hlongest.isPrefix (List.prefix_append _ rest) hn.ge
    obtain rfl := Literal.text_injective (hpre.eq_of_length hn.symm)
    rw [ofInt_value] at hfits
    refine ⟨hfits, ?_, (longest_append_iff hlongest.sign).mp hlongest⟩
    rintro rfl
    exact htext (List.append_nil _).symm

end Readers

/-- A serialized integer, with any other text after it but a digit, is read as the same
number by every integer type that has it.  The position of the error for the other text is
the length of the integer, and only then.  A type that lacks the number says so by its
error: an unsigned one refuses a negative number as no number, every other one as out of
range.  A `bool` is never read from an integer, nor an integer from a `bool`. -/
theorem parse_serialize_across (T U : IntType) (v : U.Value) :
    ∃ s, serialize (.integral U) v = .ok s ∧
      (∀ rest : Text, (∀ b ∈ rest.head?, isDigit b = false) →
        (∀ hv : T.Fits v.val, parse (.integral T) (s ++ rest) =
          if rest = [] then .ok ⟨v.val, hv⟩ else .error ⟨.trailingCharacters, s.length⟩) ∧
        (¬ T.Fits v.val → parse (.integral T) (s ++ rest) =
          .error ⟨if v.val < 0 ∧ T.signed = false then .invalidValue else .outOfRange, 0⟩)) ∧
      (∀ rest : Text, parse (.integral T) (s ++ rest) = .error ⟨.trailingCharacters, s.length⟩ →
        T.Fits v.val ∧ rest ≠ [] ∧ ∀ b ∈ rest.head?, isDigit b = false) ∧
      (∀ rest : Text, parse .bool (s ++ rest) = .error ⟨.invalidValue, 0⟩) ∧
      ∀ (b : Bool) t, serialize .bool b = .ok t →
        parse (.integral T) t = .error ⟨.invalidValue, 0⟩ := by
  refine ⟨printInt v.val, serializeIntegral_eq v, fun rest hrest => ⟨fun hv => ?_, fun hv => ?_⟩,
    fun rest h => of_parse_printInt_trailing h, parse_bool_printInt v.val, fun b t ht => ?_⟩
  · exact parse_printInt_of_fits hv hrest
  · exact parse_printInt_of_not_fits hv hrest
  · obtain rfl := Except.ok.inj ht
    exact parse_integral_bool T b

end VixStandard.Text
