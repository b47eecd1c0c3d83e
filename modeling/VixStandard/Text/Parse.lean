import VixStandard.Text.Charconv

/-!
# Parsing

`vix::parse<T>` for the integer types, `bool` and `std::string`; the
floating-point types are left out.  A `Result` that is only built by `success()`
and `failure()` is an `Except` here.

`parseIntegral_eq_ok_iff` says which texts are accepted, and as what.
-/

namespace VixStandard.Text

open VixStandard.Lib VixStandard.Lib.Decimal

inductive ParseErrorCode where
  | emptyInput
  | invalidValue
  | outOfRange
  | trailingCharacters
  deriving DecidableEq, Repr

structure ParseError where
  code : ParseErrorCode
  position : Nat
  deriving DecidableEq, Repr

/-- `make_parse_error(code, position)`; the position is 0 by default. -/
def makeParseError (code : ParseErrorCode) (position : Nat := 0) : ParseError := ⟨code, position⟩

/-- `detail::parse_integral` -/
def parseIntegral (T : IntType) (text : Text) : Except ParseError T.Value :=
  if text.isEmpty then .error (makeParseError .emptyInput)
  else
    let result := fromChars T text T.zero
    if result.ec = .invalidArgument then .error (makeParseError .invalidValue)
    else if result.ec = .resultOutOfRange then .error (makeParseError .outOfRange)
    else if result.ptr ≠ text.length then .error (makeParseError .trailingCharacters result.ptr)
    else .ok result.value

/-- The bytes of an ASCII string. -/
def ascii (s : String) : Text := s.toList.map Char.toUInt8

/-- `detail::parse_bool` -/
def parseBool (text : Text) : Except ParseError Bool :=
  if text.isEmpty then .error (makeParseError .emptyInput)
  else if text = ascii "true" then .ok true
  else if text = ascii "false" then .ok false
  else .error (makeParseError .invalidValue)

/-- The types that `parse` accepts, but for the floating-point types. -/
inductive Parsable where
  | integral (T : IntType)
  | bool
  | string

/-- The values of a type. -/
abbrev Parsable.Value : Parsable → Type
  | integral T => T.Value
  | bool => Bool
  | string => Text

/-- `parse<T>` -/
def parse : (T : Parsable) → Text → Except ParseError T.Value
  | .integral T, text => parseIntegral T text
  | .bool, text => parseBool text
  | .string, text => .ok text

/-! ## What is accepted -/

theorem fromChars_of_none {T : IntType} {s : Text} {v : T.Value}
    (h : longestLiteral T.signed s = none) : fromChars T s v = ⟨0, .invalidArgument, v⟩ := by
  simp only [fromChars, h]

theorem fromChars_of_mem {T : IntType} {s : Text} {v : T.Value} {l : Literal}
    (h : longestLiteral T.signed s = some l) (hl : T.Fits l.value) :
    fromChars T s v = ⟨l.text.length, .none, ⟨l.value, hl⟩⟩ := by
  simp only [fromChars, h, dif_pos hl]

theorem fromChars_of_not_mem {T : IntType} {s : Text} {v : T.Value} {l : Literal}
    (h : longestLiteral T.signed s = some l) (hl : ¬ T.Fits l.value) :
    fromChars T s v = ⟨l.text.length, .resultOutOfRange, v⟩ := by
  simp only [fromChars, h, dif_neg hl]

/-- A text is accepted if the whole of it is a literal whose value fits. -/
theorem parseIntegral_text {T : IntType} {l : Literal} (hneg : l.neg = true → T.signed = true)
    (hl : T.Fits l.value) : parseIntegral T l.text = .ok ⟨l.value, hl⟩ := by
  have hne : l.text.isEmpty = false := by simpa using l.text_ne_nil
  simp [parseIntegral, hne, fromChars_of_mem (longestLiteral_text hneg) hl]

/-- Nothing else is accepted. -/
theorem parseIntegral_eq_ok_iff {T : IntType} {s : Text} {v : T.Value} :
    parseIntegral T s = .ok v ↔
      ∃ l : Literal, l.text = s ∧ (l.neg = true → T.signed = true) ∧ l.value = v.val := by
  constructor
  · intro h
    unfold parseIntegral at h
    split at h
    · cases h
    · cases hlong : longestLiteral T.signed s with
      | none => simp [fromChars_of_none hlong] at h
      | some l =>
        by_cases hl : T.Fits l.value
        · rw [fromChars_of_mem hlong hl] at h
          simp only [reduceCtorEq, if_false, ne_eq, ite_not] at h
          obtain ⟨hneg, rest, hs, _⟩ := longestLiteral_eq_some_iff.mp hlong
          split at h
          · rename_i hlen
            have hrest : rest = [] := by
              rw [hs, List.length_append] at hlen
              exact List.length_eq_zero_iff.mp (by omega)
            have hv := Except.ok.inj h
            exact ⟨l, by rw [hs, hrest, List.append_nil], hneg, congrArg IntType.Value.val hv⟩
          · cases h
        · simp [fromChars_of_not_mem hlong hl] at h
  · rintro ⟨l, rfl, hneg, hv⟩
    have hl : T.Fits l.value := hv ▸ v.fits
    rw [parseIntegral_text hneg hl]
    exact congrArg Except.ok (IntType.Value.ext hv)

theorem parseBool_eq_ok_iff {s : Text} {b : Bool} :
    parseBool s = .ok b ↔ s = if b then ascii "true" else ascii "false" := by
  constructor
  · intro h
    unfold parseBool at h
    split at h
    · cases h
    · split at h
      · rw [← Except.ok.inj h]
        assumption
      · split at h
        · rw [← Except.ok.inj h]
          assumption
        · cases h
  · rintro rfl
    cases b <;> rfl

end VixStandard.Text
