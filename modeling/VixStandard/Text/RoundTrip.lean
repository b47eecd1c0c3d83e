import VixStandard.Text.Serialize

/-!
# Parsing what was serialized, and the other way round

`serialize` and `parse` are inverse to each other on canonical texts.  Any other
text that `parse` accepts is longer than the serialized value and stands for the
same one.
-/

namespace VixStandard.Text

open VixStandard.Lib VixStandard.Lib.Decimal

/-- The type that `serialize` is called at to undo `parse<T>`. -/
def Parsable.serializable : Parsable → Serializable
  | .integral T => .integral T
  | .bool => .bool
  | .string => .string

/-- A value that was parsed, as an argument of `serialize`. -/
def Parsable.toSerializable : {T : Parsable} → T.Value → T.serializable.Value
  | .integral _, v => v
  | .bool, v => v
  | .string, v => v

/-- A canonical text.  Only integers have texts of another form. -/
def Canonical : Parsable → Text → Prop
  | .integral _, s => ∃ l : Literal, l.text = s ∧ l.Canonical
  | .bool, _ => True
  | .string, _ => True

/-- The text that stands for a value. -/
def Denotes : (T : Parsable) → Text → T.Value → Prop
  | .integral _, s, v => ∃ l : Literal, l.text = s ∧ l.value = v.val
  | .bool, s, v => s = if v then ascii "true" else ascii "false"
  | .string, s, v => s = v

/-- What is serialized is canonical and is parsed as the same value. -/
theorem serialize_spec (T : Parsable) (v : T.Value) :
    ∃ s, serialize T.serializable (Parsable.toSerializable v) = .ok s ∧ Canonical T s ∧
      Denotes T s v ∧ parse T s = .ok v := by
  cases T with
  | integral T =>
    refine ⟨printInt v.val, serializeIntegral_eq v, ?_, ?_, ?_⟩
    · exact ⟨ofInt v.val, ofInt_text _, ofInt_canonical _⟩
    · exact ⟨ofInt v.val, ofInt_text _, ofInt_value _⟩
    · refine parseIntegral_eq_ok_iff.mpr ⟨ofInt v.val, ofInt_text _, ?_, ofInt_value _⟩
      intro hneg
      exact IntType.signed_of_neg (of_decide_eq_true hneg)
  | bool => exact ⟨_, rfl, trivial, rfl, parseBool_eq_ok_iff.mpr rfl⟩
  | string => exact ⟨_, rfl, trivial, rfl, rfl⟩

/-- A text that is parsed is what the value is serialized as, or it is longer and
not canonical. -/
theorem parse_spec (T : Parsable) {s : Text} {v : T.Value} (h : parse T s = .ok v) :
    ∃ s', serialize T.serializable (Parsable.toSerializable v) = .ok s' ∧
      (s' = s ↔ Canonical T s) ∧ (¬ Canonical T s → s'.length < s.length ∧ parse T s' = .ok v) := by
  cases T with
  | integral T =>
    obtain ⟨l, rfl, _, hv⟩ := parseIntegral_eq_ok_iff.mp h
    have hcanon : Canonical (.integral T) l.text ↔ l.Canonical := by
      constructor
      · rintro ⟨l', htext, hl'⟩
        exact Literal.text_injective htext ▸ hl'
      · exact fun hl => ⟨l, rfl, hl⟩
    refine ⟨printInt v.val, serializeIntegral_eq v, ?_, ?_⟩
    · rw [hcanon, ← hv]
      exact l.printInt_eq_iff
    · intro hl
      obtain ⟨s', hs', _, _, hparse⟩ := serialize_spec (.integral T) v
      obtain rfl := Except.ok.inj ((serializeIntegral_eq v).symm.trans hs')
      refine ⟨?_, hparse⟩
      rw [← hv]
      exact Literal.length_printInt_lt (hcanon.not.mp hl)
  | bool =>
    have hs := parseBool_eq_ok_iff.mp h
    exact ⟨_, rfl, iff_of_true hs.symm trivial, fun hn => absurd trivial hn⟩
  | string =>
    obtain rfl := Except.ok.inj h
    exact ⟨_, rfl, iff_of_true rfl trivial, fun hn => absurd trivial hn⟩

/-- Every integer, `bool` and string is serialized as the canonical text of its
value, of at most 128 bytes if it is an integer, and that text is parsed as the
same value.  A text that is parsed is the serialized value exactly if it is
canonical, and otherwise longer than a text that is parsed as the same value. -/
theorem parse_serialize_round_trip (T : Parsable) :
    (∀ v : T.Value, ∃ s, serialize T.serializable (Parsable.toSerializable v) = .ok s ∧
      Canonical T s ∧ Denotes T s v ∧ parse T s = .ok v) ∧
    (∀ (U : IntType) (v : U.Value) s, serialize (.integral U) v = .ok s →
      s.length ≤ serializeBufferSize) ∧
    ∀ (s : Text) (v : T.Value), parse T s = .ok v →
      ∃ s', serialize T.serializable (Parsable.toSerializable v) = .ok s' ∧
        (s' = s ↔ Canonical T s) ∧
        (¬ Canonical T s → s'.length < s.length ∧ parse T s' = .ok v) := by
  refine ⟨serialize_spec T, ?_, fun s v => parse_spec T⟩
  intro U v s hs
  obtain rfl := Except.ok.inj ((serializeIntegral_eq v).symm.trans hs)
  exact length_printInt_le_buffer v

end VixStandard.Text
