import VixStandard.Text.Parse

/-!
# Serializing

`vix::serialize` for the integer types, `bool`, `std::string` and
`std::string_view`; the floating-point types are left out.

No integer fails: its text fits the buffer (`serializeIntegral_eq`).
-/

namespace VixStandard.Text

open VixStandard.Lib VixStandard.Lib.Decimal

inductive SerializeErrorCode where
  | valueTooLarge
  | conversionFailed
  deriving DecidableEq, Repr

structure SerializeError where
  code : SerializeErrorCode
  deriving DecidableEq, Repr

def makeSerializeError (code : SerializeErrorCode) : SerializeError := ⟨code⟩

def serializeBufferSize : Nat := 128

/-- `detail::serialize_integral` -/
def serializeIntegral {T : IntType} (value : T.Value) : Except SerializeError Text :=
  let buffer := List.replicate serializeBufferSize (0 : UInt8)
  let result := toChars buffer value
  if result.ec = .valueTooLarge then .error (makeSerializeError .valueTooLarge)
  else if result.ec ≠ .none then .error (makeSerializeError .conversionFailed)
  else .ok (result.buffer.take result.ptr)

/-- The types that `serialize` accepts, but for the floating-point types. -/
inductive Serializable where
  | integral (T : IntType)
  | bool
  | string
  | stringView

/-- The values of a type. -/
abbrev Serializable.Value : Serializable → Type
  | integral T => T.Value
  | bool => Bool
  | string => Text
  | stringView => Text

/-- `serialize` -/
def serialize : (T : Serializable) → T.Value → Except SerializeError Text
  | .integral _, value => serializeIntegral value
  | .bool, value => .ok (if value then ascii "true" else ascii "false")
  | .string, value => .ok value
  | .stringView, value => .ok value

/-- The longest text, that of the least `int64`, has 20 bytes. -/
theorem length_printInt_le_buffer {T : IntType} (v : T.Value) :
    (printInt v.val).length ≤ serializeBufferSize := by
  have hlen := length_printInt_le (by decide : 0 < 20) (IntType.natAbs_lt v)
  unfold serializeBufferSize
  omega

theorem serializeIntegral_eq {T : IntType} (v : T.Value) :
    serializeIntegral v = .ok (printInt v.val) := by
  have hfit : (printInt v.val).length ≤
      (List.replicate serializeBufferSize (0 : UInt8)).length := by
    rw [List.length_replicate]
    exact length_printInt_le_buffer v
  simp only [serializeIntegral, toChars, if_pos hfit, reduceCtorEq, if_false, ne_eq,
    not_true_eq_false, List.take_left']

end VixStandard.Text
