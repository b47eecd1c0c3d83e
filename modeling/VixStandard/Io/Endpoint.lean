import VixStandard.Lib.Decimal
import VixStandard.Lib.Transfer

/-!
# Inputs and outputs

`vix::read`, `vix::write` and `vix::print`, for every type that models `Input` or
`Output`.  The three functions forward to the member function of the object; what
they do is up to the object.  A `const` object is one that every call leaves as it
was.  A `Result` of theirs is an `Except` here.

`Input.Lawful` and `Sink.Lawful` say what the documentation of the concepts
demands.  The objects of the tests are the only models that the repository has.

* `memoryInput` reads from a span, and fails once `fail()` was called.
* `partialOutput` consumes one byte a call.  It keeps nothing, and what it consumed
  is what it said.
-/

namespace VixStandard.Io

open VixStandard.Lib VixStandard.Lib.Decimal VixStandard.Lib.Transfer

variable {S E : Type}

/-- A model of `Input`, with objects `S` and `error_type` `E`.  Its `read` answers
with a count or an error, and leaves the object and the bytes of the buffer. -/
structure Input (S E : Type) where
  read : S → List UInt8 → Except E Nat × S × List UInt8
  /-- A span keeps its size. -/
  length_buffer : ∀ input buffer, (read input buffer).2.2.length = buffer.length

/-- A model of `Output`. -/
structure Output (S E : Type) where
  write : S → List UInt8 → Except E Nat × S

/-- `read(I &, std::span<std::byte>)` -/
def read (I : Input S E) (input : S) (buffer : List UInt8) : Except E Nat × S × List UInt8 :=
  I.read input buffer

/-- `write(O &, std::span<const std::byte>)` -/
def write (O : Output S E) (output : S) (data : List UInt8) : Except E Nat × S :=
  O.write output data

/-- `std::as_bytes`: the bytes of a text are what it is made of. -/
def asBytes (text : Text) : List UInt8 := text

/-- `print(O &, std::string_view)` -/
def print (O : Output S E) (output : S) (text : Text) : Except E Nat × S :=
  write O output (asBytes text)

/-! ## What the concepts demand -/

/-- An output as a sink of bytes, by `print`. -/
def Output.sink (O : Output S E) : Sink S UInt8 E where
  push output data := print O output data

/-- The same output with the bytes that it said it consumed. -/
def Output.record (O : Output S E) : Output (S × List UInt8) E where
  write := O.sink.record.push

/-- An input as a source of bytes, by `read`. -/
def Input.source (I : Input S E) : Source S (List UInt8) UInt8 E where
  pull input buffer :=
    let r := read I input buffer
    (r.1.map fun count => r.2.2.take count, r.2.1)

/-- An input that hands out the bytes `rest`: the count is not more than the buffer
holds, the bytes that it counts are the next ones, and zero is the end. -/
structure Input.Lawful (I : Input S E) (rest : S → List UInt8) : Prop where
  count_le : ∀ input buffer count, (I.read input buffer).1 = .ok count → count ≤ buffer.length
  rest_ok : ∀ input buffer count, (I.read input buffer).1 = .ok count →
    rest input = (I.read input buffer).2.2.take count ++ rest (I.read input buffer).2.1
  rest_error : ∀ input buffer e, (I.read input buffer).1 = .error e →
    rest (I.read input buffer).2.1 = rest input
  rest_end : ∀ input buffer, (I.read input buffer).1 = .ok 0 → buffer = [] ∨ rest input = []

theorem Input.Lawful.source {I : Input S E} {rest : S → List UInt8} (h : I.Lawful rest) :
    I.source.Lawful List.length rest := by
  refine ⟨fun input buffer => ?_, fun input buffer => ?_, fun input buffer hpull => ?_⟩
  · show (handed ((I.read input buffer).1.map _)).length ≤ buffer.length
    cases hr : (I.read input buffer).1 with
    | error e => exact Nat.zero_le _
    | ok count =>
      show ((I.read input buffer).2.2.take count).length ≤ buffer.length
      rw [List.length_take, I.length_buffer]
      exact Nat.min_le_right _ _
  · show rest input = handed ((I.read input buffer).1.map _) ++ rest (I.read input buffer).2.1
    cases hr : (I.read input buffer).1 with
    | error e => exact (h.rest_error input buffer e hr).symm
    | ok count => exact h.rest_ok input buffer count hr
  · have hmap : (I.read input buffer).1.map (fun count => (I.read input buffer).2.2.take count) =
        .ok [] := hpull
    cases hr : (I.read input buffer).1 with
    | error e =>
      rw [hr] at hmap
      cases hmap
    | ok count =>
      rw [hr] at hmap
      have htake := List.length_eq_zero_iff.mpr (Except.ok.inj hmap)
      rw [List.length_take, I.length_buffer, Nat.min_eq_left (h.count_le _ _ _ hr)] at htake
      rw [htake] at hr
      exact (h.rest_end input buffer hr).imp List.length_eq_zero_iff.mpr id

/-! ## The objects of the tests -/

/-- `IoError` -/
inductive IoError where
  | unavailable
  | failed
  deriving DecidableEq, Repr

/-- An input over a span. -/
structure SpanInput where
  data : List UInt8
  position : Nat := 0
  failed : Bool := false
  deriving DecidableEq, Repr

/-- Its `read`, which fails with `error`. -/
def SpanInput.read (error : E) (input : SpanInput) (buffer : List UInt8) :
    Except E Nat × SpanInput × List UInt8 :=
  if input.failed then (.error error, input, buffer)
  else if input.position ≥ input.data.length then (.ok 0, input, buffer)
  else
    let remaining := input.data.length - input.position
    let count := min buffer.length remaining
    (.ok count, { input with position := input.position + count },
      (input.data.drop input.position).take count ++ buffer.drop count)

def SpanInput.fail (input : SpanInput) : SpanInput := { input with failed := true }

/-- The bytes that were not read. -/
def SpanInput.rest (input : SpanInput) : List UInt8 := input.data.drop input.position

def spanInput (error : E) : Input SpanInput E where
  read := SpanInput.read error
  length_buffer input buffer := by
    unfold SpanInput.read
    split
    · rfl
    · split
      · rfl
      · simp only [List.length_append, List.length_take, List.length_drop]
        omega

/-- `MemoryInput` -/
def memoryInput : Input SpanInput IoError := spanInput .failed

/-- `PartialOutput` and `PartialTextOutput` -/
def partialOutput (E : Type) : Output Unit E where
  write _ data := (if data.isEmpty then .ok 0 else .ok 1, ())

/-! ## They meet the demands -/

/-- How many bytes a buffer gets. -/
def SpanInput.count (input : SpanInput) (buffer : List UInt8) : Nat :=
  min buffer.length input.rest.length

theorem SpanInput.read_of_failed {error : E} {input : SpanInput} (h : input.failed = true)
    (buffer : List UInt8) : input.read error buffer = (.error error, input, buffer) := by
  rw [SpanInput.read, if_pos h]

/-- At the end of the span the count is zero. -/
theorem SpanInput.read_of_not_failed {error : E} {input : SpanInput} (h : input.failed = false)
    (buffer : List UInt8) : input.read error buffer =
      (.ok (input.count buffer), { input with position := input.position + input.count buffer },
        input.rest.take (input.count buffer) ++ buffer.drop (input.count buffer)) := by
  have hrest : input.rest.length = input.data.length - input.position := List.length_drop
  rw [SpanInput.read, if_neg (by simp [h]), SpanInput.count, hrest]
  split
  · rename_i hend
    have hzero : min buffer.length (input.data.length - input.position) = 0 := by omega
    simp [hzero]
  · rfl

theorem SpanInput.rest_advance (input : SpanInput) (n : Nat) :
    input.rest = input.rest.take n ++ SpanInput.rest { input with position := input.position + n } := by
  show _ = _ ++ input.data.drop (input.position + n)
  rw [← List.drop_drop]
  exact (List.take_append_drop n input.rest).symm

theorem spanInput_lawful (error : E) : (spanInput error).Lawful SpanInput.rest := by
  have hread : ∀ (input : SpanInput) (buffer : List UInt8),
      (spanInput error).read input buffer = input.read error buffer := fun _ _ => rfl
  have hcount : ∀ {input : SpanInput} {buffer : List UInt8} {n : Nat},
      (input.read error buffer).1 = .ok n → input.failed = false ∧ input.count buffer = n := by
    intro input buffer n hok
    cases hfailed : input.failed with
    | true =>
      rw [SpanInput.read_of_failed hfailed] at hok
      cases hok
    | false =>
      rw [SpanInput.read_of_not_failed hfailed] at hok
      exact ⟨rfl, Except.ok.inj hok⟩
  constructor
  · intro input buffer count hok
    rw [hread] at hok
    obtain ⟨_, rfl⟩ := hcount hok
    exact Nat.min_le_left _ _
  · intro input buffer count hok
    rw [hread] at hok ⊢
    obtain ⟨hfailed, rfl⟩ := hcount hok
    have hlen : (input.rest.take (input.count buffer)).length = input.count buffer := by
      rw [List.length_take]
      exact Nat.min_eq_left (Nat.min_le_right _ _)
    rw [SpanInput.read_of_not_failed hfailed, List.take_left' hlen]
    exact input.rest_advance _
  · intro input buffer e herr
    rw [hread] at herr ⊢
    cases hfailed : input.failed with
    | true => rw [SpanInput.read_of_failed hfailed]
    | false =>
      rw [SpanInput.read_of_not_failed hfailed] at herr
      cases herr
  · intro input buffer hok
    rw [hread] at hok
    obtain ⟨_, hzero⟩ := hcount hok
    rcases Nat.min_eq_zero_iff.mp hzero with hlen | hlen
    · exact Or.inl (List.length_eq_zero_iff.mp hlen)
    · exact Or.inr (List.length_eq_zero_iff.mp hlen)

/-- An output that keeps nothing has consumed what it said. -/
theorem partialOutput_lawful (E : Type) : (partialOutput E).record.sink.Lawful Prod.snd := by
  refine Sink.record_lawful (K := (partialOutput E).sink) fun output data => ?_
  show moved (if data.isEmpty then Except.ok 0 else .ok 1 : Except E Nat) ≤ data.length
  cases data with
  | nil => exact Nat.le_refl _
  | cons b data => exact Nat.le_add_left 1 data.length

theorem partialOutput_progress (E : Type) : (partialOutput E).record.sink.Progress := by
  refine Sink.Progress.record (K := (partialOutput E).sink) fun output data hdata n hwrite => ?_
  have hwrite : (if data.isEmpty then Except.ok 0 else .ok 1 : Except E Nat) = .ok n := hwrite
  rw [if_neg (by simpa using hdata)] at hwrite
  obtain rfl := Except.ok.inj hwrite
  exact Nat.one_ne_zero

end VixStandard.Io
