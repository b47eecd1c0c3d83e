import VixStandard.Service.Command
import VixStandard.Service.Errors

/-!
# The programs

Programs over the library: the service CLI, whose `main` runs the command, and the
examples that parse an integer, validate it and serialize it.

A program writes to its two streams and returns a status; what it writes is a text
here.  Its arguments are C strings, which end at their first null byte.

* `Exit` lists the ways in which the service CLI ends, and `main_classified` shows that
  they are what it does.
* The examples share one text, `inspect`.  It reads an `int`, where the service
  configuration reads an `int64`; `inspect_port_agrees` compares the two.
-/

namespace VixStandard.Service

open VixStandard.Lib VixStandard.Lib.Decimal VixStandard.Text VixStandard.Time

/-- What a program wrote, and what it returned. -/
structure Ran where
  out : Text
  err : Text
  status : Nat
  deriving DecidableEq, Repr

/-- `std::string_view(const char *)` -/
def stringView (argument : Text) : Text := argument.takeWhile (· != 0)

/-! ## The service CLI -/

def usage : Text := ascii "usage: service-check <host> <port> <timeout-ms>\n"

/-- `print_error`, as the text that it writes. -/
def printError (error : CommandError) : Text :=
  match error.code with
  | .invalidArguments => usage
  | .invalidConfiguration => ascii "error: invalid service configuration\n"
  | .serializationFailed => ascii "error: failed to format command output\n"

/-- `main` -/
def main (argv : List Text) : Option Ran :=
  match argv with
  | [_, host, port, timeoutMs] => do
    match ← run [stringView host, stringView port, stringView timeoutMs] with
    | .error error => some ⟨[], printError error, 1⟩
    | .ok output => some ⟨output, [], 0⟩
  | _ => some ⟨[], usage, 1⟩

/-- How the service CLI ends. -/
inductive Exit : List Text → Ran → Prop where
  | usage {argv : List Text} : argv.length ≠ 4 → Exit argv ⟨[], usage, 1⟩
  | configuration {program host port timeoutMs : Text} {e : Error} :
      create (stringView host) (stringView port) (stringView timeoutMs) = some (.error e) →
      Exit [program, host, port, timeoutMs]
        ⟨[], ascii "error: invalid service configuration\n", 1⟩
  | success {program host port timeoutMs : Text} {p n : Int} :
      Accepted (stringView host) (stringView port) (stringView timeoutMs) p n →
      Exit [program, host, port, timeoutMs] ⟨render (stringView host) p n, [], 0⟩

theorem main_of_length {argv : List Text} (h : argv.length ≠ 4) :
    main argv = some ⟨[], usage, 1⟩ := by
  unfold main
  split
  · exact absurd rfl h
  · rfl

theorem main_of_error {program host port timeoutMs : Text} {e : CommandError}
    (h : run [stringView host, stringView port, stringView timeoutMs] = some (.error e)) :
    main [program, host, port, timeoutMs] = some ⟨[], printError e, 1⟩ := by
  simp only [main, h, Option.bind_eq_bind, Option.bind_some]

theorem main_of_ok {program host port timeoutMs output : Text}
    (h : run [stringView host, stringView port, stringView timeoutMs] = some (.ok output)) :
    main [program, host, port, timeoutMs] = some ⟨output, [], 0⟩ := by
  simp only [main, h, Option.bind_eq_bind, Option.bind_some]

/-- There is a way to end for all arguments. -/
theorem exists_exit (argv : List Text) : ∃ ran, main argv = some ran ∧ Exit argv ran := by
  by_cases hlen : argv.length = 4
  · obtain ⟨program, host, port, timeoutMs, rfl⟩ : ∃ a b c d, argv = [a, b, c, d] := by
      match argv, hlen with
      | [a, b, c, d], _ => exact ⟨a, b, c, d, rfl⟩
    rcases create_cases (stringView host) (stringView port) (stringView timeoutMs) with
      ⟨e, he⟩ | ⟨p, n, h⟩
    · exact ⟨_, main_of_error (run_of_error he), .configuration he⟩
    · exact ⟨_, main_of_ok (run_of_accepted h), .success h⟩
  · exact ⟨_, main_of_length hlen, .usage hlen⟩

/-- There is only one. -/
theorem Exit.unique {argv : List Text} {ran ran' : Ran} (h : Exit argv ran) (h' : Exit argv ran') :
    ran = ran' := by
  cases h with
  | usage hlen =>
    cases h' with
    | usage => rfl
    | configuration => exact absurd rfl hlen
    | success => exact absurd rfl hlen
  | configuration he =>
    cases h' with
    | usage hlen => exact absurd rfl hlen
    | configuration => rfl
    | success h => exact absurd he (h.create_ne_error _)
  | success h =>
    cases h' with
    | usage hlen => exact absurd rfl hlen
    | configuration he => exact absurd he (h.create_ne_error _)
    | success h' =>
      obtain ⟨rfl, rfl⟩ := h.unique h'
      rfl

theorem main_eq_some_iff {argv : List Text} {ran : Ran} : main argv = some ran ↔ Exit argv ran := by
  obtain ⟨ran', hmain, hexit⟩ := exists_exit argv
  rw [hmain, Option.some.injEq]
  exact ⟨fun h => h ▸ hexit, fun h => hexit.unique h⟩

theorem render_ne_nil (host : Text) (p n : Int) : render host p n ≠ [] := by
  simp [render, output, ascii]

/-- Exactly one of the streams is written, by the status. -/
theorem Exit.streams {argv : List Text} {ran : Ran} (h : Exit argv ran) :
    (ran.status = 0 ∧ ran.err = [] ∧ ran.out ≠ []) ∨
      (ran.status = 1 ∧ ran.out = [] ∧ ran.err ≠ []) := by
  cases h with
  | usage => exact Or.inr ⟨rfl, rfl, by decide⟩
  | configuration => exact Or.inr ⟨rfl, rfl, by decide⟩
  | success => exact Or.inl ⟨rfl, rfl, render_ne_nil _ _ _⟩

/-- A run that returns 0 accepted its arguments. -/
theorem Exit.accepted {argv : List Text} {ran : Ran} (h : Exit argv ran) (hstatus : ran.status = 0) :
    ∃ program host port timeoutMs p n, argv = [program, host, port, timeoutMs] ∧
      Accepted (stringView host) (stringView port) (stringView timeoutMs) p n ∧
      ran.out = render (stringView host) p n := by
  cases h with
  | usage => cases hstatus
  | configuration => cases hstatus
  | success h => exact ⟨_, _, _, _, _, _, rfl, h, rfl⟩

/-- A printed number that is not negative is passed on as it is. -/
theorem stringView_printInt {v : Int} (hv : 0 ≤ v) : stringView (printInt v) = printInt v := by
  refine List.takeWhile_eq_self_iff.mpr fun b hb => ?_
  have hdigit := digits_printInt hv b hb
  rw [bne_iff_ne]
  rintro rfl
  cases hdigit

/-- The service CLI ends in one of the three ways on all arguments.  It writes to one
stream, and returns 0 exactly if it prints the accepted values.  What it prints
determines them, and running it on what it printed prints the same. -/
theorem main_classified (argv : List Text) :
    (∃ ran, main argv = some ran) ∧ (∀ ran, main argv = some ran ↔ Exit argv ran) ∧
    (∀ ran, main argv = some ran → (ran.status = 0 ∧ ran.err = [] ∧ ran.out ≠ []) ∨
      (ran.status = 1 ∧ ran.out = [] ∧ ran.err ≠ [])) ∧
    (∀ argv' out, main argv = some ⟨out, [], 0⟩ → main argv' = some ⟨out, [], 0⟩ →
      ∃ host p n port timeoutMs port' timeoutMs',
        argv.tail.map stringView = [host, port, timeoutMs] ∧ Accepted host port timeoutMs p n ∧
        argv'.tail.map stringView = [host, port', timeoutMs'] ∧
        Accepted host port' timeoutMs' p n) ∧
    ∀ program host port timeoutMs p n, argv = [program, host, port, timeoutMs] →
      Accepted (stringView host) (stringView port) (stringView timeoutMs) p n →
      main [program, host, printInt p, printInt n] = main argv := by
  obtain ⟨ran, hran, hexit⟩ := exists_exit argv
  refine ⟨⟨ran, hran⟩, fun _ => main_eq_some_iff, fun _ h => (main_eq_some_iff.mp h).streams, ?_, ?_⟩
  · intro argv' out hmain hmain'
    obtain ⟨_, host, port, timeoutMs, p, n, rfl, h, hout⟩ := (main_eq_some_iff.mp hmain).accepted rfl
    obtain ⟨_, host', port', timeoutMs', p', n', rfl, h', hout'⟩ :=
      (main_eq_some_iff.mp hmain').accepted rfl
    have hp := h.one_le_port
    have hp' := h'.one_le_port
    have hn := h.one_le_timeout
    have hn' := h'.one_le_timeout
    obtain ⟨hhost, rfl, rfl⟩ := render_injective (by omega) (by omega) (by omega) (by omega)
      (hout.symm.trans hout')
    exact ⟨stringView host, p, n, stringView port, stringView timeoutMs, stringView port',
      stringView timeoutMs', rfl, h, by simp [hhost], hhost ▸ h'⟩
  · rintro program host port timeoutMs p n rfl h
    have hp := h.one_le_port
    have hn := h.one_le_timeout
    rw [main_of_ok (run_of_accepted h)]
    refine main_of_ok ?_
    rw [stringView_printInt (by omega), stringView_printInt (by omega)]
    exact run_of_accepted h.printed

/-! ## The examples -/

/-- `int` -/
def int : IntType := ⟨32, true, by decide, by decide⟩

theorem fits_int {v : Int} : int.Fits v ↔ -2147483648 ≤ v ∧ v ≤ 2147483647 := Iff.rfl

/-- `validate(value, validator)` -/
def validate {A E : Type} (value : A) (validator : A → Except E Unit) : Except E Unit :=
  validator value

inductive CountError where
  | outOfRange
  deriving DecidableEq, Repr

inductive PortError where
  | outOfRange
  deriving DecidableEq, Repr

/-- The `operator()` of both validators. -/
def rangeValidator {E : Type} (minimum maximum : Int) (error : E) (value : int.Value) :
    Except E Unit :=
  if value.val < minimum ∨ value.val > maximum then .error error else .ok ()

/-- `CountValidator` -/
def countValidator : int.Value → Except CountError Unit := rangeValidator 1 100 .outOfRange

/-- `PortValidator` -/
def portValidator : int.Value → Except PortError Unit := rangeValidator 1 65535 .outOfRange

/-- The texts that an example prints. -/
structure Messages where
  invalid : Text
  outOfRange : Text
  failed : Text
  label : Text

/-- The text that `execute` and `inspect_port` share: an error message or a line with
the value. -/
def inspect {E : Type} (messages : Messages) (validator : int.Value → Except E Unit)
    (text : Text) : Except Text Text :=
  match parse (.integral int) text with
  | .error _ => .error messages.invalid
  | .ok value =>
    match validate value validator with
    | .error _ => .error messages.outOfRange
    | .ok _ =>
      match serialize (.integral int) value with
      | .error _ => .error messages.failed
      | .ok serialized => .ok (messages.label ++ serialized ++ ascii "\n")

def countMessages : Messages where
  invalid := ascii "error: expected an integer\n"
  outOfRange := ascii "error: value must be between 1 and 100\n"
  failed := ascii "error: could not serialize value\n"
  label := ascii "count: "

def portMessages : Messages where
  invalid := ascii "invalid port\n"
  outOfRange := ascii "port out of range\n"
  failed := ascii "serialization failed\n"
  label := ascii "port: "

/-- `execute` -/
def execute (argument : Text) : Ran :=
  match inspect countMessages countValidator argument with
  | .error message => ⟨[], message, 1⟩
  | .ok line => ⟨line, [], 0⟩

/-- `main` of the example CLI -/
def countMain (argv : List Text) : Ran :=
  match argv with
  | [_, argument] => execute (stringView argument)
  | _ => ⟨[], ascii "usage: vix_standard_cli <count>\n", 1⟩

/-- `inspect_port`, as the text that it writes to `std::cout`. -/
def inspectPort (text : Text) : Text :=
  match inspect portMessages portValidator text with
  | .error message => message
  | .ok line => line

section Inspect

variable {E : Type} {messages : Messages} {minimum maximum : Int} {error : E} {text : Text}

/-- The three ways through `inspect`.  It never fails to serialize. -/
theorem inspect_cases (messages : Messages) (minimum maximum : Int) (error : E) (text : Text) :
    ((∀ v, ¬ Parses int text v) ∧
      inspect messages (rangeValidator minimum maximum error) text = .error messages.invalid) ∨
    (∃ v, Parses int text v ∧ ¬ (minimum ≤ v ∧ v ≤ maximum) ∧
      inspect messages (rangeValidator minimum maximum error) text = .error messages.outOfRange) ∨
    ∃ v, Parses int text v ∧ (minimum ≤ v ∧ v ≤ maximum) ∧
      inspect messages (rangeValidator minimum maximum error) text =
        .ok (messages.label ++ printInt v ++ ascii "\n") := by
  cases hparse : parse (.integral int) text with
  | error e =>
    refine Or.inl ⟨?_, by simp [inspect, hparse]⟩
    rintro v ⟨r, hr, _⟩
    cases hparse.symm.trans hr
  | ok value =>
    have hv : Parses int text value.val := ⟨value, hparse, rfl⟩
    have hserialize : serialize (.integral int) value = .ok (printInt value.val) :=
      serializeIntegral_eq value
    by_cases hrange : minimum ≤ value.val ∧ value.val ≤ maximum
    · have hvalid : rangeValidator minimum maximum error value = .ok () := if_neg (by omega)
      exact Or.inr (Or.inr ⟨value.val, hv, hrange, by simp [inspect, hparse, validate, hvalid,
        hserialize]⟩)
    · have hvalid : rangeValidator minimum maximum error value = .error error := if_pos (by omega)
      exact Or.inr (Or.inl ⟨value.val, hv, hrange, by simp [inspect, hparse, validate, hvalid]⟩)

theorem parses_unique {T : IntType} {v w : Int} (hv : Parses T text v) (hw : Parses T text w) :
    v = w := by
  obtain ⟨r, hr, rfl⟩ := hv
  obtain ⟨r', hr', rfl⟩ := hw
  exact congrArg IntType.Value.val (Except.ok.inj (hr.symm.trans hr'))

end Inspect

/-- The example CLI returns 0 exactly on one argument that is a number from 1 to 100, and
prints it in its canonical form. -/
theorem countMain_status (argv : List Text) :
    (countMain argv).status = 0 ↔ ∃ program argument v, argv = [program, argument] ∧
      Parses int (stringView argument) v ∧ (1 ≤ v ∧ v ≤ 100) ∧
      countMain argv = ⟨ascii "count: " ++ printInt v ++ ascii "\n", [], 0⟩ := by
  constructor
  · intro hstatus
    unfold countMain at hstatus ⊢
    split at hstatus
    · rename_i program argument
      rcases inspect_cases countMessages 1 100 CountError.outOfRange (stringView argument) with
        ⟨_, h⟩ | ⟨_, _, _, h⟩ | ⟨v, hv, hrange, h⟩
      · simp [execute, countValidator, h] at hstatus
      · simp [execute, countValidator, h] at hstatus
      · refine ⟨program, argument, v, rfl, hv, hrange, ?_⟩
        rw [execute, countValidator, h]
        rfl
    · cases hstatus
  · rintro ⟨program, argument, v, rfl, _, _, h⟩
    rw [h]

section Ports

variable {host port timeoutMs : Text} {v : Int}

theorem parses_int_iff : Parses int port v ↔ IsNumber port v ∧ int.Fits v := by
  rw [parses_iff]
  constructor
  · rintro ⟨hfits, l, htext, _, hv⟩
    exact ⟨⟨l, htext, hv⟩, hfits⟩
  · rintro ⟨⟨l, htext, hv⟩, hfits⟩
    exact ⟨hfits, l, htext, fun _ => rfl, hv⟩

/-- The three ways through `inspect_port`. -/
theorem inspectPort_cases (port : Text) :
    ((∀ v, ¬ Parses int port v) ∧ inspectPort port = ascii "invalid port\n") ∨
    (∃ v, Parses int port v ∧ ¬ (1 ≤ v ∧ v ≤ 65535) ∧
      inspectPort port = ascii "port out of range\n") ∨
    ∃ v, Parses int port v ∧ (1 ≤ v ∧ v ≤ 65535) ∧
      inspectPort port = ascii "port: " ++ printInt v ++ ascii "\n" := by
  rcases inspect_cases portMessages 1 65535 PortError.outOfRange port with
    ⟨hv, h⟩ | ⟨v, hv, hrange, h⟩ | ⟨v, hv, hrange, h⟩
  · refine Or.inl ⟨hv, ?_⟩
    rw [inspectPort, portValidator, h]
    rfl
  · refine Or.inr (Or.inl ⟨v, hv, hrange, ?_⟩)
    rw [inspectPort, portValidator, h]
    rfl
  · refine Or.inr (Or.inr ⟨v, hv, hrange, ?_⟩)
    rw [inspectPort, portValidator, h]
    rfl

/-- The line with the port is no error message. -/
theorem portLine_ne {message : Text} (h : message.take 6 ≠ ascii "port: ") (v : Int) :
    ascii "port: " ++ printInt v ++ ascii "\n" ≠ message := by
  rintro rfl
  rw [List.append_assoc] at h
  exact h (List.take_left' rfl)

/-- What `inspect_port` writes says what the text is. -/
theorem inspectPort_results (port : Text) :
    (∀ v, inspectPort port = ascii "port: " ++ printInt v ++ ascii "\n" ↔
      Parses int port v ∧ 1 ≤ v ∧ v ≤ 65535) ∧
    (inspectPort port = ascii "port out of range\n" ↔
      ∃ v, Parses int port v ∧ ¬ (1 ≤ v ∧ v ≤ 65535)) ∧
    (inspectPort port = ascii "invalid port\n" ↔ ∀ v, ¬ Parses int port v) ∧
    inspectPort port ≠ ascii "serialization failed\n" := by
  have hinvalid : (ascii "invalid port\n").take 6 ≠ ascii "port: " := by decide
  have hout : (ascii "port out of range\n").take 6 ≠ ascii "port: " := by decide
  rcases inspectPort_cases port with ⟨hv, h⟩ | ⟨v, hv, hrange, h⟩ | ⟨v, hv, hrange, h⟩
  · rw [h]
    refine ⟨fun v => iff_of_false (portLine_ne hinvalid v).symm fun hp => hv v hp.1,
      iff_of_false (by decide) ?_, iff_of_true rfl hv, by decide⟩
    rintro ⟨v, hp, _⟩
    exact hv v hp
  · rw [h]
    refine ⟨fun w => iff_of_false (portLine_ne hout w).symm ?_, iff_of_true rfl ⟨v, hv, hrange⟩,
      iff_of_false (by decide) fun hnone => hnone v hv, by decide⟩
    rintro ⟨hw, hrange'⟩
    exact hrange (parses_unique hv hw ▸ hrange')
  · rw [h]
    refine ⟨fun w => ⟨fun hline => ?_, ?_⟩, iff_of_false (portLine_ne hout v) ?_,
      iff_of_false (portLine_ne hinvalid v) fun hnone => hnone v hv, portLine_ne (by decide) v⟩
    · obtain rfl := printInt_injective (List.append_cancel_left (List.append_cancel_right hline))
      exact ⟨hv, hrange⟩
    · rintro ⟨hw, _⟩
      rw [parses_unique hv hw]
    · rintro ⟨w, hw, hrange'⟩
      exact hrange' (parses_unique hv hw ▸ hrange)

/-! ## Ports of the example and of the configuration -/

theorem fits_int64_of_int (h : int.Fits v) : IntType.int64.Fits v := by
  rw [fits_int] at h
  rw [IntType.fits_int64]
  omega

theorem portOk_iff_int : PortOk port ↔ ∃ p, Parses int port p ∧ 1 ≤ p ∧ p ≤ 65535 := by
  constructor
  · rintro ⟨p, hnum, hp, hp'⟩
    refine ⟨p, parses_int_iff.mpr ⟨hnum, ?_⟩, hp, hp'⟩
    rw [fits_int]
    omega
  · rintro ⟨p, hparses, hp, hp'⟩
    exact ⟨p, (parses_int_iff.mp hparses).1, hp, hp'⟩

/-- A text with a number beyond `int` that the configuration calls out of range. -/
def BeyondInt (port : Text) : Prop :=
  ∃ l, Longest true port l ∧ ¬ int.Fits l.value ∧ (l.text = port ∨ ¬ IntType.int64.Fits l.value)

theorem BeyondInt.not_parses (h : BeyondInt port) (v : Int) : ¬ Parses int port v := by
  obtain ⟨l, hl, hfits, _⟩ := h
  intro hv
  obtain ⟨⟨l', rfl, rfl⟩, hfits'⟩ := parses_int_iff.mp hv
  obtain rfl := hl.unique (longest_self fun _ => rfl)
  exact hfits hfits'

theorem BeyondInt.out_of_range (h : BeyondInt port) (hhost : host ≠ []) :
    create host port timeoutMs = some (.error ⟨.portOutOfRange, 0⟩) := by
  obtain ⟨l, hl, hfits, hwhy⟩ := h
  have herrors : FieldErrors .invalidPort .portOutOfRange 1 65535 port fun e =>
      ∀ timeoutMs, create host port timeoutMs = some (.error e) := port_errors hhost
  by_cases htext : l.text = port
  · refine herrors.range l htext (fun hrange => hfits ?_) _
    rw [fits_int]
    omega
  · exact herrors.overflow l hl htext (hwhy.resolve_left htext) _

/-- How `create` reports a port that it does not accept. -/
theorem create_port_error (hhost : host ≠ []) (hport : ¬ PortOk port) :
    (∃ position, create host port timeoutMs = some (.error ⟨.invalidPort, position⟩) ∧
      ∀ v, ¬ Parses int port v) ∨
    create host port timeoutMs = some (.error ⟨.portOutOfRange, 0⟩) ∧
      ((∃ v, Parses int port v ∧ ¬ (1 ≤ v ∧ v ≤ 65535)) ∨ BeyondInt port) := by
  have herrors : FieldErrors .invalidPort .portOutOfRange 1 65535 port fun e =>
      ∀ timeoutMs, create host port timeoutMs = some (.error e) := port_errors hhost
  cases hlong : longestLiteral true port with
  | none =>
    have hstart := longestLiteral_eq_none.mp hlong
    refine Or.inl ⟨0, herrors.malformed hstart _, fun v hv => ?_⟩
    obtain ⟨⟨l, rfl, _⟩, _⟩ := parses_int_iff.mp hv
    exact hstart l (longest_self fun _ => rfl).toStartsWith
  | some l =>
    have hl := longestLiteral_eq_some.mp hlong
    by_cases htext : l.text = port
    · have hrange : ¬ (1 ≤ l.value ∧ l.value ≤ 65535) :=
        fun hv => hport ⟨l.value, ⟨l, htext, rfl⟩, hv⟩
      refine Or.inr ⟨herrors.range l htext hrange _, ?_⟩
      by_cases hfits : int.Fits l.value
      · exact Or.inl ⟨l.value, parses_int_iff.mpr ⟨⟨l, htext, rfl⟩, hfits⟩, hrange⟩
      · exact Or.inr ⟨l, hl, hfits, Or.inl htext⟩
    · by_cases hfits : IntType.int64.Fits l.value
      · refine Or.inl ⟨_, herrors.trailing l hl htext hfits _, fun v hv => ?_⟩
        obtain ⟨⟨l', rfl, _⟩, _⟩ := parses_int_iff.mp hv
        exact htext (congrArg Literal.text (hl.unique (longest_self fun _ => rfl)))
      · refine Or.inr ⟨herrors.overflow l hl htext hfits _, Or.inr ⟨l, hl, ?_, Or.inr hfits⟩⟩
        exact fun h => hfits (fits_int64_of_int h)

theorem not_portOk_of_error {e : Error} (hhost : host ≠ []) (hfield : e.code.field = .port)
    (he : create host port timeoutMs = some (.error e)) : ¬ PortOk port := by
  intro hport
  rw [field_of_port_ok hhost hport he] at hfield
  cases hfield

/-- The port of a configuration that is accepted. -/
theorem create_port_iff (hhost : host ≠ []) (htimeout : TimeoutOk timeoutMs) :
    (∃ c, create host port timeoutMs = some (.ok c) ∧ c.port.val = v) ↔
      Parses int port v ∧ 1 ≤ v ∧ v ≤ 65535 := by
  constructor
  · rintro ⟨c, hc, rfl⟩
    have hport : PortOk port := by
      by_contra hport
      obtain ⟨e, _, he⟩ := create_bad_port hhost hport
      cases (he timeoutMs).symm.trans hc
    obtain ⟨p, hv, hp⟩ := portOk_iff_int.mp hport
    obtain rfl := (parses_int_iff.mp hv).1.unique (isNumber_port hhost hc)
    exact ⟨hv, hp⟩
  · rintro ⟨hv, hp, hp'⟩
    obtain ⟨n, hnum, hn, hn'⟩ := htimeout
    obtain ⟨c, hc, _, hport, _⟩ :=
      create_ok hhost (parses_int_iff.mp hv).1 hp hp' hnum hn hn'
    exact ⟨c, hc, hport⟩

/-- The ports that a configuration calls invalid. -/
theorem create_invalidPort_iff (hhost : host ≠ []) :
    (∃ position, create host port timeoutMs = some (.error ⟨.invalidPort, position⟩)) ↔
      (∀ v, ¬ Parses int port v) ∧ ¬ BeyondInt port := by
  constructor
  · rintro ⟨position, he⟩
    refine ⟨?_, fun hbeyond => by cases he.symm.trans (hbeyond.out_of_range hhost)⟩
    rcases create_port_error hhost (not_portOk_of_error hhost rfl he) with
      ⟨_, _, hnone⟩ | ⟨he', _⟩
    · exact hnone
    · cases he.symm.trans he'
  · rintro ⟨hnone, hbeyond⟩
    have hport : ¬ PortOk port := by
      rw [portOk_iff_int]
      rintro ⟨p, hv, _⟩
      exact hnone p hv
    rcases create_port_error hhost hport with ⟨position, he, _⟩ | ⟨_, ⟨v, hv, _⟩ | h⟩
    · exact ⟨position, he⟩
    · exact absurd hv (hnone v)
    · exact absurd h hbeyond

/-- The ports that a configuration calls out of range. -/
theorem create_portOutOfRange_iff (hhost : host ≠ []) :
    create host port timeoutMs = some (.error ⟨.portOutOfRange, 0⟩) ↔
      (∃ v, Parses int port v ∧ ¬ (1 ≤ v ∧ v ≤ 65535)) ∨ BeyondInt port := by
  constructor
  · intro he
    rcases create_port_error hhost (not_portOk_of_error hhost rfl he) with
      ⟨_, he', _⟩ | ⟨_, hwhy⟩
    · cases he.symm.trans he'
    · exact hwhy
  · rintro (⟨v, hv, hrange⟩ | hbeyond)
    · have hport : ¬ PortOk port := by
        rw [portOk_iff_int]
        rintro ⟨p, hp, hp'⟩
        exact hrange (parses_unique hv hp ▸ hp')
      rcases create_port_error hhost hport with ⟨_, _, hnone⟩ | ⟨he, _⟩
      · exact absurd hv (hnone v)
      · exact he
    · exact hbeyond.out_of_range hhost

/-- `inspect_port`, which reads an `int`, accepts the ports that a service configuration
accepts, with the same value.  Both call other texts out of range or invalid alike, but
for numbers beyond `int`: they are invalid for the one and out of range for the other. -/
theorem inspect_port_agrees (host port timeoutMs : Text) (hhost : host ≠ [])
    (htimeout : TimeoutOk timeoutMs) :
    (∀ p, inspectPort port = ascii "port: " ++ printInt p ++ ascii "\n" ↔
      ∃ c, create host port timeoutMs = some (.ok c) ∧ c.port.val = p) ∧
    ((∃ position, create host port timeoutMs = some (.error ⟨.invalidPort, position⟩)) ↔
      inspectPort port = ascii "invalid port\n" ∧ ¬ BeyondInt port) ∧
    (create host port timeoutMs = some (.error ⟨.portOutOfRange, 0⟩) ↔
      inspectPort port = ascii "port out of range\n" ∨ BeyondInt port) ∧
    (BeyondInt port → inspectPort port = ascii "invalid port\n") ∧
    inspectPort port ≠ ascii "serialization failed\n" := by
  obtain ⟨hline, hout, hinvalid, hfailed⟩ := inspectPort_results port
  refine ⟨fun p => ?_, ?_, ?_, fun h => hinvalid.mpr h.not_parses, hfailed⟩
  · rw [hline, create_port_iff hhost htimeout]
  · rw [hinvalid, create_invalidPort_iff hhost]
  · rw [hout, create_portOutOfRange_iff hhost]

/-- A port beyond `int`, of an otherwise fine configuration. -/
theorem inspect_port_agrees_beyond :
    inspectPort (ascii "3000000000") = ascii "invalid port\n" ∧
      create (ascii "h") (ascii "3000000000") (ascii "1") = some (.error ⟨.portOutOfRange, 0⟩) := by
  have hbeyond : BeyondInt (ascii "3000000000") :=
    ⟨ofInt 3000000000, longestLiteral_eq_some.mp rfl, by decide, Or.inl (by decide)⟩
  have htimeout : TimeoutOk (ascii "1") := ⟨1, isNumber_printInt 1, by decide, by decide⟩
  obtain ⟨_, _, hout, hinvalid, _⟩ :=
    inspect_port_agrees (ascii "h") (ascii "3000000000") (ascii "1") (by decide) htimeout
  exact ⟨hinvalid hbeyond, hout.mpr (Or.inr hbeyond)⟩

end Ports

end VixStandard.Service
