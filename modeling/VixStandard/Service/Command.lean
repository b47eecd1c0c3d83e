import Mathlib.Data.List.Basic
import VixStandard.Service.Config
import VixStandard.Text.Serialize

/-!
# The command of the service CLI

`Command::run` creates a configuration from its three arguments and prints it.
The host is printed as it is, in front of the other fields, so the output is read
back from its end: the digits of the timeout, then those of the port, and what is
left is the host (`render_injective`).
-/

namespace VixStandard.Service

open VixStandard.Lib VixStandard.Lib.Decimal VixStandard.Text VixStandard.Time

inductive CommandErrorCode where
  | invalidArguments
  | invalidConfiguration
  | serializationFailed
  deriving DecidableEq, Repr

structure CommandError where
  code : CommandErrorCode
  configurationError : Option Error
  deriving DecidableEq, Repr

def invalidArguments : CommandError := ⟨.invalidArguments, none⟩

def invalidConfiguration (error : Error) : CommandError := ⟨.invalidConfiguration, some error⟩

def serializationFailed : CommandError := ⟨.serializationFailed, none⟩

/-- The output, from the texts of the fields. -/
def output (host port timeout : Text) : Text :=
  ascii "host: " ++ host ++ ascii "\n" ++ ascii "port: " ++ port ++ ascii "\n" ++
    ascii "timeout: " ++ timeout ++ ascii " ms\n"

/-- `Command::run` -/
def run : List Text → Option (Except CommandError Text)
  | [host, port, timeoutMs] => do
    match ← create host port timeoutMs with
    | .error e => some (.error (invalidConfiguration e))
    | .ok config =>
      match serialize (.integral .uint16) config.port with
      | .error _ => some (.error serializationFailed)
      | .ok port => do
        let milliseconds ← config.timeout.countMilliseconds
        match serialize (.integral .int64) milliseconds with
        | .error _ => some (.error serializationFailed)
        | .ok timeout => some (.ok (output config.host port timeout))
  | _ => some (.error invalidArguments)

/-! ## What is printed -/

/-- The arguments are accepted, with a port and a timeout of the given values. -/
structure Accepted (host port timeoutMs : Text) (p n : Int) : Prop where
  host_ne : host ≠ []
  port : IsNumber port p
  one_le_port : 1 ≤ p
  port_le : p ≤ 65535
  timeout : IsNumber timeoutMs n
  one_le_timeout : 1 ≤ n
  timeout_le : n ≤ 9223372036854

/-- The output for a host, a port and a timeout. -/
def render (host : Text) (p n : Int) : Text := output host (printInt p) (printInt n)

variable {host port timeoutMs : Text} {p n : Int}

theorem isNumber_printInt (v : Int) : IsNumber (printInt v) v :=
  ⟨ofInt v, ofInt_text v, ofInt_value v⟩

theorem run_of_accepted (h : Accepted host port timeoutMs p n) :
    run [host, port, timeoutMs] = some (.ok (render host p n)) := by
  obtain ⟨c, hc, hhost, hport, htimeout⟩ :=
    create_ok h.host_ne h.port h.one_le_port h.port_le h.timeout h.one_le_timeout h.timeout_le
  obtain ⟨k, hk, hkval⟩ := countMilliseconds_of_scaled htimeout
  have hsport : serialize (.integral .uint16) c.port = .ok (printInt p) := by
    rw [← hport]
    exact serializeIntegral_eq c.port
  have hstimeout : serialize (.integral .int64) k = .ok (printInt n) := by
    rw [← hkval]
    exact serializeIntegral_eq k
  simp [run, hc, hsport, hk, hstimeout, render, hhost]

theorem run_of_error {e : Error} (h : create host port timeoutMs = some (.error e)) :
    run [host, port, timeoutMs] = some (.error (invalidConfiguration e)) := by
  simp [run, h]

/-- The two ways through a call with three arguments. -/
theorem create_cases (host port timeoutMs : Text) :
    (∃ e, create host port timeoutMs = some (.error e)) ∨ ∃ p n, Accepted host port timeoutMs p n := by
  by_cases hhost : host = []
  · subst hhost
    exact Or.inl ⟨_, create_empty_host port timeoutMs⟩
  by_cases hport : PortOk port
  · by_cases htimeout : TimeoutOk timeoutMs
    · obtain ⟨p, hnum, hp, hp'⟩ := hport
      obtain ⟨n, hnum', hn, hn'⟩ := htimeout
      exact Or.inr ⟨p, n, hhost, hnum, hp, hp', hnum', hn, hn'⟩
    · obtain ⟨e, _, he⟩ := create_bad_timeout hhost hport htimeout
      exact Or.inl ⟨e, he⟩
  · obtain ⟨e, _, he⟩ := create_bad_port hhost hport
    exact Or.inl ⟨e, he timeoutMs⟩

/-- A call returns the rendering, the error of `create`, or that there are not
three arguments. -/
theorem run_cases (arguments : List Text) :
    (arguments.length ≠ 3 ∧ run arguments = some (.error invalidArguments)) ∨
    (∃ host port timeoutMs e, arguments = [host, port, timeoutMs] ∧
      create host port timeoutMs = some (.error e) ∧
      run arguments = some (.error (invalidConfiguration e))) ∨
    ∃ host port timeoutMs p n, arguments = [host, port, timeoutMs] ∧
      Accepted host port timeoutMs p n ∧ run arguments = some (.ok (render host p n)) := by
  by_cases hlen : arguments.length = 3
  · obtain ⟨host, port, timeoutMs, rfl⟩ := List.length_eq_three.mp hlen
    rcases create_cases host port timeoutMs with ⟨e, he⟩ | ⟨p, n, h⟩
    · exact Or.inr (Or.inl ⟨host, port, timeoutMs, e, rfl, he, run_of_error he⟩)
    · exact Or.inr (Or.inr ⟨host, port, timeoutMs, p, n, rfl, h, run_of_accepted h⟩)
  · refine Or.inl ⟨hlen, ?_⟩
    unfold run
    split
    · exact absurd rfl hlen
    · rfl

/-! ## Reading the output back -/

theorem render_injective {host host' : Text} {p p' n n' : Int} (hp : 0 ≤ p) (hp' : 0 ≤ p')
    (hn : 0 ≤ n) (hn' : 0 ≤ n') (h : render host p n = render host' p' n') :
    host = host' ∧ p = p' ∧ n = n' := by
  have hspace : isDigit 32 = false := rfl
  -- Each number stands after a space that ends the text before it.
  have hgroup : ∀ (host : Text) (p n : Int), render host p n =
      ((ascii "host: " ++ host ++ ascii "\nport:") ++ 32 :: printInt p ++ ascii "\ntimeout:") ++
        32 :: printInt n ++ ascii " ms\n" := by
    intro host p n
    have hbyte : ' '.toUInt8 = 32 := rfl
    simp [render, output, ascii, hbyte]
  rw [hgroup, hgroup] at h
  obtain ⟨hfront, htimeout⟩ := append_digits_inj hspace (digits_printInt hn) (digits_printInt hn')
    (List.append_cancel_right h)
  obtain ⟨hhost, hport⟩ := append_digits_inj hspace (digits_printInt hp) (digits_printInt hp')
    (List.append_cancel_right hfront)
  exact ⟨List.append_cancel_left (List.append_cancel_right hhost), printInt_injective hport,
    printInt_injective htimeout⟩

theorem render_eq (host : Text) (p n : Int) :
    render host p n = ascii "host: " ++ host ++ ascii "\nport: " ++ printInt p ++
      ascii "\ntimeout: " ++ printInt n ++ ascii " ms\n" := by
  simp [render, output, ascii]

theorem Accepted.unique {p' n' : Int} (h : Accepted host port timeoutMs p n)
    (h' : Accepted host port timeoutMs p' n') : p = p' ∧ n = n' :=
  ⟨h.port.unique h'.port, h.timeout.unique h'.timeout⟩

/-- What `create` refuses is not accepted. -/
theorem Accepted.create_ne_error (h : Accepted host port timeoutMs p n) (e : Error) :
    create host port timeoutMs ≠ some (.error e) := by
  intro he
  have hrun := run_of_accepted h
  rw [run_of_error he] at hrun
  cases hrun

/-- What the command printed is accepted with the same values. -/
theorem Accepted.printed (h : Accepted host port timeoutMs p n) :
    Accepted host (printInt p) (printInt n) p n :=
  { h with port := isNumber_printInt p, timeout := isNumber_printInt n }

/-- The results of a call, and what they mean. -/
theorem run_results (arguments : List Text) :
    (run arguments = some (.error invalidArguments) ↔ arguments.length ≠ 3) ∧
    (∀ e, run arguments = some (.error (invalidConfiguration e)) ↔
      ∃ host port timeoutMs, arguments = [host, port, timeoutMs] ∧
        create host port timeoutMs = some (.error e)) ∧
    (run arguments ≠ some (.error serializationFailed) ∧ run arguments ≠ none) ∧
    ∀ out, run arguments = some (.ok out) ↔
      ∃ host port timeoutMs p n, arguments = [host, port, timeoutMs] ∧
        Accepted host port timeoutMs p n ∧ out = render host p n := by
  rcases run_cases arguments with ⟨hlen, hrun⟩ | ⟨host, port, timeoutMs, e, rfl, he, hrun⟩ |
    ⟨host, port, timeoutMs, p, n, rfl, h, hrun⟩
  · rw [hrun]
    refine ⟨iff_of_true rfl hlen, ?_, ⟨by decide, by simp⟩, ?_⟩
    · intro e
      refine iff_of_false (by simp [invalidArguments, invalidConfiguration]) ?_
      intro hargs
      obtain ⟨host, port, timeoutMs, rfl, _⟩ := hargs
      exact hlen rfl
    · intro out
      refine iff_of_false (by simp) ?_
      intro hargs
      obtain ⟨host, port, timeoutMs, p, n, rfl, _⟩ := hargs
      exact hlen rfl
  · rw [hrun]
    refine ⟨by simp [invalidArguments, invalidConfiguration], ?_,
      by simp [invalidConfiguration, serializationFailed], ?_⟩
    · intro e'
      constructor
      · intro herr
        obtain rfl : e = e' := by simpa [invalidConfiguration] using herr
        exact ⟨host, port, timeoutMs, rfl, he⟩
      · intro hargs
        obtain ⟨host', port', timeoutMs', hargs, he'⟩ := hargs
        simp only [List.cons.injEq, and_true] at hargs
        obtain ⟨rfl, rfl, rfl⟩ := hargs
        rw [Except.error.inj (Option.some.inj (he.symm.trans he'))]
    · intro out
      refine iff_of_false (by simp) ?_
      intro hargs
      obtain ⟨host', port', timeoutMs', p, n, hargs, h, _⟩ := hargs
      simp only [List.cons.injEq, and_true] at hargs
      obtain ⟨rfl, rfl, rfl⟩ := hargs
      exact h.create_ne_error e he
  · rw [hrun]
    refine ⟨by simp, ?_, ⟨by simp, by simp⟩, ?_⟩
    · intro e
      refine iff_of_false (by simp) ?_
      intro hargs
      obtain ⟨host', port', timeoutMs', hargs, he⟩ := hargs
      simp only [List.cons.injEq, and_true] at hargs
      obtain ⟨rfl, rfl, rfl⟩ := hargs
      exact h.create_ne_error e he
    · intro out
      constructor
      · intro hout
        exact ⟨host, port, timeoutMs, p, n, rfl, h,
          (Except.ok.inj (Option.some.inj hout)).symm⟩
      · intro hargs
        obtain ⟨host', port', timeoutMs', p', n', hargs, h', rfl⟩ := hargs
        simp only [List.cons.injEq, and_true] at hargs
        obtain ⟨rfl, rfl, rfl⟩ := hargs
        obtain ⟨rfl, rfl⟩ := h.unique h'
        rfl

/-- For every list of arguments the command behaves as the rendering of `create`:
it reports a wrong number of arguments, or the error of `create`, and otherwise
prints the accepted values; serialization never fails.  The output determines
the host, the port and the timeout, and running the command on what it printed
prints the same. -/
theorem run_spec (arguments : List Text) :
    (run arguments = some (.error invalidArguments) ↔ arguments.length ≠ 3) ∧
    (∀ e, run arguments = some (.error (invalidConfiguration e)) ↔
      ∃ host port timeoutMs, arguments = [host, port, timeoutMs] ∧
        create host port timeoutMs = some (.error e)) ∧
    (run arguments ≠ some (.error serializationFailed) ∧ run arguments ≠ none) ∧
    (∀ out, run arguments = some (.ok out) ↔
      ∃ host port timeoutMs p n, arguments = [host, port, timeoutMs] ∧
        Accepted host port timeoutMs p n ∧
        out = ascii "host: " ++ host ++ ascii "\nport: " ++ printInt p ++ ascii "\ntimeout: " ++
          printInt n ++ ascii " ms\n") ∧
    (∀ host port timeoutMs p n host' port' timeoutMs' p' n',
      Accepted host port timeoutMs p n → Accepted host' port' timeoutMs' p' n' →
      run [host, port, timeoutMs] = run [host', port', timeoutMs'] →
        host = host' ∧ p = p' ∧ n = n') ∧
    ∀ host port timeoutMs p n, Accepted host port timeoutMs p n →
      run [host, printInt p, printInt n] = run [host, port, timeoutMs] := by
  obtain ⟨harguments, hconfiguration, hfailed, hout⟩ := run_results arguments
  refine ⟨harguments, hconfiguration, hfailed, ?_, ?_, ?_⟩
  · intro out
    rw [hout]
    simp only [render_eq]
  · intro host port timeoutMs p n host' port' timeoutMs' p' n' h h' hrun
    rw [run_of_accepted h, run_of_accepted h', Option.some.injEq, Except.ok.injEq] at hrun
    have := h.one_le_port
    have := h'.one_le_port
    have := h.one_le_timeout
    have := h'.one_le_timeout
    exact render_injective (by omega) (by omega) (by omega) (by omega) hrun
  · intro host port timeoutMs p n h
    rw [run_of_accepted h, run_of_accepted h.printed]

end VixStandard.Service
