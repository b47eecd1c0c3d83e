import VixStandard.Text.Parse
import VixStandard.Time.Duration

/-!
# Service configuration

`ServiceConfig::create` of the validation library: it parses the port and the
timeout as `int64`, checks their ranges, narrows the port to `uint16` and scales
the timeout from milliseconds to nanoseconds.  `none` stands for a multiplication
out of range, which `create_ok` excludes.

The checks are made in the order host, port, timeout.  There is one lemma for
each way through them; `create_exact` collects what they say.
-/

namespace VixStandard.Service

open VixStandard.Lib VixStandard.Lib.Decimal VixStandard.Text VixStandard.Time

inductive ErrorCode where
  | emptyHost
  | invalidPort
  | portOutOfRange
  | invalidTimeout
  | timeoutOutOfRange
  deriving DecidableEq, Repr

structure Error where
  code : ErrorCode
  position : Nat
  deriving DecidableEq, Repr

structure ServiceConfig where
  host : Text
  port : IntType.uint16.Value
  timeout : Duration
  deriving DecidableEq

def minimumPort : Int := 1

def maximumPort : Int := 65535

def maximumTimeoutMs : Int := Duration.max.countNanoseconds.val.tdiv 1000000

/-- How a parse error is reported, by the two codes of a field. -/
def fieldParseError (outOfRange invalid : ErrorCode) (error : ParseError) : Error :=
  if error.code = .outOfRange then ⟨outOfRange, error.position⟩ else ⟨invalid, error.position⟩

def portParseError : ParseError → Error := fieldParseError .portOutOfRange .invalidPort

def timeoutParseError : ParseError → Error := fieldParseError .timeoutOutOfRange .invalidTimeout

/-- `ServiceConfig::create` -/
def create (host port timeoutMs : Text) : Option (Except Error ServiceConfig) :=
  if host.isEmpty then some (.error ⟨.emptyHost, 0⟩)
  else
    match parse (.integral .int64) port with
    | .error e => some (.error (portParseError e))
    | .ok parsedPort =>
      if parsedPort.val < minimumPort ∨ parsedPort.val > maximumPort then
        some (.error ⟨.portOutOfRange, 0⟩)
      else
        match parse (.integral .int64) timeoutMs with
        | .error e => some (.error (timeoutParseError e))
        | .ok parsedTimeout =>
          if parsedTimeout.val ≤ 0 ∨ parsedTimeout.val > maximumTimeoutMs then
            some (.error ⟨.timeoutOutOfRange, 0⟩)
          else do
            let timeout ← Duration.milliseconds parsedTimeout
            some (.ok ⟨host, IntType.uint16.cast parsedPort.val, timeout⟩)

/-! ## What is accepted -/

/-- The text is a decimal literal with the given value. -/
def IsNumber (s : Text) (v : Int) : Prop := ∃ l : Literal, l.text = s ∧ l.value = v

def PortOk (port : Text) : Prop := ∃ p, IsNumber port p ∧ 1 ≤ p ∧ p ≤ 65535

def TimeoutOk (timeoutMs : Text) : Prop := ∃ n, IsNumber timeoutMs n ∧ 1 ≤ n ∧ n ≤ 9223372036854

/-- The field that an error is about. -/
inductive Field where
  | host
  | port
  | timeout
  deriving DecidableEq, Repr

def ErrorCode.field : ErrorCode → Field
  | emptyHost => .host
  | invalidPort | portOutOfRange => .port
  | invalidTimeout | timeoutOutOfRange => .timeout

theorem IsNumber.unique {s : Text} {v w : Int} (hv : IsNumber s v) (hw : IsNumber s w) :
    v = w := by
  obtain ⟨l, rfl, rfl⟩ := hv
  obtain ⟨l', htext, rfl⟩ := hw
  rw [Literal.text_injective htext]

theorem parse_int64_eq_ok_iff {s : Text} {v : Rep} :
    parse (.integral .int64) s = .ok v ↔ IsNumber s v.val := by
  constructor
  · intro h
    obtain ⟨l, hl, _, hv⟩ := parseIntegral_eq_ok_iff.mp h
    exact ⟨l, hl, hv⟩
  · intro h
    obtain ⟨l, hl, hv⟩ := h
    exact parseIntegral_eq_ok_iff.mpr ⟨l, hl, fun _ => rfl, hv⟩

theorem field_portParseError (e : ParseError) : (portParseError e).code.field = .port := by
  unfold portParseError fieldParseError
  split <;> rfl

theorem field_timeoutParseError (e : ParseError) : (timeoutParseError e).code.field = .timeout := by
  unfold timeoutParseError fieldParseError
  split <;> rfl

theorem maximumTimeoutMs_eq : maximumTimeoutMs = 9223372036854 := rfl

section Paths

variable {host port timeoutMs : Text}

theorem create_empty_host (port timeoutMs : Text) :
    create [] port timeoutMs = some (.error ⟨.emptyHost, 0⟩) := rfl

/-- A bad port is reported before the timeout is read. -/
theorem create_bad_port (hhost : host ≠ []) (hport : ¬ PortOk port) :
    ∃ e : Error, e.code.field = .port ∧ ∀ timeoutMs, create host port timeoutMs = some (.error e) := by
  have hne : host.isEmpty = false := by simpa using hhost
  cases hp : parse (.integral .int64) port with
  | error e =>
    refine ⟨portParseError e, field_portParseError e, ?_⟩
    intro timeoutMs
    simp [create, hne, hp]
  | ok p =>
    have hrange : p.val < minimumPort ∨ p.val > maximumPort := by
      by_cases hr : 1 ≤ p.val ∧ p.val ≤ 65535
      · exact absurd ⟨p.val, parse_int64_eq_ok_iff.mp hp, hr⟩ hport
      · unfold minimumPort maximumPort
        omega
    refine ⟨⟨.portOutOfRange, 0⟩, rfl, ?_⟩
    intro timeoutMs
    simp [create, hne, hp, hrange]

/-- The part of `create` after the port was accepted. -/
theorem create_of_port (hhost : host ≠ []) {p : Int} (hport : IsNumber port p) (hp : 1 ≤ p)
    (hp' : p ≤ 65535) (timeoutMs : Text) :
    create host port timeoutMs =
      (match parse (.integral .int64) timeoutMs with
      | .error e => some (.error (timeoutParseError e))
      | .ok t =>
        if t.val ≤ 0 ∨ t.val > maximumTimeoutMs then some (.error ⟨.timeoutOutOfRange, 0⟩)
        else (Duration.milliseconds t).bind fun timeout =>
          some (.ok ⟨host, IntType.uint16.cast p, timeout⟩)) := by
  have hne : host.isEmpty = false := by simpa using hhost
  have hfits : IntType.int64.Fits p := by
    rw [IntType.fits_int64]
    omega
  have hparse : parse (.integral .int64) port = .ok ⟨p, hfits⟩ := parse_int64_eq_ok_iff.mpr hport
  have hrange : ¬ (p < minimumPort ∨ p > maximumPort) := by
    unfold minimumPort maximumPort
    omega
  simp only [create, hne, Bool.false_eq_true, if_false, hparse, if_neg hrange]
  rfl

theorem create_bad_timeout (hhost : host ≠ []) (hport : PortOk port)
    (htimeout : ¬ TimeoutOk timeoutMs) :
    ∃ e : Error, e.code.field = .timeout ∧ create host port timeoutMs = some (.error e) := by
  obtain ⟨p, hnum, hp, hp'⟩ := hport
  rw [create_of_port hhost hnum hp hp']
  cases ht : parse (.integral .int64) timeoutMs with
  | error e => exact ⟨_, field_timeoutParseError e, rfl⟩
  | ok t =>
    have hrange : t.val ≤ 0 ∨ t.val > maximumTimeoutMs := by
      by_cases hr : 1 ≤ t.val ∧ t.val ≤ 9223372036854
      · exact absurd ⟨t.val, parse_int64_eq_ok_iff.mp ht, hr⟩ htimeout
      · rw [maximumTimeoutMs_eq]
        omega
    refine ⟨⟨.timeoutOutOfRange, 0⟩, rfl, ?_⟩
    simp only [if_pos hrange]

/-- What is accepted keeps its values: the port fits its narrow type, and the
nanoseconds fit theirs. -/
theorem create_ok (hhost : host ≠ []) {p n : Int} (hport : IsNumber port p) (hp : 1 ≤ p)
    (hp' : p ≤ 65535) (htimeout : IsNumber timeoutMs n) (hn : 1 ≤ n) (hn' : n ≤ 9223372036854) :
    ∃ c : ServiceConfig, create host port timeoutMs = some (.ok c) ∧ c.host = host ∧
      c.port.val = p ∧ c.timeout.value.val = n * 1000000 := by
  have hfits : IntType.int64.Fits n := by
    rw [IntType.fits_int64]
    omega
  have hnanos : IntType.int64.Fits (n * 1000000) := by
    rw [IntType.fits_int64]
    omega
  have hparse : parse (.integral .int64) timeoutMs = .ok ⟨n, hfits⟩ :=
    parse_int64_eq_ok_iff.mpr htimeout
  have hrange : ¬ (n ≤ 0 ∨ n > maximumTimeoutMs) := by
    rw [maximumTimeoutMs_eq]
    omega
  have hms : Duration.milliseconds ⟨n, hfits⟩ = some ⟨⟨n * 1000000, hnanos⟩⟩ :=
    Duration.milliseconds_eq_some_iff.mpr rfl
  refine ⟨⟨host, IntType.uint16.cast p, ⟨⟨n * 1000000, hnanos⟩⟩⟩, ?_, rfl, ?_, rfl⟩
  · rw [create_of_port hhost hport hp hp', hparse]
    simp only [if_neg hrange, hms, Option.bind_some]
  · apply IntType.cast_val
    rw [IntType.fits_uint16]
    omega

end Paths

/-- The milliseconds that were scaled to nanoseconds are counted back. -/
theorem countMilliseconds_of_scaled {d : Duration} {n : Int} (hd : d.value.val = n * 1000000) :
    ∃ k, d.countMilliseconds = some k ∧ k.val = n := by
  have hquot : d.value.val.tdiv 1000000 = n := by
    rw [hd]
    exact Int.mul_tdiv_cancel n (by decide)
  have hfits : IntType.int64.Fits n := by
    have hd' := IntType.fits_int64.mp d.value.fits
    rw [IntType.fits_int64]
    omega
  exact ⟨⟨n, hfits⟩, Duration.countMilliseconds_eq_some_iff.mpr hquot.symm, rfl⟩

/-- `create` is always defined.  It succeeds exactly on a non-empty host with a
port and a timeout in range, and keeps their values.  Otherwise the error is
about the first offending field, whatever the fields after it are. -/
theorem create_exact (host port timeoutMs : Text) :
    (∃ r, create host port timeoutMs = some r) ∧
    ((∃ c, create host port timeoutMs = some (.ok c)) ↔
      host ≠ [] ∧ PortOk port ∧ TimeoutOk timeoutMs) ∧
    (∀ c, create host port timeoutMs = some (.ok c) → c.host = host ∧
      IsNumber port c.port.val ∧ ∃ n, IsNumber timeoutMs n ∧
        c.timeout.value.val = n * 1000000 ∧ c.timeout.isPositive = true ∧
        ∃ k, c.timeout.countMilliseconds = some k ∧ k.val = n) ∧
    (∀ e, create host port timeoutMs = some (.error e) →
      (host = [] ∧ e.code.field = .host ∧
        ∀ port' timeoutMs', create host port' timeoutMs' = some (.error e)) ∨
      (host ≠ [] ∧ ¬ PortOk port ∧ e.code.field = .port ∧
        ∀ timeoutMs', create host port timeoutMs' = some (.error e)) ∨
      (host ≠ [] ∧ PortOk port ∧ ¬ TimeoutOk timeoutMs ∧ e.code.field = .timeout)) ∧
    ∀ n : Int, IntType.int64.Fits (n * 1000000) ∧ 1 ≤ n ↔ 1 ≤ n ∧ n ≤ 9223372036854 := by
  have hlargest : ∀ n : Int, IntType.int64.Fits (n * 1000000) ∧ 1 ≤ n ↔
      1 ≤ n ∧ n ≤ 9223372036854 := by
    intro n
    rw [IntType.fits_int64]
    omega
  by_cases hhost : host = []
  · subst hhost
    have hcreate := create_empty_host
    refine ⟨⟨_, hcreate port timeoutMs⟩, ?_, ?_, ?_, hlargest⟩
    · simp [hcreate]
    · intro c hc
      rw [hcreate] at hc
      cases hc
    · intro e he
      rw [hcreate] at he
      obtain rfl := Except.error.inj (Option.some.inj he)
      exact Or.inl ⟨rfl, rfl, hcreate⟩
  by_cases hport : PortOk port
  · by_cases htimeout : TimeoutOk timeoutMs
    · obtain ⟨p, hnum, hp, hp'⟩ := hport
      obtain ⟨n, hnum', hn, hn'⟩ := htimeout
      obtain ⟨c, hc, hchost, hcport, hctimeout⟩ := create_ok hhost hnum hp hp' hnum' hn hn'
      refine ⟨⟨_, hc⟩, iff_of_true ⟨c, hc⟩ ⟨hhost, ⟨p, hnum, hp, hp'⟩, n, hnum', hn, hn'⟩, ?_, ?_,
        hlargest⟩
      · intro c' hc'
        obtain rfl := Except.ok.inj (Option.some.inj (hc.symm.trans hc'))
        refine ⟨hchost, hcport ▸ hnum, n, hnum', hctimeout, ?_, countMilliseconds_of_scaled hctimeout⟩
        simp only [Duration.isPositive, Duration.countNanoseconds, hctimeout, decide_eq_true_eq]
        omega
      · intro e he
        rw [hc] at he
        cases he
    · obtain ⟨e, hfield, he⟩ := create_bad_timeout hhost hport htimeout
      refine ⟨⟨_, he⟩, ?_, ?_, ?_, hlargest⟩
      · simp [he, htimeout]
      · intro c hc
        rw [he] at hc
        cases hc
      · intro e' he'
        obtain rfl := Except.error.inj (Option.some.inj (he.symm.trans he'))
        exact Or.inr (Or.inr ⟨hhost, hport, htimeout, hfield⟩)
  · obtain ⟨e, hfield, he⟩ := create_bad_port hhost hport
    refine ⟨⟨_, he timeoutMs⟩, ?_, ?_, ?_, hlargest⟩
    · simp [he, hport]
    · intro c hc
      rw [he] at hc
      cases hc
    · intro e' he'
      obtain rfl := Except.error.inj (Option.some.inj ((he timeoutMs).symm.trans he'))
      exact Or.inr (Or.inl ⟨hhost, hport, hfield, he⟩)

end VixStandard.Service
