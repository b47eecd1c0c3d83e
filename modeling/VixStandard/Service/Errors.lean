import VixStandard.Service.Config
import VixStandard.Text.Classification

/-!
# The errors of a service configuration

`create` reads the port and the timeout in the same way: it parses an `int64`, hands
the parse error on under the codes of the field, and checks a range.  `FieldErrors`
says which error each kind of text gives, and `create_errors` that both fields report
it.  A digit run beyond `int64` is out of range also when other bytes follow it.

`narrow_agrees` compares this route, through `int64` and a cast, with parsing a
`uint16`.
-/

namespace VixStandard.Service

open VixStandard.Lib VixStandard.Lib.Decimal VixStandard.Text VixStandard.Time

/-- What a field reports, if it has to be a number from `lo` to `hi`. -/
structure FieldErrors (invalid outOfRange : ErrorCode) (lo hi : Int) (s : Text)
    (fails : Error → Prop) : Prop where
  /-- No number at the start. -/
  malformed : (∀ l, ¬ StartsWith true s l) → fails ⟨invalid, 0⟩
  /-- A number that is followed by another byte. -/
  trailing : ∀ l, Longest true s l → l.text ≠ s → IntType.int64.Fits l.value →
    fails ⟨invalid, l.text.length⟩
  /-- The same, with a number beyond `int64`. -/
  overflow : ∀ l, Longest true s l → l.text ≠ s → ¬ IntType.int64.Fits l.value →
    fails ⟨outOfRange, 0⟩
  /-- A number outside the range. -/
  range : ∀ l : Literal, l.text = s → ¬ (lo ≤ l.value ∧ l.value ≤ hi) → fails ⟨outOfRange, 0⟩

/-- A field that is parsed as an `int64` and then checked. -/
theorem fieldErrors_of_parse {invalid outOfRange : ErrorCode} {lo hi : Int} {s : Text}
    {fails : Error → Prop}
    (hparse : ∀ e, parse (.integral .int64) s = .error e →
      fails (fieldParseError outOfRange invalid e))
    (hrange : ∀ v : Rep, parse (.integral .int64) s = .ok v → ¬ (lo ≤ v.val ∧ v.val ≤ hi) →
      fails ⟨outOfRange, 0⟩) : FieldErrors invalid outOfRange lo hi s fails := by
  have hoverflow : ∀ l, Longest true s l → ¬ IntType.int64.Fits l.value →
      fails ⟨outOfRange, 0⟩ :=
    fun l hl hfits => hparse _ (parse_integral_eq_iff.mpr (.outOfRange hl hfits))
  refine ⟨?_, ?_, fun l hl _ => hoverflow l hl, ?_⟩
  · intro hnone
    by_cases hs : s = []
    · exact hparse _ (parse_integral_eq_iff.mpr (.emptyInput hs))
    · exact hparse _ (parse_integral_eq_iff.mpr (.invalidValue hs hnone))
  · intro l hl htext hfits
    exact hparse _ (parse_integral_eq_iff.mpr (.trailingCharacters hl hfits htext))
  · intro l htext hout
    have hl : Longest true s l := htext ▸ longest_self fun _ => rfl
    by_cases hfits : IntType.int64.Fits l.value
    · exact hrange _ (parse_integral_eq_iff.mpr (.success hfits hl htext)) hout
    · exact hoverflow l hl hfits

section Fields

variable {host port timeoutMs : Text}

theorem port_errors (hhost : host ≠ []) :
    FieldErrors .invalidPort .portOutOfRange 1 65535 port fun e =>
      ∀ timeoutMs, create host port timeoutMs = some (.error e) := by
  have hne : host.isEmpty = false := by simpa using hhost
  refine fieldErrors_of_parse ?_ ?_
  · intro e he timeoutMs
    simp [create, hne, he, portParseError]
  · intro v hv hout timeoutMs
    have hrange : v.val < minimumPort ∨ v.val > maximumPort := by
      unfold minimumPort maximumPort
      omega
    simp [create, hne, hv, hrange]

theorem timeout_errors (hhost : host ≠ []) (hport : PortOk port) :
    FieldErrors .invalidTimeout .timeoutOutOfRange 1 9223372036854 timeoutMs fun e =>
      create host port timeoutMs = some (.error e) := by
  obtain ⟨p, hnum, hp, hp'⟩ := hport
  refine fieldErrors_of_parse ?_ ?_
  · intro e he
    rw [create_of_port hhost hnum hp hp', he]
    rfl
  · intro v hv hout
    have hrange : v.val ≤ 0 ∨ v.val > maximumTimeoutMs := by
      rw [maximumTimeoutMs_eq]
      omega
    rw [create_of_port hhost hnum hp hp', hv]
    exact if_pos hrange

end Fields

/-- For every non-empty host, the port is reported as malformed with the position of
the first byte that no number goes on with, or as out of range, and so is the timeout
once the port is accepted. -/
theorem create_errors (host port timeoutMs : Text) (hhost : host ≠ []) :
    (FieldErrors .invalidPort .portOutOfRange 1 65535 port fun e =>
      ∀ timeoutMs, create host port timeoutMs = some (.error e)) ∧
    (PortOk port → FieldErrors .invalidTimeout .timeoutOutOfRange 1 9223372036854 timeoutMs fun e =>
      create host port timeoutMs = some (.error e)) :=
  ⟨port_errors hhost, timeout_errors hhost⟩

/-- A digit run beyond `int64` with a letter after it. -/
def longPort : Text := ascii "99999999999999999999x"

/-- The text is no number, but its error is not the one of a malformed port. -/
theorem longPort_out_of_range :
    (∀ l : Literal, l.text ≠ longPort) ∧
      (∃ l, Longest true longPort l ∧ l.text.length = 20) ∧
      create (ascii "h") longPort (ascii "1") = some (.error ⟨.portOutOfRange, 0⟩) ∧
      create (ascii "h") longPort (ascii "1") ≠ some (.error ⟨.invalidPort, 20⟩) := by
  have hcreate : create (ascii "h") longPort (ascii "1") = some (.error ⟨.portOutOfRange, 0⟩) := rfl
  refine ⟨?_, ⟨_, longestLiteral_eq_some.mp rfl, rfl⟩, hcreate, ?_⟩
  · intro l hl
    have hlong : longestLiteral true longPort = some l :=
      longestLiteral_eq_some.mpr (hl ▸ longest_self fun _ => rfl)
    have hlen : l.text.length = 20 :=
      congrArg (fun o => (o.map fun l => l.text.length).getD 0) hlong.symm
    rw [hl] at hlen
    exact absurd hlen (by decide)
  · rw [hcreate]
    decide

/-- Ports of an otherwise fine configuration: no number, a rest, out of range. -/
theorem create_errors_ports :
    create (ascii "h") (ascii "-") (ascii "1") = some (.error ⟨.invalidPort, 0⟩) ∧
      create (ascii "h") (ascii "70000x") (ascii "1") = some (.error ⟨.invalidPort, 5⟩) ∧
      create (ascii "h") (ascii "70000") (ascii "1") = some (.error ⟨.portOutOfRange, 0⟩) := by
  have herrors := fun port => (create_errors (ascii "h") port (ascii "1") (by decide)).1
  refine ⟨?_, ?_, ?_⟩
  · exact (herrors (ascii "-")).malformed (longestLiteral_eq_none.mp rfl) _
  · exact (herrors (ascii "70000x")).trailing (ofInt 70000) (longestLiteral_eq_some.mp rfl)
      (by decide) (by decide) _
  · exact (herrors (ascii "70000")).range (ofInt 70000) (by decide) (by decide) _

/-! ## Through `int64` or `uint16` -/

section Uint16

variable {host port timeoutMs : Text}

theorem portOk_iff : PortOk port ↔ ∃ p, Parses .uint16 port p ∧ p ≠ 0 := by
  constructor
  · rintro ⟨p, ⟨l, htext, hv⟩, hp, hp'⟩
    refine ⟨p, parses_iff.mpr ⟨?_, l, htext, fun hneg => ?_, hv⟩, by omega⟩
    · rw [IntType.fits_uint16]
      omega
    · exfalso
      simp only [Literal.value, hneg, if_true] at hv
      omega
  · rintro ⟨p, hp, hne⟩
    obtain ⟨hfits, l, htext, _, hv⟩ := parses_iff.mp hp
    rw [IntType.fits_uint16] at hfits
    exact ⟨p, ⟨l, htext, hv⟩, by omega, hfits.2⟩

theorem field_of_port_ok (hhost : host ≠ []) (hport : PortOk port) {e : Error}
    (he : create host port timeoutMs = some (.error e)) : e.code.field = .timeout := by
  by_cases htimeout : TimeoutOk timeoutMs
  · obtain ⟨p, hnum, hp, hp'⟩ := hport
    obtain ⟨n, hnum', hn, hn'⟩ := htimeout
    obtain ⟨c, hc, _⟩ := create_ok hhost hnum hp hp' hnum' hn hn'
    rw [hc] at he
    cases he
  · obtain ⟨e', hfield, he'⟩ := create_bad_timeout hhost hport htimeout
    obtain rfl := Except.error.inj (Option.some.inj (he'.symm.trans he))
    exact hfield

/-- The cast keeps the port. -/
theorem isNumber_port (hhost : host ≠ []) {c : ServiceConfig}
    (hc : create host port timeoutMs = some (.ok c)) : IsNumber port c.port.val := by
  by_cases hport : PortOk port
  · obtain ⟨p, hnum, hp, hp'⟩ := hport
    by_cases htimeout : TimeoutOk timeoutMs
    · obtain ⟨n, hnum', hn, hn'⟩ := htimeout
      obtain ⟨c', hc', _, hcport, _⟩ := create_ok hhost hnum hp hp' hnum' hn hn'
      obtain rfl := Except.ok.inj (Option.some.inj (hc'.symm.trans hc))
      exact hcport ▸ hnum
    · obtain ⟨e, _, he⟩ := create_bad_timeout hhost ⟨p, hnum, hp, hp'⟩ htimeout
      rw [he] at hc
      cases hc
  · obtain ⟨e, _, he⟩ := create_bad_port hhost hport
    rw [he] at hc
    cases hc

theorem port_rejected_iff (hhost : host ≠ []) :
    (∃ e, create host port timeoutMs = some (.error e) ∧ e.code.field = .port) ↔
      ¬ ∃ p, Parses .uint16 port p ∧ p ≠ 0 := by
  rw [← portOk_iff]
  constructor
  · rintro ⟨e, he, hfield⟩ hport
    rw [field_of_port_ok hhost hport he] at hfield
    cases hfield
  · intro hport
    obtain ⟨e, hfield, he⟩ := create_bad_port hhost hport
    exact ⟨e, he timeoutMs, hfield⟩

theorem parses_port (hhost : host ≠ []) {c : ServiceConfig}
    (hc : create host port timeoutMs = some (.ok c)) : Parses .uint16 port c.port.val := by
  have hport : PortOk port := by
    by_contra hport
    obtain ⟨e, _, he⟩ := create_bad_port hhost hport
    rw [he] at hc
    cases hc
  obtain ⟨p, hp, _⟩ := portOk_iff.mp hport
  obtain ⟨_, l, htext, _, hv⟩ := parses_iff.mp hp
  rwa [(isNumber_port hhost hc).unique ⟨l, htext, hv⟩]

end Uint16

/-- Parsing in a wide type and checking the range agrees with parsing in the narrow
type, but for a negative zero that only the wide type reads.  The port of a service,
which goes through `int64`, is rejected exactly if it is no `uint16` other than 0. -/
theorem narrow_agrees :
    (∀ T U : IntType, (∀ v, T.Fits v → U.Fits v) → ∀ s,
      (¬ NegativeZero T U s → ∀ v, Parses T s v ↔ Parses U s v ∧ T.Fits v) ∧
      (NegativeZero T U s →
        Parses U s 0 ∧ parse (.integral T) s = .error ⟨.invalidValue, 0⟩)) ∧
    ∀ host port timeoutMs, host ≠ [] →
      ((∃ e, create host port timeoutMs = some (.error e) ∧ e.code.field = .port) ↔
        ¬ ∃ p, Parses .uint16 port p ∧ p ≠ 0) ∧
      ∀ c, create host port timeoutMs = some (.ok c) → Parses .uint16 port c.port.val := by
  refine ⟨fun T U hTU s => ⟨fun hs v => parses_narrow_iff hTU hs, parse_negative_zero⟩, ?_⟩
  intro host port timeoutMs hhost
  exact ⟨port_rejected_iff hhost, fun c => parses_port hhost⟩

end VixStandard.Service
