import VixStandard.Io.Endpoint
import VixStandard.Text.RoundTrip

/-!
# Bytes from callers to callers

A call of `print` or `read` may move a part of the bytes only, and it is up to the
caller to go on.  Any number of callers may do so on one object, and calls may fail
in between.

* `pipe_exact`: what callers read from an input over the bytes of an output is what
  other callers printed to it, in the order of the calls.
* `delivered_parses`: a value that was serialized and delivered with the loop that
  the documentation asks for is what a reader parses, whatever its buffers are.
-/

namespace VixStandard.Io

open VixStandard.Lib VixStandard.Lib.Transfer VixStandard.Text

variable {S S' E E' ι κ : Type} [DecidableEq ι] [DecidableEq κ] {O : Output S E} {I : Input S' E'}
  {contents : S → List UInt8} {rest : S' → List UInt8}

/-- A count of zero for a non-empty buffer says that nothing is left. -/
theorem Input.Lawful.end_of_zero (h : I.Lawful rest) {input : S'} {buffer : List UInt8}
    (hbuffer : buffer ≠ []) (hzero : (read I input buffer).1 = .ok 0) : rest input = [] :=
  (h.rest_end input buffer hzero).resolve_left hbuffer

/-- The bytes that callers read are the bytes that callers printed, in the order of
the reads and of the prints.  Every caller that prints has delivered a prefix of its
data, with no more successful calls than bytes if each consumes something.  Every
reader has what its calls counted, and a count of zero for a non-empty buffer says that
all bytes were read. -/
theorem pipe_exact (hO : O.sink.Lawful contents) (hI : I.Lawful rest)
    {m m' : Writers ι S UInt8} {prints : List (Writers ι S UInt8 × Writers.Op ι S)}
    (hprints : (O.sink.system contents).Run m prints m') (hempty : contents m.sink = [])
    {r r' : Readers κ S' UInt8} {reads : List (Readers κ S' UInt8 × Readers.Op κ S' (List UInt8))}
    (hreads : (I.source.system rest).Run r reads r') (hpipe : rest r.source = contents m'.sink) :
    ((O.sink.pieces prints).flatMap Prod.snd =
      (I.source.pieces reads).flatMap Prod.snd ++ rest r'.source) ∧
    (∀ i, m.pending i = piecesOf i (O.sink.pieces prints) ++ m'.pending i) ∧
    (O.sink.Progress → ∀ i,
      prints.countP (O.sink.succeeds i) + (m'.pending i).length ≤ (m.pending i).length) ∧
    (∀ j, r'.received j = r.received j ++ piecesOf j (I.source.pieces reads)) ∧
    ∀ buffer, buffer ≠ [] → (read I r'.source buffer).1 = .ok 0 →
      (I.source.pieces reads).flatMap Prod.snd = (O.sink.pieces prints).flatMap Prod.snd := by
  obtain ⟨hcontents, hpending⟩ := hO.run hprints
  obtain ⟨hrest, hreceived⟩ := hI.source.run hreads
  rw [hempty, List.nil_append] at hcontents
  have hbytes : (O.sink.pieces prints).flatMap Prod.snd =
      (I.source.pieces reads).flatMap Prod.snd ++ rest r'.source := by
    rw [← hrest, hpipe, hcontents]
  refine ⟨hbytes, hpending, fun hp => hO.run_succeeds hp hprints, hreceived,
    fun buffer hbuffer hzero => ?_⟩
  rw [hbytes, hI.end_of_zero hbuffer hzero, List.append_nil]

/-- Printing `text` until all of it was consumed, as `print` asks of its callers. -/
def printAll (O : Output S E) (output : S) (text : Lib.Decimal.Text) :
    Option (Except E Unit) × S × List UInt8 := O.sink.deliver text.length output text

/-- The loop ends, and if no call failed the text was delivered. -/
theorem printAll_spec (hO : O.sink.Lawful contents) (hp : O.sink.Progress) (output : S)
    (text : Lib.Decimal.Text) : ∃ answer output' left,
      printAll O output text = (some answer, output', left) ∧
        (answer = .ok () → contents output' = contents output ++ text) := by
  obtain ⟨answer, output', left, taken, hdeliver, htext, hcontents, hok⟩ :=
    Sink.deliver_spec hO hp (s := output) (Nat.le_refl text.length)
  refine ⟨answer, output', left, hdeliver, fun hanswer => ?_⟩
  rw [hok hanswer, List.append_nil] at htext
  rw [hcontents, htext]

/-- A single reader gets all pieces. -/
theorem piecesOf_unit (ps : List (Unit × List UInt8)) : piecesOf () ps = ps.flatMap Prod.snd := by
  simp [piecesOf]

/-- A value is serialized and delivered to an output that always makes progress.  Then
whoever reads the delivered bytes, in buffers of any sizes and whatever calls fail in
between, parses the same value once the input says that it is at its end. -/
theorem delivered_parses (hO : O.sink.Lawful contents) (hp : O.sink.Progress) (hI : I.Lawful rest)
    (T : Parsable) (v : T.Value) (output : S) :
    ∃ text answer output' left,
      serialize T.serializable (Parsable.toSerializable v) = .ok text ∧
      printAll O output text = (some answer, output', left) ∧
      (answer = .ok () → ∀ {r r' : Readers Unit S' UInt8}
        {reads : List (Readers Unit S' UInt8 × Readers.Op Unit S' (List UInt8))},
        contents output ++ rest r.source = contents output' → r.received () = [] →
        (I.source.system rest).Run r reads r' →
        ∀ buffer, buffer ≠ [] → (read I r'.source buffer).1 = .ok 0 →
          parse T (r'.received ()) = .ok v) := by
  obtain ⟨text, hserialize, _, _, hparse⟩ := serialize_spec T v
  obtain ⟨answer, output', left, hprint, hdelivered⟩ := printAll_spec hO hp output text
  refine ⟨text, answer, output', left, hserialize, hprint, ?_⟩
  intro hanswer r r' reads hpipe hstart hreads buffer hbuffer hzero
  obtain ⟨hrest, hreceived⟩ := hI.source.run hreads
  have htext : rest r.source = text := by
    rw [hdelivered hanswer] at hpipe
    exact List.append_cancel_left hpipe
  rw [hI.end_of_zero hbuffer hzero, List.append_nil, htext] at hrest
  rw [hreceived (), hstart, List.nil_append, piecesOf_unit, ← hrest]
  exact hparse

/-- Two callers print a byte at a time, and what they printed is read in two parts. -/
theorem pipe_exact_partial : ∃ (m' : Writers Bool (Unit × List UInt8) UInt8) (prints : List _)
    (r' : Readers Unit SpanInput UInt8) (reads : List _),
    ((partialOutput IoError).record.sink.system Prod.snd).Run
      ⟨((), []), fun i => if i then ascii "ab" else ascii "c"⟩ prints m' ∧
    (memoryInput.source.system SpanInput.rest).Run ⟨{ data := m'.sink.2 }, fun _ => []⟩ reads r' ∧
      m'.sink.2 = ascii "acb" ∧
      (memoryInput.source.pieces reads).flatMap Prod.snd =
        ((partialOutput IoError).record.sink.pieces prints).flatMap Prod.snd := by
  have hprints : ((partialOutput IoError).record.sink.system Prod.snd).Run
      (⟨((), []), fun i => if i then ascii "ab" else ascii "c"⟩ : Writers Bool _ _) _ _ :=
    .cons (l := Writers.Op.push true 2) trivial rfl (.cons (l := Writers.Op.push false 1) trivial rfl
      (.cons (l := Writers.Op.push true 1) trivial rfl (.nil _)))
  have hreads : (memoryInput.source.system SpanInput.rest).Run
      (⟨{ data := ascii "acb" }, fun _ => []⟩ : Readers Unit _ _) _ _ :=
    .cons (l := Readers.Op.pull () [0, 0]) trivial rfl (.cons (l := Readers.Op.pull () [0, 0]) trivial rfl (.nil _))
  have hexact := pipe_exact (partialOutput_lawful IoError) (spanInput_lawful IoError.failed) hprints
    rfl hreads rfl
  exact ⟨_, _, _, _, hprints, hreads, rfl, hexact.2.2.2.2 [0] (List.cons_ne_nil _ _) rfl⟩

/-- `true`, delivered a byte at a time and read in two parts. -/
theorem delivered_parses_partial : ∃ output' left, ∃ (r' : Readers Unit SpanInput UInt8)
    (reads : List _), printAll (partialOutput IoError).record ((), []) (ascii "true") =
      (some (.ok ()), output', left) ∧
    (memoryInput.source.system SpanInput.rest).Run ⟨{ data := output'.2 }, fun _ => []⟩ reads r' ∧
    parse .bool (r'.received ()) = .ok true := by
  obtain ⟨text, answer, output', left, hserialize, hprint, hparses⟩ :=
    delivered_parses (partialOutput_lawful IoError) (partialOutput_progress IoError)
      (spanInput_lawful IoError.failed) .bool true ((), [])
  obtain rfl : ascii "true" = text := Except.ok.inj hserialize
  have hdone : printAll (partialOutput IoError).record ((), []) (ascii "true") =
      (some (.ok ()), ((), ascii "true"), []) := rfl
  obtain ⟨hanswer, hleft⟩ := Prod.mk.inj (hdone.symm.trans hprint)
  obtain rfl := Option.some.inj hanswer
  obtain ⟨rfl, rfl⟩ := Prod.mk.inj hleft
  have hreads : (memoryInput.source.system SpanInput.rest).Run
      (⟨{ data := ascii "true" }, fun _ => []⟩ : Readers Unit _ _) _ _ :=
    .cons (l := Readers.Op.pull () [0]) trivial rfl
      (.cons (l := Readers.Op.pull () [0, 0, 0, 0]) trivial rfl (.nil _))
  exact ⟨_, _, _, _, hprint, hreads,
    hparses rfl rfl rfl hreads [0] (List.cons_ne_nil _ _) rfl⟩

end VixStandard.Io
