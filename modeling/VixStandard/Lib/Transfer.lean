import Mathlib.Logic.Function.Basic
import VixStandard.Lib.Transition

/-!
# Transfers a part at a time

A sink takes some of the items that it is given and says how many.  A source
hands out some of the items that it has left.  A call of either may fail, and
nothing is moved then.

What is behind a sink or a source is a list of items: `Sink.Lawful` says that a
sink contains what it took, in order, and `Source.Lawful` that a source hands
out what it has left, in order, and nothing only at its end.

* Any number of writers share a sink, and each pushes what it has left as often
  as it likes.  `Sink.Lawful.run` is about every order of their calls: the sink
  contains the pieces that it took, one after the other, and the pieces of a
  writer with what it has left are the data of that writer.
* `Source.Lawful.run` is the same for readers that share a source.
* `Sink.deliver` is the loop of one writer.  It ends if the sink always takes
  something (`Sink.deliver_spec`).
* `Sink.record` pairs a sink with the items that it said it took.  It makes any
  sink lawful that takes no more than it is given.
-/

namespace VixStandard.Lib.Transfer

variable {σ α β ε ι : Type*}

/-- How many items a call moved, by its answer. -/
def moved : Except ε Nat → Nat
  | .ok n => n
  | .error _ => 0

/-- The items that a call handed out. -/
def handed : Except ε (List α) → List α
  | .ok xs => xs
  | .error _ => []

/-- The items of one participant, from the pieces of all of them. -/
def piecesOf [DecidableEq ι] (i : ι) (ps : List (ι × List α)) : List α :=
  (ps.filter fun p => p.1 = i).flatMap Prod.snd

section piecesOf

variable [DecidableEq ι] (i : ι) (xs : List α) (ps : List (ι × List α))

@[simp] theorem piecesOf_nil : piecesOf i ([] : List (ι × List α)) = [] := rfl

@[simp] theorem piecesOf_cons_self : piecesOf i ((i, xs) :: ps) = xs ++ piecesOf i ps := by
  simp [piecesOf]

theorem piecesOf_cons_of_ne {i j : ι} (h : j ≠ i) :
    piecesOf i ((j, xs) :: ps) = piecesOf i ps := by
  simp [piecesOf, h]

end piecesOf

/-! ## Sinks -/

/-- A destination of items.  A call answers with the number of items taken. -/
structure Sink (σ α ε : Type*) where
  push : σ → List α → Except ε Nat × σ

/-- What a sink takes are the first items it is given, and it contains them
after what it contained before. -/
structure Sink.Lawful (K : Sink σ α ε) (contents : σ → List α) : Prop where
  moved_le : ∀ s xs, moved (K.push s xs).1 ≤ xs.length
  contents_push : ∀ s xs,
    contents (K.push s xs).2 = contents s ++ xs.take (moved (K.push s xs).1)

/-- A call that succeeds with something to take takes something. -/
def Sink.Progress (K : Sink σ α ε) : Prop :=
  ∀ s xs, xs ≠ [] → ∀ n, (K.push s xs).1 = .ok n → n ≠ 0

/-- The same sink with the items that it said it took. -/
def Sink.record (K : Sink σ α ε) : Sink (σ × List α) α ε where
  push s xs :=
    let r := K.push s.1 xs
    (r.1, r.2, s.2 ++ xs.take (moved r.1))

theorem Sink.record_lawful {K : Sink σ α ε} (h : ∀ s xs, moved (K.push s xs).1 ≤ xs.length) :
    K.record.Lawful Prod.snd := by
  constructor
  · intro s xs
    exact h s.1 xs
  · intro s xs
    rfl

theorem Sink.Progress.record {K : Sink σ α ε} (h : K.Progress) : K.record.Progress :=
  fun s => h s.1

/-- A sink, and what each of its writers has left to deliver. -/
structure Writers (ι σ α : Type*) where
  sink : σ
  pending : ι → List α

/-- What happens next to a shared sink. -/
inductive Writers.Op (ι σ : Type*) where
  /-- A writer pushes the first `n` items that it has left. -/
  | push (i : ι) (n : Nat)
  /-- The sink changes in another way. -/
  | change (s : σ)

section Writers

variable [DecidableEq ι]

/-- A writer drops what the sink took. -/
def Sink.step (K : Sink σ α ε) (m : Writers ι σ α) : Writers.Op ι σ → Except Empty (Writers ι σ α)
  | .push i n =>
    let r := K.push m.sink ((m.pending i).take n)
    .ok ⟨r.2, Function.update m.pending i ((m.pending i).drop (moved r.1))⟩
  | .change s => .ok { m with sink := s }

/-- Writers that share a sink, which otherwise keeps its contents. -/
def Sink.system (K : Sink σ α ε) (contents : σ → List α) :
    Transition (Writers ι σ α) (Writers.Op ι σ) Empty where
  init _ := True
  enabled m
    | .push _ _ => True
    | .change s => contents s = contents m.sink
  step := K.step

/-- The piece that a step delivers, and whose it is. -/
def Sink.piece (K : Sink σ α ε) : Writers ι σ α × Writers.Op ι σ → Option (ι × List α)
  | (m, .push i n) =>
    let xs := (m.pending i).take n
    some (i, xs.take (moved (K.push m.sink xs).1))
  | (_, .change _) => none

/-- The pieces of a run, in the order of the calls. -/
def Sink.pieces (K : Sink σ α ε) (steps : List (Writers ι σ α × Writers.Op ι σ)) :
    List (ι × List α) := steps.filterMap K.piece

variable {K : Sink σ α ε} {contents : σ → List α} {m m' : Writers ι σ α}

/-- One call moves one piece from its writer to the end of the sink. -/
theorem Sink.Lawful.push (h : K.Lawful contents) {i : ι} {n : Nat}
    (hok : K.step m (.push i n) = .ok m') :
    ∃ xs, K.piece (m, .push i n) = some (i, xs) ∧ contents m'.sink = contents m.sink ++ xs ∧
      m.pending i = xs ++ m'.pending i ∧ ∀ j, j ≠ i → m'.pending j = m.pending j := by
  obtain rfl := Except.ok.inj hok
  refine ⟨_, rfl, h.contents_push _ _, ?_, fun j hj => Function.update_of_ne hj _ _⟩
  have hle := h.moved_le m.sink ((m.pending i).take n)
  rw [List.length_take] at hle
  show _ = _ ++ Function.update m.pending i _ i
  rw [List.take_take, Nat.min_eq_left (by omega), Function.update_self, List.take_append_drop]

/-- In every order of the calls, the sink gets the pieces one after the other, and
no item of a writer is lost, doubled or out of its order. -/
theorem Sink.Lawful.run (h : K.Lawful contents) {steps : List (Writers ι σ α × Writers.Op ι σ)}
    (hrun : (K.system contents).Run m steps m') :
    contents m'.sink = contents m.sink ++ (K.pieces steps).flatMap Prod.snd ∧
      ∀ i, m.pending i = piecesOf i (K.pieces steps) ++ m'.pending i := by
  induction hrun with
  | nil m => simp [Sink.pieces]
  | @cons m m₁ m' op steps hen hok _ ih =>
    obtain ⟨hcontents, hpending⟩ := ih
    cases op with
    | push i n =>
      obtain ⟨xs, hpiece, hpush, hself, hother⟩ := h.push hok
      have hpieces : K.pieces ((m, .push i n) :: steps) = (i, xs) :: K.pieces steps :=
        List.filterMap_cons_some hpiece
      rw [hpieces]
      refine ⟨by rw [hcontents, hpush, List.flatMap_cons, List.append_assoc], fun j => ?_⟩
      by_cases hj : j = i
      · subst hj
        rw [piecesOf_cons_self, hself, hpending j, List.append_assoc]
      · rw [piecesOf_cons_of_ne _ _ (Ne.symm hj), ← hother j hj, hpending j]
    | change s =>
      obtain rfl := Except.ok.inj hok
      have hpieces : K.pieces ((m, .change s) :: steps) = K.pieces steps :=
        List.filterMap_cons_none rfl
      rw [hpieces]
      exact ⟨hcontents.trans (by rw [show contents s = contents m.sink from hen]), hpending⟩

/-- Whether a step is a call of the writer `i` with something to take that succeeds. -/
def Sink.succeeds (K : Sink σ α ε) (i : ι) : Writers ι σ α × Writers.Op ι σ → Bool
  | (m, .push j n) =>
    let xs := (m.pending j).take n
    decide (j = i) && !xs.isEmpty && (K.push m.sink xs).1.isOk
  | (_, .change _) => false

/-- A call that succeeds with something to take delivers a piece. -/
theorem Sink.Lawful.piece_ne_nil (h : K.Lawful contents) (hp : K.Progress) {i : ι} {n : Nat}
    {xs : List α} (hpiece : K.piece (m, .push i n) = some (i, xs))
    (hsucceeds : K.succeeds i (m, .push i n) = true) : xs ≠ [] := by
  simp only [Sink.succeeds, decide_true, Bool.true_and, Bool.and_eq_true, Bool.not_eq_true',
    List.isEmpty_eq_false_iff] at hsucceeds
  obtain ⟨hne, hisOk⟩ := hsucceeds
  obtain rfl := (Prod.mk.inj (Option.some.inj hpiece)).2
  have hle := h.moved_le m.sink ((m.pending i).take n)
  cases hr : (K.push m.sink ((m.pending i).take n)).1 with
  | error e =>
    rw [hr] at hisOk
    cases hisOk
  | ok k =>
    have hk := hp _ _ hne k hr
    rw [hr] at hle
    intro hnil
    have hlen := congrArg List.length hnil
    simp only [moved, List.length_take, List.length_nil] at hlen hle
    omega

/-- A writer does not call successfully more often than it has items. -/
theorem Sink.Lawful.run_succeeds (h : K.Lawful contents) (hp : K.Progress)
    {steps : List (Writers ι σ α × Writers.Op ι σ)} (hrun : (K.system contents).Run m steps m')
    (i : ι) : steps.countP (K.succeeds i) + (m'.pending i).length ≤ (m.pending i).length := by
  induction hrun with
  | nil m => simp
  | @cons m m₁ m' op steps hen hok _ ih =>
    rw [List.countP_cons]
    cases op with
    | push j n =>
      obtain ⟨xs, hpiece, _, hself, hother⟩ := h.push hok
      by_cases hj : j = i
      · subst hj
        have hlen := congrArg List.length hself
        rw [List.length_append] at hlen
        split
        · rename_i hsucceeds
          have hxs := List.length_pos_of_ne_nil (h.piece_ne_nil hp hpiece hsucceeds)
          omega
        · omega
      · rw [← hother i (Ne.symm hj)]
        simpa [Sink.succeeds, hj] using ih
    | change s =>
      obtain rfl := Except.ok.inj hok
      simpa [Sink.succeeds] using ih

end Writers

/-- The loop of a writer that wants all of its items taken: it pushes what is left
until nothing is left or a call fails.  It answers with `none` if the fuel is
used up, and with what is left. -/
def Sink.deliver (K : Sink σ α ε) : Nat → σ → List α → Option (Except ε Unit) × σ × List α
  | _, s, [] => (some (.ok ()), s, [])
  | 0, s, xs => (none, s, xs)
  | fuel + 1, s, xs =>
    match K.push s xs with
    | (.ok n, s) => K.deliver fuel s (xs.drop n)
    | (.error e, s) => (some (.error e), s, xs)

/-- With fuel for one call an item the loop ends.  The sink has then got the items
that are not left, and unless a call failed, none is left. -/
theorem Sink.deliver_spec {K : Sink σ α ε} {contents : σ → List α} (h : K.Lawful contents)
    (hp : K.Progress) {fuel : Nat} : ∀ {s : σ} {xs : List α}, xs.length ≤ fuel →
      ∃ r s' ys taken, K.deliver fuel s xs = (some r, s', ys) ∧ xs = taken ++ ys ∧
        contents s' = contents s ++ taken ∧ (r = .ok () → ys = []) := by
  induction fuel with
  | zero =>
    intro s xs hlen
    obtain rfl := List.length_eq_zero_iff.mp (Nat.le_zero.mp hlen)
    exact ⟨.ok (), s, [], [], by simp [deliver], rfl, by simp, fun _ => rfl⟩
  | succ fuel ih =>
    intro s xs hlen
    cases xs with
    | nil => exact ⟨.ok (), s, [], [], by simp [deliver], rfl, by simp, fun _ => rfl⟩
    | cons x xs =>
      have hcontents := h.contents_push s (x :: xs)
      cases hpush : K.push s (x :: xs) with
      | mk r s₁ =>
        rw [hpush] at hcontents
        cases r with
        | error e =>
          refine ⟨.error e, s₁, x :: xs, [], by simp [deliver, hpush], rfl, ?_, fun hr => by cases hr⟩
          simpa [moved] using hcontents
        | ok n =>
          have hn := hp s (x :: xs) (List.cons_ne_nil _ _) n (by rw [hpush])
          have hdrop : ((x :: xs).drop n).length ≤ fuel := by
            rw [List.length_drop]
            omega
          obtain ⟨r, s', ys, taken, hdeliver, hxs, hs', hr⟩ := ih (s := s₁) hdrop
          refine ⟨r, s', ys, (x :: xs).take n ++ taken, by simp [deliver, hpush, hdeliver], ?_, ?_, hr⟩
          · rw [List.append_assoc, ← hxs, List.take_append_drop]
          · rw [hs', hcontents, List.append_assoc]
            rfl

/-! ## Sources -/

/-- A source of items, for requests `β`.  A call answers with the items it hands
out. -/
structure Source (σ β α ε : Type*) where
  pull : σ → β → Except ε (List α) × σ

/-- A source hands out what it has left, in order and not more than requested, and
nothing only if nothing is requested or left. -/
structure Source.Lawful (K : Source σ β α ε) (size : β → Nat) (rest : σ → List α) : Prop where
  handed_le : ∀ s b, (handed (K.pull s b).1).length ≤ size b
  rest_pull : ∀ s b, rest s = handed (K.pull s b).1 ++ rest (K.pull s b).2
  rest_eq_nil : ∀ s b, (K.pull s b).1 = .ok [] → size b = 0 ∨ rest s = []

/-- A source, and what each of its readers has received. -/
structure Readers (ι σ α : Type*) where
  source : σ
  received : ι → List α

/-- What happens next to a shared source. -/
inductive Readers.Op (ι σ β : Type*) where
  /-- A reader makes a request. -/
  | pull (i : ι) (b : β)
  /-- The source changes in another way. -/
  | change (s : σ)

section Readers

variable [DecidableEq ι]

/-- A reader keeps what it is handed. -/
def Source.step (K : Source σ β α ε) (m : Readers ι σ α) :
    Readers.Op ι σ β → Except Empty (Readers ι σ α)
  | .pull i b =>
    let r := K.pull m.source b
    .ok ⟨r.2, Function.update m.received i (m.received i ++ handed r.1)⟩
  | .change s => .ok { m with source := s }

/-- Readers that share a source, which otherwise keeps what it has left. -/
def Source.system (K : Source σ β α ε) (rest : σ → List α) :
    Transition (Readers ι σ α) (Readers.Op ι σ β) Empty where
  init _ := True
  enabled m
    | .pull _ _ => True
    | .change s => rest s = rest m.source
  step := K.step

/-- The piece that a step hands out, and who gets it. -/
def Source.piece (K : Source σ β α ε) : Readers ι σ α × Readers.Op ι σ β → Option (ι × List α)
  | (m, .pull i b) => some (i, handed (K.pull m.source b).1)
  | (_, .change _) => none

/-- The pieces of a run, in the order of the calls. -/
def Source.pieces (K : Source σ β α ε) (steps : List (Readers ι σ α × Readers.Op ι σ β)) :
    List (ι × List α) := steps.filterMap K.piece

variable {K : Source σ β α ε} {size : β → Nat} {rest : σ → List α} {m m' : Readers ι σ α}

/-- In every order of the calls, the readers get the items one after the other, and
no item is lost or handed out twice. -/
theorem Source.Lawful.run (h : K.Lawful size rest)
    {steps : List (Readers ι σ α × Readers.Op ι σ β)} (hrun : (K.system rest).Run m steps m') :
    rest m.source = (K.pieces steps).flatMap Prod.snd ++ rest m'.source ∧
      ∀ i, m'.received i = m.received i ++ piecesOf i (K.pieces steps) := by
  induction hrun with
  | nil m => simp [Source.pieces]
  | @cons m m₁ m' op steps hen hok _ ih =>
    obtain ⟨hrest, hreceived⟩ := ih
    cases op with
    | pull i b =>
      obtain rfl := Except.ok.inj hok
      have hpieces : K.pieces ((m, .pull i b) :: steps) =
          (i, handed (K.pull m.source b).1) :: K.pieces steps := List.filterMap_cons_some rfl
      rw [hpieces]
      refine ⟨by rw [h.rest_pull m.source b, hrest, List.flatMap_cons, List.append_assoc],
        fun j => (hreceived j).trans ?_⟩
      by_cases hj : j = i
      · subst hj
        show Function.update m.received j _ j ++ _ = _
        rw [Function.update_self, piecesOf_cons_self, List.append_assoc]
      · show Function.update m.received i _ j ++ _ = _
        rw [Function.update_of_ne hj, piecesOf_cons_of_ne _ _ (Ne.symm hj)]
    | change s =>
      obtain rfl := Except.ok.inj hok
      have hpieces : K.pieces ((m, .change s) :: steps) = K.pieces steps :=
        List.filterMap_cons_none rfl
      rw [hpieces]
      exact ⟨Eq.trans (Eq.symm hen) hrest, hreceived⟩

end Readers

end VixStandard.Lib.Transfer
