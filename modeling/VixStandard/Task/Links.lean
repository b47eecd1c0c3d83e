import Mathlib.Data.List.Chain
import Mathlib.Logic.Relation
import VixStandard.Task.Forest

/-!
# Continuations and running coroutines

Ownership goes down from a frame to the sub-tasks in its Awaiters.
`continuation_` goes up from a sub-task to the frame that awaits it, and the
stack of running coroutines goes across.  `Linked` ties the three together.

* A coroutine waits at `co_await` for an unfinished child, whose continuation
  it is, and an unfinished coroutine has no other continuation.
* A running coroutine that is not the innermost one owns, through a chain of
  awaited children, the coroutine that runs above it (`Under`).

The lemmas of this file follow the ways in which control moves:
`LinkedBut.pop`, `LinkedBut.link`, `LinkedBut.back` and `LinkedBut.enter` for the
symmetric transfers, `LinkedBut.store` for a frame that keeps its place in the
chain, `LinkedBut.quiet` for the handle operations and `LinkedBut.create` for a
coroutine call.
-/

namespace VixStandard.Task

open VixStandard.Lib.Ownership Machine

variable {L : Lang}

/-- `y` is suspended at a `co_await` for `c`, which its Awaiter owns. -/
def Awaits (m : Machine L) (y c : Addr) : Prop :=
  ∃ f w k, m.heap y = some f ∧ f.point = .awaiting w k ∧ f.slots (.inr w) = some c

/-- `b` owns a coroutine that is `a` or awaits it, directly or through others. -/
def Under (m : Machine L) (b a : Addr) : Prop :=
  ∃ s d, m.graph.holds (.slot b s) d ∧ Relation.ReflTransGen (Awaits m) d a

/-- `a` is the innermost suspended coroutine of the chain from `r`. -/
def Innermost (m : Machine L) (r a : Addr) : Prop :=
  Relation.ReflTransGen (Awaits m) r a ∧ ∃ f, m.heap a = some f ∧ f.point.isAwaiting = false

/-- The links of a machine, with the coroutines in `E` excepted that are about
to be linked to their child or to be resumed. -/
structure LinkedBut (E : Addr → Prop) (m : Machine L) : Prop where
  running_iff : ∀ {a f}, m.heap a = some f → (f.point.isRunning = true ↔ a ∈ m.stack)
  stack_live : ∀ {a}, a ∈ m.stack → m.graph.live a
  nested : m.stack.IsChain fun a b => Under m b a
  awaiting : ∀ {a f w k}, m.heap a = some f → f.point = .awaiting w k → ¬ E a →
    ∃ c g, f.slots (.inr w) = some c ∧ m.heap c = some g ∧ g.point.isFinal = false ∧
      g.promise.continuation = some a
  continued : ∀ {c g p}, m.heap c = some g → g.point.isFinal = false →
    g.promise.continuation = some p → Awaits m p c
  outcome : ∀ {c g}, m.heap c = some g → g.point.isFinal = true → ∃ r, g.outcome = .ok r
  resumed : ∀ {a f w k c}, m.heap a = some f → f.point = .resumed w k →
    f.slots (.inr w) = some c → ∃ g, m.heap c = some g ∧ g.point.isFinal = true

/-- The links of a machine between two steps. -/
abbrev Linked (m : Machine L) : Prop := LinkedBut (fun _ => False) m

theorem LinkedBut.mono {E E' : Addr → Prop} {m : Machine L} (h : LinkedBut E m)
    (hE : ∀ a, E a → E' a) : LinkedBut E' m :=
  ⟨h.running_iff, h.stack_live, h.nested, fun hf hpt ha => h.awaiting hf hpt fun hE' => ha (hE _ hE'),
    h.continued, h.outcome, h.resumed⟩

/-! ## Awaiting -/

theorem Awaits.holds {m : Machine L} {y c : Addr} (h : Awaits m y c) :
    ∃ w, m.graph.holds (.slot y (.inr w)) c := by
  obtain ⟨f, w, _, hf, _, hc⟩ := h
  exact ⟨w, holds_slot hf hc⟩

/-- A frame is awaited by its owner only. -/
theorem Awaits.unique {rank : Addr → Nat} {m : Machine L} {temps : List Addr}
    (ho : Owned rank m temps) {y z c : Addr} (hy : Awaits m y c) (hz : Awaits m z c) : y = z := by
  obtain ⟨w, hw⟩ := hy.holds
  obtain ⟨v, hv⟩ := hz.holds
  exact (Place.slot.inj (ho.forest.unique hw hv)).1

/-- A coroutine awaits one child at most. -/
theorem Awaits.single {m : Machine L} {y c d : Addr} (hc : Awaits m y c) (hd : Awaits m y d) :
    c = d := by
  obtain ⟨f, w, k, hf, hpt, hs⟩ := hc
  obtain ⟨g, v, k', hg, hpt', hs'⟩ := hd
  obtain rfl : f = g := Option.some.inj (hf.symm.trans hg)
  obtain ⟨rfl, _⟩ := Point.awaiting.inj (hpt.symm.trans hpt')
  exact Option.some.inj (hs.symm.trans hs')

theorem Awaits.isAwaiting {m : Machine L} {y c : Addr} {f : Frame L} (h : Awaits m y c)
    (hf : m.heap y = some f) : f.point.isAwaiting = true := by
  obtain ⟨g, w, k, hg, hpt, _⟩ := h
  obtain rfl : f = g := Option.some.inj (hf.symm.trans hg)
  rw [hpt]
  rfl

/-- A coroutine that waits for nothing ends its chain. -/
theorem Innermost.eq_of_chain {m : Machine L} {r a b : Addr} (h : Innermost m r a)
    (hab : Relation.ReflTransGen (Awaits m) a b) : a = b := by
  obtain ⟨_, f, hf, hno⟩ := h
  rcases hab.cases_head with hab | ⟨c, hac, _⟩
  · exact hab
  · have haw := hac.isAwaiting hf
    rw [hno] at haw
    cases haw

theorem Innermost.unique {m : Machine L} {r a b : Addr} (ha : Innermost m r a)
    (hb : Innermost m r b) : a = b := by
  have hsingle : Relator.RightUnique (Awaits m) := fun _ _ _ hc hd => hc.single hd
  rcases Relation.ReflTransGen.total_of_right_unique hsingle ha.1 hb.1 with hab | hba
  · exact ha.eq_of_chain hab
  · exact (hb.eq_of_chain hba).symm

theorem Point.not_awaiting_of_running {pt : Point L} (h : pt.isRunning = true) :
    pt.isAwaiting = false := by
  cases pt <;> simp_all [Point.isRunning, Point.isAwaiting]

theorem Point.not_final_of_running {pt : Point L} (h : pt.isRunning = true) :
    pt.isFinal = false := by
  cases pt <;> simp_all [Point.isRunning, Point.isFinal]

/-! ## Ranks along the links -/

theorem rank_le_of_chain {rank : Addr → Nat} {m : Machine L} {temps : List Addr}
    (ho : Owned rank m temps) {d a : Addr} (h : Relation.ReflTransGen (Awaits m) d a) :
    rank d ≤ rank a := by
  induction h with
  | refl => exact Nat.le_refl _
  | tail _ hyc ih =>
    obtain ⟨w, hw⟩ := hyc.holds
    exact Nat.le_trans ih (Nat.le_of_lt (ho.forest.ranked hw rfl))

theorem Under.rank_lt {rank : Addr → Nat} {m : Machine L} {temps : List Addr}
    (ho : Owned rank m temps) {b a : Addr} (h : Under m b a) : rank b < rank a := by
  obtain ⟨s, d, hd, hchain⟩ := h
  exact Nat.lt_of_lt_of_le (ho.forest.ranked hd rfl) (rank_le_of_chain ho hchain)

/-- The running coroutines below the innermost one rank below it. -/
theorem LinkedBut.rank_lt {rank : Addr → Nat} {E : Addr → Prop} {m : Machine L}
    {temps : List Addr} {a : Addr} {rest : List Addr} (h : LinkedBut E m)
    (ho : Owned rank m temps) (hst : m.stack = a :: rest) : ∀ b ∈ rest, rank b < rank a := by
  have hchain := h.nested
  rw [hst] at hchain
  have hrank : (a :: rest).IsChain fun x y => rank y < rank x :=
    hchain.imp fun x y hxy => hxy.rank_lt ho
  have : Trans (fun x y : Addr => rank y < rank x) (fun x y : Addr => rank y < rank x)
      (fun x y : Addr => rank y < rank x) := ⟨fun hxy hyz => Nat.lt_trans hyz hxy⟩
  exact fun b hb => List.rel_of_pairwise_cons hrank.pairwise hb

/-- No running coroutine ranks above the innermost one. -/
theorem LinkedBut.rank_le {rank : Addr → Nat} {E : Addr → Prop} {m : Machine L}
    {temps : List Addr} {a : Addr} {rest : List Addr} (h : LinkedBut E m)
    (ho : Owned rank m temps) (hst : m.stack = a :: rest) {r : Addr} {f : Frame L}
    (hf : m.heap r = some f) (hr : f.point.isRunning = true) : rank r ≤ rank a := by
  have hmem := (h.running_iff hf).mp hr
  rw [hst] at hmem
  rcases List.mem_cons.mp hmem with rfl | hmem
  · exact Nat.le_refl _
  · exact Nat.le_of_lt (h.rank_lt ho hst r hmem)

/-- The innermost running coroutine occurs once on the stack. -/
theorem LinkedBut.head_not_mem {rank : Addr → Nat} {E : Addr → Prop} {m : Machine L}
    {temps : List Addr} {a : Addr} {rest : List Addr} (h : LinkedBut E m)
    (ho : Owned rank m temps) (hst : m.stack = a :: rest) : a ∉ rest :=
  fun ha => Nat.lt_irrefl _ (h.rank_lt ho hst a ha)

/-! ## Handle operations -/

/-- A chain of awaited children survives as long as its end does. -/
theorem Quiet.chain {T : Addr → Prop} {m m' : Machine L} (hq : Quiet T m m')
    (hT : ∀ a f, T a → m.heap a = some f → f.point.isAwaiting = false) {d x : Addr}
    (h : Relation.ReflTransGen (Awaits m) d x) (hx : m'.graph.live x) :
    Relation.ReflTransGen (Awaits m') d x ∧ m'.graph.live d := by
  induction h with
  | refl => exact ⟨.refl, hx⟩
  | @tail y x _ hyx ih =>
    obtain ⟨f, w, k, hf, hpt, hs⟩ := hyx
    have hTy : ¬ T y := by
      intro hy
      have hno := hT y f hy hf
      rw [hpt] at hno
      cases hno
    have hy : m'.graph.live y := hq.above hTy (holds_slot hf hs) hx
    obtain ⟨hchain, hd⟩ := ih hy
    obtain ⟨f', hf'⟩ := hy
    obtain ⟨g, hg, _, _, hpt', hslots⟩ := hq.frame hf'
    obtain rfl : f = g := Option.some.inj (hf.symm.trans hg)
    exact ⟨hchain.tail ⟨f', w, k, hf', hpt'.trans hpt, (hslots hTy) ▸ hs⟩, hd⟩

/-- Operations on handles keep the links, provided that they touch the variables
of coroutines only that are running or have not started, and of no running
coroutine but the innermost, and that the running coroutines survive. -/
theorem LinkedBut.quiet {T E : Addr → Prop} {rank : Addr → Nat} {m m' : Machine L}
    {temps : List Addr} (h : LinkedBut E m) (ho : Owned rank m' temps) (hq : Quiet T m m')
    (hT : ∀ a f, T a → m.heap a = some f → ∃ c, f.point = .running c ∨ f.point = .initial c)
    (hrest : ∀ a ∈ m.stack.tail, ¬ T a) (hlive : ∀ a ∈ m.stack, m'.graph.live a) :
    LinkedBut E m' := by
  have haw : ∀ a f, T a → m.heap a = some f → f.point.isAwaiting = false := by
    intro a f ha hf
    obtain ⟨c, hc | hc⟩ := hT a f ha hf <;> rw [hc] <;> rfl
  have hres : ∀ a f w k, m.heap a = some f → f.point = .resumed w k → ¬ T a := by
    intro a f w k hf hpt ha
    obtain ⟨c, hc | hc⟩ := hT a f ha hf <;> rw [hc] at hpt <;> cases hpt
  refine ⟨?_, ?_, ?_, ?_, ?_, ?_, ?_⟩
  · intro a f' hf'
    obtain ⟨f, hf, _, _, hpt, _⟩ := hq.frame hf'
    rw [hpt, hq.stack]
    exact h.running_iff hf
  · intro a ha
    rw [hq.stack] at ha
    exact hlive a ha
  · rw [hq.stack]
    refine h.nested.imp_of_mem_tail_imp fun x y hx hy hyx => ?_
    obtain ⟨s, d, hd, hchain⟩ := hyx
    obtain ⟨hchain', hd'⟩ := hq.chain haw hchain (hlive x hx)
    have hy' : m'.graph.live y := hq.above (hrest y hy) hd hd'
    exact ⟨s, d, (hq.holds_iff (hrest y hy) hy' s d).mpr hd, hchain'⟩
  · intro a f' w k hf' hpt' hE
    obtain ⟨f, hf, _, _, hpt, hslots⟩ := hq.frame hf'
    obtain ⟨c, g, hs, hg, hfin, hcont⟩ := h.awaiting hf (hpt ▸ hpt') hE
    have hTa : ¬ T a := by
      intro ha
      have hno := haw a f ha hf
      rw [← hpt, hpt'] at hno
      cases hno
    have hs' : f'.slots (.inr w) = some c := hslots hTa ▸ hs
    obtain ⟨g', hg'⟩ := ho.forest.held_live (holds_slot hf' hs')
    obtain ⟨g₀, hg₀, _, hprom, hgpt, _⟩ := hq.frame hg'
    obtain rfl : g = g₀ := Option.some.inj (hg.symm.trans hg₀)
    exact ⟨c, g', hs', hg', by rw [hgpt]; exact hfin, by rw [hprom]; exact hcont⟩
  · intro c g' p hg' hfin hcont
    obtain ⟨g, hg, _, hprom, hgpt, _⟩ := hq.frame hg'
    have hpc := h.continued hg (hgpt ▸ hfin) (hprom ▸ hcont)
    have hchain := (hq.chain haw (.single hpc) ⟨g', hg'⟩).1
    obtain ⟨f, w, k, hf, hpt, hs⟩ := hpc
    have hTp : ¬ T p := by
      intro hp
      have hno := haw p f hp hf
      rw [hpt] at hno
      cases hno
    obtain ⟨f', hf'⟩ := hq.above hTp (holds_slot hf hs) ⟨g', hg'⟩
    obtain ⟨f₀, hf₀, _, _, hfpt, hslots⟩ := hq.frame hf'
    obtain rfl : f = f₀ := Option.some.inj (hf.symm.trans hf₀)
    exact ⟨f', w, k, hf', hfpt.trans hpt, hslots hTp ▸ hs⟩
  · intro c g' hg' hfin
    obtain ⟨g, hg, hkind, hprom, hgpt, _⟩ := hq.frame hg'
    obtain ⟨r, hr⟩ := h.outcome hg (hgpt ▸ hfin)
    refine ⟨r, ?_⟩
    rw [← hr, Frame.outcome, Frame.outcome, hkind, hprom]
  · intro a f' w k c hf' hpt' hs'
    obtain ⟨f, hf, _, _, hpt, hslots⟩ := hq.frame hf'
    have hTa := hres a f w k hf (hpt ▸ hpt')
    obtain ⟨g, hg, hfin⟩ := h.resumed hf (hpt ▸ hpt') (hslots hTa ▸ hs')
    obtain ⟨g', hg'⟩ := ho.forest.held_live (holds_slot hf' hs')
    obtain ⟨g₀, hg₀, _, _, hgpt, _⟩ := hq.frame hg'
    obtain rfl : g = g₀ := Option.some.inj (hg.symm.trans hg₀)
    exact ⟨g', hg', by rw [hgpt]; exact hfin⟩

/-! ## One frame changes

In this section `m'` is `m` with the frame of `a` replaced by one with the same
variables. -/

section Replace

variable {m m' : Machine L} {a : Addr} {f f' : Frame L}

theorem heap_of_ne (hheap : m'.heap = Function.update m.heap a (some f')) {x : Addr}
    (hx : x ≠ a) : m'.heap x = m.heap x := by
  rw [hheap, Function.update_of_ne hx]

theorem heap_self (hheap : m'.heap = Function.update m.heap a (some f')) :
    m'.heap a = some f' := by
  rw [hheap, Function.update_self]

/-- A frame of `m'` is the new one or an old one. -/
theorem heap_cases (hheap : m'.heap = Function.update m.heap a (some f')) {x : Addr}
    {g : Frame L} (hg : m'.heap x = some g) : (x = a ∧ g = f') ∨ (x ≠ a ∧ m.heap x = some g) := by
  by_cases hx : x = a
  · subst hx
    rw [heap_self hheap, Option.some.injEq] at hg
    exact Or.inl ⟨rfl, hg.symm⟩
  · rw [heap_of_ne hheap hx] at hg
    exact Or.inr ⟨hx, hg⟩

theorem live_replace (hheap : m'.heap = Function.update m.heap a (some f')) {x : Addr}
    (hx : m.graph.live x) : m'.graph.live x := by
  by_cases hxa : x = a
  · exact ⟨f', hxa ▸ heap_self hheap⟩
  · obtain ⟨g, hg⟩ := hx
    exact ⟨g, (heap_of_ne hheap hxa).trans hg⟩

theorem holds_replace (hf : m.heap a = some f)
    (hheap : m'.heap = Function.update m.heap a (some f')) (hslots : f'.slots = f.slots)
    {b d : Addr} {s : Slot L} (hd : m.graph.holds (.slot b s) d) :
    m'.graph.holds (.slot b s) d := by
  obtain ⟨g, hg, hs⟩ := hd
  by_cases hba : b = a
  · subst hba
    obtain rfl : f = g := Option.some.inj (hf.symm.trans hg)
    exact ⟨f', heap_self hheap, hslots ▸ hs⟩
  · exact ⟨g, (heap_of_ne hheap hba).trans hg, hs⟩

theorem awaits_replace (hheap : m'.heap = Function.update m.heap a (some f')) {y c : Addr}
    (hy : y ≠ a) (h : Awaits m y c) : Awaits m' y c := by
  obtain ⟨g, w, k, hg, hpt, hs⟩ := h
  exact ⟨g, w, k, (heap_of_ne hheap hy).trans hg, hpt, hs⟩

/-- Chains of awaited children stay if the frame was not awaiting. -/
theorem under_replace (hf : m.heap a = some f)
    (hheap : m'.heap = Function.update m.heap a (some f')) (hslots : f'.slots = f.slots)
    (hno : f.point.isAwaiting = false) {b c : Addr} (h : Under m b c) : Under m' b c := by
  obtain ⟨s, d, hd, hchain⟩ := h
  refine ⟨s, d, holds_replace hf hheap hslots hd,
    Relation.ReflTransGen.mono (fun y x hyx => awaits_replace hheap ?_ hyx) _ _ hchain⟩
  rintro rfl
  rw [hyx.isAwaiting hf] at hno
  cases hno

/-- A frame changes without moving in the chains: it is not awaiting, and runs or
is completed after the change just as before it. -/
theorem LinkedBut.store {E : Addr → Prop} (h : LinkedBut E m) (hf : m.heap a = some f)
    (hheap : m'.heap = Function.update m.heap a (some f')) (hstack : m'.stack = m.stack)
    (hslots : f'.slots = f.slots) (hcont : f'.promise.continuation = f.promise.continuation)
    (hrun : f'.point.isRunning = f.point.isRunning)
    (hfin : f'.point.isFinal = f.point.isFinal) (hno : f.point.isAwaiting = false)
    (hno' : f'.point.isAwaiting = false)
    (hout : f'.point.isFinal = true → ∃ r, f'.outcome = .ok r)
    (hres : ∀ w k c, f'.point = .resumed w k → f.slots (.inr w) = some c →
      ∃ g, m.heap c = some g ∧ g.point.isFinal = true) : LinkedBut E m' := by
  have hfinal : ∀ {c g b}, m.heap c = some g → g.point.isFinal = b →
      ∃ g', m'.heap c = some g' ∧ g'.point.isFinal = b ∧
        g'.promise.continuation = g.promise.continuation := by
    intro c g b hg hb
    by_cases hca : c = a
    · subst hca
      obtain rfl : f = g := Option.some.inj (hf.symm.trans hg)
      exact ⟨f', heap_self hheap, hfin.trans hb, hcont⟩
    · exact ⟨g, (heap_of_ne hheap hca).trans hg, hb, rfl⟩
  refine ⟨?_, ?_, ?_, ?_, ?_, ?_, ?_⟩
  · intro x g hg
    rw [hstack]
    rcases heap_cases hheap hg with ⟨rfl, rfl⟩ | ⟨_, hg⟩
    · rw [hrun]
      exact h.running_iff hf
    · exact h.running_iff hg
  · intro x hx
    exact live_replace hheap (h.stack_live (hstack ▸ hx))
  · rw [hstack]
    exact h.nested.imp fun x y hyx => under_replace hf hheap hslots hno hyx
  · intro x g w k hg hpt hE
    rcases heap_cases hheap hg with ⟨rfl, rfl⟩ | ⟨_, hg⟩
    · rw [hpt] at hno'
      cases hno'
    · obtain ⟨c, g₁, hs, hg₁, hfin₁, hcont₁⟩ := h.awaiting hg hpt hE
      obtain ⟨g₂, hg₂, hfin₂, hcont₂⟩ := hfinal hg₁ hfin₁
      exact ⟨c, g₂, hs, hg₂, hfin₂, hcont₂.trans hcont₁⟩
  · intro c g p hg hgfin hgcont
    have hpc : Awaits m p c := by
      rcases heap_cases hheap hg with ⟨rfl, rfl⟩ | ⟨_, hg⟩
      · exact h.continued hf (hfin ▸ hgfin) (hcont ▸ hgcont)
      · exact h.continued hg hgfin hgcont
    refine awaits_replace hheap ?_ hpc
    rintro rfl
    rw [hpc.isAwaiting hf] at hno
    cases hno
  · intro c g hg hgfin
    rcases heap_cases hheap hg with ⟨rfl, rfl⟩ | ⟨_, hg⟩
    · exact hout hgfin
    · exact h.outcome hg hgfin
  · intro x g w k c hg hpt hs
    have hc : ∃ g, m.heap c = some g ∧ g.point.isFinal = true := by
      rcases heap_cases hheap hg with ⟨rfl, rfl⟩ | ⟨_, hg⟩
      · exact hres w k c hpt (hslots ▸ hs)
      · exact h.resumed hg hpt hs
    obtain ⟨g₁, hg₁, hfin₁⟩ := hc
    obtain ⟨g₂, hg₂, hfin₂, _⟩ := hfinal hg₁ hfin₁
    exact ⟨g₂, hg₂, hfin₂⟩

/-- The innermost running coroutine stops.  Until control has moved on, it is
excepted if it stopped at a `co_await`, and so is its continuation if it has
completed. -/
theorem LinkedBut.pop {rank : Addr → Nat} {temps : List Addr} {rest : List Addr} (h : Linked m)
    (ho : Owned rank m temps) (hst : m.stack = a :: rest) (hf : m.heap a = some f)
    (hheap : m'.heap = Function.update m.heap a (some f')) (hstack : m'.stack = rest)
    (hslots : f'.slots = f.slots) (hcont : f'.promise.continuation = f.promise.continuation)
    (hrun' : f'.point.isRunning = false)
    (hout : f'.point.isFinal = true → ∃ r, f'.outcome = .ok r) :
    LinkedBut (fun y => (y = a ∧ f'.point.isAwaiting = true) ∨
      (f'.point.isFinal = true ∧ f.promise.continuation = some y)) m' := by
  have hrun : f.point.isRunning = true :=
    (h.running_iff hf).mpr (hst ▸ List.mem_cons_self)
  have hno := Point.not_awaiting_of_running hrun
  have hnf := Point.not_final_of_running hrun
  have hmem : a ∉ rest := h.head_not_mem ho hst
  refine ⟨?_, ?_, ?_, ?_, ?_, ?_, ?_⟩
  · intro x g hg
    rw [hstack]
    rcases heap_cases hheap hg with ⟨rfl, rfl⟩ | ⟨hxa, hg⟩
    · simp [hrun', hmem]
    · rw [h.running_iff hg, hst]
      simp [hxa]
  · intro x hx
    rw [hstack] at hx
    exact live_replace hheap (h.stack_live (hst ▸ List.mem_cons_of_mem _ hx))
  · rw [hstack]
    have hnested := h.nested
    rw [hst] at hnested
    exact hnested.tail.imp fun x y hyx => under_replace hf hheap hslots hno hyx
  · intro x g w k hg hpt hE
    rcases heap_cases hheap hg with ⟨rfl, rfl⟩ | ⟨hxa, hg⟩
    · exact absurd (Or.inl ⟨rfl, by rw [hpt]; rfl⟩) hE
    · obtain ⟨c, g₁, hs, hg₁, hfin₁, hcont₁⟩ := h.awaiting hg hpt (fun hF => hF)
      by_cases hca : c = a
      · subst hca
        obtain rfl : f = g₁ := Option.some.inj (hf.symm.trans hg₁)
        cases hfin : f'.point.isFinal with
        | true => exact absurd (Or.inr ⟨hfin, hcont₁⟩) hE
        | false => exact ⟨c, f', hs, heap_self hheap, hfin, hcont.trans hcont₁⟩
      · exact ⟨c, g₁, hs, (heap_of_ne hheap hca).trans hg₁, hfin₁, hcont₁⟩
  · intro c g p hg hgfin hgcont
    have hpc : Awaits m p c := by
      rcases heap_cases hheap hg with ⟨rfl, rfl⟩ | ⟨_, hg⟩
      · exact h.continued hf hnf (hcont ▸ hgcont)
      · exact h.continued hg hgfin hgcont
    refine awaits_replace hheap ?_ hpc
    rintro rfl
    rw [hpc.isAwaiting hf] at hno
    cases hno
  · intro c g hg hgfin
    rcases heap_cases hheap hg with ⟨rfl, rfl⟩ | ⟨_, hg⟩
    · exact hout hgfin
    · exact h.outcome hg hgfin
  · intro x g w k c hg hpt hs
    rcases heap_cases hheap hg with ⟨rfl, rfl⟩ | ⟨_, hg⟩
    · rw [hpt] at hrun'
      cases hrun'
    · obtain ⟨g₁, hg₁, hfin₁⟩ := h.resumed hg hpt hs
      have hca : c ≠ a := by
        rintro rfl
        obtain rfl : f = g₁ := Option.some.inj (hf.symm.trans hg₁)
        rw [hnf] at hfin₁
        cases hfin₁
      exact ⟨g₁, (heap_of_ne hheap hca).trans hg₁, hfin₁⟩

/-- `await_suspend` links the child `a` of the coroutine `p` that was excepted. -/
theorem LinkedBut.link {rank : Addr → Nat} {temps : List Addr} {p : Addr} {E : Addr → Prop}
    (h : LinkedBut E m) (ho : Owned rank m temps) (hE : ∀ y, E y → y = p) (hp : Awaits m p a)
    (hf : m.heap a = some f) (hfin : f.point.isFinal = false) (hno : f.point.isAwaiting = false)
    (hheap : m'.heap = Function.update m.heap a (some f')) (hstack : m'.stack = m.stack)
    (hslots : f'.slots = f.slots) (hpoint : f'.point = f.point)
    (hcont : f'.promise.continuation = some p) : Linked m' := by
  have hpa : p ≠ a := by
    rintro rfl
    rw [hp.isAwaiting hf] at hno
    cases hno
  refine ⟨?_, ?_, ?_, ?_, ?_, ?_, ?_⟩
  · intro x g hg
    rw [hstack]
    rcases heap_cases hheap hg with ⟨rfl, rfl⟩ | ⟨_, hg⟩
    · rw [hpoint]
      exact h.running_iff hf
    · exact h.running_iff hg
  · intro x hx
    exact live_replace hheap (h.stack_live (hstack ▸ hx))
  · rw [hstack]
    exact h.nested.imp fun x y hyx => under_replace hf hheap hslots hno hyx
  · intro x g w k hg hpt _
    rcases heap_cases hheap hg with ⟨rfl, rfl⟩ | ⟨hxa, hg⟩
    · rw [hpoint] at hpt
      rw [hpt] at hno
      cases hno
    · by_cases hxp : x = p
      · subst hxp
        obtain ⟨g₀, w₀, k₀, hg₀, hpt₀, hs₀⟩ := hp
        obtain rfl : g = g₀ := Option.some.inj (hg.symm.trans hg₀)
        obtain ⟨rfl, _⟩ := Point.awaiting.inj (hpt.symm.trans hpt₀)
        exact ⟨a, f', hs₀, heap_self hheap, hpoint ▸ hfin, hcont⟩
      · obtain ⟨c, g₁, hs, hg₁, hfin₁, hcont₁⟩ := h.awaiting hg hpt fun hx => hxp (hE x hx)
        have hca : c ≠ a := by
          rintro rfl
          exact hxp (Awaits.unique ho ⟨g, w, k, hg, hpt, hs⟩ hp)
        exact ⟨c, g₁, hs, (heap_of_ne hheap hca).trans hg₁, hfin₁, hcont₁⟩
  · intro c g q hg hgfin hgcont
    rcases heap_cases hheap hg with ⟨rfl, rfl⟩ | ⟨hca, hg⟩
    · obtain rfl : p = q := Option.some.inj (hcont.symm.trans hgcont)
      exact awaits_replace hheap hpa hp
    · have hqc := h.continued hg hgfin hgcont
      refine awaits_replace hheap ?_ hqc
      rintro rfl
      rw [hqc.isAwaiting hf] at hno
      cases hno
  · intro c g hg hgfin
    rcases heap_cases hheap hg with ⟨rfl, rfl⟩ | ⟨_, hg⟩
    · rw [hpoint, hfin] at hgfin
      cases hgfin
    · exact h.outcome hg hgfin
  · intro x g w k c hg hpt hs
    have hc : ∃ g, m.heap c = some g ∧ g.point.isFinal = true := by
      rcases heap_cases hheap hg with ⟨rfl, rfl⟩ | ⟨_, hg⟩
      · exact h.resumed hf (hpoint ▸ hpt) (hslots ▸ hs)
      · exact h.resumed hg hpt hs
    obtain ⟨g₁, hg₁, hfin₁⟩ := hc
    have hca : c ≠ a := by
      rintro rfl
      obtain rfl : f = g₁ := Option.some.inj (hf.symm.trans hg₁)
      rw [hfin] at hfin₁
      cases hfin₁
    exact ⟨g₁, (heap_of_ne hheap hca).trans hg₁, hfin₁⟩

/-- A coroutine that is neither awaiting nor completed is resumed, from the
coroutines on the stack if there are any. -/
theorem LinkedBut.enter (h : Linked m) (hf : m.heap a = some f)
    (hfin : f.point.isFinal = false) (hno : f.point.isAwaiting = false)
    (hidle : f.point.isRunning = false) (hunder : ∀ b ∈ m.stack.head?, Under m b a)
    (hheap : m'.heap = Function.update m.heap a (some f')) (hstack : m'.stack = a :: m.stack)
    (hslots : f'.slots = f.slots) (hprom : f'.promise = f.promise)
    (hpoint : ∃ c, f'.point = .running c) : Linked m' := by
  obtain ⟨code, hcode⟩ := hpoint
  have hmem : a ∉ m.stack := fun ha => by simp [(h.running_iff hf).mpr ha] at hidle
  refine ⟨?_, ?_, ?_, ?_, ?_, ?_, ?_⟩
  · intro x g hg
    rw [hstack]
    rcases heap_cases hheap hg with ⟨rfl, rfl⟩ | ⟨hxa, hg⟩
    · simp [hcode, Point.isRunning]
    · simp [h.running_iff hg, hxa]
  · intro x hx
    rw [hstack] at hx
    rcases List.mem_cons.mp hx with rfl | hx
    · exact ⟨f', heap_self hheap⟩
    · exact live_replace hheap (h.stack_live hx)
  · rw [hstack, List.isChain_cons]
    exact ⟨fun b hb => under_replace hf hheap hslots hno (hunder b hb),
      h.nested.imp fun x y hyx => under_replace hf hheap hslots hno hyx⟩
  · intro x g w k hg hpt _
    rcases heap_cases hheap hg with ⟨rfl, rfl⟩ | ⟨_, hg⟩
    · rw [hcode] at hpt
      cases hpt
    · obtain ⟨c, g₁, hs, hg₁, hfin₁, hcont₁⟩ := h.awaiting hg hpt fun hF => hF
      by_cases hca : c = a
      · subst hca
        obtain rfl : f = g₁ := Option.some.inj (hf.symm.trans hg₁)
        exact ⟨c, f', hs, heap_self hheap, by rw [hcode]; rfl, by rw [hprom]; exact hcont₁⟩
      · exact ⟨c, g₁, hs, (heap_of_ne hheap hca).trans hg₁, hfin₁, hcont₁⟩
  · intro c g p hg hgfin hgcont
    have hpc : Awaits m p c := by
      rcases heap_cases hheap hg with ⟨rfl, rfl⟩ | ⟨_, hg⟩
      · exact h.continued hf hfin (hprom ▸ hgcont)
      · exact h.continued hg hgfin hgcont
    refine awaits_replace hheap ?_ hpc
    rintro rfl
    rw [hpc.isAwaiting hf] at hno
    cases hno
  · intro c g hg hgfin
    rcases heap_cases hheap hg with ⟨rfl, rfl⟩ | ⟨_, hg⟩
    · rw [hcode] at hgfin
      cases hgfin
    · exact h.outcome hg hgfin
  · intro x g w k c hg hpt hs
    rcases heap_cases hheap hg with ⟨rfl, rfl⟩ | ⟨_, hg⟩
    · rw [hcode] at hpt
      cases hpt
    · obtain ⟨g₁, hg₁, hfin₁⟩ := h.resumed hg hpt hs
      have hca : c ≠ a := by
        rintro rfl
        obtain rfl : f = g₁ := Option.some.inj (hf.symm.trans hg₁)
        rw [hfin] at hfin₁
        cases hfin₁
      exact ⟨g₁, (heap_of_ne hheap hca).trans hg₁, hfin₁⟩

/-- A chain that ends elsewhere does not run through a coroutine `a` whose child
awaits nothing. -/
private theorem chain_avoids {c d x : Addr} (hac : Awaits m a c) (hc : ∀ y, ¬ Awaits m c y)
    (hx : x ≠ c) (h : Relation.ReflTransGen (Awaits m) d x) :
    Relation.ReflTransGen (fun y z => Awaits m y z ∧ y ≠ a) d x := by
  induction h using Relation.ReflTransGen.head_induction_on with
  | refl => exact .refl
  | @head y z hyz hzx ih =>
    refine .head ⟨hyz, ?_⟩ ih
    rintro rfl
    obtain rfl : z = c := hyz.single hac
    cases hzx.cases_head with
    | inl hzx => exact hx hzx.symm
    | inr hzx =>
      obtain ⟨y', hy', _⟩ := hzx
      exact hc y' hy'

/-- Control goes back to the coroutine `a` that awaits a completed child. -/
theorem LinkedBut.back {E : Addr → Prop} {w : L.Aw} {k : L.Outcome → L.Code} {c : Addr}
    {g : Frame L} (h : LinkedBut E m) (hE : ∀ y, E y → y = a) (hf : m.heap a = some f)
    (hpt : f.point = .awaiting w k) (hs : f.slots (.inr w) = some c) (hg : m.heap c = some g)
    (hfin : g.point.isFinal = true) (hunder : ∀ b ∈ m.stack.head?, Under m b a)
    (hheap : m'.heap = Function.update m.heap a (some { f with point := .resumed w k }))
    (hstack : m'.stack = a :: m.stack) : Linked m' := by
  have hac : Awaits m a c := ⟨f, w, k, hf, hpt, hs⟩
  have hca : c ≠ a := by
    rintro rfl
    obtain rfl : f = g := Option.some.inj (hf.symm.trans hg)
    rw [hpt] at hfin
    cases hfin
  have hc : ∀ y, ¬ Awaits m c y := by
    intro y hy
    have haw := hy.isAwaiting hg
    cases hgp : g.point <;> simp [hgp, Point.isAwaiting, Point.isFinal] at haw hfin
  have hidle : f.point.isRunning = false := by
    rw [hpt]
    rfl
  have hmem : a ∉ m.stack := fun ha => by simp [(h.running_iff hf).mpr ha] at hidle
  -- A chain to a coroutine other than the child is a chain after the step.
  have hkeep : ∀ {b x}, x ≠ c → Under m b x → Under m' b x := by
    rintro b x hx ⟨s, d, hd, hchain⟩
    refine ⟨s, d, holds_replace hf hheap rfl hd, ?_⟩
    exact Relation.ReflTransGen.mono (fun y z hyz => awaits_replace hheap hyz.2 hyz.1) _ _
      (chain_avoids hac hc hx hchain)
  have hstackc : c ∉ m.stack := by
    intro hcs
    have hrun := (h.running_iff hg).mpr hcs
    rw [Point.not_final_of_running hrun] at hfin
    cases hfin
  refine ⟨?_, ?_, ?_, ?_, ?_, ?_, ?_⟩
  · intro x g' hg'
    rw [hstack]
    rcases heap_cases hheap hg' with ⟨rfl, rfl⟩ | ⟨hxa, hg'⟩
    · simp [Point.isRunning]
    · simp [h.running_iff hg', hxa]
  · intro x hx
    rw [hstack] at hx
    rcases List.mem_cons.mp hx with rfl | hx
    · exact ⟨_, heap_self hheap⟩
    · exact live_replace hheap (h.stack_live hx)
  · rw [hstack, List.isChain_cons]
    refine ⟨fun b hb => hkeep hca.symm (hunder b hb), ?_⟩
    exact h.nested.imp_of_mem_imp fun x y hx _ hyx => hkeep (fun hxc => hstackc (hxc ▸ hx)) hyx
  · intro x g' v k' hg' hpt' _
    rcases heap_cases hheap hg' with ⟨rfl, rfl⟩ | ⟨hxa, hg'⟩
    · cases hpt'
    · obtain ⟨d, g₁, hs₁, hg₁, hfin₁, hcont₁⟩ := h.awaiting hg' hpt' fun hx => hxa (hE x hx)
      by_cases hda : d = a
      · subst hda
        obtain rfl : f = g₁ := Option.some.inj (hf.symm.trans hg₁)
        exact ⟨d, _, hs₁, heap_self hheap, rfl, hcont₁⟩
      · exact ⟨d, g₁, hs₁, (heap_of_ne hheap hda).trans hg₁, hfin₁, hcont₁⟩
  · intro d g' p hg' hgfin hgcont
    have hpd : Awaits m p d := by
      rcases heap_cases hheap hg' with ⟨rfl, rfl⟩ | ⟨_, hg'⟩
      · exact h.continued hf (by rw [hpt]; rfl) hgcont
      · exact h.continued hg' hgfin hgcont
    refine awaits_replace hheap ?_ hpd
    rintro rfl
    -- The awaited child of `a` is completed, and `d` is not.
    obtain rfl : d = c := hpd.single hac
    rcases heap_cases hheap hg' with ⟨hda, _⟩ | ⟨_, hg'⟩
    · exact hca hda
    · obtain rfl : g = g' := Option.some.inj (hg.symm.trans hg')
      rw [hfin] at hgfin
      cases hgfin
  · intro d g' hg' hgfin
    rcases heap_cases hheap hg' with ⟨rfl, rfl⟩ | ⟨_, hg'⟩
    · cases hgfin
    · exact h.outcome hg' hgfin
  · intro x g' v k' d hg' hpt' hs'
    have hd : ∃ g, m.heap d = some g ∧ g.point.isFinal = true := by
      rcases heap_cases hheap hg' with ⟨rfl, rfl⟩ | ⟨_, hg'⟩
      · obtain ⟨rfl, _⟩ := Point.resumed.inj hpt'
        obtain rfl : c = d := Option.some.inj (hs.symm.trans hs')
        exact ⟨g, hg, hfin⟩
      · exact h.resumed hg' hpt' hs'
    obtain ⟨g₁, hg₁, hfin₁⟩ := hd
    have hda : d ≠ a := by
      rintro rfl
      obtain rfl : f = g₁ := Option.some.inj (hf.symm.trans hg₁)
      rw [hpt] at hfin₁
      cases hfin₁
    exact ⟨g₁, (heap_of_ne hheap hda).trans hg₁, hfin₁⟩

end Replace

/-! ## Calls, and changes outside the heap -/

/-- A coroutine call adds a frame that has not started. -/
theorem LinkedBut.create {E : Addr → Prop} {m : Machine L} (h : LinkedBut E m)
    (hfresh : m.heap m.next = none) (kind : Kind) (body : L.Code) :
    LinkedBut E (m.create kind body).2 := by
  have hold : ∀ {x g}, m.heap x = some g → (m.create kind body).2.heap x = some g := by
    intro x g hg
    have hx : x ≠ m.next := by
      rintro rfl
      rw [hfresh] at hg
      cases hg
    exact (Function.update_of_ne hx _ _).trans hg
  have hcases : ∀ {x g}, (m.create kind body).2.heap x = some g →
      m.heap x = some g ∨ (x = m.next ∧ g = .fresh kind body) := by
    intro x g hg
    rcases heap_cases rfl hg with ⟨rfl, rfl⟩ | ⟨_, hg⟩
    · exact Or.inr ⟨rfl, rfl⟩
    · exact Or.inl hg
  have haw : ∀ {y x}, Awaits m y x → Awaits (m.create kind body).2 y x := by
    rintro y x ⟨g, w, k, hg, hpt, hs⟩
    exact ⟨g, w, k, hold hg, hpt, hs⟩
  refine ⟨?_, ?_, ?_, ?_, ?_, ?_, ?_⟩
  · intro x g hg
    show _ ↔ x ∈ m.stack
    rcases hcases hg with hg | ⟨rfl, rfl⟩
    · exact h.running_iff hg
    · refine ⟨fun hrun => (Bool.false_ne_true hrun).elim, fun hx => ?_⟩
      obtain ⟨g, hg⟩ := h.stack_live hx
      rw [hfresh] at hg
      cases hg
  · intro x hx
    obtain ⟨g, hg⟩ := h.stack_live hx
    exact ⟨g, hold hg⟩
  · refine h.nested.imp fun x y hyx => ?_
    obtain ⟨s, d, ⟨g, hg, hs⟩, hchain⟩ := hyx
    exact ⟨s, d, ⟨g, hold hg, hs⟩, Relation.ReflTransGen.mono (fun _ _ => haw) _ _ hchain⟩
  · intro x g w k hg hpt hE
    rcases hcases hg with hg | ⟨rfl, rfl⟩
    · obtain ⟨c, g₁, hs, hg₁, hfin, hcont⟩ := h.awaiting hg hpt hE
      exact ⟨c, g₁, hs, hold hg₁, hfin, hcont⟩
    · cases hpt
  · intro c g p hg hfin hcont
    rcases hcases hg with hg | ⟨rfl, rfl⟩
    · exact haw (h.continued hg hfin hcont)
    · cases hcont
  · intro c g hg hfin
    rcases hcases hg with hg | ⟨rfl, rfl⟩
    · exact h.outcome hg hfin
    · cases hfin
  · intro x g w k c hg hpt hs
    rcases hcases hg with hg | ⟨rfl, rfl⟩
    · obtain ⟨g₁, hg₁, hfin⟩ := h.resumed hg hpt hs
      exact ⟨g₁, hold hg₁, hfin⟩
    · cases hpt

/-- The links are a matter of the frames and the stack. -/
theorem LinkedBut.congr {E : Addr → Prop} {m m' : Machine L} (h : LinkedBut E m)
    (hheap : m'.heap = m.heap) (hstack : m'.stack = m.stack) : LinkedBut E m' := by
  have haw : ∀ y x, Awaits m' y x ↔ Awaits m y x := by
    intro y x
    rw [Awaits, Awaits, hheap]
  refine ⟨?_, ?_, ?_, ?_, ?_, ?_, ?_⟩
  · rw [hheap, hstack]
    exact h.running_iff
  · intro a ha
    obtain ⟨f, hf⟩ := h.stack_live (hstack ▸ ha)
    exact ⟨f, by rw [hheap]; exact hf⟩
  · rw [hstack]
    refine h.nested.imp fun x y hyx => ?_
    obtain ⟨s, d, ⟨g, hg, hs⟩, hchain⟩ := hyx
    exact ⟨s, d, ⟨g, by rw [hheap]; exact hg, hs⟩,
      Relation.ReflTransGen.mono (fun y x => (haw y x).mpr) _ _ hchain⟩
  · rw [hheap]
    exact h.awaiting
  · intro c g p hg hfin hcont
    rw [hheap] at hg
    exact (haw p c).mpr (h.continued hg hfin hcont)
  · rw [hheap]
    exact h.outcome
  · rw [hheap]
    exact h.resumed

end VixStandard.Task
