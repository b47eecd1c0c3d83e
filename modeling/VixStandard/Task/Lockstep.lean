import VixStandard.Task.Refinement

/-!
# The machine follows the resumption

One instruction of the machine takes the relation `Runs` to the next node of the
resumption (`exec_follows`).  `Follows` says what that means: a `tau` changes
neither the program's state nor the log, an effect changes both as `act` says,
and a suspension stops the machine.

Every instruction changes frames at or below the innermost one, and at most the
frame that awaits it.  The first section says so for the handle operations,
where a chain meets them: what a variable holds owns nothing, so a `reset()`
destroys one frame.
-/

namespace VixStandard.Task

open VixStandard.Lib VixStandard.Lib.Ownership Machine

variable {V : Type} [DecidableEq V] {n : Nat} {Val Exc Op Resp Mem : Type}
  {act : Op → Mem → Resp × Mem} {moved : Val → Val}

/-- `m'` has the Task variables, the stack, the program's state and the log of
`m`. -/
structure SameRest (m m' : Machine (program V n Exc act moved)) : Prop where
  vars : m'.vars = m.vars
  stack : m'.stack = m.stack
  mem : m'.mem = m.mem
  log : m'.log = m.log

section Local

variable {m m' : Machine (program V n Exc act moved)} {rank : Addr → Nat} {a : Addr}
  {f : Frame (program V n Exc act moved)}

theorem Holds.eq_none {s : Bool} {o : Option Addr}
    (h : Holds m s o (.empty : Content Val Exc Op Resp)) : o = none := by
  cases h
  rfl

theorem slot_ne_owner (ho : Owned rank m []) (hf : m.heap a = some f)
    {x : Slot (program V n Exc act moved)} : f.slots x ≠ some a := by
  intro hx
  exact Nat.lt_irrefl _ (ho.forest.ranked (holds_slot hf hx) rfl)

/-- Two variables of a frame do not hold the same handle. -/
theorem slots_ne (ho : Owned rank m []) (hf : m.heap a = some f)
    {x y : Slot (program V n Exc act moved)} {c : Addr} (hx : f.slots x = some c) (hxy : y ≠ x) :
    f.slots y ≠ some c := by
  intro hy
  exact hxy (Place.slot.inj (ho.forest.unique (holds_slot hf hy) (holds_slot hf hx))).2

/-- `reset()` of a variable of `a` destroys at most one frame. -/
theorem reset_held {s : Bool} {x : Slot (program V n Exc act moved)} {H : Content Val Exc Op Resp}
    (hf : m.heap a = some f) (hx : Holds m s (f.slots x) H) (hne : f.slots x ≠ some a)
    (hnext : 0 < m.next) : ∃ m', m.reset (.slot a x) = .ok m' ∧ SameRest m m' ∧
      m'.heap a = some { f with slots := Function.update f.slots x none } ∧
      ∀ y, y ≠ a → f.slots x ≠ some y → m'.heap y = m.heap y := by
  have hread := read_slot hf x
  cases hc : f.slots x with
  | none =>
    rw [hc] at hread
    refine ⟨m, reset_of_none hread, ⟨rfl, rfl, rfl, rfl⟩, ?_, fun y _ _ => rfl⟩
    rw [Function.update_eq_self_iff.mpr hc.symm]
    exact hf
  | some c =>
    rw [hc] at hread hx hne
    obtain ⟨g, hg, hbare, hidle⟩ := hx.leaf
    have hca : c ≠ a := fun hca => hne (congrArg some hca)
    have hhandles : g.handles = [] := by
      refine List.eq_nil_iff_forall_not_mem.mpr fun d hd => ?_
      obtain ⟨y, hy⟩ := mem_handles.mp hd
      rw [hbare y] at hy
      cases hy
    have hdestroy : m.destroy c = .ok (m.kill c) := by
      obtain ⟨fuel, hfuel⟩ := Nat.exists_eq_succ_of_ne_zero (Nat.ne_of_gt hnext)
      rw [destroy, hfuel, Nat.succ_eq_add_one, destroyAll_cons hg hidle, hhandles]
      exact destroyAll_nil _ _
    have hf' : (m.kill c).heap a = some f := kill_heap.mpr ⟨hf, hca.symm⟩
    let f' : Frame (program V n Exc act moved) :=
      { f with slots := Function.update f.slots x none }
    refine ⟨(m.kill c).store a f', ?_, ⟨rfl, rfl, rfl, rfl⟩, Function.update_self _ _ _, ?_⟩
    · unfold reset
      rw [bind_of_ok hread]
      exact (bind_of_ok hdestroy _).trans (write_slot hf' x none)
    · intro y hya hyc
      have hcy : y ≠ c := fun hcy => hyc (congrArg some hcy.symm)
      exact (Function.update_of_ne hya _ _).trans (Function.update_of_ne hcy _ _)

/-- The end of a body empties the variables of its frame, and destroys frames
below it only. -/
theorem leaveScope_local (ho : Owned rank m []) (hf : m.heap a = some f)
    (hrun : ∀ r g, m.heap r = some g → g.point.isRunning = true → rank r ≤ rank a) :
    ∃ m', m.leaveScope a = .ok m' ∧ SameRest m m' ∧
      m'.heap a = some { f with slots := fun _ => none } ∧
      ∀ x g, m.heap x = some g → ¬ Below Place.home m.graph a x → m'.heap x = some g := by
  have hleave : f.leave = { f with slots := fun _ => none } := by
    unfold Frame.leave
    congr 1
    funext x
    cases x <;> rfl
  have habove : ∀ w ∈ f.scopedHandles, m.graph.holds (.slot a (.inr ())) w ∨
      ∃ x, m.graph.holds (.slot a (.inl x)) w := by
    intro w hw
    simp only [Frame.scopedHandles, List.mem_filterMap] at hw
    obtain ⟨y, _, hy⟩ := hw
    cases y with
    | inl x => exact Or.inr ⟨x, holds_slot hf hy⟩
    | inr u => exact Or.inl (holds_slot hf hy)
  have hrank : ∀ w ∈ f.scopedHandles, rank a < rank w := by
    intro w hw
    rcases habove w hw with hw | ⟨x, hw⟩
    · exact ho.forest.ranked hw rfl
    · exact ho.forest.ranked hw rfl
  obtain ⟨ho₁, hq₁, hlive₁, hholds₁⟩ := leave_spec ho hf
  obtain ⟨m', hok, _, hshrunk, _, hdead⟩ := destroyAll_spec ho₁ (by
    intro r g hg hr w hw
    obtain ⟨g', hg', _, _, hpt, _⟩ := hq₁.frame hg
    exact Nat.lt_of_le_of_lt (hrun r g' hg' (hpt ▸ hr)) (hrank w hw))
  have hkeep : ∀ {x g}, (m.store a f.leave).heap x = some g →
      (∀ w ∈ f.scopedHandles, ¬ Below Place.home m.graph w x) → m'.heap x = some g := by
    intro x g hg hnb
    have hx : m'.graph.live x := by
      by_contra hnx
      obtain ⟨w, hw, hb⟩ := (hdead x ⟨g, hg⟩).mp hnx
      exact hnb w hw (hb.mono hholds₁)
    obtain ⟨g', hg'⟩ := hx
    obtain rfl : g = g' := Option.some.inj (hg.symm.trans (hshrunk.heap hg'))
    exact hg'
  refine ⟨m', ?_, ⟨hshrunk.vars, hshrunk.stack, hshrunk.mem, hshrunk.log⟩, ?_, ?_⟩
  · rw [leaveScope, bind_of_ok (frame_ok hf)]
    exact hok
  · rw [← hleave]
    refine hkeep (Function.update_self _ _ _) fun w hw hb => ?_
    have hle := ho.forest.rank_le_of_below hb
    have hlt := hrank w hw
    omega
  · intro x g hg hnb
    have hxa : x ≠ a := fun hxa => hnb (hxa ▸ .self)
    refine hkeep ((Function.update_of_ne hxa _ _).trans hg) fun w hw hb => ?_
    have haw : Below Place.home m.graph a w := by
      rcases habove w hw with hw | ⟨y, hw⟩
      · exact .held .self rfl hw
      · exact .held .self rfl hw
    exact hnb (haw.trans hb)

end Local

/-! ## The innermost frame -/

/-- The Task `v` goes on as the given resumption, or has completed. -/
def Goes (m : Machine (program V n Exc act moved)) (v : V)
    (t : Resumption Op Resp (Outcome Val Exc)) : Prop :=
  Runs m v t ∨ ∃ o, t = .done o ∧ m.stack = [] ∧ Ends m v o

/-- The step from `m` to `m'` performs the first node of a resumption. -/
def Follows (m m' : Machine (program V n Exc act moved)) (v : V) :
    Resumption Op Resp (Outcome Val Exc) → Prop
  | .done _ => False
  | .tau t => m'.mem = m.mem ∧ m'.log = m.log ∧ Goes m' v t
  | .effect op k =>
    m'.mem = (act op m.mem).2 ∧ m'.log = m.log ++ [op] ∧ Goes m' v (k (act op m.mem).1)
  | .suspend t => m'.mem = m.mem ∧ m'.log = m.log ∧ m'.stack = [] ∧ Stops m' v t

/-- The frame `a` runs on top of `st`, at the lower end of the chain from `v`.  Its
Task locals hold `E`, its Awaiter holds `H`, and `K` is what comes after it. -/
structure Head (rank : Addr → Nat) (m : Machine (program V n Exc act moved)) (v : V) (a : Addr)
    (st : List Addr) (s : Bool) (f : Frame (program V n Exc act moved))
    (E : Fin n → Content Val Exc Op Resp) (H : Content Val Exc Op Resp)
    (K : Outcome Val Exc → Resumption Op Resp (Outcome Val Exc)) : Prop where
  owned : Owned rank m []
  linked : Linked m
  stack : m.stack = a :: st
  frame : m.heap a = some f
  noException : f.promise.exception = none
  locals : ∀ x, Holds m s (f.slots (.inl x)) (E x)
  awaiter : Holds m s (f.slots (.inr ())) H
  waits : Waits m v s a f.promise.continuation K st

section Head

variable {m m' : Machine (program V n Exc act moved)} {rank : Addr → Nat} {v : V} {a : Addr}
  {st : List Addr} {s : Bool} {f f' : Frame (program V n Exc act moved)}
  {E E' : Fin n → Content Val Exc Op Resp} {H H' : Content Val Exc Op Resp}
  {K : Outcome Val Exc → Resumption Op Resp (Outcome Val Exc)}
  {t : Resumption Op Resp (Outcome Val Exc)}

/-- The chain after a change of the innermost frame and of frames below it. -/
theorem Head.chain (h : Head rank m v a st s f E H K) (hvars : m'.vars = m.vars)
    (hkeep : ∀ x g, m.heap x = some g → ¬ Below Place.home m.graph a x → m'.heap x = some g)
    (hf' : m'.heap a = some f') (hexc : f'.promise.exception = none)
    (hcont : f'.promise.continuation = f.promise.continuation)
    (hE : ∀ x, Holds m' s (f'.slots (.inl x)) (E' x)) (hH : Holds m' s (f'.slots (.inr ())) H')
    (hat : At m' f' E' H' s t) : Chain m' v a st (t.bind K) :=
  .mk hf' hexc hcont hE hH hat (h.waits.frame h.owned (congrFun hvars v) hkeep)

/-- What a variable of the innermost frame holds stays when only this frame changes. -/
theorem Head.holds (h : Head rank m v a st s f E H K)
    (hheap : m'.heap = Function.update m.heap a (some f')) {s' : Bool}
    {x : Slot (program V n Exc act moved)} {C : Content Val Exc Op Resp}
    (hx : Holds m s' (f.slots x) C) : Holds m' s' (f.slots x) C := by
  refine hx.frame fun c g hc hg => ?_
  have hca : c ≠ a := fun hca => slot_ne_owner h.owned h.frame (hca ▸ hc)
  exact (heap_of_ne hheap hca).trans hg

/-- The chain after a change of the innermost frame that keeps its variables. -/
theorem Head.replace (h : Head rank m v a st s f E H K) (hvars : m'.vars = m.vars)
    (hheap : m'.heap = Function.update m.heap a (some f')) (hslots : f'.slots = f.slots)
    (hexc : f'.promise.exception = none)
    (hcont : f'.promise.continuation = f.promise.continuation) (hat : At m' f' E H s t) :
    Chain m' v a st (t.bind K) := by
  refine h.chain hvars ?_ (heap_self hheap) hexc hcont ?_ ?_ hat
  · intro x g hg hnb
    have hxa : x ≠ a := fun hxa => hnb (hxa ▸ .self)
    exact (heap_of_ne hheap hxa).trans hg
  · intro x
    rw [hslots]
    exact h.holds hheap (h.locals x)
  · rw [hslots]
    exact h.holds hheap h.awaiter

theorem Head.exec {c : Code n Val Exc Op Resp} (h : Head rank m v a st s f E H K)
    (hpt : f.point = .running c) : m.exec = m.perform a st (Code.next c) :=
  exec_of_running h.stack h.frame hpt

/-! ### Effects and suspensions -/

theorem Head.effect {op : Op} {k : Resp → Body n Val Exc Op Resp s}
    (h : Head rank m v a st s f E .empty K) (hpt : f.point = .running (.body (.effect op k))) :
    ∃ m', m.exec = .ok m' ∧ Follows m m' v ((denote f.kind (.effect op k) E).bind K) := by
  let m₁ : Machine (program V n Exc act moved) :=
    { m with mem := (act op m.mem).2, log := m.log ++ [op] }
  let f' : Frame (program V n Exc act moved) :=
    { f with point := .running (.body (k (act op m.mem).1)) }
  have hok : m.exec = .ok (m₁.store a f') := by
    rw [h.exec hpt]
    exact setPoint_ok (m := m₁) h.frame _
  refine ⟨m₁.store a f', hok, rfl, rfl, Or.inl ⟨a, st, h.stack, ?_⟩⟩
  exact h.replace rfl rfl rfl h.noException rfl (.body _ rfl rfl)

theorem Head.suspend {k : Body n Val Exc Op Resp true}
    (h : Head rank m v a st true f E .empty K) (hpt : f.point = .running (.body (.suspend k))) :
    ∃ m', m.exec = .ok m' ∧ Follows m m' v ((denote f.kind (.suspend k) E).bind K) := by
  let f' : Frame (program V n Exc act moved) := { f with point := .external (.body k) }
  have hst : st = [] := h.waits.stack_eq_nil rfl
  have hok : m.exec = .ok { m.store a f' with stack := st } := by
    rw [h.exec hpt, Code.next, perform, bind_of_ok (setPoint_ok h.frame _)]
  refine ⟨_, hok, rfl, rfl, hst, a, f', ?_, Function.update_self _ _ _, Or.inl ⟨_, rfl⟩⟩
  rw [← hst]
  exact h.replace rfl rfl rfl h.noException rfl (.external _ rfl rfl)

/-! ### Calls -/

/-- A call puts a fresh coroutine into the Task local `x`. -/
theorem Head.call {x : Fin n} {s' : Bool} {b : Body n Val Exc Op Resp s'}
    {c : Code n Val Exc Op Resp} (h : Head rank m v a st s f E .empty K) (kind : Kind)
    (hs : s' = true → s = true) :
    ∃ m' f', m.perform a st (.call x kind (.body b) [] c) = .ok m' ∧ SameRest m m' ∧
      m'.heap a = some f' ∧ f'.kind = f.kind ∧ f'.promise = f.promise ∧ f'.point = .running c ∧
      Holds m' s' (f'.slots (.inl x)) (.fresh (denote kind b fun _ => .empty)) ∧
      (∀ y, Holds m' s (f'.slots (.inl y))
        (Function.update E x (.fresh (denote kind b fun _ => .empty)) y)) ∧
      f'.slots (.inr ()) = none ∧
      ∀ y g, m.heap y = some g → ¬ Below Place.home m.graph a y → m'.heap y = some g := by
  have hlt : ∀ {y g}, m.heap y = some g → y ≠ m.next :=
    fun hg => Nat.ne_of_lt (h.owned.lt_next ⟨_, hg⟩)
  let m₁ : Machine (program V n Exc act moved) := (m.create kind (.body b)).2
  have hold : ∀ {y g}, m.heap y = some g → m₁.heap y = some g :=
    fun hg => (Function.update_of_ne (hlt hg) _ _).trans hg
  have hx₁ : Holds m₁ s (f.slots (.inl x)) (E x) := (h.locals x).frame fun c g _ hg => hold hg
  obtain ⟨m₂, hreset, hrest₂, hf₂, hkeep₂⟩ := reset_held (hold h.frame) hx₁
    (slot_ne_owner h.owned h.frame) (Nat.succ_pos m.next)
  let f₂ : Frame (program V n Exc act moved) :=
    { f with slots := Function.update f.slots (.inl x) none }
  let f₃ : Frame (program V n Exc act moved) :=
    { f₂ with slots := Function.update f₂.slots (.inl x) (some m.next) }
  let f' : Frame (program V n Exc act moved) := { f₃ with point := .running c }
  have hf₃ : (m₂.store a f₃).heap a = some f₃ := Function.update_self _ _ _
  let m' : Machine (program V n Exc act moved) := (m₂.store a f₃).store a f'
  have hheap : ∀ {y g}, m.heap y = some g → y ≠ a → f.slots (.inl x) ≠ some y →
      m'.heap y = some g := by
    intro y g hg hya hyx
    have hya' : m'.heap y = m₂.heap y :=
      (Function.update_of_ne hya _ _).trans (Function.update_of_ne hya _ _)
    exact hya'.trans ((hkeep₂ y hya hyx).trans (hold hg))
  have hslot : f'.slots (.inl x) = some m.next := Function.update_self _ _ _
  have hother : ∀ {y}, y ≠ .inl x → f'.slots y = f.slots y := by
    intro y hy
    exact (Function.update_of_ne hy _ _).trans (Function.update_of_ne hy _ _)
  have hfresh : m'.heap m.next = some (.fresh kind (.body b)) := by
    have hna : m.next ≠ a := (hlt h.frame).symm
    have hnx : f.slots (.inl x) ≠ some m.next := by
      intro hn
      obtain ⟨g, hg⟩ := h.owned.forest.held_live (holds_slot h.frame hn)
      exact hlt hg rfl
    have hna' : m'.heap m.next = m₂.heap m.next :=
      (Function.update_of_ne hna _ _).trans (Function.update_of_ne hna _ _)
    exact hna'.trans ((hkeep₂ _ hna hnx).trans (Function.update_self _ _ _))
  have hnew : ∀ {s''}, (s' = true → s'' = true) →
      Holds m' s'' (f'.slots (.inl x)) (.fresh (denote kind b fun _ => .empty)) := by
    intro s'' hs''
    rw [hslot]
    exact .fresh b hs'' hfresh
  refine ⟨m', f', ?_, ⟨hrest₂.vars, hrest₂.stack, hrest₂.mem, hrest₂.log⟩,
    Function.update_self _ _ _, rfl, rfl, rfl, hnew id, ?_, ?_, ?_⟩
  · have hwrite : m₂.write (.slot a (.inl x)) (some m.next) = .ok (m₂.store a f₃) :=
      write_slot hf₂ _ _
    unfold perform
    exact (bind_of_ok hreset _).trans ((bind_of_ok hwrite _).trans (setPoint_ok hf₃ _))
  · intro y
    by_cases hy : y = x
    · subst hy
      rw [Function.update_self]
      exact hnew hs
    · have hyx : (.inl y : Slot (program V n Exc act moved)) ≠ .inl x :=
        fun hyx => hy (Sum.inl.inj hyx)
      rw [Function.update_of_ne hy, hother hyx]
      refine (h.locals y).frame fun d g hd hg => hheap hg ?_ ?_
      · exact fun hda => slot_ne_owner h.owned h.frame (hda ▸ hd)
      · exact slots_ne h.owned h.frame hd hyx.symm
  · rw [hother Sum.inr_ne_inl]
    exact h.awaiter.eq_none
  · intro y g hg hnb
    refine hheap hg (fun hya => hnb (hya ▸ .self)) fun hyx => ?_
    exact hnb (.held .self rfl (holds_slot h.frame hyx))

theorem Head.callBody {x : Fin n} {kind : Kind} {b k : Body n Val Exc Op Resp s}
    (h : Head rank m v a st s f E .empty K) (hpt : f.point = .running (.body (.call x kind b k))) :
    ∃ m', m.exec = .ok m' ∧ Follows m m' v ((denote f.kind (.call x kind b k) E).bind K) := by
  obtain ⟨m', f', hok, hrest, hf', hkind, hprom, hpt', _, hE, hw, hkeep⟩ :=
    h.call (x := x) (b := b) (c := .body k) kind fun hs => hs
  refine ⟨m', (h.exec hpt).trans hok, hrest.mem, hrest.log,
    Or.inl ⟨a, st, hrest.stack.trans h.stack, ?_⟩⟩
  have hH : Holds m' s (f'.slots (.inr ())) (.empty : Content Val Exc Op Resp) := by
    rw [hw]
    exact .empty
  have hat := At.body (m := m') (E := Function.update E x (.fresh (denote kind b fun _ => .empty)))
    k hpt' rfl
  rw [hkind] at hat
  exact h.chain hrest.vars hkeep hf' (by rw [hprom]; exact h.noException) (by rw [hprom]) hE hH hat

theorem Head.callStarted {x : Fin n} {kind : Kind} {b : Body n Val Exc Op Resp false}
    {k : Body n Val Exc Op Resp s} (h : Head rank m v a st s f E .empty K)
    (hpt : f.point = .running (.body (.callStarted x kind b k))) :
    ∃ m', m.exec = .ok m' ∧ Follows m m' v ((denote f.kind (.callStarted x kind b k) E).bind K) := by
  obtain ⟨m', f', hok, hrest, hf', hkind, hprom, hpt', hx, hE, hw, hkeep⟩ :=
    h.call (x := x) (b := b) (c := .starting x k) kind fun hs => by cases hs
  refine ⟨m', (h.exec hpt).trans hok, hrest.mem, hrest.log,
    Or.inl ⟨a, st, hrest.stack.trans h.stack, ?_⟩⟩
  have hH : Holds m' s (f'.slots (.inr ())) (.empty : Content Val Exc Op Resp) := by
    rw [hw]
    exact .empty
  have hat := At.starting (m := m') k hpt' rfl (Function.update_self x _ E) hx
  simp only [Function.update_idem, hkind] at hat
  exact h.chain hrest.vars hkeep hf' (by rw [hprom]; exact h.noException) (by rw [hprom]) hE hH hat

/-- `start()` of a fresh coroutine runs it on top of the caller. -/
theorem Head.starting {x : Fin n} {k : Body n Val Exc Op Resp s}
    {u : Resumption Op Resp (Outcome Val Exc)} (h : Head rank m v a st s f E .empty K)
    (hpt : f.point = .running (.starting x k)) (hx : Holds m false (f.slots (.inl x)) (.fresh u)) :
    ∃ m', m.exec = .ok m' ∧ Follows m m' v
      ((Resumption.tau (u.bind fun o =>
        denote f.kind k (Function.update E x (.completed o)))).bind K) := by
  have hw : f.slots (.inr ()) = none := h.awaiter.eq_none
  cases hc' : f.slots (.inl x) with
  | none =>
    rw [hc'] at hx
    cases hx
  | some c =>
    rw [hc'] at hx
    cases hx with
    | @fresh _ kind s' b hs hc =>
      cases s' with
      | true => cases hs rfl
      | false =>
        have hca : c ≠ a := fun hca => slot_ne_owner h.owned h.frame (hca ▸ hc')
        let g : Frame (program V n Exc act moved) :=
          ⟨kind, .fresh, .running (.body b), fun _ => none⟩
        let f' : Frame (program V n Exc act moved) := { f with point := .running (.body k) }
        let m₁ : Machine (program V n Exc act moved) := { m.store c g with stack := c :: m.stack }
        let m' : Machine (program V n Exc act moved) := m₁.store a f'
        have hf₁ : m₁.heap a = some f := (Function.update_of_ne hca.symm _ _).trans h.frame
        have hok : m.exec = .ok m' := by
          have hread := read_slot h.frame (.inl x)
          rw [hc'] at hread
          have hresume : m.resume c = .ok m₁ := resume_of_enter hc rfl
          have hstart := start_of_some hread hc
          rw [hresume] at hstart
          rw [h.exec hpt]
          unfold Code.next perform
          exact (bind_of_ok hstart _).trans (setPoint_ok hf₁ _)
        have hg : m'.heap c = some g :=
          (Function.update_of_ne hca _ _).trans (Function.update_self _ _ _)
        have hheap : ∀ {y}, y ≠ a → y ≠ c → m'.heap y = m.heap y :=
          fun hya hyc => (Function.update_of_ne hya _ _).trans (Function.update_of_ne hyc _ _)
        have hwaits : Waits m' v false c none (fun o =>
            (denote f.kind k (Function.update E x (.completed o))).bind K) (a :: st) := by
          refine .started (f := f') k (Function.update_self _ _ _) h.noException rfl rfl hc' hw ?_ ?_
          · intro y hy
            refine (h.locals y).frame fun d e hd he => (hheap ?_ ?_).trans he
            · exact fun hda => slot_ne_owner h.owned h.frame (hda ▸ hd)
            · intro hdc
              exact slots_ne h.owned h.frame hc' (fun hyx => hy (Sum.inl.inj hyx)) (hdc ▸ hd)
          · refine h.waits.frame h.owned rfl fun y e he hnb => (hheap ?_ ?_).trans he
            · exact fun hya => hnb (hya ▸ .self)
            · exact fun hyc => hnb (hyc ▸ .held .self rfl (holds_slot h.frame hc'))
        refine ⟨m', hok, rfl, rfl, Or.inl ⟨c, a :: st, ?_, ?_⟩⟩
        · exact congrArg (c :: ·) h.stack
        · rw [Resumption.bind_assoc]
          exact .mk hg rfl rfl (fun _ => .empty) .empty (.body b rfl rfl) hwaits

/-! ### Awaits -/

/-- The handle of the Task local `x` goes into the Awaiter. -/
theorem Head.coAwait {x : Fin n} {k : Outcome Val Exc → Body n Val Exc Op Resp s}
    (h : Head rank m v a st s f E .empty K) (hpt : f.point = .running (.body (.await x k))) :
    ∃ m', m.exec = .ok m' ∧ Follows m m' v ((denote f.kind (.await x k) E).bind K) := by
  let f₁ : Frame (program V n Exc act moved) :=
    { f with slots := Function.update f.slots (.inl x) none }
  let f₂ : Frame (program V n Exc act moved) :=
    { f₁ with slots := Function.update f₁.slots (.inr ()) (f.slots (.inl x)) }
  let f' : Frame (program V n Exc act moved) := { f₂ with point := .running (.awaiting k) }
  let m₁ : Machine (program V n Exc act moved) := m.store a f₁
  let m₂ : Machine (program V n Exc act moved) := m₁.store a f₂
  let m' : Machine (program V n Exc act moved) := m₂.store a f'
  have hf₁ : m₁.heap a = some f₁ := Function.update_self _ _ _
  have hf₂ : m₂.heap a = some f₂ := Function.update_self _ _ _
  have hheap : m'.heap = Function.update m.heap a (some f') := by
    show Function.update (Function.update (Function.update _ _ _) _ _) _ _ = _
    rw [Function.update_idem, Function.update_idem]
  have hexchange : m.exchange (.slot a (.inl x)) = .ok (f.slots (.inl x), m₁) := by
    unfold exchange
    exact (bind_of_ok (read_slot h.frame _) _).trans (bind_of_ok (write_slot h.frame _ _) _)
  have hw₁ : f₁.slots (.inr ()) = f.slots (.inr ()) := rfl
  have hreset : m₁.reset (.slot a (.inr ())) = .ok m₁ := by
    refine reset_of_none ((read_slot hf₁ _).trans (congrArg Except.ok ?_))
    rw [hw₁, h.awaiter.eq_none]
  have hok : m.exec = .ok m' := by
    rw [h.exec hpt]
    unfold Code.next perform
    refine (bind_of_ok hexchange _).trans ((bind_of_ok hreset _).trans ?_)
    exact (bind_of_ok (write_slot hf₁ _ _) _).trans (setPoint_ok hf₂ _)
  have hlocal : ∀ y, f'.slots (.inl y) = f₁.slots (.inl y) := fun y => rfl
  have hslot : ∀ {y}, y ≠ x → f₁.slots (.inl y) = f.slots (.inl y) :=
    fun hy => Function.update_of_ne (fun hyx => hy (Sum.inl.inj hyx)) _ _
  have hx : f₁.slots (.inl x) = none := Function.update_self _ _ _
  have hw : f'.slots (.inr ()) = f.slots (.inl x) := rfl
  have hE : ∀ y, Holds m' s (f'.slots (.inl y)) (Function.update E x .empty y) := by
    intro y
    rw [hlocal]
    by_cases hy : y = x
    · rw [hy, hx, Function.update_self]
      exact .empty
    · rw [hslot hy, Function.update_of_ne hy]
      exact h.holds hheap (h.locals y)
  have hH : Holds m' s (f'.slots (.inr ())) (E x) := by
    rw [hw]
    exact h.holds hheap (h.locals x)
  have hchain : ∀ {t}, At m' f' (Function.update E x .empty) (E x) s t →
      Chain m' v a st (t.bind K) := by
    intro t hat
    refine h.chain rfl (fun y g hg hnb => ?_) (heap_self hheap) h.noException rfl hE hH hat
    exact (heap_of_ne hheap fun hya => hnb (hya ▸ .self)).trans hg
  refine ⟨m', hok, ?_⟩
  unfold denote
  refine ⟨rfl, rfl, Or.inl ⟨a, st, h.stack, ?_⟩⟩
  cases hEx : E x with
  | empty => exact hchain (.awaiting k rfl (by rw [hEx]; rfl))
  | completed o => exact hchain (.awaiting k rfl (by rw [hEx]; rfl))
  | fresh u => exact hchain (.awaitingFresh k rfl hEx)

/-- What an Awaiter reads that holds a completed coroutine or none. -/
theorem Head.ready {o : Outcome Val Exc} (h : Head rank m v a st s f E H K)
    (ho : H.ready = some o) :
    (m.read (.slot a (.inr ())) = .ok none ∧ o = .error .emptyAwait) ∨
      ∃ c g, f.slots (.inr ()) = some c ∧ m.read (.slot a (.inr ())) = .ok (some c) ∧
        m.heap c = some g ∧ g.point = .final ∧ g.outcome = .ok o ∧ ∀ y, g.slots y = none := by
  have hread := read_slot h.frame (.inr ())
  have hw := h.awaiter
  cases H with
  | empty =>
    rw [hw.eq_none] at hread
    exact Or.inl ⟨hread, (Option.some.inj ho).symm⟩
  | fresh u => cases ho
  | completed o' =>
    obtain rfl : o' = o := Option.some.inj ho
    cases hc : f.slots (.inr ()) with
    | none =>
      rw [hc] at hw
      cases hw
    | some c =>
      rw [hc] at hread hw
      cases hw with
      | @completed _ g _ hg hpt hout hbare => exact Or.inr ⟨c, g, rfl, hread, hg, hpt, hout, hbare⟩

theorem Head.awaitReady {o : Outcome Val Exc} {k : Outcome Val Exc → Body n Val Exc Op Resp s}
    (h : Head rank m v a st s f E H K) (hpt : f.point = .running (.awaiting k))
    (ho : H.ready = some o) : ∃ m', m.exec = .ok m' ∧
      Follows m m' v ((Resumption.tau (.tau (.tau (denote f.kind (k o) E)))).bind K) := by
  let f' : Frame (program V n Exc act moved) :=
    { f with point := .resumed () fun r => .dropping (k r) }
  have hready : m.awaitReady (.slot a (.inr ())) = .ok true := by
    rcases h.ready ho with ⟨hread, _⟩ | ⟨c, g, _, hread, hg, hfin, _⟩
    · exact awaitReady_of_none hread
    · rw [awaitReady_of_some hread hg, hfin]
      rfl
  have hok : m.exec = .ok (m.store a f') := (h.exec hpt).trans (await_of_ready h.frame hready)
  refine ⟨_, hok, rfl, rfl, Or.inl ⟨a, st, h.stack, ?_⟩⟩
  exact h.replace rfl rfl rfl h.noException rfl (.resumed k rfl ho)

/-- The awaiting coroutine suspends, and its fresh child runs in its place. -/
theorem Head.awaitFresh {u : Resumption Op Resp (Outcome Val Exc)}
    {k : Outcome Val Exc → Body n Val Exc Op Resp s} (h : Head rank m v a st s f E (.fresh u) K)
    (hpt : f.point = .running (.awaiting k)) : ∃ m', m.exec = .ok m' ∧ Follows m m' v
      ((Resumption.tau (u.bind fun o => .tau (.tau (denote f.kind (k o) E)))).bind K) := by
  have hw := h.awaiter
  cases hc' : f.slots (.inr ()) with
  | none =>
    rw [hc'] at hw
    cases hw
  | some c =>
    rw [hc'] at hw
    cases hw with
    | @fresh _ kind s' b hs hc =>
      have hca : c ≠ a := fun hca => slot_ne_owner h.owned h.frame (hca ▸ hc')
      let g₁ : Frame (program V n Exc act moved) :=
        ⟨kind, ⟨none, none, some a⟩, .initial (.body b), fun _ => none⟩
      let g : Frame (program V n Exc act moved) := { g₁ with point := .running (.body b) }
      let f' : Frame (program V n Exc act moved) :=
        { f with point := .awaiting () fun r => .dropping (k r) }
      let m₁ : Machine (program V n Exc act moved) :=
        { (m.store a f').store c g₁ with stack := st }
      let m' : Machine (program V n Exc act moved) := { m₁.store c g with stack := c :: st }
      have hok : m.exec = .ok m' := by
        rw [h.exec hpt]
        refine (await_of_not_ready h.frame hc' hca hc rfl).trans ?_
        exact resume_of_enter (m := m₁) (Function.update_self _ _ _) rfl
      have hheap : ∀ {y}, y ≠ c → m'.heap y = (m.store a f').heap y :=
        fun hyc => (Function.update_of_ne hyc _ _).trans (Function.update_of_ne hyc _ _)
      have hkeep : ∀ {y}, y ≠ a → y ≠ c → m'.heap y = m.heap y :=
        fun hya hyc => (hheap hyc).trans (Function.update_of_ne hya _ _)
      have hwaits : Waits m' v s' c (some a)
          (fun o => .tau (.tau ((denote f.kind (k o) E).bind K))) st := by
        refine .awaited (f := f') k hs ((hheap hca.symm).trans (Function.update_self _ _ _))
          h.noException rfl rfl hc' ?_ ?_
        · intro y
          refine (h.locals y).frame fun d e hd he => (hkeep ?_ ?_).trans he
          · exact fun hda => slot_ne_owner h.owned h.frame (hda ▸ hd)
          · exact fun hdc => slots_ne h.owned h.frame hc' Sum.inl_ne_inr (hdc ▸ hd)
        · refine h.waits.frame h.owned rfl fun y e he hnb => (hkeep ?_ ?_).trans he
          · exact fun hya => hnb (hya ▸ .self)
          · exact fun hyc => hnb (hyc ▸ .held .self rfl (holds_slot h.frame hc'))
      refine ⟨m', hok, rfl, rfl, Or.inl ⟨c, st, rfl, ?_⟩⟩
      rw [Resumption.bind_assoc]
      exact .mk (Function.update_self _ _ _) rfl rfl (fun _ => .empty) .empty (.body b rfl rfl)
        hwaits

/-- `await_resume()` gives what the Awaiter holds. -/
theorem Head.resumed {o : Outcome Val Exc} {k : Outcome Val Exc → Body n Val Exc Op Resp s}
    (h : Head rank m v a st s f E H K) (hpt : f.point = .resumed () fun r => .dropping (k r))
    (ho : H.ready = some o) : ∃ m', m.exec = .ok m' ∧
      Follows m m' v ((Resumption.tau (.tau (denote f.kind (k o) E))).bind K) := by
  let f' : Frame (program V n Exc act moved) := { f with point := .running (.dropping (k o)) }
  have hexec := exec_of_resumed h.stack h.frame hpt
  rcases h.ready ho with ⟨hread, rfl⟩ | ⟨c, g, hc, hread, hg, hfin, hout, hbare⟩
  · have hok : m.exec = .ok (m.store a f') :=
      hexec.trans ((bind_of_ok (awaitResume_of_none hread) _).trans (setPoint_ok h.frame _))
    refine ⟨_, hok, rfl, rfl, Or.inl ⟨a, st, h.stack, ?_⟩⟩
    exact h.replace rfl rfl rfl h.noException rfl (.dropping _ rfl ho)
  · -- The value is moved out of the completed child, which stays completed.
    have hca : c ≠ a := fun hca => slot_ne_owner h.owned h.frame (hca ▸ hc)
    let m₁ : Machine (program V n Exc act moved) := m.store c g.moveOut
    let m' : Machine (program V n Exc act moved) := m₁.store a f'
    have hf₁ : m₁.heap a = some f := (Function.update_of_ne hca.symm _ _).trans h.frame
    have hresume : m.awaitResume (.slot a (.inr ())) = .ok (o, m₁) := by
      rw [awaitResume_of_some hread hg, hout]
      rfl
    have hok : m.exec = .ok m' :=
      hexec.trans ((bind_of_ok hresume _).trans (setPoint_ok hf₁ _))
    have hkeep : ∀ {y}, y ≠ a → y ≠ c → m'.heap y = m.heap y :=
      fun hya hyc => (Function.update_of_ne hya _ _).trans (Function.update_of_ne hyc _ _)
    obtain ⟨o', hout'⟩ := moveOut_outcome hout
    have hH : Holds m' s (f'.slots (.inr ())) (.completed o' : Content Val Exc Op Resp) := by
      show Holds m' s (f.slots (.inr ())) _
      rw [hc]
      refine .completed ((Function.update_of_ne hca _ _).trans (Function.update_self _ _ _))
        (g.moveOut_point.trans hfin) hout' fun y => ?_
      rw [g.moveOut_slots]
      exact hbare y
    have hE : ∀ y, Holds m' s (f'.slots (.inl y)) (E y) := by
      intro y
      refine (h.locals y).frame fun d e hd he => (hkeep ?_ ?_).trans he
      · exact fun hda => slot_ne_owner h.owned h.frame (hda ▸ hd)
      · exact fun hdc => slots_ne h.owned h.frame hc Sum.inl_ne_inr (hdc ▸ hd)
    refine ⟨m', hok, rfl, rfl, Or.inl ⟨a, st, h.stack, ?_⟩⟩
    refine h.chain rfl (fun y e he hnb => (hkeep ?_ ?_).trans he) (Function.update_self _ _ _)
      h.noException rfl hE hH (.dropping _ rfl rfl)
    · exact fun hya => hnb (hya ▸ .self)
    · exact fun hyc => hnb (hyc ▸ .held .self rfl (holds_slot h.frame hc))

/-- The Awaiter is destroyed, with the child it holds. -/
theorem Head.dropping {b : Body n Val Exc Op Resp s} (h : Head rank m v a st s f E H K)
    (hpt : f.point = .running (.dropping b)) :
    ∃ m', m.exec = .ok m' ∧ Follows m m' v ((Resumption.tau (denote f.kind b E)).bind K) := by
  have hnext : 0 < m.next := Nat.zero_lt_of_lt (h.owned.lt_next ⟨f, h.frame⟩)
  obtain ⟨m₁, hreset, hrest, hf₁, hkeep⟩ :=
    reset_held h.frame h.awaiter (slot_ne_owner h.owned h.frame) hnext
  let f' : Frame (program V n Exc act moved) :=
    { f with slots := Function.update f.slots (.inr ()) none, point := .running (.body b) }
  let m' : Machine (program V n Exc act moved) := m₁.store a f'
  have hok : m.exec = .ok m' := by
    rw [h.exec hpt]
    unfold Code.next perform
    exact (bind_of_ok hreset _).trans (setPoint_ok hf₁ _)
  have hheap : ∀ {y g}, m.heap y = some g → y ≠ a → f.slots (.inr ()) ≠ some y →
      m'.heap y = some g :=
    fun hg hya hyc => (Function.update_of_ne hya _ _).trans ((hkeep _ hya hyc).trans hg)
  have hE : ∀ y, Holds m' s (f'.slots (.inl y)) (E y) := by
    intro y
    have hy : f'.slots (.inl y) = f.slots (.inl y) := rfl
    rw [hy]
    refine (h.locals y).frame fun d e hd he => hheap he ?_ ?_
    · exact fun hda => slot_ne_owner h.owned h.frame (hda ▸ hd)
    · exact slots_ne h.owned h.frame hd Sum.inr_ne_inl
  have hH : Holds m' s (f'.slots (.inr ())) (.empty : Content Val Exc Op Resp) := by
    have hw : f'.slots (.inr ()) = none := rfl
    rw [hw]
    exact .empty
  refine ⟨m', hok, hrest.mem, hrest.log, Or.inl ⟨a, st, hrest.stack.trans h.stack, ?_⟩⟩
  refine h.chain hrest.vars (fun y e he hnb => hheap he ?_ ?_) (Function.update_self _ _ _)
    h.noException rfl hE hH (.body b rfl rfl)
  · exact fun hya => hnb (hya ▸ .self)
  · exact fun hyc => hnb (.held .self rfl (holds_slot h.frame hyc))

/-! ### The end of a body -/

/-- A body leaves its scope, with the promise of its frame changed before. -/
theorem Head.leave (h : Head rank m v a st s f E H K) {p : Promise (program V n Exc act moved)} :
    ∃ m₁, (m.store a { f with promise := p }).leaveScope a = .ok m₁ ∧ SameRest m m₁ ∧
      m₁.heap a = some { f with promise := p, slots := fun _ => none } ∧
      ∀ x g, m.heap x = some g → ¬ Below Place.home m.graph a x → m₁.heap x = some g := by
  let f₁ : Frame (program V n Exc act moved) := { f with promise := p }
  have hf₁ : (m.store a f₁).heap a = some f₁ := Function.update_self _ _ _
  have hsame : SameHandles m (m.store a f₁) := sameHandles_replace h.frame rfl rfl rfl rfl rfl
  obtain ⟨m₁, hok, hrest, hf', hkeep⟩ := leaveScope_local (h.owned.sameHandles hsame) hf₁ (by
    intro r g hg hr
    rcases heap_cases rfl hg with ⟨rfl, _⟩ | ⟨_, hg⟩
    · exact Nat.le_refl _
    · exact h.linked.rank_le h.owned h.stack hg hr)
  refine ⟨m₁, hok, ⟨hrest.vars, hrest.stack, hrest.mem, hrest.log⟩, hf', fun x g hg hnb => ?_⟩
  have hxa : x ≠ a := fun hxa => hnb (hxa ▸ .self)
  refine hkeep x g ((Function.update_of_ne hxa _ _).trans hg) ?_
  rw [graph_ext hsame.live hsame.holds]
  exact hnb

/-- A coroutine completes: the one that awaits it goes on, or the one that started
it, or the Task has completed. -/
theorem Head.complete {m₁ : Machine (program V n Exc act moved)} {o : Outcome Val Exc}
    (h : Head rank m v a st s f E H K) (hrest : SameRest m m₁) (hf' : m₁.heap a = some f')
    (hcont : f'.promise.continuation = f.promise.continuation) (hout : f'.outcome = .ok o)
    (hbare : ∀ x, f'.slots x = none)
    (hkeep : ∀ x g, m.heap x = some g → ¬ Below Place.home m.graph a x → m₁.heap x = some g) :
    ∃ m', m₁.finalSuspend a st = .ok m' ∧ m'.mem = m.mem ∧ m'.log = m.log ∧
      Goes m' v (K o) := by
  let f₂ : Frame (program V n Exc act moved) := { f' with point := .final }
  let m₂ : Machine (program V n Exc act moved) := { m₁.store a f₂ with stack := st }
  have hf₂ : m₂.heap a = some f₂ := Function.update_self _ _ _
  have hcomplete : ∀ {m' : Machine (program V n Exc act moved)} {s' : Bool},
      m'.heap a = some f₂ → Holds m' s' (some a) (.completed o : Content Val Exc Op Resp) :=
    fun hf => .completed hf rfl hout hbare
  have hkeep₂ : ∀ {x g}, m.heap x = some g → ¬ Below Place.home m.graph a x →
      m₂.heap x = some g := by
    intro x g hg hnb
    have hxa : x ≠ a := fun hxa => hnb (hxa ▸ .self)
    exact (Function.update_of_ne hxa _ _).trans (hkeep x g hg hnb)
  have heq : m₁.finalSuspend a st = _ := finalSuspend_eq hf'
  have hwaits := h.waits
  rw [← hcont] at hwaits
  rw [heq]
  generalize f'.promise.continuation = cont at hwaits ⊢
  cases hwaits with
  | root hv =>
    refine ⟨m₂, rfl, hrest.mem, hrest.log, Or.inr ⟨o, rfl, rfl, a, ?_, hcomplete hf₂⟩⟩
    exact (congrFun hrest.vars v).trans hv
  | @awaited _ _ p _ fp E' cont K' _ k hs hfp hexc hcont' hpt hw hE hwaits =>
    have hnb : ∀ {x}, Below Place.home m.graph a x → Below Place.home m.graph p x := by
      intro x hx
      have hpa : Below Place.home m.graph p a := .held .self rfl (holds_slot hfp hw)
      exact hpa.trans hx
    have hpa : p ≠ a := by
      rintro rfl
      exact not_below_owner h.owned hfp hw .self
    have hfp₂ : m₂.heap p = some fp := hkeep₂ hfp (not_below_owner h.owned hfp hw)
    let fp' : Frame (program V n Exc act moved) :=
      { fp with point := .resumed () fun r => .dropping (k r) }
    let m' : Machine (program V n Exc act moved) := { m₂.store p fp' with stack := p :: st }
    have hok : m₂.resume p = .ok m' := resume_of_enter hfp₂ (by rw [hpt]; rfl)
    refine ⟨m', hok, hrest.mem, hrest.log, Or.inl ⟨p, st, rfl, ?_⟩⟩
    refine .mk (s := _) (f := fp') (E := E') (H := .completed o)
      (Function.update_self _ _ _) hexc hcont' (fun y => ?_) ?_ (.resumed k rfl rfl) ?_
    · refine (hE y).frame fun c g hc hg => ?_
      have hcp : c ≠ p := fun hcp => slot_ne_owner h.owned hfp (hcp ▸ hc)
      exact (Function.update_of_ne hcp _ _).trans
        (hkeep₂ hg (not_below_sibling h.owned hfp hw hc Sum.inr_ne_inl))
    · show Holds m' _ (fp.slots (.inr ())) _
      rw [hw]
      exact hcomplete ((Function.update_of_ne hpa.symm _ _).trans hf₂)
    · refine hwaits.frame h.owned (congrFun hrest.vars v) fun x g hg hx => ?_
      have hxp : x ≠ p := fun hxp => hx (hxp ▸ .self)
      exact (Function.update_of_ne hxp _ _).trans (hkeep₂ hg fun hb => hx (hnb hb))
  | @started _ p _ fp x E' cont K' st k hfp hexc hcont' hpt hx hw hE hwaits =>
    have hnb : ∀ {y}, Below Place.home m.graph a y → Below Place.home m.graph p y := by
      intro y hy
      have hpa : Below Place.home m.graph p a := .held .self rfl (holds_slot hfp hx)
      exact hpa.trans hy
    refine ⟨m₂, rfl, hrest.mem, hrest.log, Or.inl ⟨p, st, rfl, ?_⟩⟩
    refine .mk (E := Function.update E' x (.completed o)) (H := .empty)
      (hkeep₂ hfp (not_below_owner h.owned hfp hx)) hexc hcont' (fun y => ?_) ?_ (.body k hpt rfl) ?_
    · by_cases hy : y = x
      · subst hy
        rw [hx, Function.update_self]
        exact hcomplete hf₂
      · rw [Function.update_of_ne hy]
        refine (hE y hy).frame fun c g hc hg => hkeep₂ hg ?_
        exact not_below_sibling h.owned hfp hx hc fun hxy => hy (Sum.inl.inj hxy).symm
    · rw [hw]
      exact .empty
    · exact hwaits.frame h.owned (congrFun hrest.vars v) fun y g hg hy =>
        hkeep₂ hg fun hb => hy (hnb hb)

theorem Head.throw {e : Exn Exc} (h : Head rank m v a st s f E .empty K)
    (hpt : f.point = .running (.body (.throw e : Body n Val Exc Op Resp s))) :
    ∃ m', m.exec = .ok m' ∧
      Follows m m' v ((denote f.kind (.throw e : Body n Val Exc Op Resp s) E).bind K) := by
  obtain ⟨m₁, hleave, hrest, hf₁, hkeep⟩ := h.leave (p := f.promise)
  have hstore : m.store a f = m := by
    unfold store
    rw [Function.update_eq_self_iff.mpr h.frame.symm]
  have hleave : m.leaveScope a = .ok m₁ := by
    rw [← hleave]
    exact congrArg (fun m => leaveScope m a) hstore.symm
  let f' : Frame (program V n Exc act moved) :=
    { f with promise := { f.promise with exception := some e }, slots := fun _ => none }
  have hkeep' : ∀ x g, m.heap x = some g → ¬ Below Place.home m.graph a x →
      (m₁.store a f').heap x = some g := by
    intro x g hg hnb
    have hxa : x ≠ a := fun hxa => hnb (hxa ▸ .self)
    exact (Function.update_of_ne hxa _ _).trans (hkeep x g hg hnb)
  have hrest' : SameRest m (m₁.store a f') := ⟨hrest.vars, hrest.stack, hrest.mem, hrest.log⟩
  obtain ⟨m', hfinal, hmem, hlog, hgoes⟩ := h.complete (o := .error e) hrest' (Function.update_self _ _ _) rfl rfl
    (fun _ => rfl) hkeep'
  refine ⟨m', ?_, hmem, hlog, hgoes⟩
  rw [h.exec hpt]
  unfold Code.next perform
  exact (bind_of_ok hleave _).trans ((bind_of_ok (unhandledException_ok hf₁ e) _).trans hfinal)

/-- `co_return` stores a value and completes, or goes on with the handler of what
the construction of the value throws. -/
theorem Head.coReturn {r : Except (Exn Exc) Val} {k : Exn Exc → Body n Val Exc Op Resp s}
    (h : Head rank m v a st s f E .empty K)
    (hpt : f.point = .running (.body (.coReturn r k))) :
    ∃ m', m.exec = .ok m' ∧ Follows m m' v ((denote f.kind (.coReturn r k) E).bind K) := by
  have hexec : m.exec = m.perform a st (.coReturn r fun e => .body (k e)) := h.exec hpt
  rw [coReturn_eq h.frame] at hexec
  -- Nothing is thrown: the promise `p` has the outcome `o`.
  have hreturn : ∀ {p : Promise (program V n Exc act moved)} {o : Outcome Val Exc},
      returnValue f r = ({ f with promise := p }, none) →
      p.continuation = f.promise.continuation →
      ({ f with promise := p } : Frame (program V n Exc act moved)).outcome = .ok o →
      ∃ m', m.exec = .ok m' ∧ m'.mem = m.mem ∧ m'.log = m.log ∧ Goes m' v (K o) := by
    intro p o hr hcont hout
    obtain ⟨m₁, hleave, hrest, hf₁, hkeep⟩ := h.leave (p := p)
    obtain ⟨m', hfinal, hgoes⟩ := h.complete hrest hf₁ hcont hout (fun _ => rfl) hkeep
    rw [hr] at hexec
    exact ⟨m', hexec.trans ((bind_of_ok hleave _).trans hfinal), hgoes⟩
  unfold denote
  cases hk : f.kind with
  | void =>
    have hr : returnValue f r = (f, none) := by cases r <;> simp [returnValue, hk]
    obtain ⟨m', hok, hgoes⟩ := hreturn (p := f.promise) (o := .ok none) hr rfl
      (by simp [Frame.outcome, h.noException, hk])
    exact ⟨m', hok, hgoes⟩
  | value =>
    cases r with
    | ok w =>
      obtain ⟨m', hok, hgoes⟩ := hreturn (p := { f.promise with value := some w })
        (o := .ok (some w)) (by simp [returnValue, hk]) rfl
        (by simp [Frame.outcome, h.noException, hk])
      exact ⟨m', hok, hgoes⟩
    | error e =>
      let f₁ : Frame (program V n Exc act moved) :=
        { f with promise := { f.promise with value := none } }
      let f' : Frame (program V n Exc act moved) := { f₁ with point := .running (.body (k e)) }
      have hr : returnValue f (.error e) = (f₁, some e) := by simp [returnValue, hk, f₁]
      have hf₁ : (m.store a f₁).heap a = some f₁ := Function.update_self _ _ _
      have hheap : ((m.store a f₁).store a f').heap = Function.update m.heap a (some f') := by
        show Function.update (Function.update _ _ _) _ _ = _
        rw [Function.update_idem]
      rw [hr] at hexec
      refine ⟨_, hexec.trans (setPoint_ok hf₁ _), rfl, rfl, Or.inl ⟨a, st, h.stack, ?_⟩⟩
      have hat := At.body (m := (m.store a f₁).store a f') (f := f') (E := E)
        (k e) rfl (rfl : (.empty : Content Val Exc Op Resp) = .empty)
      rw [show f'.kind = .value from hk] at hat
      exact h.replace rfl hheap rfl h.noException rfl hat

/-- A statement of the innermost frame resumes no awaiting coroutine: a variable
holds a fresh coroutine, a completed one or none. -/
theorem Head.disciplined (h : Head rank m v a st s f E H K) : Disciplined m .exec := by
  have hidle : ∀ {y C}, Holds m s (f.slots y) C → m.NotAwaiting (.slot a y) := by
    intro y C hy c g hc hg
    obtain ⟨f₁, hf₁, hc⟩ := hc
    obtain rfl : f = f₁ := Option.some.inj (h.frame.symm.trans hf₁)
    rw [hc] at hy
    cases hy with
    | fresh b hs hc' =>
      rw [Option.some.inj (hg.symm.trans hc')]
      rfl
    | completed hc' hpt hout hbare =>
      rw [Option.some.inj (hg.symm.trans hc'), hpt]
      rfl
  intro p hp
  obtain ⟨a', rest, f₁, c, hst, _, _, rfl⟩ := current_eq_some hp
  obtain ⟨rfl, _⟩ := List.cons.inj (h.stack.symm.trans hst)
  cases hi : (program V n Exc act moved).next c with
  | start x k => exact hidle (h.locals x)
  | await w k => exact hidle h.awaiter
  | _ => trivial

end Head

/-- Every instruction of a running Task performs the next node of its resumption. -/
theorem exec_follows {m : Machine (program V n Exc act moved)} {v : V}
    {t : Resumption Op Resp (Outcome Val Exc)} (h : Inv m) (hruns : Runs m v t) :
    ∃ m', m.exec = .ok m' ∧ Inv m' ∧ Follows m m' v t := by
  have hinv := h
  obtain ⟨rank, ho, hl⟩ := h
  obtain ⟨a, st, hst, hchain⟩ := hruns
  cases hchain with
  | @mk s f E H cont K t hf hexc hcont hE hH hat hwaits =>
    have head : Head rank m v a st s f E H K :=
      ⟨ho, hl, hst, hf, hexc, hE, hH, hcont ▸ hwaits⟩
    have hrun : f.point.isRunning = true := (hl.running_iff hf).mpr (hst ▸ List.mem_cons_self)
    suffices ∃ m', m.exec = .ok m' ∧ Follows m m' v (t.bind K) by
      obtain ⟨m', hok, hfollows⟩ := this
      obtain ⟨m'', hok', hinv'⟩ := exec_ok hinv head.disciplined
      obtain rfl : m'' = m' := Except.ok.inj (hok'.symm.trans hok)
      exact ⟨m'', hok, hinv', hfollows⟩
    cases hat with
    | initial b hpt _ => rw [hpt] at hrun; cases hrun
    | external b hpt _ => rw [hpt] at hrun; cases hrun
    | body b hpt hempty =>
      subst hempty
      cases b with
      | effect op k => exact head.effect hpt
      | suspend k => exact head.suspend hpt
      | call x kind b k => exact head.callBody hpt
      | callStarted x kind b k => exact head.callStarted hpt
      | await x k => exact head.coAwait hpt
      | coReturn r k => exact head.coReturn hpt
      | throw e => exact head.throw hpt
    | starting k hpt hempty hx hfresh =>
      subst hempty
      exact head.starting hpt hfresh
    | awaiting k hpt hready => exact head.awaitReady hpt hready
    | awaitingFresh k hpt hfresh =>
      subst hfresh
      exact head.awaitFresh hpt
    | resumed k hpt hready => exact head.resumed hpt hready
    | dropping b hpt _ => exact head.dropping hpt

end VixStandard.Task
