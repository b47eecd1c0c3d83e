import VixStandard.Task.Discipline

/-!
# Owners of frames in every run

The forest of frames does not depend on the discipline of resumption: it is kept by
every step that does not fault, whatever the bodies and the driver do.

* The operations on handles that succeed keep the forest (`bindArgs_of_ok`,
  `leaveScope_of_ok`, and those of the Task operations), and `SameHandles` holds of those
  that only change points and promises.
* `perform_owning` and `drive_owning` assemble these lemmas for the instructions of a
  body and for the operations of the driver, and `step_owning` is the step lemma.
-/

namespace VixStandard.Task

open VixStandard.Lib.Ownership Machine

variable {L : Lang}

/-- The frames form an ownership forest. -/
def Owning (m : Machine L) : Prop := ∃ rank, Owned rank m []

variable {rank : Addr → Nat} {temps : List Addr} {m m' : Machine L} {a : Addr} {p q : Place L}

/-! ## Operations that succeed -/

theorem destroyAll_of_ok {work : List Addr} (h : Owned rank m (work ++ temps))
    (hok : destroyAll m.next work m = .ok m') : Owned rank m' temps := by
  obtain ⟨m₁, hok₁, ho₁, _⟩ := destroyAll_of_atRest h (atRest_of_destroyAll hok)
  obtain rfl : m₁ = m' := Except.ok.inj (hok₁.symm.trans hok)
  exact ho₁

/-- Binding the arguments of a call to the new frame `n`, which ranks below them. -/
theorem bindArgs_of_ok {n : Addr} {args : List (L.Local × Place L)} :
    ∀ {m : Machine L}, Owned rank m (n :: temps) →
      (∀ arg ∈ args, ∀ c, m.graph.holds arg.2 c → rank n < rank c) →
      bindArgs n args m = .ok m' →
      Owned rank m' (n :: temps) ∧
        ∀ r c, r.home ≠ some n → m'.graph.holds r c → m.graph.holds r c := by
  induction args with
  | nil =>
    intro m h _ hok
    obtain rfl := Except.ok.inj hok
    exact ⟨h, fun r c _ hc => hc⟩
  | cons arg args ih =>
    intro m h hargs hok
    obtain ⟨x, q⟩ := arg
    obtain ⟨m₁, hmove, hok⟩ := bind_eq_ok hok
    have hq := hargs (x, q) List.mem_cons_self
    obtain ⟨ho₁, _, hholds₁, _⟩ := moveAssign_of_ok h (fun b c hb hc => by
      obtain rfl : n = b := Option.some.inj hb
      exact hq c hc) hmove
    obtain ⟨ho', hkeep⟩ := ih ho₁ (fun arg harg c hc => by
      rcases hholds₁ _ c hc with hc | ⟨_, hc⟩
      · exact hargs arg (List.mem_cons_of_mem _ harg) c hc
      · exact hq c hc) hok
    refine ⟨ho', fun r c hr hc => ?_⟩
    rcases hholds₁ r c (hkeep r c hr hc) with hc | ⟨rfl, _⟩
    · exact hc
    · exact absurd rfl hr

theorem leaveScope_of_ok (h : Owned rank m temps) (hok : m.leaveScope a = .ok m') :
    Owned rank m' temps := by
  obtain ⟨f, hf, hok⟩ := bind_eq_ok hok
  exact destroyAll_of_ok (leave_spec h (frame_eq_ok hf)).1 hok

/-! ## Operations that own nothing -/

theorem sameHandles_store {f f' : Frame L} (hf : m.heap a = some f) (hslots : f'.slots = f.slots) :
    SameHandles m (m.store a f') := sameHandles_replace hf rfl hslots rfl rfl rfl

theorem sameHandles_setPoint {pt : Point L} (hok : m.setPoint a pt = .ok m') :
    SameHandles m m' := by
  obtain ⟨f, hf, hok⟩ := bind_eq_ok hok
  exact Except.ok.inj hok ▸ sameHandles_store (frame_eq_ok hf) rfl

theorem sameHandles_resume (hok : m.resume a = .ok m') : SameHandles m m' := by
  obtain ⟨f, hf, hok⟩ := bind_eq_ok hok
  split at hok
  · exact Except.ok.inj hok ▸ sameHandles_replace (frame_eq_ok hf) rfl rfl rfl rfl rfl
  · cases hok

theorem sameHandles_start {r : Except (Exn L.Exc) Unit} (hok : m.start p = .ok (r, m')) :
    SameHandles m m' := by
  obtain ⟨o, _, hok⟩ := bind_eq_ok hok
  cases o with
  | none => exact (Prod.mk.inj (Except.ok.inj hok)).2 ▸ ⟨fun _ => rfl, rfl, rfl, rfl⟩
  | some c =>
    obtain ⟨f, _, hok⟩ := bind_eq_ok hok
    split at hok
    · exact (Prod.mk.inj (Except.ok.inj hok)).2 ▸ ⟨fun _ => rfl, rfl, rfl, rfl⟩
    · obtain ⟨m₁, hresume, hok⟩ := bind_eq_ok hok
      exact (Prod.mk.inj (Except.ok.inj hok)).2 ▸ sameHandles_resume hresume

theorem sameHandles_awaitSuspend {c b : Addr} (hok : m.awaitSuspend p b = .ok (c, m')) :
    SameHandles m m' := by
  obtain ⟨o, _, hok⟩ := bind_eq_ok hok
  cases o with
  | none => cases hok
  | some d =>
    obtain ⟨f, hf, hok⟩ := bind_eq_ok hok
    exact (Prod.mk.inj (Except.ok.inj hok)).2 ▸ sameHandles_store (frame_eq_ok hf) rfl

theorem sameHandles_awaitResume {r : L.Outcome} (hok : m.awaitResume p = .ok (r, m')) :
    SameHandles m m' := by
  obtain ⟨o, _, hok⟩ := bind_eq_ok hok
  cases o with
  | none => exact (Prod.mk.inj (Except.ok.inj hok)).2 ▸ ⟨fun _ => rfl, rfl, rfl, rfl⟩
  | some c =>
    obtain ⟨f, hf, hok⟩ := bind_eq_ok hok
    obtain ⟨_, _, hok⟩ := bind_eq_ok hok
    exact (Prod.mk.inj (Except.ok.inj hok)).2 ▸
      sameHandles_store (frame_eq_ok hf) (Frame.moveOut_slots f)

theorem sameHandles_unhandledException {e : Exn L.Exc}
    (hok : m.unhandledException a e = .ok m') : SameHandles m m' := by
  obtain ⟨f, hf, hok⟩ := bind_eq_ok hok
  exact Except.ok.inj hok ▸ sameHandles_store (frame_eq_ok hf) rfl

theorem sameHandles_withStack (m : Machine L) (rest : List Addr) :
    SameHandles m { m with stack := rest } := ⟨fun _ => rfl, rfl, rfl, rfl⟩

theorem sameHandles_finalSuspend {rest : List Addr} (hok : m.finalSuspend a rest = .ok m') :
    SameHandles m m' := by
  obtain ⟨m₁, hset, hok⟩ := bind_eq_ok hok
  obtain ⟨f, _, hok⟩ := bind_eq_ok hok
  have h₁ := (sameHandles_setPoint hset).trans (sameHandles_withStack m₁ rest)
  split at hok
  · exact Except.ok.inj hok ▸ h₁
  · exact h₁.trans (sameHandles_resume hok)

/-! ## One step -/

theorem Owned.owning (h : Owned rank m []) (hs : SameHandles m m') : Owning m' :=
  ⟨rank, h.sameHandles hs⟩

/-- What a variable of `a` holds ranks above `a`. -/
theorem Owned.slot_lt (h : Owned rank m temps) {s : Slot L} {b c : Addr}
    (hb : (Place.slot a s : Place L).home = some b) {t : Slot L}
    (hc : m.graph.holds (.slot a t) c) : rank b < rank c :=
  (Option.some.inj hb : a = b) ▸ h.forest.ranked hc rfl

theorem moveAssign_owning {s t : Slot L} {code : L.Code} {m₁ : Machine L} (h : Owned rank m [])
    (hmove : m.moveAssign (.slot a s) (.slot a t) = .ok m₁) (hok : m₁.goto a code = .ok m') :
    Owning m' :=
  (moveAssign_of_ok h (fun _ _ hb hc => h.slot_lt hb hc) hmove).1.owning (sameHandles_setPoint hok)

/-- A call: the new frame ranks just above the caller, and below all that the caller
owned. -/
theorem call_owning {x : L.Local} {kind : Kind} {body code : L.Code}
    {args : List (L.Local × L.Local)} {m₁ m₂ m₃ : Machine L} (h : Owned rank m [])
    (ha : m.graph.live a)
    (hbind : bindArgs m.next (args.map fun p => (p.1, .slot a (.inl p.2)))
      (m.create kind body).2 = .ok m₁)
    (hreset : m₁.reset (.slot a (.inl x)) = .ok m₂)
    (hwrite : m₂.write (.slot a (.inl x)) (some m.next) = .ok m₃)
    (hok : m₃.goto a code = .ok m') : Owning m' := by
  obtain ⟨rank', ho₀, hlt, habove⟩ := create_above h ha kind body
  have hargs : ∀ arg ∈ args.map fun p => (p.1, Place.slot a (.inl p.2)), ∀ c,
      (m.create kind body).2.graph.holds arg.2 c → rank' m.next < rank' c := by
    intro arg harg c hc
    obtain ⟨p, _, rfl⟩ := List.mem_map.mp harg
    have hc' := (create_holds h kind body _ c).mp hc
    exact habove c (h.forest.held_live hc') (h.forest.ranked hc' rfl)
  obtain ⟨ho₁, _⟩ := bindArgs_of_ok ho₀ hargs hbind
  obtain ⟨ho₂, _, hholds₂, _⟩ := reset_of_ok ho₁ hreset
  have hempty : ∀ b, ¬ m₂.graph.holds (.slot a (.inl x)) b := fun b hb =>
    ((hholds₂ _ b).mp hb).1 rfl
  have ho₂' : Owned rank' m₂ ((some m.next).toList ++ []) := ho₂
  obtain ⟨ho₃, _⟩ := store_of_ok ho₂' hempty (fun b c hb hc => by
    obtain rfl : a = b := Option.some.inj hb
    obtain rfl : m.next = c := Option.some.inj hc
    exact hlt) hwrite
  exact ho₃.owning (sameHandles_setPoint hok)

/-- A statement that does not fault keeps the forest. -/
theorem perform_owning {rest : List Addr} (h : Owned rank m []) (ha : m.graph.live a)
    {i : Instr L.Code L.Local L.Aw L.Val L.Exc L.Op L.Resp} (hok : m.perform a rest i = .ok m') :
    Owning m' := by
  cases i with
  | effect op k =>
    have hs : SameHandles m { m with mem := (L.act op m.mem).2, log := m.log ++ [op] } :=
      ⟨fun _ => rfl, rfl, rfl, rfl⟩
    exact h.owning (hs.trans (sameHandles_setPoint hok))
  | suspend k =>
    obtain ⟨m₁, hset, hok⟩ := bind_eq_ok hok
    obtain rfl := Except.ok.inj hok
    exact h.owning ((sameHandles_setPoint hset).trans (sameHandles_withStack m₁ rest))
  | call x kind body args k =>
    obtain ⟨m₁, hbind, hok⟩ := bind_eq_ok hok
    obtain ⟨m₂, hreset, hok⟩ := bind_eq_ok hok
    obtain ⟨m₃, hwrite, hok⟩ := bind_eq_ok hok
    exact call_owning h ha hbind hreset hwrite hok
  | move x y k =>
    obtain ⟨m₁, hmove, hok⟩ := bind_eq_ok hok
    exact moveAssign_owning h hmove hok
  | drop x k =>
    obtain ⟨m₁, hreset, hok⟩ := bind_eq_ok hok
    exact (reset_of_ok h hreset).1.owning (sameHandles_setPoint hok)
  | start x k =>
    obtain ⟨⟨r, m₁⟩, hstart, hok⟩ := bind_eq_ok hok
    exact h.owning ((sameHandles_start hstart).trans (sameHandles_setPoint hok))
  | done x k =>
    obtain ⟨b, _, hok⟩ := bind_eq_ok hok
    exact h.owning (sameHandles_setPoint hok)
  | result x k =>
    obtain ⟨r, _, hok⟩ := bind_eq_ok hok
    exact h.owning (sameHandles_setPoint hok)
  | coAwait w x k =>
    obtain ⟨⟨o, m₁⟩, hex, hok⟩ := bind_eq_ok hok
    obtain ⟨m₂, hreset, hok⟩ := bind_eq_ok hok
    obtain ⟨m₃, hwrite, hok⟩ := bind_eq_ok hok
    obtain ⟨ho₁, _, hread, _⟩ := exchange_of_ok h hex
    obtain ⟨ho₂, _, hholds₂, _⟩ := reset_of_ok ho₁ hreset
    have hempty : ∀ b, ¬ m₂.graph.holds (.slot a (.inr w)) b := fun b hb =>
      ((hholds₂ _ b).mp hb).1 rfl
    obtain ⟨ho₃, _⟩ := store_of_ok ho₂ hempty
      (fun b c hb hc => h.slot_lt hb ((hread c).mpr hc)) hwrite
    exact ho₃.owning (sameHandles_setPoint hok)
  | moveAwaiter w v k =>
    obtain ⟨m₁, hmove, hok⟩ := bind_eq_ok hok
    exact moveAssign_owning h hmove hok
  | dropAwaiter w k =>
    obtain ⟨m₁, hreset, hok⟩ := bind_eq_ok hok
    exact (reset_of_ok h hreset).1.owning (sameHandles_setPoint hok)
  | await w k =>
    obtain ⟨ready, _, hok⟩ := bind_eq_ok hok
    cases ready with
    | true => exact h.owning (sameHandles_setPoint hok)
    | false =>
      obtain ⟨m₁, hset, hok⟩ := bind_eq_ok hok
      obtain ⟨⟨c, m₂⟩, hsuspend, hok⟩ := bind_eq_ok hok
      have hs := (sameHandles_setPoint hset).trans (sameHandles_awaitSuspend hsuspend)
      exact h.owning (hs.trans ((sameHandles_withStack m₂ rest).trans (sameHandles_resume hok)))
  | coReturn r k =>
    obtain ⟨f, hf⟩ := ha
    rw [coReturn_eq hf] at hok
    have hs : SameHandles m (m.store a (returnValue f r).1) :=
      sameHandles_store hf (by rw [(returnValue_frame f r).1])
    split at hok
    · exact h.owning (hs.trans (sameHandles_setPoint hok))
    · obtain ⟨m₁, hleave, hok⟩ := bind_eq_ok hok
      exact (leaveScope_of_ok (h.sameHandles hs) hleave).owning (sameHandles_finalSuspend hok)
  | throw e =>
    obtain ⟨m₁, hleave, hok⟩ := bind_eq_ok hok
    obtain ⟨m₂, hexn, hok⟩ := bind_eq_ok hok
    exact (leaveScope_of_ok h hleave).owning
      ((sameHandles_unhandledException hexn).trans (sameHandles_finalSuspend hok))

theorem exec_owning (h : Owned rank m []) (hok : m.exec = .ok m') : Owning m' := by
  rw [exec] at hok
  split at hok
  · exact Except.ok.inj hok ▸ ⟨rank, h⟩
  · obtain ⟨f, hf, hok⟩ := bind_eq_ok hok
    have hf := frame_eq_ok hf
    split at hok
    · exact perform_owning h ⟨f, hf⟩ hok
    · obtain ⟨⟨r, m₁⟩, hresume, hok⟩ := bind_eq_ok hok
      exact h.owning ((sameHandles_awaitResume hresume).trans (sameHandles_setPoint hok))
    · cases hok

/-- An operation of the driver that does not fault keeps the forest. -/
theorem drive_owning (h : Owned rank m []) {op : DriverOp L} (hen : op.Enabled m)
    (hok : m.drive op = .ok m') : Owning m' := by
  cases op with
  | create v kind body args =>
    obtain ⟨m₁, hbind, hwrite⟩ := bind_eq_ok hok
    obtain ⟨rank', ho₀, hlowest⟩ := create_lowest h kind body
    have hargs : ∀ arg ∈ args.map fun p => (p.1, (Place.var p.2 : Place L)), ∀ c,
        (m.create kind body).2.graph.holds arg.2 c → rank' m.next < rank' c :=
      fun arg _ c hc => hlowest c (h.forest.held_live ((create_holds h kind body _ c).mp hc))
    obtain ⟨ho₁, hkeep⟩ := bindArgs_of_ok ho₀ hargs hbind
    have hempty : ∀ b, ¬ m₁.graph.holds (.var v) b := by
      intro b hb
      have hvb : m.vars v = some (some b) := hkeep _ b var_home_ne hb
      rw [hen.1] at hvb
      cases hvb
    have ho₁' : Owned rank' m₁ ((some m.next).toList ++ []) := ho₁
    exact ⟨rank', (store_of_ok ho₁' hempty (fun _ _ hx => absurd hx var_home_ne) hwrite).1⟩
  | defaultConstruct v =>
    obtain rfl := Except.ok.inj hok
    have hempty : ∀ b, ¬ m.graph.holds (.var v) b := by
      intro b hb
      have hvb : m.vars v = some (some b) := hb
      rw [show m.vars v = none from hen] at hvb
      cases hvb
    exact ⟨rank, h.setVar hempty rfl⟩
  | moveConstruct v w =>
    obtain ⟨⟨o, m₁⟩, hex, hwrite⟩ := bind_eq_ok hok
    obtain ⟨ho₁, _, _, _, hholds₁⟩ := exchange_of_ok h hex
    have hempty : ∀ b, ¬ m₁.graph.holds (.var v) b := by
      intro b hb
      have hvb : m.vars v = some (some b) := ((hholds₁ _ b).mp hb).2
      rw [hen.1] at hvb
      cases hvb
    exact ⟨rank, (store_of_ok ho₁ hempty (fun _ _ hx => absurd hx var_home_ne) hwrite).1⟩
  | moveAssign v w =>
    exact ⟨rank, (moveAssign_of_ok h (fun _ _ ha => absurd ha var_home_ne) hok).1⟩
  | destroy v =>
    obtain ⟨m₁, hreset, hok⟩ := bind_eq_ok hok
    obtain rfl := Except.ok.inj hok
    obtain ⟨ho₁, _, hholds₁, _⟩ := reset_of_ok h hreset
    exact ⟨rank, ho₁.setVar (fun b hb => ((hholds₁ _ b).mp hb).1 rfl) rfl⟩
  | start v =>
    obtain ⟨⟨r, m₁⟩, hstart, hok⟩ := bind_eq_ok hok
    obtain rfl := Except.ok.inj hok
    exact h.owning (sameHandles_start hstart)
  | resume a => exact h.owning (sameHandles_resume hok)

/-- Every step that does not fault keeps the forest. -/
theorem step_owning (h : Owning m) {l : Label L} (hen : l.Enabled m) (hok : m.step l = .ok m') :
    Owning m' := by
  obtain ⟨rank, ho⟩ := h
  cases l with
  | drive op => exact drive_owning ho hen.2 hok
  | exec => exact exec_owning ho hok

end VixStandard.Task
