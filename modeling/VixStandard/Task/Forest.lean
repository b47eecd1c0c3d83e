import Mathlib.Data.Finset.Card
import Mathlib.Data.Finset.Range
import Mathlib.Data.Finset.Filter
import VixStandard.Lib.Ownership
import VixStandard.Task.Equations

/-!
# The frames of a machine as an ownership forest

`Machine.graph` reads the ownership graph off a machine: the live frames, and
the handles in the Task variables of the driver and in the variables of the
frames.  `Owned` says that this graph is a forest, with the handles of some
temporaries added, and that the record of destroyed frames is exact.

The handle operations keep `Owned`.  `Quiet` is what they leave alone: they
move and destroy handles, so a frame that survives keeps its class, promise and
point, and keeps its variables too unless it is one of the touched frames.

* `write_spec`, `exchange_spec`, `store_spec` for a single handle;
* `destroyAll_of_atRest` for a destruction, with the exact set of destroyed frames;
* `reset_of_atRest` and `moveAssign_of_atRest` for what the Task operations need in
  order not to fault, and `reset_of_ok` and `moveAssign_of_ok` for what they do;
* `reset_spec`, `moveAssign_spec`, `bindArgs_spec` and `create_spec`, which are
  assembled from those.
-/

namespace VixStandard.Task

open VixStandard.Lib.Ownership

variable {L : Lang}

/-- The frame that a place lies in. -/
def Place.home : Place L → Option Addr
  | .var _ => none
  | .slot a _ => some a

namespace Machine

/-- The ownership graph of a machine. -/
def graph (m : Machine L) : OwnerGraph (Place L) Addr where
  live a := ∃ f, m.heap a = some f
  holds
    | .var v, c => m.vars v = some (some c)
    | .slot a s, c => ∃ f, m.heap a = some f ∧ f.slots s = some c

/-- A place that exists: a driver variable, or a variable of a live frame. -/
def HasPlace (m : Machine L) : Place L → Prop
  | .var _ => True
  | .slot a _ => m.graph.live a

/-- The number of live frames. -/
def liveCount (m : Machine L) : Nat :=
  ((Finset.range m.next).filter fun a => (m.heap a).isSome = true).card

end Machine

open Machine

/-- The frames of `m` form an ownership forest in which temporaries hold
`temps`, and every frame that is not live any more was destroyed once. -/
structure Owned (rank : Addr → Nat) (m : Machine L) (temps : List Addr) : Prop where
  forest : Forest Place.home rank m.graph temps
  lt_next : ∀ {a}, m.graph.live a → a < m.next
  destroyed_nodup : m.destroyed.Nodup
  mem_destroyed : ∀ {a}, a ∈ m.destroyed ↔ a < m.next ∧ ¬ m.graph.live a

/-- What an operation on handles leaves alone, outside the variables of the
frames in `T`. -/
structure Quiet (T : Addr → Prop) (m m' : Machine L) : Prop where
  stack : m'.stack = m.stack
  next : m'.next = m.next
  mem : m'.mem = m.mem
  log : m'.log = m.log
  frame : ∀ {a f'}, m'.heap a = some f' → ∃ f, m.heap a = some f ∧ f'.kind = f.kind ∧
    f'.promise = f.promise ∧ f'.point = f.point ∧ (¬ T a → f'.slots = f.slots)
  /-- A frame is not destroyed before the frames it owns. -/
  above : ∀ {a s c}, ¬ T a → m.graph.holds (.slot a s) c → m'.graph.live c → m'.graph.live a

/-! ## Reading the graph -/

@[simp] theorem graph_live (m : Machine L) (a : Addr) :
    m.graph.live a ↔ ∃ f, m.heap a = some f := Iff.rfl

@[simp] theorem graph_holds_var (m : Machine L) (v : L.Var) (c : Addr) :
    m.graph.holds (.var v) c ↔ m.vars v = some (some c) := Iff.rfl

@[simp] theorem graph_holds_slot (m : Machine L) (a : Addr) (s : Slot L) (c : Addr) :
    m.graph.holds (.slot a s) c ↔ ∃ f, m.heap a = some f ∧ f.slots s = some c := Iff.rfl

theorem holds_slot {m : Machine L} {a : Addr} {f : Frame L} {s : Slot L} {c : Addr}
    (hf : m.heap a = some f) (hs : f.slots s = some c) : m.graph.holds (.slot a s) c :=
  ⟨f, hf, hs⟩

theorem graph_ext {m m' : Machine L} (hlive : ∀ x, m'.graph.live x ↔ m.graph.live x)
    (hholds : ∀ q b, m'.graph.holds q b ↔ m.graph.holds q b) : m'.graph = m.graph := by
  have hl : m'.graph.live = m.graph.live := funext fun x => propext (hlive x)
  have hh : m'.graph.holds = m.graph.holds :=
    funext fun q => funext fun b => propext (hholds q b)
  calc m'.graph = ⟨m'.graph.live, m'.graph.holds⟩ := rfl
    _ = m.graph := by rw [hl, hh]

theorem read_ok {m : Machine L} {p : Place L} (hp : m.HasPlace p) :
    ∃ h, m.read p = .ok h ∧ ∀ c, m.graph.holds p c ↔ h = some c := by
  cases p with
  | var v =>
    refine ⟨(m.vars v).join, rfl, fun c => ?_⟩
    rw [graph_holds_var, Option.join_eq_some_iff]
  | slot a s =>
    obtain ⟨f, hf⟩ := hp
    refine ⟨f.slots s, read_slot hf s, fun c => ?_⟩
    rw [graph_holds_slot]
    constructor
    · rintro ⟨g, hg, hc⟩
      rw [hf, Option.some.injEq] at hg
      rw [hg]
      exact hc
    · exact fun hc => ⟨f, hf, hc⟩

/-! ## Quiet operations -/

theorem Quiet.refl (T : Addr → Prop) (m : Machine L) : Quiet T m m :=
  ⟨rfl, rfl, rfl, rfl, fun h => ⟨_, h, rfl, rfl, rfl, fun _ => rfl⟩,
    fun _ ⟨f, hf, _⟩ _ => ⟨f, hf⟩⟩

theorem Quiet.live {T : Addr → Prop} {m m' : Machine L} (h : Quiet T m m') {a : Addr}
    (ha : m'.graph.live a) : m.graph.live a := by
  obtain ⟨f', hf'⟩ := ha
  obtain ⟨f, hf, _⟩ := h.frame hf'
  exact ⟨f, hf⟩

/-- A surviving frame outside `T` holds what it held. -/
theorem Quiet.holds_iff {T : Addr → Prop} {m m' : Machine L} (h : Quiet T m m') {a : Addr}
    (hT : ¬ T a) (ha : m'.graph.live a) (s : Slot L) (c : Addr) :
    m'.graph.holds (.slot a s) c ↔ m.graph.holds (.slot a s) c := by
  obtain ⟨f', hf'⟩ := ha
  obtain ⟨f, hf, _, _, _, hslots⟩ := h.frame hf'
  simp only [graph_holds_slot, hf, hf', Option.some.injEq, exists_eq_left', hslots hT]

theorem Quiet.trans {T : Addr → Prop} {m₁ m₂ m₃ : Machine L} (h₁ : Quiet T m₁ m₂)
    (h₂ : Quiet T m₂ m₃) : Quiet T m₁ m₃ := by
  refine ⟨h₂.stack.trans h₁.stack, h₂.next.trans h₁.next, h₂.mem.trans h₁.mem,
    h₂.log.trans h₁.log, ?_, ?_⟩
  · intro a f₃ h3
    obtain ⟨f₂, h2, hk, hp, hpt, hs⟩ := h₂.frame h3
    obtain ⟨f₁, h1, hk', hp', hpt', hs'⟩ := h₁.frame h2
    exact ⟨f₁, h1, hk.trans hk', hp.trans hp', hpt.trans hpt',
      fun hT => (hs hT).trans (hs' hT)⟩
  · intro a s c hT hc hlive
    have ha₂ : m₂.graph.live a := h₁.above hT hc (h₂.live hlive)
    exact h₂.above hT ((h₁.holds_iff hT ha₂ s c).mpr hc) hlive

theorem Quiet.mono {T T' : Addr → Prop} {m m' : Machine L} (hle : ∀ a, T a → T' a)
    (h : Quiet T m m') : Quiet T' m m' := by
  refine ⟨h.stack, h.next, h.mem, h.log, ?_, fun hT => h.above (fun hT' => hT (hle _ hT'))⟩
  intro a f' hf'
  obtain ⟨f, hf, hk, hp, hpt, hs⟩ := h.frame hf'
  exact ⟨f, hf, hk, hp, hpt, fun hT => hs (fun hT' => hT (hle _ hT'))⟩

/-! ## One handle -/

/-- Writing a handle changes what one place holds and nothing else. -/
theorem write_spec {m : Machine L} {p : Place L} (hp : m.HasPlace p) (h : Option Addr) :
    ∃ m', m.write p h = .ok m' ∧ Quiet (fun a => p.home = some a) m m' ∧
      m'.destroyed = m.destroyed ∧ (∀ x, m'.graph.live x ↔ m.graph.live x) ∧
      ∀ q b, m'.graph.holds q b ↔ (q = p ∧ h = some b) ∨ (q ≠ p ∧ m.graph.holds q b) := by
  cases p with
  | var v =>
    refine ⟨_, rfl, ⟨rfl, rfl, rfl, rfl, fun hf => ⟨_, hf, rfl, rfl, rfl, fun _ => rfl⟩,
      fun _ ⟨f, hf, _⟩ _ => ⟨f, hf⟩⟩, rfl, fun x => Iff.rfl, ?_⟩
    intro q b
    cases q with
    | var u =>
      by_cases huv : u = v
      · subst huv
        simp
      · simp [huv]
    | slot a s => simp
  | slot a s =>
    obtain ⟨f, hf⟩ := hp
    have hne : ∀ {x}, x ≠ a →
        (m.store a { f with slots := Function.update f.slots s h }).heap x = m.heap x :=
      fun hx => Function.update_of_ne hx _ _
    refine ⟨m.store a { f with slots := Function.update f.slots s h }, write_slot hf s h, ?_, rfl,
      ?_, ?_⟩
    · refine ⟨rfl, rfl, rfl, rfl, ?_, ?_⟩
      · intro x f' hx
        by_cases hxa : x = a
        · subst hxa
          simp only [store, Function.update_self, Option.some.injEq] at hx
          subst hx
          exact ⟨f, hf, rfl, rfl, rfl, fun hT => absurd rfl hT⟩
        · rw [hne hxa] at hx
          exact ⟨f', hx, rfl, rfl, rfl, fun _ => rfl⟩
      · intro x t c hT hc _
        have hxa : x ≠ a := fun hxa => hT (by rw [hxa]; rfl)
        obtain ⟨g, hg, _⟩ := hc
        exact ⟨g, by rw [hne hxa]; exact hg⟩
    · intro x
      by_cases hxa : x = a
      · subst hxa
        simp [store, hf]
      · simp only [graph_live, hne hxa]
    · intro q b
      cases q with
      | var u => simp [store]
      | slot x t =>
        by_cases hxa : x = a
        · subst hxa
          by_cases hts : t = s
          · subst hts
            simp [store]
          · simp [store, hf, hts]
        · simp [hne hxa, hxa]

theorem Machine.HasPlace.of_live_iff {m m' : Machine L} {p : Place L} (hp : m.HasPlace p)
    (hlive : ∀ x, m'.graph.live x ↔ m.graph.live x) : m'.HasPlace p := by
  cases p with
  | var v => trivial
  | slot a s => exact (hlive a).mpr hp

/-- Neither liveness nor the record of destroyed frames changes. -/
theorem Owned.of_forest {rank rank' : Addr → Nat} {m m' : Machine L} {temps temps' : List Addr}
    (h : Owned rank m temps) (hf : Forest Place.home rank' m'.graph temps')
    (hnext : m'.next = m.next) (hdes : m'.destroyed = m.destroyed)
    (hlive : ∀ x, m'.graph.live x ↔ m.graph.live x) : Owned rank' m' temps' := by
  refine ⟨hf, fun ha => hnext ▸ h.lt_next ((hlive _).mp ha), hdes ▸ h.destroyed_nodup, ?_⟩
  intro a
  rw [hdes, hnext, hlive]
  exact h.mem_destroyed

/-- A Task variable that holds nothing changes to one that holds nothing, or goes out of
scope. -/
theorem Owned.setVar {rank : Addr → Nat} {m : Machine L} {temps : List Addr}
    (h : Owned rank m temps) {v : L.Var} {o : Option (Option Addr)}
    (hempty : ∀ b, ¬ m.graph.holds (.var v) b) (ho : o.join = none) :
    Owned rank { m with vars := Function.update m.vars v o } temps := by
  let m' : Machine L := { m with vars := Function.update m.vars v o }
  have hlive : ∀ x, m'.graph.live x ↔ m.graph.live x := fun _ => Iff.rfl
  have hholds : ∀ q b, m'.graph.holds q b ↔ m.graph.holds q b := by
    intro q b
    cases q with
    | slot x s => exact Iff.rfl
    | var u =>
      by_cases huv : u = v
      · subst huv
        refine ⟨fun hb => ?_, fun hb => absurd hb (hempty b)⟩
        have hob : o = some (some b) := by simpa [m'] using hb
        rw [hob] at ho
        cases ho
      · simp [m', huv]
  refine h.of_forest ?_ rfl rfl hlive
  rw [graph_ext hlive hholds]
  exact h.forest

/-- `std::exchange` turns the handle of a place into a temporary. -/
theorem exchange_spec {rank : Addr → Nat} {m : Machine L} {temps : List Addr} {p : Place L}
    (h : Owned rank m temps) (hp : m.HasPlace p) :
    ∃ o m', m.exchange p = .ok (o, m') ∧ Owned rank m' (o.toList ++ temps) ∧
      Quiet (fun a => p.home = some a) m m' ∧ (∀ c, m.graph.holds p c ↔ o = some c) ∧
      (∀ x, m'.graph.live x ↔ m.graph.live x) ∧
      ∀ q b, m'.graph.holds q b ↔ q ≠ p ∧ m.graph.holds q b := by
  obtain ⟨o, hread, ho⟩ := read_ok hp
  obtain ⟨m', hwrite, hq, hdes, hlive, hholds⟩ := write_spec hp (none : Option Addr)
  have hholds' : ∀ q b, m'.graph.holds q b ↔ q ≠ p ∧ m.graph.holds q b := by
    intro q b
    rw [hholds]
    simp
  refine ⟨o, m', ?_, ?_, hq, ho, hlive, hholds'⟩
  · rw [exchange, bind_of_ok hread, bind_of_ok hwrite]
  · refine h.of_forest ?_ hq.next hdes hlive
    cases o with
    | none =>
      have hnone : ∀ b, ¬ m.graph.holds p b := fun b hb => by simpa using (ho b).mp hb
      have hsame : ∀ q b, m'.graph.holds q b ↔ m.graph.holds q b := by
        intro q b
        refine (hholds' q b).trans ⟨And.right, fun hb => ⟨?_, hb⟩⟩
        rintro rfl
        exact hnone b hb
      rw [graph_ext hlive hsame]
      exact h.forest
    | some c =>
      exact h.forest.take ((ho c).mpr rfl) hlive
        (fun q b => (hholds' q b).trans and_comm)

/-- A temporary is stored in an empty place. -/
theorem store_spec {rank : Addr → Nat} {m : Machine L} {temps : List Addr} {p : Place L}
    {o : Option Addr} (h : Owned rank m (o.toList ++ temps)) (hp : m.HasPlace p)
    (hempty : ∀ b, ¬ m.graph.holds p b)
    (hrank : ∀ a c, p.home = some a → o = some c → rank a < rank c) :
    ∃ m', m.write p o = .ok m' ∧ Owned rank m' temps ∧ Quiet (fun a => p.home = some a) m m' ∧
      (∀ x, m'.graph.live x ↔ m.graph.live x) ∧
      ∀ q b, m'.graph.holds q b ↔ m.graph.holds q b ∨ (q = p ∧ o = some b) := by
  obtain ⟨m', hwrite, hq, hdes, hlive, hholds⟩ := write_spec hp o
  have hholds' : ∀ q b, m'.graph.holds q b ↔ m.graph.holds q b ∨ (q = p ∧ o = some b) := by
    intro q b
    rw [hholds]
    by_cases hqp : q = p
    · subst hqp
      simp [hempty b]
    · simp [hqp]
  refine ⟨m', hwrite, h.of_forest ?_ hq.next hdes hlive, hq, hlive, hholds'⟩
  cases o with
  | none =>
    rw [graph_ext hlive fun q b => (hholds' q b).trans (by simp)]
    exact h.forest
  | some c =>
    refine Forest.put h.forest hempty ?_ hlive (fun q b => (hholds' q b).trans ?_)
    · intro a ha
      refine ⟨?_, hrank a c ha rfl⟩
      cases p with
      | var v => simp [Place.home] at ha
      | slot x s =>
        simp only [Place.home, Option.some.injEq] at ha
        exact ha ▸ hp
    · simp [eq_comm]

/-! ## Destruction -/

theorem mem_slots (s : Slot L) : s ∈ L.slots := by
  cases s with
  | inl x => exact List.mem_append_left _ (List.mem_map_of_mem (L.mem_locals x))
  | inr w => exact List.mem_append_right _ (List.mem_map_of_mem (L.mem_awaiters w))

theorem slots_nodup : L.slots.Nodup := by
  refine List.nodup_append.mpr ⟨L.locals_nodup.map Sum.inl_injective,
    L.awaiters_nodup.map Sum.inr_injective, ?_⟩
  intro s hs t ht hst
  obtain ⟨x, _, rfl⟩ := List.mem_map.mp hs
  obtain ⟨w, _, rfl⟩ := List.mem_map.mp ht
  exact Sum.inl_ne_inr hst

theorem mem_handles {f : Frame L} {c : Addr} : c ∈ f.handles ↔ ∃ s, f.slots s = some c := by
  simp [Frame.handles, List.mem_filterMap, mem_slots]

/-- In a forest no two variables of a frame own the same frame, so a list of
some of its handles has no repetition. -/
theorem Owned.filterMap_nodup {rank : Addr → Nat} {m : Machine L} {temps : List Addr}
    (h : Owned rank m temps) {a : Addr} {f : Frame L} (hf : m.heap a = some f)
    {slots : List (Slot L)} (hslots : slots.Nodup) : (slots.filterMap f.slots).Nodup := by
  refine hslots.filterMap ?_
  intro s t c hs ht
  have huniq := h.forest.unique (holds_slot hf hs) (holds_slot hf ht)
  simpa using huniq

/-- `m'` is `m` after some frames were destroyed. -/
structure Shrunk (m m' : Machine L) : Prop where
  vars : m'.vars = m.vars
  stack : m'.stack = m.stack
  next : m'.next = m.next
  mem : m'.mem = m.mem
  log : m'.log = m.log
  heap : ∀ {a f}, m'.heap a = some f → m.heap a = some f
  destroyed : ∃ dead, m'.destroyed = m.destroyed ++ dead

theorem Shrunk.refl (m : Machine L) : Shrunk m m :=
  ⟨rfl, rfl, rfl, rfl, rfl, id, [], (List.append_nil _).symm⟩

theorem Shrunk.trans {m₁ m₂ m₃ : Machine L} (h₁ : Shrunk m₁ m₂) (h₂ : Shrunk m₂ m₃) :
    Shrunk m₁ m₃ := by
  obtain ⟨d₁, hd₁⟩ := h₁.destroyed
  obtain ⟨d₂, hd₂⟩ := h₂.destroyed
  exact ⟨h₂.vars.trans h₁.vars, h₂.stack.trans h₁.stack, h₂.next.trans h₁.next,
    h₂.mem.trans h₁.mem, h₂.log.trans h₁.log, fun hf => h₁.heap (h₂.heap hf),
    d₁ ++ d₂, by rw [hd₂, hd₁, List.append_assoc]⟩

theorem Shrunk.holds {m m' : Machine L} (h : Shrunk m m') {p : Place L} {c : Addr}
    (hp : m'.graph.holds p c) : m.graph.holds p c := by
  cases p with
  | var v => rwa [graph_holds_var, h.vars] at hp
  | slot a s =>
    obtain ⟨f, hf, hc⟩ := hp
    exact ⟨f, h.heap hf, hc⟩

theorem Shrunk.live {m m' : Machine L} (h : Shrunk m m') {a : Addr}
    (ha : m'.graph.live a) : m.graph.live a := by
  obtain ⟨f, hf⟩ := ha
  exact ⟨f, h.heap hf⟩

/-- The state after one frame was destroyed, its own handles aside. -/
def Machine.kill (m : Machine L) (a : Addr) : Machine L :=
  { m with heap := Function.update m.heap a none, destroyed := m.destroyed ++ [a] }

theorem kill_heap {m : Machine L} {a x : Addr} {f : Frame L} :
    (m.kill a).heap x = some f ↔ m.heap x = some f ∧ x ≠ a := by
  by_cases hxa : x = a
  · subst hxa
    simp [Machine.kill]
  · simp [Machine.kill, hxa]

@[simp] theorem destroyAll_nil (fuel : Nat) (m : Machine L) : destroyAll fuel [] m = .ok m := by
  cases fuel <;> rfl

/-- One round of a destruction. -/
theorem destroyAll_cons {fuel : Nat} {m : Machine L} {a : Addr} {work : List Addr} {f : Frame L}
    (hf : m.heap a = some f) (hr : f.point.isRunning = false) :
    destroyAll (fuel + 1) (a :: work) m = destroyAll fuel (f.handles ++ work) (m.kill a) := by
  rw [destroyAll, bind_of_ok (frame_ok hf), if_neg (by simp [hr])]
  rfl

/-- The rounds of a destruction that succeeds. -/
theorem destroyAll_cons_inv {fuel : Nat} {m m' : Machine L} {a : Addr} {work : List Addr}
    (h : destroyAll fuel (a :: work) m = .ok m') :
    ∃ fuel' f, fuel = fuel' + 1 ∧ m.heap a = some f ∧ f.point.isRunning = false ∧
      destroyAll fuel' (f.handles ++ work) (m.kill a) = .ok m' := by
  cases fuel with
  | zero => simp [destroyAll] at h
  | succ fuel =>
    cases hf : m.heap a with
    | none => simp [destroyAll, frame, hf, bind, Except.bind] at h
    | some f =>
      cases hr : f.point.isRunning with
      | true => simp [destroyAll, frame, hf, bind, Except.bind, hr] at h
      | false =>
        rw [destroyAll_cons hf hr] at h
        exact ⟨fuel, f, rfl, rfl, hr, h⟩

theorem shrunk_kill (m : Machine L) (a : Addr) : Shrunk m (m.kill a) :=
  ⟨rfl, rfl, rfl, rfl, rfl, fun hf => (kill_heap.mp hf).1, [a], rfl⟩

/-- A destruction that succeeds only removes frames. -/
theorem shrunk_of_destroyAll {fuel : Nat} : ∀ {m m' : Machine L} {work : List Addr},
    destroyAll fuel work m = .ok m' → Shrunk m m' := by
  induction fuel with
  | zero =>
    intro m m' work h
    cases work with
    | nil =>
      rw [destroyAll_nil, Except.ok.injEq] at h
      exact h ▸ .refl m
    | cons a work => simp [destroyAll] at h
  | succ fuel ih =>
    intro m m' work h
    cases work with
    | nil =>
      rw [destroyAll_nil, Except.ok.injEq] at h
      exact h ▸ .refl m
    | cons a work =>
      obtain ⟨fuel', f, hfuel, _, _, h'⟩ := destroyAll_cons_inv h
      obtain rfl : fuel = fuel' := by omega
      exact (shrunk_kill m a).trans (ih h')

theorem liveCount_kill {m : Machine L} {a : Addr} (hlt : a < m.next)
    (ha : m.graph.live a) : (m.kill a).liveCount < m.liveCount := by
  obtain ⟨f, hf⟩ := ha
  refine Finset.card_lt_card ⟨?_, fun hsub => ?_⟩
  · intro x hx
    rw [Finset.mem_filter] at hx ⊢
    obtain ⟨g, hg⟩ := Option.isSome_iff_exists.mp hx.2
    exact ⟨hx.1, Option.isSome_iff_exists.mpr ⟨g, (kill_heap.mp hg).1⟩⟩
  · have hmem := hsub (Finset.mem_filter.mpr
      ⟨Finset.mem_range.mpr hlt, Option.isSome_iff_exists.mpr ⟨f, hf⟩⟩)
    obtain ⟨g, hg⟩ := Option.isSome_iff_exists.mp (Finset.mem_filter.mp hmem).2
    exact (kill_heap.mp hg).2 rfl

theorem liveCount_le_next (m : Machine L) : m.liveCount ≤ m.next := by
  refine (Finset.card_filter_le _ _).trans ?_
  rw [Finset.card_range]

/-- One round of a destruction: the frame goes, and the handles in its variables
are destroyed next. -/
theorem Owned.kill {rank : Addr → Nat} {m : Machine L} {a : Addr} {temps : List Addr}
    {f : Frame L} (h : Owned rank m (a :: temps)) (hf : m.heap a = some f) :
    Owned rank (m.kill a) (f.handles ++ temps) := by
  have hlive : ∀ x, (m.kill a).graph.live x ↔ m.graph.live x ∧ x ≠ a := by
    intro x
    simp [kill_heap]
  have hholds : ∀ q b, (m.kill a).graph.holds q b ↔ m.graph.holds q b ∧ q.home ≠ some a := by
    intro q b
    cases q with
    | var v => simp [Machine.kill, Place.home]
    | slot x s =>
      simp only [graph_holds_slot, kill_heap, Place.home, ne_eq, Option.some.injEq]
      exact ⟨fun ⟨g, ⟨hg, hx⟩, hb⟩ => ⟨⟨g, hg, hb⟩, hx⟩,
        fun ⟨⟨g, hg, hb⟩, hx⟩ => ⟨g, ⟨hg, hx⟩, hb⟩⟩
  have hheld : ∀ c, c ∈ f.handles ↔ ∃ p : Place L, p.home = some a ∧ m.graph.holds p c := by
    intro c
    rw [mem_handles]
    constructor
    · rintro ⟨s, hs⟩
      exact ⟨.slot a s, rfl, f, hf, hs⟩
    · rintro ⟨p, hp, hc⟩
      cases p with
      | var v => simp [Place.home] at hp
      | slot x s =>
        simp only [Place.home, Option.some.injEq] at hp
        subst hp
        obtain ⟨g, hg, hc⟩ := hc
        rw [hf, Option.some.injEq] at hg
        subst hg
        exact ⟨s, hc⟩
  have hdead : a ∉ m.destroyed := fun ha => (h.mem_destroyed.mp ha).2 ⟨f, hf⟩
  refine ⟨h.forest.kill (h.filterMap_nodup hf slots_nodup) hheld hlive hholds, ?_, ?_, ?_⟩
  · exact fun hx => h.lt_next ((hlive _).mp hx).1
  · refine List.nodup_append.mpr ⟨h.destroyed_nodup, List.nodup_singleton a, ?_⟩
    intro x hx y hy hxy
    rw [List.mem_singleton] at hy
    exact hdead (hy ▸ hxy ▸ hx)
  · intro x
    have hmem : x ∈ (m.kill a).destroyed ↔ x ∈ m.destroyed ∨ x = a := by
      simp [Machine.kill]
    rw [hmem, h.mem_destroyed, hlive]
    have hlt : a < m.next := h.lt_next ⟨f, hf⟩
    show _ ↔ x < m.next ∧ _
    constructor
    · rintro (⟨hx, hdx⟩ | rfl)
      · exact ⟨hx, fun hl => hdx hl.1⟩
      · exact ⟨hlt, fun hl => hl.2 rfl⟩
    · rintro ⟨hx, hnl⟩
      by_cases hxa : x = a
      · exact Or.inr hxa
      · exact Or.inl ⟨hx, fun hl => hnl ⟨hl, hxa⟩⟩

/-- No coroutine at or below `c` is executing. -/
def Machine.AtRest (m : Machine L) (c : Addr) : Prop :=
  ∀ r f, Below Place.home m.graph c r → m.heap r = some f → f.point.isRunning = false

/-- What was below `w` is, after the frame `a` is gone, below `w` or below one of the
handles of `a`. -/
private theorem below_kill {m : Machine L} {a w x : Addr} {f : Frame L} (hf : m.heap a = some f)
    (hb : Below Place.home m.graph w x) :
    x = a ∨ ∃ w', (w' = w ∧ w ≠ a ∨ w' ∈ f.handles) ∧ Below Place.home (m.kill a).graph w' x := by
  induction hb with
  | self =>
    by_cases hwa : w = a
    · exact Or.inl hwa
    · exact Or.inr ⟨w, Or.inl ⟨rfl, hwa⟩, .self⟩
  | @held p y z _ hp hz ih =>
    have hslot : ∃ s, p = .slot y s := by
      cases p with
      | var v => cases hp
      | slot b s =>
        obtain rfl : b = y := Option.some.inj hp
        exact ⟨s, rfl⟩
    obtain ⟨s, rfl⟩ := hslot
    obtain ⟨g, hg, hs⟩ := hz
    by_cases hya : y = a
    · subst hya
      obtain rfl : f = g := Option.some.inj (hf.symm.trans hg)
      exact Or.inr ⟨z, Or.inr (mem_handles.mpr ⟨s, hs⟩), .self⟩
    · obtain ⟨w', hw', hb'⟩ := ih.resolve_left hya
      exact Or.inr ⟨w', hw', .held hb' rfl (holds_slot (kill_heap.mpr ⟨hg, hya⟩) hs)⟩

/-- A destruction that succeeds meets no running coroutine. -/
theorem atRest_of_destroyAll {fuel : Nat} : ∀ {m m' : Machine L} {work : List Addr},
    destroyAll fuel work m = .ok m' → ∀ w ∈ work, m.AtRest w := by
  induction fuel with
  | zero =>
    intro m m' work h w hw
    cases work with
    | nil => exact absurd hw List.not_mem_nil
    | cons a work => simp [destroyAll] at h
  | succ fuel ih =>
    intro m m' work h w hw r g hb hg
    cases work with
    | nil => exact absurd hw List.not_mem_nil
    | cons a work =>
      obtain ⟨fuel', f, hfuel, hf, hr, h'⟩ := destroyAll_cons_inv h
      obtain rfl : fuel = fuel' := by omega
      by_cases hra : r = a
      · subst hra
        obtain rfl : f = g := Option.some.inj (hf.symm.trans hg)
        exact hr
      · obtain ⟨w', hw', hb'⟩ := (below_kill hf hb).resolve_left hra
        refine ih h' w' (List.mem_append.mpr ?_) r g hb' (kill_heap.mpr ⟨hg, hra⟩)
        rcases hw' with ⟨rfl, hwa⟩ | hw'
        · exact Or.inr ((List.mem_cons.mp hw).resolve_left hwa)
        · exact Or.inl hw'

private theorem destroyAll_core {rank : Addr → Nat} (fuel : Nat) :
    ∀ (m : Machine L) (work temps : List Addr), Owned rank m (work ++ temps) →
      m.liveCount ≤ fuel → (∀ w ∈ work, m.AtRest w) →
      ∃ m', destroyAll fuel work m = .ok m' ∧ Owned rank m' temps ∧ Shrunk m m' ∧
        ∀ x, m.graph.live x → ¬ m'.graph.live x → ∃ w ∈ work, Below Place.home m.graph w x := by
  induction fuel with
  | zero =>
    intro m work temps h hcount _
    cases work with
    | nil => exact ⟨m, rfl, h, .refl m,
        fun x hx hnx => absurd hx hnx⟩
    | cons a work =>
      have ha : a ∈ a :: work ++ temps := List.mem_cons_self
      obtain ⟨f, hf⟩ := h.forest.temp_live ha
      have := liveCount_kill (h.lt_next ⟨f, hf⟩) ⟨f, hf⟩
      omega
  | succ fuel ih =>
    intro m work temps h hcount hrest
    cases work with
    | nil => exact ⟨m, rfl, h, .refl m,
        fun x hx hnx => absurd hx hnx⟩
    | cons a work =>
      have ha : a ∈ a :: work ++ temps := List.mem_cons_self
      obtain ⟨f, hf⟩ := h.forest.temp_live ha
      have hidle : f.point.isRunning = false := hrest a List.mem_cons_self a f .self hf
      have hcount' := liveCount_kill (h.lt_next ⟨f, hf⟩) ⟨f, hf⟩
      have hkill : Owned rank (m.kill a) ((f.handles ++ work) ++ temps) := by
        rw [List.append_assoc]
        exact Owned.kill h hf
      have hsub : ∀ {w x}, Below Place.home (m.kill a).graph w x → Below Place.home m.graph w x :=
        fun hb => hb.mono fun _ _ => (shrunk_kill m a).holds
      have hhandle : ∀ {w}, w ∈ f.handles → Below Place.home m.graph a w := by
        intro w hw
        obtain ⟨s, hs⟩ := mem_handles.mp hw
        exact .held .self rfl (holds_slot hf hs)
      have hrest' : ∀ w ∈ f.handles ++ work, (m.kill a).AtRest w := by
        intro w hw r g hb hg
        have hg' := (kill_heap.mp hg).1
        rcases List.mem_append.mp hw with hw | hw
        · exact hrest a List.mem_cons_self r g ((hhandle hw).trans (hsub hb)) hg'
        · exact hrest w (List.mem_cons_of_mem _ hw) r g (hsub hb) hg'
      obtain ⟨m', hok, howned, hshrunk, honly⟩ :=
        ih (m.kill a) (f.handles ++ work) temps hkill (by omega) hrest'
      refine ⟨m', ?_, howned, (shrunk_kill m a).trans hshrunk, ?_⟩
      · rw [destroyAll_cons hf hidle]
        exact hok
      · intro x hx hnx
        by_cases hxa : x = a
        · exact ⟨a, by simp, hxa ▸ Below.self⟩
        · obtain ⟨g, hg⟩ := hx
          obtain ⟨w, hw, hb⟩ := honly x ⟨g, kill_heap.mpr ⟨hg, hxa⟩⟩ hnx
          rcases List.mem_append.mp hw with hw | hw
          · exact ⟨a, by simp, (hhandle hw).trans (hsub hb)⟩
          · exact ⟨w, List.mem_cons_of_mem _ hw, hsub hb⟩

/-- A destruction ends exactly the frames at or below `work` and leaves the
others as they were, if no coroutine among them is running. -/
theorem destroyAll_of_atRest {rank : Addr → Nat} {m : Machine L} {work temps : List Addr}
    (h : Owned rank m (work ++ temps)) (hrest : ∀ w ∈ work, m.AtRest w) :
    ∃ m', destroyAll m.next work m = .ok m' ∧ Owned rank m' temps ∧ Shrunk m m' ∧
      Quiet (fun _ => False) m m' ∧ ∀ x, m.graph.live x →
        (¬ m'.graph.live x ↔ ∃ w ∈ work, Below Place.home m.graph w x) := by
  obtain ⟨m', hok, howned, hshrunk, honly⟩ :=
    destroyAll_core m.next m work temps h (liveCount_le_next m) hrest
  have hdead : ∀ x, m.graph.live x →
      (¬ m'.graph.live x ↔ ∃ w ∈ work, Below Place.home m.graph w x) :=
    fun x hx => h.forest.dead_iff howned.forest honly (fun _ => hshrunk.live)
      (fun _ _ => hshrunk.holds) hx
  refine ⟨m', hok, howned, hshrunk, ?_, hdead⟩
  refine ⟨hshrunk.stack, hshrunk.next, hshrunk.mem, hshrunk.log,
    fun hf => ⟨_, hshrunk.heap hf, rfl, rfl, rfl, fun _ => rfl⟩, ?_⟩
  intro a s c _ hc hlive
  by_contra ha
  obtain ⟨w, hw, hb⟩ := (hdead a (h.forest.home_live hc rfl)).mp ha
  exact (hdead c (h.forest.held_live hc)).mpr ⟨w, hw, .held hb rfl hc⟩ hlive

/-- A coroutine is at rest if the running ones rank below it. -/
theorem Owned.atRest {rank : Addr → Nat} {m : Machine L} {temps : List Addr} {c : Addr}
    (h : Owned rank m temps)
    (hrun : ∀ r f, m.heap r = some f → f.point.isRunning = true → rank r < rank c) :
    m.AtRest c := by
  intro r f hb hf
  by_contra hr
  have hlt := hrun r f hf (by simpa using hr)
  have hle := h.forest.rank_le_of_below hb
  omega

/-- A destruction of coroutines that the running ones rank below. -/
theorem destroyAll_spec {rank : Addr → Nat} {m : Machine L} {work temps : List Addr}
    (h : Owned rank m (work ++ temps))
    (hrun : ∀ r f, m.heap r = some f → f.point.isRunning = true → ∀ w ∈ work, rank r < rank w) :
    ∃ m', destroyAll m.next work m = .ok m' ∧ Owned rank m' temps ∧ Shrunk m m' ∧
      Quiet (fun _ => False) m m' ∧ ∀ x, m.graph.live x →
        (¬ m'.graph.live x ↔ ∃ w ∈ work, Below Place.home m.graph w x) :=
  destroyAll_of_atRest h fun w hw => h.atRest fun r f hf hr => hrun r f hf hr w hw

/-- The owners of a live frame lead up to a Task variable. -/
theorem Owned.root {rank : Addr → Nat} {m : Machine L} (ho : Owned rank m []) {a : Addr}
    (ha : m.graph.live a) : ∃ v r, m.graph.holds (.var v) r ∧ Below Place.home m.graph r a := by
  induction hr : rank a using Nat.strongRecOn generalizing a with
  | ind n ih =>
    rcases ho.forest.owned ha with ht | ⟨p, hp⟩
    · exact absurd ht List.not_mem_nil
    · cases p with
      | var v => exact ⟨v, a, hp, .self⟩
      | slot b s =>
        have hlt := ho.forest.ranked hp rfl
        obtain ⟨v, r, hv, hb⟩ := ih (rank b) (hr ▸ hlt) (ho.forest.home_live hp rfl) rfl
        exact ⟨v, r, hv, .held hb rfl hp⟩

/-! ## Task and Awaiter operations

`reset()` destroys first and clears the handle afterwards.  The destruction
does not look at the handle being reset, so the two steps can be exchanged. -/

private theorem destroyAll_vars {V : L.Var → Option (Option Addr)} {fuel : Nat} :
    ∀ {m m' : Machine L} {work : List Addr}, destroyAll fuel work m = .ok m' →
      destroyAll fuel work { m with vars := V } = .ok { m' with vars := V } := by
  induction fuel with
  | zero =>
    intro m m' work h
    cases work with
    | nil =>
      rw [destroyAll_nil, Except.ok.injEq] at h
      rw [destroyAll_nil, h]
    | cons a work => simp [destroyAll] at h
  | succ fuel ih =>
    intro m m' work h
    cases work with
    | nil =>
      rw [destroyAll_nil, Except.ok.injEq] at h
      rw [destroyAll_nil, h]
    | cons a work =>
      obtain ⟨fuel', f, hfuel, hf, hr, h'⟩ := destroyAll_cons_inv h
      obtain rfl : fuel = fuel' := by omega
      have hf' : ({ m with vars := V } : Machine L).heap a = some f := hf
      rw [destroyAll_cons hf' hr]
      exact ih h'

private theorem destroyAll_store {a : Addr} {f g : Frame L} {fuel : Nat} :
    ∀ {m m' : Machine L} {work : List Addr}, destroyAll fuel work m = .ok m' →
      m'.heap a = some g → destroyAll fuel work (m.store a f) = .ok (m'.store a f) := by
  induction fuel with
  | zero =>
    intro m m' work h _
    cases work with
    | nil =>
      rw [destroyAll_nil, Except.ok.injEq] at h
      rw [destroyAll_nil, h]
    | cons b work => simp [destroyAll] at h
  | succ fuel ih =>
    intro m m' work h ha
    cases work with
    | nil =>
      rw [destroyAll_nil, Except.ok.injEq] at h
      rw [destroyAll_nil, h]
    | cons b work =>
      obtain ⟨fuel', k, hfuel, hb, hr, h'⟩ := destroyAll_cons_inv h
      obtain rfl : fuel = fuel' := by omega
      -- A frame that survives is not the one destroyed in this round.
      have hba : b ≠ a := fun hba => (kill_heap.mp ((shrunk_of_destroyAll h').heap ha)).2 hba.symm
      have hb' : (m.store a f).heap b = some k := by
        show Function.update m.heap a (some f) b = some k
        rw [Function.update_of_ne hba]
        exact hb
      have hcomm : (m.store a f).kill b = (m.kill b).store a f := by
        simp only [store, Machine.kill, Function.update_comm hba]
      rw [destroyAll_cons hb' hr, hcomm]
      exact ih h' ha

/-- Destroying a temporary taken out of `p` and clearing `p` afterwards comes to
the same as clearing `p` first. -/
private theorem write_destroyAll {m m₁ m₂ : Machine L} {p : Place L} {fuel : Nat}
    {work : List Addr} (hp : m.HasPlace p) (hwrite : m.write p none = .ok m₁)
    (hok : destroyAll fuel work m₁ = .ok m₂) (hshrunk : Shrunk m₁ m₂) (hp₂ : m₂.HasPlace p) :
    ∃ m₃, destroyAll fuel work m = .ok m₃ ∧ m₃.write p none = .ok m₂ := by
  cases p with
  | var v =>
    simp only [write, Except.ok.injEq] at hwrite
    refine ⟨{ m₂ with vars := m.vars }, ?_, ?_⟩
    · have h : destroyAll fuel work { m₁ with vars := m.vars } =
          .ok { m₂ with vars := m.vars } := destroyAll_vars hok
      rwa [← hwrite] at h
    · have hvars : m₂.vars = Function.update m.vars v (some none) := by
        rw [hshrunk.vars, ← hwrite]
      show Except.ok { m₂ with vars := Function.update m.vars v (some none) } = _
      rw [← hvars]
  | slot a s =>
    obtain ⟨f, hf⟩ := hp
    obtain ⟨g, hg⟩ := hp₂
    let f₁ : Frame L := { f with slots := Function.update f.slots s none }
    have hm₁ : m₁ = m.store a f₁ := Except.ok.inj (hwrite.symm.trans (write_slot hf s none))
    have hgf : g = f₁ := by
      have hg₁ := hshrunk.heap hg
      rw [hm₁] at hg₁
      simpa [store, eq_comm] using hg₁
    have hm : m₁.store a f = m := by
      rw [hm₁]
      simp only [store, Function.update_idem]
      rw [Function.update_eq_self_iff.mpr hf.symm]
    refine ⟨m₂.store a f, ?_, ?_⟩
    · rw [← hm]
      exact destroyAll_store hok hg
    · have hf₂ : (m₂.store a f).heap a = some f := by simp [store]
      rw [write_slot hf₂]
      show Except.ok ((m₂.store a f).store a f₁) = _
      simp only [store, Function.update_idem]
      rw [Function.update_eq_self_iff.mpr (hgf ▸ hg.symm)]

/-- What was below `c` stays below `c` when a place outside is cleared. -/
private theorem below_clear {G G' : OwnerGraph (Place L) Addr} {p : Place L} {c x : Addr}
    (hholds : ∀ q b, G'.holds q b ↔ q ≠ p ∧ G.holds q b)
    (hout : ∀ y, Below Place.home G c y → p.home ≠ some y) (hb : Below Place.home G c x) :
    Below Place.home G' c x := by
  induction hb with
  | self => exact .self
  | @held q y b hby hq hyb ih =>
    refine .held ih hq ((hholds q b).mpr ⟨?_, hyb⟩)
    rintro rfl
    exact hout y hby hq

/-- `reset()` ends exactly the frames at or below the handle and empties the
place, if no coroutine among them is running. -/
theorem reset_of_atRest {rank : Addr → Nat} {m : Machine L} {temps : List Addr} {p : Place L}
    (h : Owned rank m temps) (hp : m.HasPlace p)
    (hrest : ∀ c, m.graph.holds p c → m.AtRest c) :
    ∃ m', m.reset p = .ok m' ∧ Owned rank m' temps ∧ Quiet (fun a => p.home = some a) m m' ∧
      (∀ q b, m'.graph.holds q b ↔ q ≠ p ∧ m.graph.holds q b ∧ m'.HasPlace q) ∧
      ∀ x, m.graph.live x →
        (¬ m'.graph.live x ↔ ∃ c, m.graph.holds p c ∧ Below Place.home m.graph c x) := by
  obtain ⟨o, hread, ho⟩ := read_ok hp
  cases o with
  | none =>
    have hnone : ∀ b, ¬ m.graph.holds p b := fun b hb => by simpa using (ho b).mp hb
    refine ⟨m, reset_of_none hread, h, .refl _ m, ?_, ?_⟩
    · intro q b
      constructor
      · intro hb
        refine ⟨fun hqp => hnone b (hqp ▸ hb), hb, ?_⟩
        cases q with
        | var v => trivial
        | slot a s => exact h.forest.home_live hb rfl
      · exact fun hb => hb.2.1
    · intro x hx
      exact ⟨fun hnx => absurd hx hnx, fun ⟨c, hc, _⟩ => absurd hc (hnone c)⟩
  | some c =>
    have hc : m.graph.holds p c := (ho c).mpr rfl
    obtain ⟨o, m₁, hex, howned, hq₁, ho', hlive₁, hholds₁⟩ := exchange_spec h hp
    obtain rfl : o = some c := (ho' c).mp hc
    have hwrite : m.write p none = .ok m₁ := by
      obtain ⟨m₂, hw, _⟩ := write_spec hp none
      rw [exchange, bind_of_ok hread, bind_of_ok hw] at hex
      rw [hw, (Prod.mk.inj (Except.ok.inj hex)).2]
    have hrest₁ : ∀ w ∈ [c], m₁.AtRest w := by
      intro w hw r f hb hf
      obtain ⟨g, hg, _, _, hpt, _⟩ := hq₁.frame hf
      rw [List.mem_singleton.mp hw] at hb
      rw [hpt]
      exact hrest c hc r g (hb.mono fun q b hqb => ((hholds₁ q b).mp hqb).2) hg
    have howned' : Owned rank m₁ ([c] ++ temps) := howned
    obtain ⟨m₂, hok, howned₂, hshrunk, hq₂, hdead⟩ := destroyAll_of_atRest howned' hrest₁
    -- The frame that holds the handle ranks below it, so it is not destroyed.
    have hout : ∀ y, Below Place.home m.graph c y → p.home ≠ some y := by
      intro y hy hpy
      have hle := h.forest.rank_le_of_below hy
      have hlt := h.forest.ranked hc hpy
      omega
    have hp₂ : m₂.HasPlace p := by
      cases p with
      | var v => trivial
      | slot a s =>
        by_contra hna
        obtain ⟨w, hw, hb⟩ := (hdead a ((hlive₁ a).mpr hp)).mp hna
        rw [List.mem_singleton] at hw
        exact hout a (hw ▸ hb.mono fun q b hqb => ((hholds₁ q b).mp hqb).2) rfl
    obtain ⟨m₃, hok₃, hwrite₃⟩ := write_destroyAll hp hwrite hok hshrunk hp₂
    refine ⟨m₂, ?_, howned₂, hq₁.trans (hq₂.mono fun a ha => ha.elim), ?_, ?_⟩
    · have hdestroy : m.destroy c = .ok m₃ := by
        rw [destroy, ← hq₁.next]
        exact hok₃
      rw [reset, bind_of_ok hread]
      exact (bind_of_ok hdestroy _).trans hwrite₃
    · intro q b
      constructor
      · intro hb
        obtain ⟨hqp, hqb⟩ := (hholds₁ q b).mp (hshrunk.holds hb)
        refine ⟨hqp, hqb, ?_⟩
        cases q with
        | var v => trivial
        | slot a s => exact howned₂.forest.home_live hb rfl
      · rintro ⟨hqp, hqb, hhas⟩
        have hqb₁ := (hholds₁ q b).mpr ⟨hqp, hqb⟩
        cases q with
        | var v => rwa [graph_holds_var, hshrunk.vars]
        | slot a s => exact (hq₂.holds_iff (fun ha => ha) hhas s b).mpr hqb₁
    · intro x hx
      rw [hdead x ((hlive₁ x).mpr hx)]
      constructor
      · rintro ⟨w, hw, hb⟩
        rw [List.mem_singleton] at hw
        exact ⟨c, hc, hw ▸ hb.mono fun q b hqb => ((hholds₁ q b).mp hqb).2⟩
      · rintro ⟨d, hd, hb⟩
        obtain rfl : d = c := h.forest.single hd hc
        exact ⟨d, List.mem_singleton_self d, below_clear hholds₁ hout hb⟩

/-- `reset()` of a coroutine that the running ones rank below. -/
theorem reset_spec {rank : Addr → Nat} {m : Machine L} {temps : List Addr} {p : Place L}
    (h : Owned rank m temps) (hp : m.HasPlace p)
    (hrun : ∀ r f c, m.heap r = some f → f.point.isRunning = true → m.graph.holds p c →
      rank r < rank c) :
    ∃ m', m.reset p = .ok m' ∧ Owned rank m' temps ∧ Quiet (fun a => p.home = some a) m m' ∧
      (∀ q b, m'.graph.holds q b ↔ q ≠ p ∧ m.graph.holds q b ∧ m'.HasPlace q) ∧
      ∀ x, m.graph.live x →
        (¬ m'.graph.live x ↔ ∃ c, m.graph.holds p c ∧ Below Place.home m.graph c x) :=
  reset_of_atRest h hp fun c hc => h.atRest fun r f hf hr => hrun r f c hf hr hc

theorem Machine.HasPlace.of_home {m : Machine L} {p : Place L} (h : ∀ a, p.home = some a → m.graph.live a) :
    m.HasPlace p := by
  cases p with
  | var v => trivial
  | slot a s => exact h a rfl

theorem Machine.HasPlace.home_live {m : Machine L} {p : Place L} (hp : m.HasPlace p) {a : Addr}
    (ha : p.home = some a) : m.graph.live a := by
  cases p with
  | var v => simp [Place.home] at ha
  | slot x s =>
    simp only [Place.home, Option.some.injEq] at ha
    exact ha ▸ hp

/-! ## Operations that succeed

An operation that does not fault found its places and no running coroutine among the
frames that it destroyed. -/

section Success

variable {rank : Addr → Nat} {m m' : Machine L} {temps : List Addr} {p q : Place L}

theorem hasPlace_of_read {o : Option Addr} (h : m.read p = .ok o) : m.HasPlace p := by
  cases p with
  | var v => trivial
  | slot a s =>
    obtain ⟨f, hf, _⟩ := bind_eq_ok h
    exact ⟨f, frame_eq_ok hf⟩

theorem hasPlace_of_write {o : Option Addr} (h : m.write p o = .ok m') : m.HasPlace p := by
  cases p with
  | var v => trivial
  | slot a s =>
    obtain ⟨f, hf, _⟩ := bind_eq_ok h
    exact ⟨f, frame_eq_ok hf⟩

theorem atRest_of_reset (hok : m.reset p = .ok m') {c : Addr} (hc : m.graph.holds p c) :
    m.AtRest c := by
  obtain ⟨o, hread, hok⟩ := bind_eq_ok hok
  obtain ⟨o', hread', ho⟩ := read_ok (hasPlace_of_read hread)
  obtain rfl : o = o' := Except.ok.inj (hread.symm.trans hread')
  obtain rfl : o = some c := (ho c).mp hc
  obtain ⟨m₁, hdestroy, _⟩ := bind_eq_ok hok
  exact atRest_of_destroyAll hdestroy c (List.mem_singleton_self c)

theorem reset_of_ok (h : Owned rank m temps) (hok : m.reset p = .ok m') :
    Owned rank m' temps ∧ Quiet (fun a => p.home = some a) m m' ∧
      (∀ q b, m'.graph.holds q b ↔ q ≠ p ∧ m.graph.holds q b ∧ m'.HasPlace q) ∧
      ∀ x, m.graph.live x →
        (¬ m'.graph.live x ↔ ∃ c, m.graph.holds p c ∧ Below Place.home m.graph c x) := by
  obtain ⟨o, hread, _⟩ := bind_eq_ok hok
  obtain ⟨m₁, hok₁, hspec⟩ :=
    reset_of_atRest h (hasPlace_of_read hread) fun c hc => atRest_of_reset hok hc
  obtain rfl : m₁ = m' := Except.ok.inj (hok₁.symm.trans hok)
  exact hspec

theorem exchange_of_ok {o : Option Addr} (h : Owned rank m temps)
    (hok : m.exchange p = .ok (o, m')) :
    Owned rank m' (o.toList ++ temps) ∧ Quiet (fun a => p.home = some a) m m' ∧
      (∀ c, m.graph.holds p c ↔ o = some c) ∧ (∀ x, m'.graph.live x ↔ m.graph.live x) ∧
      ∀ q b, m'.graph.holds q b ↔ q ≠ p ∧ m.graph.holds q b := by
  obtain ⟨_, hread, _⟩ := bind_eq_ok hok
  obtain ⟨o₁, m₁, hok₁, hspec⟩ := exchange_spec h (hasPlace_of_read hread)
  obtain ⟨rfl, rfl⟩ := Prod.mk.inj (Except.ok.inj (hok₁.symm.trans hok))
  exact hspec

theorem store_of_ok {o : Option Addr} (h : Owned rank m (o.toList ++ temps))
    (hempty : ∀ b, ¬ m.graph.holds p b)
    (hrank : ∀ a c, p.home = some a → o = some c → rank a < rank c)
    (hok : m.write p o = .ok m') :
    Owned rank m' temps ∧ Quiet (fun a => p.home = some a) m m' ∧
      (∀ x, m'.graph.live x ↔ m.graph.live x) ∧
      ∀ q b, m'.graph.holds q b ↔ m.graph.holds q b ∨ (q = p ∧ o = some b) := by
  obtain ⟨m₁, hok₁, hspec⟩ := store_spec h (hasPlace_of_write hok) hempty hrank
  obtain rfl : m₁ = m' := Except.ok.inj (hok₁.symm.trans hok)
  exact hspec

/-- Move assignment moves one handle, only takes handles away from the other places,
and ends no frame but those at or below the old handle of the target. -/
theorem moveAssign_of_ok (h : Owned rank m temps)
    (hrank : ∀ a c, p.home = some a → m.graph.holds q c → rank a < rank c)
    (hok : m.moveAssign p q = .ok m') :
    Owned rank m' temps ∧ Quiet (fun a => p.home = some a ∨ q.home = some a) m m' ∧
      (∀ r b, m'.graph.holds r b → m.graph.holds r b ∨ (r = p ∧ m.graph.holds q b)) ∧
      ∀ x, m.graph.live x → (∀ c, m.graph.holds p c → ¬ Below Place.home m.graph c x) →
        m'.graph.live x := by
  rw [moveAssign] at hok
  split at hok
  · obtain rfl := Except.ok.inj hok
    exact ⟨h, .refl _ m, fun r b hb => Or.inl hb, fun x hx _ => hx⟩
  · obtain ⟨m₁, hreset, hok⟩ := bind_eq_ok hok
    obtain ⟨⟨o, m₂⟩, hex, hok⟩ := bind_eq_ok hok
    obtain ⟨ho₁, hq₁, hholds₁, hdead₁⟩ := reset_of_ok h hreset
    obtain ⟨ho₂, hq₂, hread, hlive₂, hholds₂⟩ := exchange_of_ok ho₁ hex
    have hheld : ∀ c, o = some c → m.graph.holds q c := fun c hc =>
      ((hholds₁ q c).mp ((hread c).mpr hc)).2.1
    have hempty : ∀ b, ¬ m₂.graph.holds p b := fun b hb =>
      ((hholds₁ p b).mp ((hholds₂ p b).mp hb).2).1 rfl
    obtain ⟨ho', hq', hlive', hholds'⟩ :=
      store_of_ok ho₂ hempty (fun a c ha hc => hrank a c ha (hheld c hc)) hok
    refine ⟨ho', ?_, ?_, ?_⟩
    · exact (hq₁.mono fun a ha => Or.inl ha).trans
        ((hq₂.mono fun a ha => Or.inr ha).trans (hq'.mono fun a ha => Or.inl ha))
    · intro r b hb
      rcases (hholds' r b).mp hb with hb | ⟨hr, hob⟩
      · exact Or.inl ((hholds₁ r b).mp ((hholds₂ r b).mp hb).2).2.1
      · exact Or.inr ⟨hr, hheld b hob⟩
    · intro x hx hnb
      refine (hlive' x).mpr ((hlive₂ x).mpr ?_)
      by_contra hnx
      obtain ⟨c, hc, hb⟩ := (hdead₁ x hx).mp hnx
      exact hnb c hc hb

/-- Move assignment does not fault if its source lies outside of the frames that it
ends, and none of them is running. -/
theorem moveAssign_of_atRest (h : Owned rank m temps) (hp : m.HasPlace p) (hq : m.HasPlace q)
    (hrest : ∀ c, m.graph.holds p c → m.AtRest c)
    (hout : ∀ a c, q.home = some a → m.graph.holds p c → ¬ Below Place.home m.graph c a) :
    ∃ m', m.moveAssign p q = .ok m' := by
  by_cases hpq : p = q
  · exact ⟨m, by rw [moveAssign, if_pos hpq]⟩
  · obtain ⟨m₁, hreset, ho₁, _, _, hdead₁⟩ := reset_of_atRest h hp hrest
    have hsurvive : ∀ {r : Place L}, m.HasPlace r →
        (∀ a c, r.home = some a → m.graph.holds p c → ¬ Below Place.home m.graph c a) →
        m₁.HasPlace r := by
      intro r hr hnb
      refine .of_home fun a ha => ?_
      by_contra hna
      obtain ⟨c, hc, hb⟩ := (hdead₁ a (hr.home_live ha)).mp hna
      exact hnb a c ha hc hb
    have hp₁ : m₁.HasPlace p := by
      refine hsurvive hp fun a c ha hc hb => ?_
      -- A frame ranks below what it owns.
      have hle := h.forest.rank_le_of_below hb
      have hlt := h.forest.ranked hc ha
      omega
    obtain ⟨o, m₂, hex, _, _, _, hlive₂, _⟩ := exchange_spec ho₁ (hsurvive hq hout)
    obtain ⟨m', hwrite, _⟩ := write_spec (hp₁.of_live_iff hlive₂) o
    refine ⟨m', ?_⟩
    rw [moveAssign, if_neg hpq, bind_of_ok hreset, bind_of_ok hex]
    exact hwrite

end Success

/-- Move assignment between places ends the frames at or below the old handle of
the target.  The source must not lie in one of them. -/
theorem moveAssign_spec {rank : Addr → Nat} {m : Machine L} {temps : List Addr}
    {p other : Place L} (h : Owned rank m temps) (hp : m.HasPlace p) (ho : m.HasPlace other)
    (hrun : ∀ r f c, m.heap r = some f → f.point.isRunning = true → m.graph.holds p c →
      rank r < rank c)
    (hout : ∀ a c, other.home = some a → m.graph.holds p c → ¬ Below Place.home m.graph c a)
    (hrank : ∀ a c, p.home = some a → m.graph.holds other c → rank a < rank c) :
    ∃ m', m.moveAssign p other = .ok m' ∧ Owned rank m' temps ∧
      Quiet (fun a => p.home = some a ∨ other.home = some a) m m' ∧
      (∀ q b, m'.graph.holds q b → m.graph.holds q b ∨ (q = p ∧ m.graph.holds other b)) ∧
      ∀ x, m.graph.live x → (∀ c, m.graph.holds p c → ¬ Below Place.home m.graph c x) →
        m'.graph.live x := by
  obtain ⟨m', hok⟩ := moveAssign_of_atRest h hp ho
    (fun c hc => h.atRest fun r f hf hr => hrun r f c hf hr hc) hout
  exact ⟨m', hok, moveAssign_of_ok h hrank hok⟩

/-! ## Coroutine calls -/

theorem Owned.heap_next {rank : Addr → Nat} {m : Machine L} {temps : List Addr}
    (h : Owned rank m temps) : m.heap m.next = none := by
  cases hn : m.heap m.next with
  | none => rfl
  | some f => exact absurd (h.lt_next ⟨f, hn⟩) (Nat.lt_irrefl _)

/-- The frame of a call holds nothing at first. -/
theorem create_holds {rank : Addr → Nat} {m : Machine L} {temps : List Addr}
    (h : Owned rank m temps) (kind : Kind) (body : L.Code) (q : Place L) (b : Addr) :
    (m.create kind body).2.graph.holds q b ↔ m.graph.holds q b := by
  cases q with
  | var v => exact Iff.rfl
  | slot x s =>
    by_cases hx : x = m.next
    · subst hx
      simp [create, Frame.fresh, h.heap_next]
    · simp [create, hx]

/-- A coroutine call adds one frame, which a temporary owns and which owns
nothing. -/
theorem create_spec {rank rank' : Addr → Nat} {m : Machine L} {temps : List Addr}
    (h : Owned rank m temps) (hrank : ∀ a c, rank a < rank c → a < m.next → c < m.next →
      rank' a < rank' c) (kind : Kind) (body : L.Code) :
    Owned rank' (m.create kind body).2 (m.next :: temps) := by
  have hfresh : ¬ m.graph.live m.next := fun hl => Nat.lt_irrefl _ (h.lt_next hl)
  have hlive : ∀ x, (m.create kind body).2.graph.live x ↔ m.graph.live x ∨ x = m.next := by
    intro x
    by_cases hx : x = m.next
    · subst hx
      simp [create]
    · simp [create, hx]
  refine ⟨?_, ?_, h.destroyed_nodup, ?_⟩
  · refine h.forest.alloc hfresh (fun a c ha hc hac => ?_) hlive (create_holds h kind body)
    exact hrank a c hac (h.lt_next ha) (h.lt_next hc)
  · intro a ha
    show a < m.next + 1
    rcases (hlive a).mp ha with ha | rfl
    · exact Nat.lt_succ_of_lt (h.lt_next ha)
    · exact Nat.lt_succ_self _
  · intro a
    show a ∈ m.destroyed ↔ a < m.next + 1 ∧ _
    rw [h.mem_destroyed, hlive]
    constructor
    · rintro ⟨hlt, hnl⟩
      exact ⟨Nat.lt_succ_of_lt hlt, fun hl => hl.elim hnl (Nat.ne_of_lt hlt)⟩
    · rintro ⟨hlt, hnl⟩
      refine ⟨Nat.lt_of_le_of_ne (Nat.le_of_lt_succ hlt) fun hx => hnl (Or.inr hx), ?_⟩
      exact fun hl => hnl (Or.inl hl)

/-- The frame of a call can rank just above the caller, and below all that the caller
owns. -/
theorem create_above {rank : Addr → Nat} {m : Machine L} {temps : List Addr} {a : Addr}
    (h : Owned rank m temps) (ha : m.graph.live a) (kind : Kind) (body : L.Code) :
    ∃ rank', Owned rank' (m.create kind body).2 (m.next :: temps) ∧ rank' a < rank' m.next ∧
      ∀ c, m.graph.live c → rank a < rank c → rank' m.next < rank' c := by
  let rank' : Addr → Nat := fun x => if x = m.next then 2 * rank a + 1 else 2 * rank x
  have hrank' : ∀ {x}, x < m.next → rank' x = 2 * rank x := fun hx => if_neg (Nat.ne_of_lt hx)
  have hrankn : rank' m.next = 2 * rank a + 1 := if_pos rfl
  have hmono : ∀ x y, rank x < rank y → x < m.next → y < m.next → rank' x < rank' y := by
    intro x y hxy hx hy
    rw [hrank' hx, hrank' hy]
    omega
  refine ⟨rank', create_spec h hmono kind body, ?_, fun c hc hac => ?_⟩
  · rw [hrank' (h.lt_next ha), hrankn]
    omega
  · rw [hrankn, hrank' (h.lt_next hc)]
    omega

/-- The frame of a call can rank below all others. -/
theorem create_lowest {rank : Addr → Nat} {m : Machine L} {temps : List Addr}
    (h : Owned rank m temps) (kind : Kind) (body : L.Code) :
    ∃ rank', Owned rank' (m.create kind body).2 (m.next :: temps) ∧
      ∀ c, m.graph.live c → rank' m.next < rank' c := by
  let rank' : Addr → Nat := fun x => if x = m.next then 0 else rank x + 1
  have hrank' : ∀ {x}, x < m.next → rank' x = rank x + 1 := fun hx => if_neg (Nat.ne_of_lt hx)
  have hrankn : rank' m.next = 0 := if_pos rfl
  have hmono : ∀ x y, rank x < rank y → x < m.next → y < m.next → rank' x < rank' y := by
    intro x y hxy hx hy
    rw [hrank' hx, hrank' hy]
    omega
  refine ⟨rank', create_spec h hmono kind body, fun c hc => ?_⟩
  rw [hrankn, hrank' (h.lt_next hc)]
  exact Nat.succ_pos _

/-- Binding the arguments of a call.  The new frame `n` ranks below what it is
given, and nothing that ranks at or below `n` is destroyed. -/
theorem bindArgs_spec {rank : Addr → Nat} {n : Addr} {temps : List Addr}
    {args : List (L.Local × Place L)} :
    ∀ {m : Machine L}, Owned rank m (n :: temps) →
      (∀ r f, m.heap r = some f → f.point.isRunning = true → rank r ≤ rank n) →
      (∀ a ∈ args, m.HasPlace a.2 ∧ (∀ x, a.2.home = some x → rank x ≤ rank n) ∧
        ∀ c, m.graph.holds a.2 c → rank n < rank c) →
      ∃ m', bindArgs n args m = .ok m' ∧ Owned rank m' (n :: temps) ∧
        Quiet (fun a => a = n ∨ ∃ p ∈ args, p.2.home = some a) m m' ∧
        (∀ x, m.graph.live x → rank x ≤ rank n → m'.graph.live x) ∧
        (∀ v c, m'.graph.holds (.var v) c → m.graph.holds (.var v) c) ∧
        ∀ q c, m'.graph.holds q c → m.graph.holds q c ∨ ∃ p ∈ args, m.graph.holds p.2 c := by
  induction args with
  | nil =>
    intro m h _ _
    exact ⟨m, rfl, h, .refl _ m, fun x hx _ => hx, fun v c hc => hc, fun q c hc => Or.inl hc⟩
  | cons arg args ih =>
    intro m h hrun hargs
    obtain ⟨x, q⟩ := arg
    obtain ⟨hqhas, hqrank, hqheld⟩ := hargs (x, q) List.mem_cons_self
    have hn : m.graph.live n := h.forest.temp_live List.mem_cons_self
    have habove : ∀ c y, m.graph.holds (.slot n (.inl x)) c → rank y ≤ rank n →
        ¬ Below Place.home m.graph c y := by
      intro c y hc hy hb
      have hle := h.forest.rank_le_of_below hb
      have hlt := h.forest.ranked hc rfl
      omega
    obtain ⟨m₁, hmove, howned₁, hq₁, hholds₁, hlive₁⟩ :=
      moveAssign_spec h (show m.HasPlace (.slot n (.inl x)) from hn) hqhas
        (fun r f c hf hr hc => by
          have hle := hrun r f hf hr
          have hlt := h.forest.ranked hc rfl
          omega)
        (fun a c ha hc => habove c a hc (hqrank a ha))
        (fun a c ha hc => by
          simp only [Place.home, Option.some.injEq] at ha
          exact ha ▸ hqheld c hc)
    have hkept : ∀ y, m.graph.live y → rank y ≤ rank n → m₁.graph.live y :=
      fun y hy hle => hlive₁ y hy fun c hc => habove c y hc hle
    obtain ⟨m', hok, howned', hq', hkept', hvars', hheld'⟩ := ih howned₁
      (fun r f hf hr => by
        obtain ⟨g, hg, _, _, hpt, _⟩ := hq₁.frame hf
        exact hrun r g hg (hpt ▸ hr))
      (fun a ha => by
        obtain ⟨hhas, hle, hheld⟩ := hargs a (List.mem_cons_of_mem _ ha)
        refine ⟨.of_home fun y hy => hkept y (hhas.home_live hy) (hle y hy), hle, ?_⟩
        intro c hc
        rcases hholds₁ _ c hc with hc | ⟨_, hc⟩
        · exact hheld c hc
        · exact hqheld c hc)
    refine ⟨m', ?_, howned', ?_, fun y hy hle => hkept' y (hkept y hy hle) hle, ?_, ?_⟩
    · rw [bindArgs, bind_of_ok hmove]
      exact hok
    · refine (hq₁.mono fun a ha => ?_).trans (hq'.mono fun a ha => ?_)
      · rcases ha with ha | ha
        · simp only [Place.home, Option.some.injEq] at ha
          exact Or.inl ha.symm
        · exact Or.inr ⟨(x, q), List.mem_cons_self, ha⟩
      · rcases ha with ha | ⟨p, hp, ha⟩
        · exact Or.inl ha
        · exact Or.inr ⟨p, List.mem_cons_of_mem _ hp, ha⟩
    · intro v c hc
      rcases hholds₁ _ c (hvars' v c hc) with hc | ⟨hv, _⟩
      · exact hc
      · simp at hv
    · intro r c hc
      rcases hheld' r c hc with hc | ⟨p, hp, hc⟩
      · exact (hholds₁ r c hc).imp_right fun hqc => ⟨(x, q), List.mem_cons_self, hqc.2⟩
      · rcases hholds₁ p.2 c hc with hc | ⟨_, hc⟩
        · exact Or.inr ⟨p, List.mem_cons_of_mem _ hp, hc⟩
        · exact Or.inr ⟨(x, q), List.mem_cons_self, hc⟩

/-! ## The end of a body -/

/-- The variables that end with a body give their handles to temporaries. -/
theorem leave_spec {rank : Addr → Nat} {m : Machine L} {temps : List Addr} {a : Addr}
    {f : Frame L} (h : Owned rank m temps) (hf : m.heap a = some f) :
    Owned rank (m.store a f.leave) (f.scopedHandles ++ temps) ∧
      Quiet (fun x => x = a) m (m.store a f.leave) ∧
      (∀ x, (m.store a f.leave).graph.live x ↔ m.graph.live x) ∧
      ∀ q b, (m.store a f.leave).graph.holds q b → m.graph.holds q b := by
  have hne : ∀ {x}, x ≠ a → (m.store a f.leave).heap x = m.heap x :=
    fun hx => Function.update_of_ne hx _ _
  have hself : (m.store a f.leave).heap a = some f.leave := Function.update_self _ _ _
  have hlive : ∀ x, (m.store a f.leave).graph.live x ↔ m.graph.live x := by
    intro x
    by_cases hxa : x = a
    · subst hxa
      simp [hself, hf]
    · simp only [graph_live, hne hxa]
  let S : Place L → Prop := fun p => ∃ s : Slot L, p = .slot a s ∧ s.scoped = true
  have hholds : ∀ q b, (m.store a f.leave).graph.holds q b ↔ m.graph.holds q b ∧ ¬ S q := by
    intro q b
    cases q with
    | var v => simp [store, S]
    | slot x s =>
      by_cases hxa : x = a
      · subst hxa
        have hS : S (.slot x s) ↔ s.scoped = true :=
          ⟨fun ⟨t, ht, hts⟩ => (Place.slot.inj ht).2 ▸ hts, fun hs => ⟨s, rfl, hs⟩⟩
        have hslot : f.leave.slots s = if s.scoped = true then none else f.slots s := rfl
        simp only [graph_holds_slot, hself, hf, hS, Option.some.injEq, exists_eq_left', hslot]
        cases s.scoped <;> simp
      · simp only [graph_holds_slot, hne hxa]
        refine ⟨fun hb => ⟨hb, ?_⟩, And.left⟩
        rintro ⟨t, ht, _⟩
        exact hxa (Place.slot.inj ht).1
  have hheld : ∀ c, c ∈ f.scopedHandles ↔ ∃ p, S p ∧ m.graph.holds p c := by
    intro c
    simp only [Frame.scopedHandles, List.mem_filterMap, List.mem_filter, mem_slots, true_and]
    constructor
    · rintro ⟨s, hs, hc⟩
      exact ⟨.slot a s, ⟨s, rfl, hs⟩, holds_slot hf hc⟩
    · rintro ⟨p, ⟨s, rfl, hs⟩, g, hg, hc⟩
      rw [hf, Option.some.injEq] at hg
      exact ⟨s, hs, hg ▸ hc⟩
  have hnodup := h.filterMap_nodup hf (slots_nodup.filter Slot.scoped)
  refine ⟨h.of_forest (h.forest.release hnodup hheld hlive hholds) rfl rfl hlive, ?_, hlive,
    fun q b hb => ((hholds q b).mp hb).1⟩
  refine ⟨rfl, rfl, rfl, rfl, ?_, ?_⟩
  · intro x g hg
    by_cases hxa : x = a
    · subst hxa
      rw [hself, Option.some.injEq] at hg
      subst hg
      exact ⟨f, hf, rfl, rfl, rfl, fun hT => absurd rfl hT⟩
    · rw [hne hxa] at hg
      exact ⟨g, hg, rfl, rfl, rfl, fun _ => rfl⟩
  · intro x s c hT hc _
    obtain ⟨g, hg, _⟩ := hc
    exact ⟨g, by rw [hne hT]; exact hg⟩

/-- The end of a body destroys what its locals and Awaiters own, and nothing
that ranks at or below its frame. -/
theorem leaveScope_spec {rank : Addr → Nat} {m : Machine L} {temps : List Addr} {a : Addr}
    (h : Owned rank m temps) (ha : m.graph.live a)
    (hrun : ∀ r f, m.heap r = some f → f.point.isRunning = true → rank r ≤ rank a) :
    ∃ m', m.leaveScope a = .ok m' ∧ Owned rank m' temps ∧ Quiet (fun x => x = a) m m' ∧
      ∀ x, m.graph.live x → rank x ≤ rank a → m'.graph.live x := by
  obtain ⟨f, hf⟩ := ha
  obtain ⟨howned₁, hq₁, hlive₁, hholds₁⟩ := leave_spec h hf
  have habove : ∀ w ∈ f.scopedHandles, rank a < rank w := by
    intro w hw
    simp only [Frame.scopedHandles, List.mem_filterMap] at hw
    obtain ⟨s, _, hs⟩ := hw
    exact h.forest.ranked (holds_slot hf hs) rfl
  obtain ⟨m', hok, howned', _, hq', hdead⟩ := destroyAll_spec howned₁ (by
    intro r g hg hr w hw
    obtain ⟨g', hg', _, _, hpt, _⟩ := hq₁.frame hg
    exact Nat.lt_of_le_of_lt (hrun r g' hg' (hpt ▸ hr)) (habove w hw))
  refine ⟨m', ?_, howned', hq₁.trans (hq'.mono fun x hx => hx.elim), ?_⟩
  · rw [leaveScope, bind_of_ok (frame_ok hf)]
    exact hok
  · intro x hx hle
    by_contra hnx
    obtain ⟨w, hw, hb⟩ := (hdead x ((hlive₁ x).mpr hx)).mp hnx
    have hwx := howned₁.forest.rank_le_of_below hb
    have haw := habove w hw
    omega

/-! ## Points and promises -/

/-- `m'` has the frames of `m` with the same variables, and the same Task
variables of the driver. -/
structure SameHandles (m m' : Machine L) : Prop where
  heap : ∀ a, (m'.heap a).map Frame.slots = (m.heap a).map Frame.slots
  vars : m'.vars = m.vars
  next : m'.next = m.next
  destroyed : m'.destroyed = m.destroyed

theorem SameHandles.live {m m' : Machine L} (h : SameHandles m m') (a : Addr) :
    m'.graph.live a ↔ m.graph.live a := by
  have ha := h.heap a
  cases hf : m.heap a <;> cases hf' : m'.heap a <;> simp_all

theorem SameHandles.holds {m m' : Machine L} (h : SameHandles m m') (p : Place L) (c : Addr) :
    m'.graph.holds p c ↔ m.graph.holds p c := by
  cases p with
  | var v => rw [graph_holds_var, graph_holds_var, h.vars]
  | slot a s =>
    have ha := h.heap a
    cases hf : m.heap a <;> cases hf' : m'.heap a <;> simp_all

theorem Owned.sameHandles {rank : Addr → Nat} {m m' : Machine L} {temps : List Addr}
    (h : Owned rank m temps) (hs : SameHandles m m') : Owned rank m' temps := by
  refine h.of_forest ?_ hs.next hs.destroyed hs.live
  rw [graph_ext hs.live hs.holds]
  exact h.forest

theorem SameHandles.trans {m₁ m₂ m₃ : Machine L} (h₁ : SameHandles m₁ m₂)
    (h₂ : SameHandles m₂ m₃) : SameHandles m₁ m₃ :=
  ⟨fun a => (h₂.heap a).trans (h₁.heap a), h₂.vars.trans h₁.vars, h₂.next.trans h₁.next,
    h₂.destroyed.trans h₁.destroyed⟩

/-- A frame is replaced by one with the same variables. -/
theorem sameHandles_replace {m m' : Machine L} {a : Addr} {f f' : Frame L}
    (hf : m.heap a = some f) (hheap : m'.heap = Function.update m.heap a (some f'))
    (hslots : f'.slots = f.slots) (hvars : m'.vars = m.vars) (hnext : m'.next = m.next)
    (hdes : m'.destroyed = m.destroyed) : SameHandles m m' := by
  refine ⟨?_, hvars, hnext, hdes⟩
  intro x
  rw [hheap]
  by_cases hxa : x = a
  · subst hxa
    simp [hf, hslots]
  · simp [hxa]

end VixStandard.Task
