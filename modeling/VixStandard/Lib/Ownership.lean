import Mathlib.Data.List.Nodup
import Mathlib.Order.Basic

/-!
# Ownership forests

Objects that own one another through places.  A place either lies inside an
object (`home` names it) or outside all of them, and holds at most one owning
reference.  A temporary is an owning reference on its way from one place to
another.

`Forest` says that every live object has exactly one owner, a place or a
temporary, and that no object owns one of its own ancestors.  Acyclicity is
carried by a rank that grows from an object to what it owns.  The four moves of
such a structure keep it:

* `Forest.release` moves the references out of some places, and `Forest.take`
  out of one;
* `Forest.put` moves a reference into an empty place;
* `Forest.alloc` makes an object, owned by a temporary at first;
* `Forest.kill` ends an object owned by a temporary, and what its places held
  becomes temporaries.

`Forest.lift` finds the rank that `Forest.put` asks for, if no cycle is closed.

`Forest.dead_iff` describes what a sequence of kills ends: exactly the objects
at or below the given temporaries.
-/

namespace VixStandard.Lib.Ownership

variable {P A : Type*}

/-- Which objects are live, and which place holds which object. -/
structure OwnerGraph (P A : Type*) where
  live : A → Prop
  holds : P → A → Prop

variable (home : P → Option A)

/-- The ownership discipline, with `temps` the references held by temporaries. -/
structure Forest (rank : A → Nat) (G : OwnerGraph P A) (temps : List A) : Prop where
  /-- A place holds at most one reference. -/
  single : ∀ {p b c}, G.holds p b → G.holds p c → b = c
  /-- A place that holds something is outside all objects or in a live one. -/
  home_live : ∀ {p c a}, G.holds p c → home p = some a → G.live a
  /-- What a place holds is live. -/
  held_live : ∀ {p c}, G.holds p c → G.live c
  /-- No two places hold the same object. -/
  unique : ∀ {p q c}, G.holds p c → G.holds q c → p = q
  temp_live : ∀ {c}, c ∈ temps → G.live c
  temps_nodup : temps.Nodup
  /-- What a temporary holds no place holds. -/
  temp_free : ∀ {p c}, c ∈ temps → ¬ G.holds p c
  /-- Nothing leaks. -/
  owned : ∀ {c}, G.live c → c ∈ temps ∨ ∃ p, G.holds p c
  /-- An object ranks above the object that owns it. -/
  ranked : ∀ {p c a}, G.holds p c → home p = some a → rank a < rank c

/-- `Below G a c`: `c` is `a` or an object that `a` owns directly or indirectly. -/
inductive Below (G : OwnerGraph P A) (a : A) : A → Prop where
  | self : Below G a a
  | held {p : P} {b c : A} : Below G a b → home p = some b → G.holds p c → Below G a c

variable {home} {rank : A → Nat} {G G' : OwnerGraph P A} {temps temps' : List A}

theorem Forest.rank_le_of_below (h : Forest home rank G temps) {a c : A}
    (hb : Below home G a c) : rank a ≤ rank c := by
  induction hb with
  | self => exact Nat.le_refl _
  | held _ hp hc ih => exact Nat.le_trans ih (Nat.le_of_lt (h.ranked hc hp))

theorem Below.trans {a b c : A} (hab : Below home G a b) (hbc : Below home G b c) :
    Below home G a c := by
  induction hbc with
  | self => exact hab
  | held _ hp hc ih => exact .held ih hp hc

theorem Below.mono (hsub : ∀ p c, G'.holds p c → G.holds p c) {a c : A}
    (hb : Below home G' a c) : Below home G a c := by
  induction hb with
  | self => exact .self
  | held _ hp hc ih => exact .held ih hp (hsub _ _ hc)

/-! ## The four moves -/

/-- The references in some places leave them and become temporaries. -/
theorem Forest.release (h : Forest home rank G temps) {S : P → Prop} {held : List A}
    (hnodup : held.Nodup) (hheld : ∀ c, c ∈ held ↔ ∃ p, S p ∧ G.holds p c)
    (hlive : ∀ x, G'.live x ↔ G.live x)
    (hholds : ∀ q b, G'.holds q b ↔ G.holds q b ∧ ¬ S q) :
    Forest home rank G' (held ++ temps) := by
  refine ⟨?_, ?_, ?_, ?_, ?_, ?_, ?_, ?_, ?_⟩
  · intro q b d hb hd
    exact h.single ((hholds q b).mp hb).1 ((hholds q d).mp hd).1
  · intro q b a hb ha
    exact (hlive a).mpr (h.home_live ((hholds q b).mp hb).1 ha)
  · intro q b hb
    exact (hlive b).mpr (h.held_live ((hholds q b).mp hb).1)
  · intro q r b hq hr
    exact h.unique ((hholds q b).mp hq).1 ((hholds r b).mp hr).1
  · intro b hb
    refine (hlive b).mpr ?_
    rcases List.mem_append.mp hb with hb | hb
    · obtain ⟨p, _, hp⟩ := (hheld b).mp hb
      exact h.held_live hp
    · exact h.temp_live hb
  · refine List.nodup_append.mpr ⟨hnodup, h.temps_nodup, ?_⟩
    intro b hb d hd hbd
    obtain ⟨p, _, hp⟩ := (hheld b).mp hb
    exact h.temp_free (hbd ▸ hd) hp
  · intro q b hb hq
    obtain ⟨hq', hne⟩ := (hholds q b).mp hq
    rcases List.mem_append.mp hb with hb | hb
    · obtain ⟨p, hS, hp⟩ := (hheld b).mp hb
      exact hne (h.unique hq' hp ▸ hS)
    · exact h.temp_free hb hq'
  · intro b hb
    rcases h.owned ((hlive b).mp hb) with ht | ⟨q, hq⟩
    · exact Or.inl (List.mem_append_right _ ht)
    · by_cases hS : S q
      · exact Or.inl (List.mem_append_left _ ((hheld b).mpr ⟨q, hS, hq⟩))
      · exact Or.inr ⟨q, (hholds q b).mpr ⟨hq, hS⟩⟩
  · intro q b a hq ha
    exact h.ranked ((hholds q b).mp hq).1 ha

/-- A reference leaves its place and becomes a temporary. -/
theorem Forest.take (h : Forest home rank G temps) {p : P} {c : A} (hp : G.holds p c)
    (hlive : ∀ x, G'.live x ↔ G.live x)
    (hholds : ∀ q b, G'.holds q b ↔ G.holds q b ∧ q ≠ p) :
    Forest home rank G' (c :: temps) := by
  have hheld : ∀ b, b ∈ [c] ↔ ∃ q, q = p ∧ G.holds q b := by
    intro b
    rw [List.mem_singleton]
    constructor
    · rintro rfl
      exact ⟨p, rfl, hp⟩
    · rintro ⟨q, rfl, hq⟩
      exact h.single hq hp
  exact h.release (List.nodup_singleton c) hheld hlive hholds

/-- An object that holds nothing and is owned by a temporary ends. -/
theorem Forest.discard {a : A} (h : Forest home rank G (a :: temps))
    (hbare : ∀ p c, home p = some a → ¬ G.holds p c)
    (hlive : ∀ x, G'.live x ↔ G.live x ∧ x ≠ a)
    (hholds : ∀ q b, G'.holds q b ↔ G.holds q b) : Forest home rank G' temps := by
  have hfree : ∀ {p}, ¬ G.holds p a := h.temp_free List.mem_cons_self
  have hne : ∀ {b}, b ∈ temps → b ≠ a := by
    rintro b hb rfl
    exact (List.nodup_cons.mp h.temps_nodup).1 hb
  refine ⟨?_, ?_, ?_, ?_, ?_, ?_, ?_, ?_, ?_⟩
  · intro q b d hb hd
    exact h.single ((hholds q b).mp hb) ((hholds q d).mp hd)
  · intro q b x hb hx
    have hb' := (hholds q b).mp hb
    exact (hlive x).mpr ⟨h.home_live hb' hx, fun hxa => hbare q b (hxa ▸ hx) hb'⟩
  · intro q b hb
    have hb' := (hholds q b).mp hb
    exact (hlive b).mpr ⟨h.held_live hb', fun hba => hfree (hba ▸ hb')⟩
  · intro q r b hq hr
    exact h.unique ((hholds q b).mp hq) ((hholds r b).mp hr)
  · intro b hb
    exact (hlive b).mpr ⟨h.temp_live (List.mem_cons_of_mem _ hb), hne hb⟩
  · exact (List.nodup_cons.mp h.temps_nodup).2
  · intro q b hb hq
    exact h.temp_free (List.mem_cons_of_mem _ hb) ((hholds q b).mp hq)
  · intro b hb
    obtain ⟨hb', hba⟩ := (hlive b).mp hb
    rcases h.owned hb' with ht | ⟨q, hq⟩
    · rcases List.mem_cons.mp ht with rfl | ht'
      · exact absurd rfl hba
      · exact Or.inl ht'
    · exact Or.inr ⟨q, (hholds q b).mpr hq⟩
  · intro q b x hq hx
    exact h.ranked ((hholds q b).mp hq) hx

theorem Forest.perm (h : Forest home rank G temps) (hperm : temps.Perm temps') :
    Forest home rank G temps' :=
  ⟨h.single, h.home_live, h.held_live, h.unique, fun hc => h.temp_live (hperm.mem_iff.mpr hc),
    hperm.nodup_iff.mp h.temps_nodup, fun hc => h.temp_free (hperm.mem_iff.mpr hc),
    fun hc => (h.owned hc).imp_left hperm.mem_iff.mp, h.ranked⟩

/-- A temporary is stored in an empty place.  The place is outside all objects,
or in a live object that ranks below the stored one, so no cycle is closed. -/
theorem Forest.put (h : Forest home rank G (c :: temps)) {p : P}
    (hempty : ∀ b, ¬ G.holds p b)
    (hhome : ∀ a, home p = some a → G.live a ∧ rank a < rank c)
    (hlive : ∀ x, G'.live x ↔ G.live x)
    (hholds : ∀ q b, G'.holds q b ↔ G.holds q b ∨ (q = p ∧ b = c)) :
    Forest home rank G' temps := by
  have hc : c ∈ c :: temps := List.mem_cons_self
  refine ⟨?_, ?_, ?_, ?_, ?_, ?_, ?_, ?_, ?_⟩
  · intro q b d hb hd
    rcases (hholds q b).mp hb with hb | ⟨hq, hbc⟩ <;>
      rcases (hholds q d).mp hd with hd | ⟨hq', hdc⟩
    · exact h.single hb hd
    · exact absurd (hq' ▸ hb) (hempty b)
    · exact absurd (hq ▸ hd) (hempty d)
    · rw [hbc, hdc]
  · intro q b a hb ha
    refine (hlive a).mpr ?_
    rcases (hholds q b).mp hb with hb | ⟨rfl, _⟩
    · exact h.home_live hb ha
    · exact (hhome a ha).1
  · intro q b hb
    refine (hlive b).mpr ?_
    rcases (hholds q b).mp hb with hb | ⟨_, rfl⟩
    · exact h.held_live hb
    · exact h.temp_live hc
  · intro q r b hq hr
    rcases (hholds q b).mp hq with hq | ⟨hqp, hbc⟩ <;>
      rcases (hholds r b).mp hr with hr | ⟨hrp, hbc'⟩
    · exact h.unique hq hr
    · exact absurd hq (h.temp_free (hbc' ▸ hc))
    · exact absurd hr (h.temp_free (hbc ▸ hc))
    · rw [hqp, hrp]
  · intro b hb
    exact (hlive b).mpr (h.temp_live (List.mem_cons_of_mem _ hb))
  · exact (List.nodup_cons.mp h.temps_nodup).2
  · intro q b hb hq
    rcases (hholds q b).mp hq with hq | ⟨_, rfl⟩
    · exact h.temp_free (List.mem_cons_of_mem _ hb) hq
    · exact (List.nodup_cons.mp h.temps_nodup).1 hb
  · intro b hb
    rcases h.owned ((hlive b).mp hb) with ht | ⟨q, hq⟩
    · rcases List.mem_cons.mp ht with rfl | ht'
      · exact Or.inr ⟨p, (hholds p b).mpr (Or.inr ⟨rfl, rfl⟩)⟩
      · exact Or.inl ht'
    · exact Or.inr ⟨q, (hholds q b).mpr (Or.inl hq)⟩
  · intro q b a hq ha
    rcases (hholds q b).mp hq with hq | ⟨rfl, rfl⟩
    · exact h.ranked hq ha
    · exact (hhome a ha).2

/-- A new object starts out owned by a temporary.  The old objects may be ranked
afresh, as long as owners stay below what they own. -/
theorem Forest.alloc {rank' : A → Nat} (h : Forest home rank G temps) {n : A}
    (hfresh : ¬ G.live n) (hrank : ∀ a c, G.live a → G.live c → rank a < rank c → rank' a < rank' c)
    (hlive : ∀ x, G'.live x ↔ G.live x ∨ x = n)
    (hholds : ∀ q b, G'.holds q b ↔ G.holds q b) :
    Forest home rank' G' (n :: temps) := by
  refine ⟨?_, ?_, ?_, ?_, ?_, ?_, ?_, ?_, ?_⟩
  · intro q b d hb hd
    exact h.single ((hholds q b).mp hb) ((hholds q d).mp hd)
  · intro q b a hb ha
    exact (hlive a).mpr (Or.inl (h.home_live ((hholds q b).mp hb) ha))
  · intro q b hb
    exact (hlive b).mpr (Or.inl (h.held_live ((hholds q b).mp hb)))
  · intro q r b hq hr
    exact h.unique ((hholds q b).mp hq) ((hholds r b).mp hr)
  · intro b hb
    rcases List.mem_cons.mp hb with rfl | hb'
    · exact (hlive b).mpr (Or.inr rfl)
    · exact (hlive b).mpr (Or.inl (h.temp_live hb'))
  · exact List.nodup_cons.mpr ⟨fun hn => hfresh (h.temp_live hn), h.temps_nodup⟩
  · intro q b hb hq
    rcases List.mem_cons.mp hb with rfl | hb'
    · exact hfresh (h.held_live ((hholds q b).mp hq))
    · exact h.temp_free hb' ((hholds q b).mp hq)
  · intro b hb
    rcases (hlive b).mp hb with hb | rfl
    · rcases h.owned hb with ht | ⟨q, hq⟩
      · exact Or.inl (List.mem_cons_of_mem _ ht)
      · exact Or.inr ⟨q, (hholds q b).mpr hq⟩
    · exact Or.inl List.mem_cons_self
  · intro q b a hq ha
    have hq' := (hholds q b).mp hq
    exact hrank a b (h.home_live hq' ha) (h.held_live hq') (h.ranked hq' ha)

/-- An object owned by a temporary ends, and what its places held becomes
temporaries. -/
theorem Forest.kill {a : A} {held : List A} (h : Forest home rank G (a :: temps))
    (hnodup : held.Nodup) (hheld : ∀ c, c ∈ held ↔ ∃ p, home p = some a ∧ G.holds p c)
    (hlive : ∀ x, G'.live x ↔ G.live x ∧ x ≠ a)
    (hholds : ∀ q b, G'.holds q b ↔ G.holds q b ∧ home q ≠ some a) :
    Forest home rank G' (held ++ temps) := by
  let Gr : OwnerGraph P A := ⟨G.live, fun q b => G.holds q b ∧ home q ≠ some a⟩
  have hr : Forest home rank Gr (held ++ a :: temps) :=
    h.release hnodup hheld (fun _ => Iff.rfl) (fun _ _ => Iff.rfl)
  exact (hr.perm List.perm_middle).discard (fun p c hp hc => hc.2 hp) hlive hholds

/-- Suppose kills lead from the forest `G` with temporaries `work ++ temps` to the
forest `G'` with temporaries `temps`: they end only objects at or below `work`,
and leave the places of the survivors alone.  Then they end all of those
objects. -/
theorem Forest.dead_iff {work : List A} (h : Forest home rank G (work ++ temps))
    (h' : Forest home rank G' temps)
    (honly : ∀ x, G.live x → ¬ G'.live x → ∃ w ∈ work, Below home G w x)
    (hsub : ∀ x, G'.live x → G.live x)
    (hkeep : ∀ q b, G'.holds q b → G.holds q b) {x : A} (hx : G.live x) :
    ¬ G'.live x ↔ ∃ w ∈ work, Below home G w x := by
  refine ⟨honly x hx, ?_⟩
  rintro ⟨w, hw, hb⟩ hx'
  -- The induction goes up the owners that `x` has after the kills.
  induction hr : rank x using Nat.strongRecOn generalizing x with
  | ind r ih =>
    rcases h'.owned hx' with ht | ⟨p, hp⟩
    · cases hb with
      | self => exact (List.nodup_append.mp h.temps_nodup).2.2 w hw w ht rfl
      | held _ _ hc => exact h.temp_free (List.mem_append_right _ ht) hc
    · have hpG := hkeep p x hp
      cases hb with
      | self => exact h.temp_free (List.mem_append_left _ hw) hpG
      | @held q b _ hb' hq hc =>
        have hpq : p = q := h.unique hpG hc
        subst hpq
        have hblive : G'.live b := h'.home_live hp hq
        exact ih (rank b) (hr ▸ h.ranked hc hq) (hsub b hblive) hb' hblive rfl

end VixStandard.Lib.Ownership
