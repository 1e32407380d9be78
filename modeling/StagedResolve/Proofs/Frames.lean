/-
Frames: what a request leaves alone.

# What a request is about

A request for a declaration is about its target with everything below
it, the path down to the target with its type parameters, and the file
(`Designation.Covers`). The work of a phase, the marks of a commit and
what is done for the file stay within that: a walk roams nowhere else
(`Designation.roams`).

# What strays

What strays further are the sessions of the supertype phase. They follow
references into other units, write the clause of a class whose marker is
not set, set it, and mark members that the phase has nothing to do for;
so elsewhere no marker rises past the supertype phase, and slots change
only where a clause was filled in (`DeclState.Spared`). A unit that is
built on the way begins in the state that it is built in, which is the
state it is said to have before.

Hooks could write anywhere in the unit at hand. Here they write nothing
(`Hook.Silent`).
-/
import StagedResolve.Proofs.Clauses
import StagedResolve.Proofs.Failures

namespace StagedResolve

open StagedResolve.Action World

-- ================================================================= hooks

/-- A quiet hook that writes to no declaration. -/
structure Hook.Silent (h : Hook) : Prop where
  quiet : h.Quiet
  states : ∀ (g : Guard) (p : Phase) (u : CompilationUnit) (x : Declaration)
    (w : World), (h g p u x w).2.states = w.states

/-- All hooks of a resolver are silent. -/
def Setup.Silent (setup : Setup) : Prop := ∀ h ∈ setup.hooks, h.Silent

namespace Hook

/-- Writing to the log is silent. -/
theorem silent_recorder : recorder.Silent :=
  ⟨quiet_recorder, fun _ _ _ _ _ => rfl⟩

/-- Cancelling the token is silent. -/
theorem silent_canceller : canceller.Silent :=
  ⟨quiet_canceller, fun _ _ _ _ _ => rfl⟩

/-- Failing is silent. -/
theorem silent_failing : failing.Silent :=
  ⟨quiet_failing, fun _ _ _ _ _ => rfl⟩

/-- A silent hook is silent where it is active. -/
theorem Silent.only {h : Hook} (hh : h.Silent) (phase : Option Phase)
    (name : Option String) : (only phase name h).Silent := by
  refine ⟨hh.quiet.only phase name, fun g p u x w => ?_⟩
  unfold Hook.only
  split
  · exact hh.states g p u x w
  · rfl

end Hook

/-- Silent hooks are quiet. -/
theorem Setup.Silent.quiet {setup : Setup} (h : setup.Silent) : setup.Quiet :=
  fun hook hh => (h hook hh).quiet

/-- A resolver without hooks is silent. -/
theorem Setup.silent_plain (config : Config) : (Setup.plain config).Silent :=
  fun _ h => nomatch h

/-- Silent hooks keep what is left where no state changes. -/
theorem Setup.Silent.runHooks {I : World → Prop} {c : Context} {phase : Phase}
    {d : DeclId} (hsilent : c.setup.Silent)
    (hcoherent : ∀ w, I w → w.Coherent) (hu : ∀ w, I w → w.Registered c.unit)
    (hI : ∀ v w, I v → v.Touches w → w.states = v.states → I w) :
    Triple I (c.runHooks phase d) (fun _ => I) I :=
  Context.runHooks_triple hcoherent hu hsilent.quiet
    fun h hh _ w hw htouch =>
      hI w _ hw htouch ((hsilent h hh).states ..)

-- ================================================= what a request is about

/-- What a request for a designation is about: the file, and besides the
path with its type parameters, and the target with what is below it. A
request for a file is about nothing else. -/
def Designation.Covers (goal : Designation) (u : CompilationUnit)
    (d : DeclId) : Prop :=
  u = goal.unit ∧ (d = .root ∨ (goal.isFile = false ∧
    (d ∈ goal.path ∨
      (u.kind? d = some .typeParameter ∧ ∃ q ∈ goal.path, u.parent? d = some q) ∨
      d = goal.target ∨ goal.target ∈ u.ancestors d)))

instance (goal : Designation) (u : CompilationUnit) (d : DeclId) :
    Decidable (goal.Covers u d) :=
  inferInstanceAs (Decidable (_ ∧ _))

/-- A walk for a designation comes by what the designation covers. -/
theorem Designation.roams {goal : Designation} (hu : goal.unit.WellFormed)
    (hfile : goal.isFile = false) :
    Walk.Roams goal.unit goal (goal.Covers goal.unit) := by
  have hpath : ∀ d, goal.onPath d = true → d ∈ goal.path := fun d hd =>
    List.contains_iff_mem.mp hd
  refine ⟨fun d hd => ⟨rfl, Or.inr ⟨hfile, Or.inl (hpath d hd)⟩⟩,
    fun d hd m hm hk => ⟨rfl, Or.inr ⟨hfile, Or.inr (Or.inl ⟨hk, d, hpath d hd,
      (hu.child_iff d m).mp hm⟩)⟩⟩, fun d => d = goal.target ∨
        goal.target ∈ goal.unit.ancestors d, Or.inl rfl, fun d hd m hm => ?_,
    fun d hd => ⟨rfl, Or.inr ⟨hfile, Or.inr (Or.inr hd)⟩⟩⟩
  refine Or.inr (hu.mem_ancestors_iff.mpr ⟨d, (hu.child_iff d m).mp hm, ?_⟩)
  exact hd.imp_left Eq.symm

/-- The designation of a request, and that it covers a declaration. -/
def World.Concerns (w : World) (allowLocal : Bool) (s : Symbol)
    (u : CompilationUnit) (d : DeclId) : Prop :=
  ∃ v x goal, w.registry.declaration s = .ok (v, x) ∧
    v.designateWith allowLocal s.decl = .ok goal ∧ goal.Covers u d

-- ========================================================== what is spared

/-- Only what a session writes has changed. -/
def Slots.Filled (s t : Slots) : Prop :=
  ∃ supertypes expansion diagnostics, t = { s with
    supertypes := supertypes, expansion := expansion, diagnostics := diagnostics }

/-- Filling a result in changes only that. -/
theorem Slots.filled_fill (r : Computed) (s : Slots) : s.Filled (r.fill s) :=
  have ⟨ds, hds⟩ := r.fill_eq s
  ⟨_, _, ds, hds⟩

/-- A clause is filled in once and then again. -/
theorem Slots.Filled.trans {r s t : Slots} (h : r.Filled s)
    (h' : s.Filled t) : r.Filled t := by
  obtain ⟨a, b, c, rfl⟩ := h
  obtain ⟨a', b', c', rfl⟩ := h'
  exact ⟨a', b', c', rfl⟩

/-- What may become of a declaration that a request is not about. -/
structure DeclState.Spared (limit : Phase) (classLike : Bool)
    (s t : DeclState) : Prop where
  raised : s.Raised limit t
  slots : t.slots = s.slots ∨ (.supertypes ≤ limit ∧ classLike = true ∧
    ¬ .supertypes ≤ s.own ∧ s.slots.Filled t.slots)

namespace DeclState.Spared

variable {limit : Phase} {classLike : Bool} {r s t : DeclState}

/-- Nothing may become of it. -/
theorem refl (s : DeclState) : s.Spared limit classLike s :=
  ⟨.of_slots limit s s.slots, Or.inl rfl⟩

/-- One change after another. -/
theorem trans (h : r.Spared limit classLike s)
    (h' : s.Spared limit classLike t) : r.Spared limit classLike t := by
  refine ⟨h.raised.trans h'.raised, ?_⟩
  rcases h'.slots with heq | ⟨hle, hclass, hopen, hfilled⟩
  · rw [heq]
    exact h.slots
  · -- a marker that is not set now was not set before
    refine Or.inr ⟨hle, hclass, fun h₀ => hopen
      (Phase.le_trans h₀ h.raised.le_own), ?_⟩
    rcases h.slots with heq | ⟨-, -, -, hfilled'⟩
    · rwa [← heq]
    · exact hfilled'.trans hfilled

/-- Where no marker may rise nothing may change. -/
theorem eq_of_raw (h : s.Spared .raw classLike t) : t = s := by
  obtain ⟨hown, hbelow⟩ := h.raised.markers_eq_of_raw
  have hslots := h.slots.resolve_right fun h => absurd h.1 (by decide)
  calc t = ⟨t.own, t.below, t.slots⟩ := rfl
    _ = ⟨s.own, s.below, s.slots⟩ := by rw [hown, hbelow, hslots]

end DeclState.Spared

/-- Time has passed, and all declarations were spared that a request is
not about. -/
structure World.Spares (goal : Designation) (limit : Phase) (v w : World) :
    Prop where
  later : v.Onward w
  state : ∀ u d, w.Registered u → ¬ goal.Covers u d →
    (v.state u d).Spared limit (u.isClassLike d) (w.state u d)

namespace World.Spares

variable {goal : Designation} {limit : Phase} {v w w' : World}

/-- Nothing has happened yet. -/
theorem refl (goal : Designation) (limit : Phase) (w : World) :
    w.Spares goal limit w :=
  ⟨.refl w, fun _ _ _ _ => .refl _⟩

/-- States are all that counts; a unit that is built now had none
before. -/
theorem of_states (hv : v.Coherent) (hw : w.Coherent)
    (h : v.Spares goal limit w) (hlater : w.Onward w')
    (hs : w'.states = w.states) : v.Spares goal limit w' := by
  refine ⟨h.later.trans hlater, fun u d hu hd => ?_⟩
  have hstate : w'.state u d = w.state u d := by
    rw [World.state, World.state, hs]
  rw [hstate]
  rcases hlater.registry.known u.id u hu with hreg | hid
  · exact h.state u d hreg hd
  · rw [state_eq_of_untouched (hv.fresh (u.symbol d)
      (Nat.le_trans h.later.registry.next hid)) (hw.fresh (u.symbol d) hid)]
    exact .refl _

/-- One state was set, of a declaration that the request is about or of
one that is spared. -/
theorem setState (h : v.Spares goal limit w) {u : CompilationUnit}
    {d : DeclId} {s : DeclState} {limit' : Phase} (hu : w.Registered u)
    (hraised : (w.state u d).Raised limit' s)
    (hs : goal.Covers u d ∨
      (w.state u d).Spared limit (u.isClassLike d) s) :
    v.Spares goal limit (w.setState u d s) := by
  refine ⟨h.later.trans (later_setState hu hraised), fun u' e hu' he => ?_⟩
  have hold := h.state u' e hu' he
  rw [state_setState hu hu']
  split
  · next heq =>
    obtain ⟨rfl, rfl⟩ := heq
    exact hold.trans (hs.resolve_left he)
  · exact hold

end World.Spares

-- ============================================================ one phase

section phase

variable {I : World → Prop} {P : DeclId → Prop} {g : Guard}

/-- A commit keeps what is left by raising the markers of what the walk has
visited. -/
theorem Visits.commit_keeps {visits : Visits} {u : CompilationUnit}
    {phase : Phase} (hvisits : visits.In P)
    (hmark : ∀ w d s, I w → P d → (w.state u d).Raised phase s →
      s.slots = w.slots u d → I (w.setState u d s)) :
    Triple I (visits.commit g u phase) (fun _ => I) I := by
  have hown : ∀ d, P d →
      Triple I (raiseOwn g u d phase) (fun _ => I) I := fun d hd =>
    writeState_triple (fun _ => id) fun w hw _ =>
      hmark w d _ hw hd (.of_own _ (Phase.le_refl _)) rfl
  have hbelow : ∀ d, P d →
      Triple I (raiseBelow g u d phase) (fun _ => I) I := fun d hd =>
    writeState_triple (fun _ => id) fun w hw _ =>
      hmark w d _ hw hd (.of_below _ (Phase.le_refl _)) rfl
  exact .bind (.each fun d hd => hown d (hvisits d (Or.inl hd))) fun _ =>
    .each fun d hd => .bind (hown d (hvisits d (Or.inr hd))) fun _ =>
      hbelow d (hvisits d (Or.inr hd))

/-- A phase keeps what is left by its walk, with the session at rest in
between, and by raising the markers of what the walk may come by. -/
theorem Detached.runPhase {setup : Setup} {goal : Designation}
    {cancellable : Bool} {phase : Phase} (hI : Detached I)
    (hroams : Walk.Roams goal.unit goal P)
    (hwalk : ∀ (c : Context) (t : Thread) rule, phase.rule? = some rule →
      c.setup = setup → c.unit = goal.unit → c.guard = g → Walk.Keeps
        (.solo (fun w => I w ∧ Rested goal.unit.id t w) I) rule c P)
    (hmark : ∀ w d s, I w → P d → (w.state goal.unit d).Raised phase s →
      s.slots = w.slots goal.unit d → I (w.setState goal.unit d s)) :
    Triple I (Action.runPhase setup goal g cancellable phase)
      (fun _ => I) I := by
  intro w hw
  unfold Action.runPhase
  cases hrule : phase.rule? with
  | none => exact hw
  | some rule =>
      refine Triple.bind (((hI.alike w.thread).toStatic.enter setup goal.unit g
        cancellable).conseq (fun _ h => h) (fun _ _ h => h) fun _ h => h.1)
          (fun c => ?_) w ⟨hw, .refl _⟩
      refine .assume ?_
      rintro ⟨hsetup, hunit, hguard, -⟩
      -- the session starts afresh
      refine .bind (Q := fun _ u => I u ∧ Rested goal.unit.id w.thread u)
        (.update fun u hu => ⟨hI.session u _ hu.1, .start hu.2⟩) fun _ => ?_
      have hkeeps := hwalk c w.thread rule hrule hsetup hunit hguard
      rw [← hunit] at hroams
      refine .bind (Q := fun visits u => I u ∧ visits.In P)
        (((hkeeps.run hroams).triple.both
          (hroams.run.pre fun _ _ => trivial)).conseq (fun _ h => h)
            (fun _ _ h => ⟨h.1.1, h.2⟩) fun _ h => h.1)
        fun visits => .assume fun hin => ?_
      refine .bind (Visits.commit_keeps hin hmark) fun _ => ?_
      refine .bind (hI.count fun _ => Nat.le_refl _) fun _ => ?_
      split
      · unfold checkMarkers
        refine .read_then fun fault => ?_
        cases fault with
        | none => exact .pure fun _ h => h
        | some f => exact .stop fun _ h => h
      · exact .pure fun _ h => h

end phase

-- ============================================================ the condition

/-- What holds while a request goes on that began in `v`. -/
structure World.Framed (goal : Designation) (limit : Phase) (v w : World) :
    Prop where
  grounded : w.Grounded
  registered : w.Registered goal.unit
  spares : v.Spares goal limit w

namespace World.Framed

variable {goal : Designation} {limit : Phase} {v w w' : World}

/-- The world that a request begins in. -/
theorem start (hv : v.Grounded) (hu : v.Registered goal.unit) :
    v.Framed goal limit v :=
  ⟨hv, hu, .refl goal limit v⟩

/-- Grounds and registration are left by what leaves clauses alone. -/
theorem structural (u : CompilationUnit) :
    Structural fun w => w.Grounded ∧ w.Registered u :=
  Structural.and_lasting ⟨fun _ hw => hw.coherent,
    fun _ _ hv h hw => hv.unmoved h hw⟩ (lasting_registered u)

/-- Nothing was written. -/
theorem of_states (hv : v.Coherent) (h : v.Framed goal limit w)
    (hmoved : w.Unmoved w') (hw' : w'.Coherent)
    (hs : w'.states = w.states) : v.Framed goal limit w' :=
  ⟨h.grounded.unmoved hmoved hw', hmoved.later.registered h.registered,
    h.spares.of_states hv h.grounded.coherent hmoved.later hs⟩

/-- Looking up changes nothing that counts. -/
theorem detached (hv : v.Coherent) (goal : Designation) (limit : Phase) :
    Detached (v.Framed goal limit) := by
  have hself := Steady.coherent_self .bodies
  exact {
    coherent := fun w hw => hw.grounded.coherent
    classifier := fun w k hw => hw.of_states hv
      (unmoved_classifier hw.grounded.coherent k)
      (hw.grounded.coherent.classifier k) rfl
    counters := fun w c hc hw => hw.of_states hv (unmoved_of_eq rfl rfl hc)
      (hself.counters w c hc hw.grounded.coherent) rfl
    session := fun w s hw => hw.of_states hv
      (unmoved_of_eq rfl rfl (Nat.le_refl _))
      (hself.session w s hw.grounded.coherent) rfl
    thread := fun w t hw => hw.of_states hv
      (unmoved_of_eq rfl rfl (Nat.le_refl _))
      (hself.thread w t hw.grounded.coherent) rfl }

/-- Silent hooks change nothing that counts. -/
theorem touches (hv : v.Coherent) (h : v.Framed goal limit w)
    (htouch : w.Touches w') (hs : w'.states = w.states) :
    v.Framed goal limit w' :=
  h.of_states hv htouch.unmoved (h.grounded.coherent.touches htouch) hs

/-- Writing where the request is about, other than to clauses. -/
theorem setState {u : CompilationUnit} {d : DeclId} {s : DeclState}
    (h : v.Framed goal limit w) (hd : goal.Covers u d) (hu : w.Registered u)
    (hraised : (w.state u d).Raised .bodies s)
    (hclause : (w.slots u d).SameClause s.slots) :
    v.Framed goal limit (w.setState u d s) := by
  obtain ⟨hg, hreg⟩ := (structural goal.unit).unmoved w _
    ⟨h.grounded, h.registered⟩ (unmoved_setState hu hraised
      hclause.supertypes hclause.expansion
      fun t ht => Or.inl (hclause.imports ▸ ht))
    (h.grounded.coherent.setState hu hraised)
  exact ⟨hg, hreg, h.spares.setState hu hraised (Or.inl hd)⟩

/-- The file is covered. -/
theorem covers_root (goal : Designation) : goal.Covers goal.unit .root :=
  ⟨rfl, Or.inl rfl⟩

/-- What is done for the file stays within what the request is about. -/
theorem keepsFile (goal : Designation) (limit : Phase) (v : World) :
    KeepsFile (v.Framed goal limit) goal.unit where
  imports := fun w table errors hw hd ht => by
    obtain ⟨hg, hreg⟩ := ((structural goal.unit).keepsFile
      fun _ hw => hw.2).imports w table errors ⟨hw.grounded, hw.registered⟩
        hd ht
    exact ⟨hg, hreg, hw.spares.setState hw.registered
      (.of_slots .raw _ _) (Or.inl (covers_root goal))⟩
  raise := fun w p hw _ => hw.setState (covers_root goal) hw.registered
    (.of_own _ p.le_bodies) ⟨rfl, rfl, rfl⟩

-- ============================================================= sessions

/-- Sessions spare what they do not write back to, and the rest of what
they do. -/
theorem tended (hv : v.Coherent) (goal : Designation)
    (hlimit : .supertypes ≤ limit) :
    Tended (v.Framed goal limit) fun _ _ => True :=
  { detached hv goal limit with
    referring := fun w hw => hw.grounded.referring
    fill := fun w u x c r hw hu hid hx hk he _ hfits hopen => by
      have hlater := later_setState hu (raised_filled w u c.decl r)
      refine ⟨hw.grounded.filled hu hx hk he hfits,
        hlater.registered hw.registered,
        hw.spares.setState hu (raised_filled w u c.decl r) (Or.inr ?_)⟩
      refine ⟨(raised_filled w u c.decl r).mono hlimit, Or.inr ⟨hlimit, ?_,
        hopen, Slots.filled_fill r _⟩⟩
      rw [CompilationUnit.isClassLike, CompilationUnit.kind?, hx]
      exact hk
    members := members_triple fun w u d s hw hu _ hs hslots => by
      obtain ⟨hg, hreg⟩ := (structural goal.unit).raise
        ⟨hw.grounded, hw.registered⟩ hu hs hslots
      exact ⟨hg, hreg, hw.spares.setState hu hs
        (Or.inr ⟨hs.mono hlimit, Or.inl hslots⟩)⟩ }

-- ============================================================= the work

variable {c : Context} {t : Thread}

/-- A condition in the walk of a phase: the session is at rest. -/
abbrev Walking (goal : Designation) (limit : Phase) (t : Thread)
    (v w : World) : Prop :=
  v.Framed goal limit w ∧ Rested goal.unit.id t w

/-- The work of a phase, the supertype phase apart. -/
theorem work (hv : v.Coherent) (hc : c.unit = goal.unit) :
    (SideBySide.solo (Walking goal limit t v) (Walking goal limit t v)).Work c
      (goal.Covers goal.unit) :=
  (static_rested (detached hv goal limit)).work fun w d s hw hd _ hs => by
    rw [hc] at hs ⊢
    exact ⟨hw.1.setState hd hw.1.registered (.of_slots .bodies _ _) hs,
      hw.2.later (later_setState hw.1.registered (.of_slots .raw _ _))
        hw.2.alike rfl⟩

/-- The hooks for a declaration. -/
theorem runHooks (hv : v.Coherent) (hc : c.unit = goal.unit)
    (hsilent : c.setup.Silent) (phase : Phase) (d : DeclId) :
    Triple (Walking goal limit t v) (c.runHooks phase d)
      (fun _ => Walking goal limit t v) (Walking goal limit t v) :=
  hsilent.runHooks (fun _ hw => hw.1.grounded.coherent)
    (fun _ hw => hc ▸ hw.1.registered) fun _ _ hw htouch hs =>
      ⟨hw.1.touches hv htouch hs, hw.2.later htouch.later
        (hw.2.alike.trans (.of_eq htouch.mutexes htouch.held))
        htouch.session⟩

/-- A walk does its work where the request is about. -/
theorem walk (hv : v.Coherent) (hlimit : .supertypes ≤ limit)
    (hc : c.unit = goal.unit) (hguard : c.guard.lock = .ofUnit goal.unit.id)
    (hsilent : c.setup.Silent) {phase : Phase} {rule : PhaseRule}
    (hrule : phase.rule? = some rule) :
    Walk.Keeps (.solo (Walking goal limit t v) (v.Framed goal limit)) rule c
      (goal.Covers goal.unit) := by
  have hback := (tended hv goal hlimit).writesBack c.unit.id t
  refine .of_rule hrule ((work hv hc).weaken fun _ hw => hw.1).tasks
    (fun v w d h => by rw [h.1]) (fun v w d h => by rw [h.1])
    (fun q d _ => (Keeps.of_triple (runHooks hv hc hsilent q d)).weaken
      fun _ hw => hw.1) fun d _ => ?_
  have hsession := (hback.classSupertypes_advances
    (fun w hw => hc ▸ hw.registered) (hc ▸ hguard) d).keeps
  rw [hc] at hsession
  exact .of_triple hsession

-- ============================================================= a request

variable {setup : Setup} {g : Guard} {cancellable : Bool} {phase : Phase}

/-- A phase spares what the request is not about. -/
theorem runPhase (hv : v.Coherent) (hsilent : setup.Silent)
    (hfile : goal.isFile = false) (hg : g.lock = .ofUnit goal.unit.id)
    (hlimit : .supertypes ≤ phase → .supertypes ≤ limit) :
    Triple (v.Framed goal limit)
      (Action.runPhase setup goal g cancellable phase)
      (fun _ => v.Framed goal limit) (v.Framed goal limit) := by
  intro w hw
  have hwf := hw.grounded.coherent.wellFormed hw.registered
  refine (detached hv goal limit).runPhase (Designation.roams hwf hfile)
    (fun c t rule hrule hsetup hunit hguard => ?_)
    (fun w d s hw hd hs hslots => ?_) w hw
  · exact walk hv (hlimit (Phase.supertypes_le_of_rule? hrule)) hunit
      (hguard ▸ hg) (hsetup ▸ hsilent) hrule
  · refine hw.setState hd hw.registered (hs.mono phase.le_bodies) ?_
    rw [hslots]
    exact ⟨rfl, rfl, rfl⟩

/-- What is done once the unit is locked spares what the request is not
about. -/
theorem resolveLocked (hv : v.Coherent) (hsilent : setup.Silent)
    (hg : g.lock = .ofUnit goal.unit.id)
    (hlimit : .supertypes ≤ phase → .supertypes ≤ limit) :
    Triple (v.Framed goal limit)
      (Action.resolveLocked setup goal phase cancellable g)
      (fun _ => v.Framed goal limit) (v.Framed goal limit) := by
  have hI := detached hv goal limit
  refine hI.resolveLocked (fun _ hw => hw) (fun c hc phase => ?_)
    (keepsFile goal limit v) fun hfile current => ?_
  · refine ((hI.work (P := (· = .root)) ?_).resolveAnnotations rfl
      phase).triple
    rintro w d s hw rfl - hs
    rw [hc] at hs ⊢
    exact hw.setState (covers_root goal) hw.registered
      (.of_slots .bodies _ _) hs
  · refine (Triple.each fun p hp => .bind (.checkCancelled fun _ hw => hw)
      fun _ => runPhase hv hsilent hfile hg fun hle => hlimit ?_).pre
        fun _ hw => hw.1.1
    exact Phase.le_trans hle (Phase.le_of_mem_stepsTo hp)

end World.Framed

/-- How far markers rise of what a request is not about. -/
def Phase.strayLimit (p : Phase) : Phase :=
  if .supertypes ≤ p then .supertypes else .raw

/-- A request spares what it is not about. -/
theorem World.Grounded.spared {setup : Setup} (hsilent : setup.Silent)
    {w : World} (hw : w.Grounded) (allowLocal : Bool) (s : Symbol)
    (phase : Phase) (cancellable : Bool) {u : CompilationUnit} {d : DeclId}
    (hu : (request setup allowLocal s phase cancellable w).2.Registered u)
    (hd : ¬ w.Concerns allowLocal s u d) :
    (w.state u d).Spared phase.strayLimit (u.isClassLike d)
      ((request setup allowLocal s phase cancellable w).2.state u d) := by
  rcases request_cases setup allowLocal s phase w.registry with
    ⟨r, hrun⟩ | ⟨v, x, goal, hs, -, hgoal, hrun⟩
  · rw [hrun w cancellable rfl]
    exact .refl _
  have hspared : ¬ goal.Covers u d := fun h => hd ⟨v, x, goal, hs, hgoal, h⟩
  have hv := (hw.coherent.registered (Registry.declaration_eq_ok_iff.mp hs).1).1
  obtain rfl := CompilationUnit.unit_of_designateWith hgoal
  have hI := World.Framed.detached hw.coherent goal phase.strayLimit
  have hlimit : .supertypes ≤ phase → .supertypes ≤ phase.strayLimit :=
    fun h => by
      rw [Phase.strayLimit, if_pos h]
      exact Phase.le_refl _
  have hlocked : Triple (w.Framed goal phase.strayLimit)
      (resolveUnderLock setup goal phase cancellable)
      (fun _ => w.Framed goal phase.strayLimit)
      (w.Framed goal phase.strayLimit) :=
    hI.resolveUnderLock hI.thread fun g hg =>
      World.Framed.resolveLocked hw.coherent hsilent hg hlimit
  have hstart := hI.counters w w.counters.countRequest (Nat.le_refl _)
    (.start hw hv)
  rw [hrun w cancellable rfl] at hu ⊢
  refine (Triple.world (hI.resolveDesignation ?_ ?_) hstart).spares.state u d hu
    hspared
  · exact fun v hv _ => hI.counters v _ (Nat.le_refl _) hv
  · exact hlocked.pre fun _ h => h.1

/-- A request is minimal. Whatever comes of it, of a declaration that it is
not about no marker rises past the supertype phase, and nothing at all
changes if it is for a phase before that one; no slot of the declaration
changes unless it is a class that was not marked yet, and then only the
supertypes, the expansion and the diagnostics do. A unit that was built on
the way was before as it is built. -/
theorem spared_of_request {setup : Setup} (hsilent : setup.Silent)
    {w : World} (hw : Reaches setup anyCall w) (allowLocal : Bool) (s : Symbol)
    (phase : Phase) (cancellable : Bool) {u : CompilationUnit} {d : DeclId} :
    let w' := (request setup allowLocal s phase cancellable w).2
    w'.Registered u → ¬ w.Concerns allowLocal s u d →
      (w'.own u d ≤ max (w.own u d) .supertypes ∧
        w'.below u d ≤ max (w.below u d) .supertypes) ∧
      (phase < .supertypes → w'.state u d = w.state u d) ∧
      (u.isClassLike d = false ∨ .supertypes ≤ w.own u d →
        w'.slots u d = w.slots u d) ∧
      ∃ supertypes expansion diagnostics, w'.slots u d = { w.slots u d with
        supertypes := supertypes, expansion := expansion,
        diagnostics := diagnostics } := by
  intro w' hu hd
  have hresolving : w.Resolving False := hw.resolving hsilent.quiet nofun
  have hspared : (w.state u d).Spared phase.strayLimit (u.isClassLike d)
      (w'.state u d) :=
    hresolving.grounded.spared hsilent allowLocal s phase cancellable hu hd
  have hlimit : phase.strayLimit ≤ .supertypes := by
    unfold Phase.strayLimit
    split <;> decide
  refine ⟨(hspared.raised.mono hlimit).le_max, fun hearly => ?_, fun hsame => ?_,
    ?_⟩
  · have hraw : phase.strayLimit = .raw := if_neg (Phase.not_le_of_lt hearly)
    rw [hraw] at hspared
    exact hspared.eq_of_raw
  · refine hspared.slots.resolve_right ?_
    rintro ⟨-, hclass, hopen, -⟩
    rcases hsame with hkind | hmarked
    · exact absurd (hclass.symm.trans hkind) (by decide)
    · exact hopen hmarked
  · rcases hspared.slots with heq | ⟨-, -, -, hfilled⟩
    · exact ⟨_, _, _, heq⟩
    · exact hfilled

/-- The types of a class are resolved whose base class is in another unit;
of that the supertypes are marked, and no more. -/
theorem spared_of_request_base :
    let setup : Setup := { Setup.plain .default with hooks := [.recorder] }
    let w := World.after setup [.addUnit .base, .addUnit .derived]
    let w' := (request setup false ⟨⟨1⟩, ⟨1⟩⟩ .types false w).2
    w.markers? ⟨⟨0⟩, ⟨1⟩⟩ = some (.raw, .raw) ∧
      w'.markers? ⟨⟨0⟩, ⟨1⟩⟩ = some (.supertypes, .raw) ∧
      ∃ u, w'.Registered u ∧ u.id = ⟨0⟩ ∧
        ¬ w.Concerns false ⟨⟨1⟩, ⟨1⟩⟩ u ⟨1⟩ ∧
        w'.own u ⟨1⟩ ≤ max (w.own u ⟨1⟩) .supertypes ∧
        ∃ supertypes expansion diagnostics, w'.slots u ⟨1⟩ =
          { w.slots u ⟨1⟩ with
            supertypes := supertypes, expansion := expansion,
            diagnostics := diagnostics } := by
  intro setup w w'
  have hsilent : setup.Silent := fun h hh =>
    List.mem_singleton.mp hh ▸ Hook.silent_recorder
  have hw : Reaches setup anyCall w := Reaches.after setup _
  have hcoherent := hw.coherent hsilent.quiet
  have hw' : w'.Coherent := (hw.step w (.resolve false ⟨⟨1⟩, ⟨1⟩⟩ .types false)
    trivial).coherent hsilent.quiet
  have hbefore : w.markers? ⟨⟨0⟩, ⟨1⟩⟩ = some (.raw, .raw) := by decide +kernel
  have hafter : w'.markers? ⟨⟨0⟩, ⟨1⟩⟩ = some (.supertypes, .raw) := by
    decide +kernel
  obtain ⟨u, hu, -⟩ := Option.map_eq_some_iff.mp hafter
  obtain ⟨hreg, hid⟩ := hw'.registered hu
  have hspared : ¬ w.Concerns false ⟨⟨1⟩, ⟨1⟩⟩ u ⟨1⟩ := by
    rintro ⟨v, x, goal, hs, hgoal, rfl, -⟩
    have hv := (hcoherent.registered (Registry.declaration_eq_ok_iff.mp hs).1).2
    rw [CompilationUnit.unit_of_designateWith hgoal, hv] at hid
    cases hid
  obtain ⟨⟨hown, -⟩, -, -, hslots⟩ := spared_of_request hsilent hw false
    ⟨⟨1⟩, ⟨1⟩⟩ .types false hreg hspared
  exact ⟨hbefore, hafter, u, hreg, hid, hspared, hown, hslots⟩

end StagedResolve
