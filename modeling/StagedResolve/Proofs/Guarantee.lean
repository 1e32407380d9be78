/-
What a request that succeeds guarantees for the whole chain.

# Marked and around it

A walk marks the path down to its target together with the target, so
whatever a walk has marked has a marked path above it, in a file with
resolved imports; and what it has marked as a whole has marked members,
apart from those that walks leave out (`World.Chained`). Sessions mark
as well, classes that they reached and members of those, without
touching what is around them; but they mark the supertype phase only. So
beyond that phase a marker speaks for everything around its declaration,
and a request that is answered from the markers is as good as one that
walks.

# The guarantee

A request that answers leaves the file with resolved imports, and the
path and the target at the last phase that is run for the phase that was
asked for (`resolve_hasReached`). For the supertype phase itself this
takes a request that the markers did not answer at once. Below it there
is the phase that is reserved for annotations, which a file vouches for
once its imports are resolved: no declaration is marked for it.
-/
import StagedResolve.Proofs.Histories

namespace StagedResolve

open StagedResolve.Action World

namespace World

-- ============================================================= the chains

/-- The path to a designation and its target have all reached a phase. -/
def HasReached (w : World) (goal : Designation) (p : Phase) : Prop :=
  ∀ d ∈ goal.path ++ [goal.target], p ≤ w.own goal.unit d

/-- What a marker beyond the supertype phase says about what is around
its declaration, and about its members. -/
structure ChainedIn (w : World) (u : CompilationUnit) : Prop where
  path : ∀ d p, d.isRoot = false → u.isEligible d = true → .supertypes < p →
    p ≤ w.own u d ∨ p ≤ w.below u d → .imports ≤ w.own u .root ∧
      ∀ a ∈ u.ancestors d, a.isRoot = false → p ≤ w.own u a
  whole : ∀ d p, d.isRoot = false → u.isEligible d = true → .supertypes < p →
    p ≤ w.below u d → p ≤ w.own u d
  inside : ∀ d m p, u.parent? m = some d → u.kind? d ≠ some .typeParameter →
    u.isEligible d = true → u.isEligible m = true → u.isLocal m = false →
    .supertypes < p → p ≤ w.below u d → p ≤ w.below u m
  file : ∀ p, u.isEligible .root = true → .supertypes < p →
    ¬ p ≤ w.below u .root

/-- Every marker says what it should. -/
def Chained (w : World) : Prop := ∀ u, w.Registered u → w.ChainedIn u

variable {v w : World} {u : CompilationUnit}

/-- Only marks beyond the supertype phase count, and not those of the file
itself. -/
theorem ChainedIn.of_marks (hv : v.ChainedIn u)
    (hown : ∀ d p, d.isRoot = false → .supertypes < p →
      (p ≤ w.own u d ↔ p ≤ v.own u d))
    (hbelow : ∀ d p, .supertypes < p → (p ≤ w.below u d ↔ p ≤ v.below u d))
    (hroot : .imports ≤ v.own u .root → .imports ≤ w.own u .root) :
    w.ChainedIn u := by
  constructor
  case path =>
    intro d p hd he hp hmark
    rw [hown d p hd hp, hbelow d p hp] at hmark
    obtain ⟨himports, hpath⟩ := hv.path d p hd he hp hmark
    exact ⟨hroot himports, fun a ha hne =>
      (hown a p hne hp).mpr (hpath a ha hne)⟩
  case whole =>
    intro d p hd he hp hmark
    rw [hbelow d p hp] at hmark
    exact (hown d p hd hp).mpr (hv.whole d p hd he hp hmark)
  case inside =>
    intro d m p hm hk hd he hl hp hmark
    rw [hbelow _ p hp] at hmark ⊢
    exact hv.inside d m p hm hk hd he hl hp hmark
  case file =>
    intro p he hp
    rw [hbelow _ p hp]
    exact hv.file p he hp

/-- Where nothing is marked there is nothing to show. -/
theorem ChainedIn.of_raw
    (h : ∀ d, u.isEligible d = true → w.own u d = .raw ∧ w.below u d = .raw) :
    w.ChainedIn u := by
  have hraw : ∀ p : Phase, .supertypes < p → ¬ p ≤ .raw := by
    intro p
    cases p <;> decide
  constructor
  case path =>
    intro d p _ he hp hmark
    obtain ⟨hown, hbelow⟩ := h d he
    rw [hown, hbelow, or_self] at hmark
    exact absurd hmark (hraw p hp)
  case whole =>
    intro d p _ he hp hmark
    rw [(h d he).2] at hmark
    exact absurd hmark (hraw p hp)
  case inside =>
    intro d m p _ _ hd _ _ hp hmark
    rw [(h d hd).2] at hmark
    exact absurd hmark (hraw p hp)
  case file =>
    intro p he hp
    rw [(h .root he).2]
    exact hraw p hp

/-- A declaration that nobody has touched. -/
theorem raw_of_fresh {d : DeclId}
    (hfresh : w.states.find? (u.symbol d) = none)
    (he : u.isEligible d = true) :
    w.own u d = .raw ∧ w.below u d = .raw := by
  rw [CompilationUnit.isEligible, Option.any_eq_true] at he
  obtain ⟨x, hx, he⟩ := he
  simp only [own, below, state, hfresh, hx, Declaration.initialState,
    Declaration.startPhase, he, if_true, and_self]

/-- Markers that are where they were are chained. -/
theorem Chained.of_eq (hv : v.Chained)
    (hu : ∀ u, w.Registered u → v.Registered u)
    (hown : ∀ u d, w.Registered u → w.own u d = v.own u d)
    (hbelow : ∀ u d, w.Registered u → w.below u d = v.below u d) :
    w.Chained := fun u hreg =>
  (hv u (hu u hreg)).of_marks (fun d p _ _ => by rw [hown u d hreg])
    (fun d p _ => by rw [hbelow u d hreg])
    (by rw [hown u _ hreg]; exact id)

/-- New units are chained. -/
theorem Chained.of_evolves (hv : v.Chained) (hc : v.Coherent)
    (hr : v.registry.Evolves w.registry) (hs : w.states = v.states) :
    w.Chained := by
  have hstate : ∀ u d, w.state u d = v.state u d := fun u d => by
    rw [state, state, hs]
  intro u hreg
  rcases hr.known u.id u hreg with hreg | hid
  · exact (hv u hreg).of_marks (fun d p _ _ => by rw [own, own, hstate])
      (fun d p _ => by rw [below, below, hstate])
      (by rw [own, own, hstate]; exact id)
  · refine .of_raw fun d he => raw_of_fresh ?_ he
    rw [hs]
    exact hc.fresh (u.symbol d) hid

/-- Raising a marker to the supertype phase leaves the chains beyond. -/
theorem Chained.setState {d : DeclId} {s : DeclState} (hw : w.Chained)
    (hu : w.Registered u) (hs : (w.state u d).Raised .supertypes s) :
    (w.setState u d s).Chained := by
  have hlater := later_setState hu hs
  intro v hv
  have hstate : ∀ e, (w.setState u d s).state v e = w.state v e ∨
      (w.state v e).Raised .supertypes ((w.setState u d s).state v e) := by
    intro e
    rw [state_setState hu hv]
    split
    · next h =>
      obtain ⟨rfl, rfl⟩ := h
      exact Or.inr hs
    · exact Or.inl rfl
  refine (hw v hv).of_marks (fun e p _ hp => ?_) (fun e p hp => ?_)
    fun h => Phase.le_trans h (hlater.own v .root hv)
  · rcases hstate e with h | h
    · rw [own, own, h]
    · exact h.own_iff hp
  · rcases hstate e with h | h
    · rw [below, below, h]
    · exact h.below_iff hp

/-- Marking a file leaves the chains as they are. -/
theorem Chained.setFile {s : DeclState} (hw : w.Chained)
    (hu : w.Registered u) (hs : (w.state u .root).Raised .bodies s)
    (hbelow : s.below = w.below u .root) :
    (w.setState u .root s).Chained := by
  have hlater := later_setState hu hs
  intro v hv
  refine (hw v hv).of_marks (fun e p he _ => ?_) (fun e p _ => ?_)
    fun h => Phase.le_trans h (hlater.own v .root hv)
  · rw [own, state_setState hu hv, if_neg]
    · rfl
    · rintro ⟨-, rfl⟩
      cases he
  · rw [below, state_setState hu hv]
    split
    · next h =>
      obtain ⟨rfl, rfl⟩ := h
      rw [hbelow]
    · rfl

/-- A chain is steady as far as the supertype phase. -/
theorem Chained.steady :
    Steady .supertypes fun w => w.Coherent ∧ w.Chained where
  coherent := fun _ hw => hw.1
  classifier := fun w k hw => ⟨hw.1.classifier k,
    hw.2.of_evolves hw.1 (hw.1.registry.classifier k).2.1.toEvolves rfl⟩
  counters := fun w c hc hw =>
    ⟨(Steady.coherent_self .bodies).counters w c hc hw.1,
      hw.2.of_eq (fun _ h => h) (fun _ _ _ => rfl) fun _ _ _ => rfl⟩
  touches := fun v w hv h => by
    have hreg : ∀ u, w.Registered u → v.Registered u := fun u hu => by
      rwa [Registered, h.registry] at hu
    exact ⟨hv.1.touches h, hv.2.of_eq hreg
      (fun u d hu => h.own u d (hreg u hu)) fun u d hu =>
        h.below u d (hreg u hu)⟩
  session := fun w s hw => ⟨(Steady.coherent_self .bodies).session w s hw.1,
    hw.2.of_eq (fun _ h => h) (fun _ _ _ => rfl) fun _ _ _ => rfl⟩
  thread := fun w t hw => ⟨(Steady.coherent_self .bodies).thread w t hw.1,
    hw.2.of_eq (fun _ h => h) (fun _ _ _ => rfl) fun _ _ _ => rfl⟩
  write := fun w u d s hw hu _ hs => ⟨hw.1.setState hu hs, hw.2.setState hu hs⟩

-- ============================================================= committing

/-- Committing a walk keeps the chains: everything around what was visited
was visited, and so was everything below that is not left out. -/
theorem Chained.commit {rule : PhaseRule} {c : Context}
    {D : DeclId → World → Prop} {goal : Designation} {visits : Visits}
    (hw : w.Chained) (hwf : c.unit.WellFormed) (hu : w.Registered c.unit)
    (hroot : .imports ≤ w.own c.unit .root)
    (hroute : Walk.Route rule c D goal .root visits w)
    (h : Rewrites c.unit (visits.committed rule.phase) w v) : v.Chained := by
  have hlater := h.later
  intro u hv
  have hreg := h.registered_iff.mp hv
  by_cases hcu : u = c.unit
  · subst hcu
    have hold := hw c.unit hu
    constructor
    case path =>
      intro d p hd he hp hmark
      rw [h.le_own_iff hu, h.le_below_iff hu] at hmark
      have hmark : (p ≤ w.own c.unit d ∨ p ≤ w.below c.unit d) ∨
          ((d ∈ visits.headers ∨ d ∈ visits.members) ∧ p ≤ rule.phase) := by
        rcases hmark with (h | h) | (h | ⟨h, hle⟩)
        · exact Or.inl (Or.inl h)
        · exact Or.inr h
        · exact Or.inl (Or.inr h)
        · exact Or.inr ⟨Or.inr h, hle⟩
      rcases hmark with hmark | ⟨hvisit, hle⟩
      · obtain ⟨himports, hpath⟩ := hold.path d p hd he hp hmark
        exact ⟨Phase.le_trans himports (hlater.own _ _ hu), fun a ha hne =>
          Phase.le_trans (hpath a ha hne) (hlater.own _ a hu)⟩
      · refine ⟨Phase.le_trans hroot (hlater.own _ _ hu), fun a ha hne => ?_⟩
        refine (h.le_own_iff hu).mpr (Or.inr ⟨?_, hle⟩)
        refine (hroute.ancestors hwf hvisit ha).resolve_left ?_
        rw [hne]
        exact Bool.false_ne_true
    case whole =>
      intro d p hd he hp hmark
      refine (h.le_own_iff hu).mpr ?_
      rcases (h.le_below_iff hu).mp hmark with hmark | ⟨hvisit, hle⟩
      · exact Or.inl (hold.whole d p hd he hp hmark)
      · exact Or.inr ⟨Or.inr hvisit, hle⟩
    case inside =>
      intro d m p hm hk hd he hl hp hmark
      refine (h.le_below_iff hu).mpr ?_
      rcases (h.le_below_iff hu).mp hmark with hmark | ⟨hvisit, hle⟩
      · exact Or.inl (hold.inside d m p hm hk hd he hl hp hmark)
      · rcases hroute.full d hvisit hk m ((hwf.child_iff d m).mpr hm) with
          hmem | ⟨-, hleft⟩
        · exact Or.inr ⟨hmem, hle⟩
        · rcases hleft with hleft | ⟨hleft, -⟩ | hleft
          · rw [he] at hleft
            cases hleft
          · rw [hl] at hleft
            cases hleft
          · exact Or.inl (Phase.le_trans hle hleft)
    case file =>
      intro p he hp hmark
      rcases (h.le_below_iff hu).mp hmark with hmark | ⟨hvisit, -⟩
      · exact hold.file p he hp hmark
      · obtain ⟨q, hq⟩ := hroute.parent_isSome (Or.inr hvisit)
        exact Nat.not_lt_zero _ (hwf.earlier .root q hq)
  · have hstate : ∀ d, v.state u d = w.state u d := by
      intro d
      rw [h.state u d hreg, if_neg hcu]
    exact (hw u hreg).of_marks (fun d p _ _ => by rw [own, own, hstate])
      (fun d p _ => by rw [below, below, hstate])
      (by rw [own, own, hstate]; exact id)

end World

-- =========================================================== whole requests

namespace World

/-- What a phase leaves for a designation, if it is one that is run. -/
def Completed (goal : Designation) (p : Phase) (w : World) : Prop :=
  w.Registered goal.unit ∧ (p.rule?.isSome = true → w.HasReached goal p)

/-- It lasts. -/
theorem lasting_completed (goal : Designation) (p : Phase) :
    Lasting (Completed goal p) := by
  rintro v w hvw ⟨hu, hv⟩
  exact ⟨hvw.registered hu, fun hp d hd =>
    Phase.le_trans (hv hp d hd) (hvw.own goal.unit d hu)⟩

/-- A world in which a phase may be run for a designation. -/
def Prepared (goal : Designation) (w : World) : Prop :=
  (w.Coherent ∧ w.Chained) ∧
    (w.Registered goal.unit ∧ .imports ≤ w.own goal.unit .root)

end World

namespace World.Chained

variable {setup : Setup} {goal : Designation} {cancellable : Bool}

/-- One phase for a designation in a file with resolved imports keeps the
chains, and brings the path and the target to the phase. -/
theorem runPhase {g : Guard} {phase : Phase} (hquiet : setup.Quiet)
    (hg : g.lock = .ofUnit goal.unit.id)
    (hpath : ∀ a ∈ goal.path,
      a ∈ goal.unit.ancestors goal.target ∧ a.isRoot = false)
    (hwf : goal.unit.WellFormed) :
    Advances (Prepared goal)
      (Action.runPhase setup goal g cancellable phase)
      (fun _ => Completed goal phase) (Prepared goal) := by
  have hI : Steady .supertypes (Prepared goal) :=
    Chained.steady.and_lasting (lasting_own goal.unit .root .imports)
  refine runPhase_advances (K := Prepared goal) (D := fun _ _ => True)
    hI.idle.toStatic (fun _ hw => hw) (lasting_completed goal phase) ?_
    (fun w hw => hI.session w _ hw) ?_ ?_
  · intro hrule w hw
    refine ⟨hw.2.1, fun h => ?_⟩
    rw [hrule] at h
    cases h
  · rintro rule c hrule rfl hunit -
    exact hI.establishes (Phase.le_refl _) (fun w hw => hunit ▸ hw.2.1)
      (hunit ▸ hwf) hquiet hrule
  · rintro rule c visits R hrule hunit hR
    obtain rfl := Phase.phase_of_rule? hrule
    refine Visits.commit_triple hR hg hunit (fun w hw => hw.2.1) ?_
    intro w w' ⟨⟨hc, hw⟩, hu, hroot⟩ hroute htarget h
    have hlater := h.later
    have hchained : w'.Chained := by
      rw [← hunit] at hu hroot hwf h
      exact hw.commit hwf hu hroot hroute h
    refine ⟨⟨⟨h.coherent hc hu, hchained⟩, hlater.registered hu,
      Phase.le_trans hroot (hlater.own _ _ hu)⟩, hlater.registered hu,
      fun _ d hd => (h.le_own_iff hu).mpr (Or.inr ⟨?_, Phase.le_refl _⟩)⟩
    rcases List.mem_append.mp hd with hd | hd
    · obtain ⟨ha, hne⟩ := hpath d hd
      rw [← hunit] at ha hwf
      refine (hroute.ancestors hwf (Or.inr htarget) ha).resolve_left ?_
      rw [hne]
      exact Bool.false_ne_true
    · rw [List.mem_singleton.mp hd]
      exact Or.inr htarget

/-- Several phases, one after the other. -/
theorem runPhases {g : Guard} {phases : List Phase} (hquiet : setup.Quiet)
    (hg : g.lock = .ofUnit goal.unit.id)
    (hpath : ∀ a ∈ goal.path,
      a ∈ goal.unit.ancestors goal.target ∧ a.isRoot = false) :
    Triple (Prepared goal) (Action.runPhases setup goal g cancellable phases)
      (fun _ w => Prepared goal w ∧ ∀ p ∈ phases, Completed goal p w)
      (Prepared goal) := by
  intro w hw
  have hwf := hw.1.1.wellFormed hw.2.1
  exact (runPhases_advances (fun _ hw => hw) (lasting_completed goal)
    fun p _ => runPhase hquiet hg hpath hwf).triple w hw

/-- What is written to a file keeps the chains. -/
theorem keepsFile (u : CompilationUnit) :
    KeepsFile (fun w => (w.Coherent ∧ w.Chained) ∧ w.Registered u) u := by
  refine .of_raised ?_
  rintro w s ⟨⟨hc, hw⟩, hu⟩ _ hs hbelow
  exact ⟨⟨hc.setState hu hs, hw.setFile hu hs hbelow⟩, hu⟩

/-- A request keeps the chains. -/
theorem request {allowLocal : Bool} {s : Symbol} {phase : Phase}
    (hquiet : setup.Quiet) :
    Triple (fun w => w.Coherent ∧ w.Chained)
      (Action.request setup allowLocal s phase cancellable)
      (fun _ w => w.Coherent ∧ w.Chained)
      fun w => w.Coherent ∧ w.Chained := by
  have hI := Chained.steady
  refine hI.idle.request (fun _ hw => hw) fun u x goal _ _ hgoal => ?_
  obtain rfl := CompilationUnit.unit_of_designateWith hgoal
  have hpath := fun a => (CompilationUnit.mem_path_iff hgoal (a := a)).mp
  have hJ := hI.and_registered goal.unit
  refine (hJ.idle.resolveDesignation
    (Q := fun w => (w.Coherent ∧ w.Chained) ∧ w.Registered goal.unit)
    (fun w hw _ => hJ.counters w _ (Nat.le_refl _) hw) ?_).conseq
    (fun _ hw => hw) (fun _ _ hw => hw.1) fun _ hw => hw.1
  refine Triple.pre ?_ fun w hw => hw.1
  refine hJ.idle.resolveUnderLock hJ.thread fun g hg => ?_
  refine hJ.idle.resolveLocked (fun _ hw => hw)
    (hJ.idle.fileWork fun _ hw => hw.2) (keepsFile goal.unit)
    fun _ current => ?_
  exact (runPhases hquiet hg hpath).conseq
    (fun w hw => ⟨hw.1.1.1, hw.1.1.2, hw.1.2⟩)
    (fun _ w hw => ⟨hw.1.1, hw.1.2.1⟩) fun w hw => ⟨hw.1, hw.2.1⟩

end World.Chained

/-- In every world that is reached markers say what they should. -/
theorem Reaches.chained {setup : Setup} {allowed : World → Call → Prop}
    (hquiet : setup.Quiet) {w : World} (h : Reaches setup allowed w) :
    w.Chained := by
  have hinv := h.invariant (P := World.Chained) hquiet ?_ ?_ ?_ ?_ ?_
  · exact hinv.2
  · exact fun r _ u _ => .of_raw fun d he => raw_of_fresh rfl he
  · exact fun v w hc hv h => hv.of_evolves hc h.evolves h.states
  · exact fun w t hw => hw.of_eq (fun _ h => h) (fun _ _ _ => rfl)
      fun _ _ _ => rfl
  · intro w allowLocal s phase cancellable hc hw _
    exact ((World.Chained.request hquiet).world ⟨hc, hw⟩).2
  · intro w id hc hw
    exact ((World.Chained.steady.idle.resolveFile
      World.Chained.keepsFile).world ⟨hc, hw⟩).2

-- ======================================================== answers and walks

namespace World

/-- What a request that succeeds leaves: a file with resolved imports, and
a chain at the last phase that is run for the one that was asked for. -/
def Settled (goal : Designation) (p : Phase) (w : World) : Prop :=
  .imports ≤ w.own goal.unit .root ∧
    (.extensionAnnotations < p → w.HasReached goal p.core)

variable {w : World} {goal : Designation} {p : Phase}

/-- There is nothing around a file. -/
theorem not_mem_ancestors_root {u : CompilationUnit} (hu : u.WellFormed)
    {d : DeclId} (hd : d.isRoot = true) (a : DeclId) :
    a ∉ u.ancestors d := by
  intro ha
  have hlt := hu.index_lt_of_mem_ancestors ha
  have hzero : d.index = 0 := eq_of_beq hd
  omega

/-- A marker of a whole speaks for the part of an ordinary chain that is
inside. -/
theorem ChainedIn.inside_chain {u : CompilationUnit} (hw : w.ChainedIn u)
    (hwf : u.WellFormed) {a d : DeclId}
    (heligible : ∀ e ∈ d :: u.ancestors d, u.isEligible e = true)
    (hlocal : ∀ e ∈ d :: u.ancestors d, u.isLocal e = false)
    (hparameter : ∀ e ∈ u.ancestors d, u.kind? e ≠ some .typeParameter)
    (hp : .supertypes < p) (ha : p ≤ w.below u a) (had : a ∈ u.ancestors d) :
    p ≤ w.below u d :=
  hwf.descend (fun e he q hq hup hbelow => hw.inside q e p hup
    (hparameter q hq) (heligible q (List.mem_cons_of_mem _ hq))
    (heligible e he) (hlocal e he) hp hbelow) ha had

/-- Beyond the supertype phase, what the markers answer for an ordinary
chain holds of all of it. -/
theorem ChainedIn.settled (hw : w.ChainedIn goal.unit)
    (hwf : goal.unit.WellFormed) (hgoal : goal.Ordinary)
    (hpath : ∀ a, a ∈ goal.path ↔
      a ∈ goal.unit.ancestors goal.target ∧ a.isRoot = false)
    (hp : .supertypes < p) (hle : p ≤ w.current goal) : Settled goal p w := by
  have hcore := Phase.supertypes_lt_core hp
  have himports : Phase.imports ≤ p.core :=
    Phase.le_trans (by decide) (Nat.le_of_lt hcore)
  by_cases hfile : goal.target.isRoot = true
  · -- the markers of a file answer for the file alone
    have hpath : goal.path = [] := by
      rw [List.eq_nil_iff_forall_not_mem]
      exact fun a ha => not_mem_ancestors_root hwf hfile a ((hpath a).mp ha).1
    have hown : p.core ≤ w.own goal.unit .root := by
      unfold current reached at hle
      rw [if_pos hfile, Phase.le_satisfied_iff, Phase.le_max_iff] at hle
      exact hle.resolve_right (hw.file p.core hgoal.root hcore)
    refine ⟨Phase.le_trans himports hown, fun _ d hd => ?_⟩
    rw [hpath, List.nil_append, List.mem_singleton] at hd
    rw [hd, DeclId.eq_root hfile]
    exact hown
  · have hfile : goal.target.isRoot = false := Bool.eq_false_iff.mpr hfile
    have hmem : ∀ a ∈ goal.target :: goal.unit.ancestors goal.target,
        a ∈ goal.chain := by
      intro a ha
      rcases List.mem_cons.mp ha with rfl | ha
      · exact Designation.Ordinary.target_mem goal
      · by_cases hroot : a.isRoot = true
        · rw [DeclId.eq_root hroot]
          exact List.mem_cons_self ..
        · exact Designation.Ordinary.path_mem
            ((hpath a).mpr ⟨ha, Bool.eq_false_iff.mpr hroot⟩)
    have hext : Phase.extensionAnnotations < p :=
      Nat.lt_trans (by decide : Phase.extensionAnnotations < .supertypes) hp
    -- the target itself is marked, by its own marker or by that of a whole
    have htarget : p.core ≤ w.own goal.unit goal.target := by
      rcases (le_reached_iff hfile hext).mp hle with ⟨a, ha, hbelow⟩ | ⟨-, hown⟩
      · refine hw.whole _ _ hfile
          (hgoal.eligible _ (Designation.Ordinary.target_mem goal)) hcore ?_
        rcases List.mem_cons.mp ha with rfl | ha
        · exact hbelow
        · refine hw.inside_chain hwf
            (fun e he => hgoal.eligible e (hmem e he))
            (fun e he => hgoal.nonlocal e (hmem e he)) (fun e he => ?_) hcore
            hbelow ha
          by_cases hroot : e.isRoot = true
          · rw [DeclId.eq_root hroot]
            intro hk
            obtain ⟨x, hx, hkind⟩ := Option.map_eq_some_iff.mp hk
            rw [hwf.file x hx] at hkind
            cases hkind
          · exact hgoal.parameter e
              ((hpath e).mpr ⟨he, Bool.eq_false_iff.mpr hroot⟩)
      · exact hown
    obtain ⟨hroot, habove⟩ := hw.path _ _ hfile
      (hgoal.eligible _ (Designation.Ordinary.target_mem goal)) hcore
      (Or.inl htarget)
    refine ⟨hroot, fun _ d hd => ?_⟩
    rcases List.mem_append.mp hd with hd | hd
    · obtain ⟨ha, hne⟩ := (hpath d).mp hd
      exact habove d ha hne
    · rw [List.mem_singleton.mp hd]
      exact htarget

end World

/-- Steps that move no marker below the file leave a request
unanswered. -/
theorem Idle.and_unanswered {I : World → Prop} {goal : Designation}
    {p : Phase} (hI : Idle I) (hu : ∀ w, I w → w.Registered goal.unit)
    (hfile : goal.isFile = false) (hp : .extensionAnnotations < p) :
    Idle fun w => I w ∧ ¬ p ≤ w.current goal := by
  have hsame : ∀ {v w : World},
      (∀ d, w.own goal.unit d = v.own goal.unit d) →
      (∀ d, w.below goal.unit d = v.below goal.unit d) →
      ¬ p ≤ v.current goal → ¬ p ≤ w.current goal := fun hown hbelow h hw =>
    h ((World.reached_congr hfile hp (fun e _ => hown e) hbelow).mp hw)
  refine {
    coherent := fun w hw => hI.coherent w hw.1
    classifier := fun w k hw => ⟨hI.classifier w k hw.1,
      hsame (fun _ => rfl) (fun _ => rfl) hw.2⟩
    counters := fun w c hc hw => ⟨hI.counters w c hc hw.1,
      hsame (fun _ => rfl) (fun _ => rfl) hw.2⟩
    session := fun w s hw => ⟨hI.session w s hw.1,
      hsame (fun _ => rfl) (fun _ => rfl) hw.2⟩
    thread := fun w t hw => ⟨hI.thread w t hw.1,
      hsame (fun _ => rfl) (fun _ => rfl) hw.2⟩
    touches := fun v w hv h => ⟨hI.touches v w hv.1 h,
      hsame (fun d => h.own _ d (hu v hv.1))
        (fun d => h.below _ d (hu v hv.1)) hv.2⟩
    slots := fun w u d s hw hreg hd hs => ?_ }
  have hkeep : ∀ e, (w.setState u d
      { w.state u d with slots := s }).own goal.unit e =
        w.own goal.unit e ∧ (w.setState u d
      { w.state u d with slots := s }).below goal.unit e =
        w.below goal.unit e := by
    intro e
    rw [World.own, World.below, state_setState hreg (hu w hw.1)]
    split
    · next h =>
      obtain ⟨rfl, rfl⟩ := h
      exact ⟨rfl, rfl⟩
    · exact ⟨rfl, rfl⟩
  exact ⟨hI.slots w u d s hw.1 hreg hd hs,
    hsame (fun e => (hkeep e).1) (fun e => (hkeep e).2) hw.2⟩

/-- What is written to the file leaves a request for something in it
unanswered. -/
theorem KeepsFile.and_unanswered {I : World → Prop} {goal : Designation}
    {p : Phase} (h : KeepsFile I goal.unit)
    (hu : ∀ w, I w → w.Registered goal.unit)
    (hfile : goal.isFile = false) (hp : .extensionAnnotations < p) :
    KeepsFile (fun w => I w ∧ ¬ p ≤ w.current goal) goal.unit := by
  have hkeep : ∀ w s, I w → s.below = w.below goal.unit .root →
      ¬ p ≤ w.current goal →
      ¬ p ≤ (w.setState goal.unit .root s).current goal := by
    intro w s hw hbelow hlt hle
    refine hlt ((World.reached_congr hfile hp (fun e he => ?_)
      fun e => ?_).mp hle)
    · rw [World.own, state_setState (hu w hw) (hu w hw), if_neg]
      · rfl
      · rintro ⟨-, rfl⟩
        cases he
    · rw [World.below, state_setState (hu w hw) (hu w hw)]
      split
      · next h =>
        obtain ⟨-, rfl⟩ := h
        exact hbelow
      · rfl
  exact {
    imports := fun w table errors hw hd ht =>
      ⟨h.imports w table errors hw.1 hd ht, hkeep w _ hw.1 rfl hw.2⟩
    raise := fun w q hw hd => ⟨h.raise w q hw.1 hd, hkeep w _ hw.1 rfl hw.2⟩ }

-- ============================================================ the guarantee

namespace World.Chained

variable {setup : Setup} {goal : Designation} {cancellable : Bool} {p : Phase}

/-- A file that is asked for is brought to the phase. -/
private theorem resolveLocked_file {g : Guard} (hp : .imports < p)
    (hpath : ∀ a, a ∈ goal.path ↔
      a ∈ goal.unit.ancestors goal.target ∧ a.isRoot = false)
    (hfile : goal.isFile = true) :
    Triple (fun w => (w.Coherent ∧ w.Chained) ∧ w.Registered goal.unit)
      (Action.resolveLocked setup goal p cancellable g)
      (fun _ => Settled goal p)
      fun w => (w.Coherent ∧ w.Chained) ∧ w.Registered goal.unit := by
  have hI := Chained.steady.and_registered goal.unit
  have hsettled : ∀ w, ((w.Coherent ∧ w.Chained) ∧ w.Registered goal.unit) →
      p ≤ w.own goal.unit .root → Settled goal p w := by
    rintro w ⟨⟨hc, -⟩, hu⟩ hle
    refine ⟨Phase.le_trans (Nat.le_of_lt hp) hle, fun _ d hd => ?_⟩
    rcases List.mem_append.mp hd with hd | hd
    · exact absurd ((hpath d).mp hd).1
        (not_mem_ancestors_root (hc.wellFormed hu) hfile d)
    · rw [List.mem_singleton.mp hd, DeclId.eq_root hfile]
      exact Phase.le_trans p.core_le hle
  refine resolveLocked_triple (hI.idle.resolveImports (keepsFile goal.unit))
    (fun w hw => hw.1) (fun _ => ?_) (fun _ w hw hle => ?_) ?_ ?_
  · exact (hI.idle.resolveFileAnnotations (hI.idle.fileWork fun _ hw => hw.2)
      (keepsFile goal.unit).toRaisesFile).conseq (fun w hw => hw.1)
      (fun _ w hw => hsettled w hw.1 hw.2) fun _ hw => hw
  · exact hsettled w hw.1 (hle.resolve_left (Phase.not_le_of_lt hp))
  · intro hfile'
    exact absurd (hfile.symm.trans hfile') Bool.noConfusion
  · intro hfile'
    exact absurd (hfile.symm.trans hfile') Bool.noConfusion

/-- What only a file vouches for needs its imports alone. -/
private theorem resolveLocked_annotations {g : Guard}
    (hquiet : setup.Quiet) (hg : g.lock = .ofUnit goal.unit.id)
    (hpath : ∀ a, a ∈ goal.path ↔
      a ∈ goal.unit.ancestors goal.target ∧ a.isRoot = false)
    (hfile : goal.isFile = false) (hp : ¬ .extensionAnnotations < p) :
    Triple (fun w => (w.Coherent ∧ w.Chained) ∧ w.Registered goal.unit)
      (Action.resolveLocked setup goal p cancellable g)
      (fun _ => Settled goal p)
      fun w => (w.Coherent ∧ w.Chained) ∧ w.Registered goal.unit := by
  have hI := Chained.steady.and_registered goal.unit
  have hnot : goal.isFile ≠ true := by
    rw [hfile]
    exact Bool.false_ne_true
  refine resolveLocked_triple (hI.idle.resolveImports (keepsFile goal.unit))
    (fun w hw => hw.1) (fun h => absurd h hnot) (fun h => absurd h hnot) ?_ ?_
  · exact fun _ w hw _ => ⟨hw.2, fun h => absurd h hp⟩
  · exact fun _ current => (runPhases hquiet hg fun a => (hpath a).mp).conseq
      (fun w hw => ⟨hw.1.1.1, hw.1.1.2, hw.1.2⟩)
      (fun _ w hw => ⟨hw.1.2.2, fun h => absurd h hp⟩)
      fun w hw => ⟨hw.1, hw.2.1⟩

/-- A request that the markers did not answer ends with the last phase
that there is to run. -/
private theorem resolveLocked_phases {g : Guard}
    (hquiet : setup.Quiet) (hg : g.lock = .ofUnit goal.unit.id)
    (hpath : ∀ a, a ∈ goal.path ↔
      a ∈ goal.unit.ancestors goal.target ∧ a.isRoot = false)
    (hfile : goal.isFile = false) (hp : .extensionAnnotations < p) :
    Triple (fun w => ((w.Coherent ∧ w.Chained) ∧ w.Registered goal.unit) ∧
        ¬ p ≤ w.current goal)
      (Action.resolveLocked setup goal p cancellable g)
      (fun _ => Settled goal p)
      fun w => ((w.Coherent ∧ w.Chained) ∧ w.Registered goal.unit) := by
  have hI := (Chained.steady.and_registered goal.unit).idle.and_unanswered
    (fun _ hw => hw.2) hfile hp
  have hkeeps := (keepsFile goal.unit).and_unanswered (fun _ hw => hw.2)
    hfile hp
  have hnot : goal.isFile ≠ true := by
    rw [hfile]
    exact Bool.false_ne_true
  refine resolveLocked_triple
    (J := fun w => (((w.Coherent ∧ w.Chained) ∧ w.Registered goal.unit) ∧
      ¬ p ≤ w.current goal) ∧ .imports ≤ w.own goal.unit .root)
    ((hI.resolveImports hkeeps).conseq (fun _ hw => hw) (fun _ _ hw => hw)
      fun w hw => hw.1) (fun w hw => hw.1.1) (fun h => absurd h hnot)
    (fun h => absurd h hnot) (fun _ w hw hle => absurd hle hw.1.2) ?_
  intro _ current w hw
  obtain ⟨q, hq⟩ := exists_reached_eq w goal.unit goal.target
  have hcurrent : current = q.satisfied := hw.2.2.symm.trans hq
  have hlt : q.satisfied < p := by
    rw [← hcurrent, ← hw.2.2]
    exact Phase.lt_of_not_le hw.2.1
  obtain ⟨before, hsteps⟩ := Phase.stepsTo_eq_append_core hp hlt
  have hcore : p.core.rule?.isSome = true := by
    revert hp
    cases p <;> decide
  refine ((runPhases hquiet hg fun a => (hpath a).mp).conseq (fun _ hw => hw)
    (fun _ w hw => ?_) fun w hw => ⟨hw.1, hw.2.1⟩) w
    ⟨hw.1.1.1.1, hw.1.1.1.2, hw.1.2⟩
  refine ⟨hw.1.2.2, fun _ => (hw.2 p.core ?_).2 hcore⟩
  rw [hcurrent, hsteps]
  simp

/-- A request that succeeds settles its designation, if the markers did
not answer it, or if they were asked for something beyond the supertype
phase. -/
theorem resolveDesignation (hquiet : setup.Quiet) (hp : .imports < p)
    (hpath : ∀ a, a ∈ goal.path ↔
      a ∈ goal.unit.ancestors goal.target ∧ a.isRoot = false) :
    Triple (fun w => ((w.Coherent ∧ w.Chained) ∧ w.Registered goal.unit) ∧
        (w.current goal < p ∨ (.supertypes < p ∧ goal.Ordinary)))
      (Action.resolveDesignation setup goal p cancellable)
      (fun _ => Settled goal p)
      fun w => (w.Coherent ∧ w.Chained) ∧ w.Registered goal.unit := by
  have hI := Chained.steady.and_registered goal.unit
  refine hI.idle.resolveDesignation (fun w hw hle => ?_) ?_
  · obtain ⟨⟨⟨hc, hw⟩, hu⟩, hlt | ⟨hp, hgoal⟩⟩ := hw
    · exact absurd hle (Phase.not_le_of_lt hlt)
    · exact (hw goal.unit hu).settled (hc.wellFormed hu) hgoal hpath hp hle
  · have hlast : ∀ (w : World) (t : Thread), Settled goal p w →
        Settled goal p { w with thread := t } := fun _ _ h => h
    cases hfile : goal.isFile with
    | true =>
        exact (hI.idle.resolveUnderLock hlast fun g _ =>
          resolveLocked_file hp hpath hfile).pre fun w hw => hw.1.1
    | false =>
        by_cases hext : .extensionAnnotations < p
        · have hJ := hI.idle.and_unanswered (fun _ hw => hw.2) hfile hext
          refine (resolveUnderLock_triple hJ.thread hlast hI.idle.thread
            (fun w hw => hw.1) fun g hg => ?_).pre fun w hw => ⟨hw.1.1, hw.2⟩
          exact resolveLocked_phases hquiet hg hpath hfile hext
        · exact (hI.idle.resolveUnderLock hlast fun g hg =>
            resolveLocked_annotations hquiet hg hpath hfile hext).pre
              fun w hw => hw.1.1

end World.Chained

/-- A request for a declaration that goes through the phases is one for
its designation. -/
theorem Action.request_eq_resolveDesignation {setup : Setup}
    {allowLocal : Bool} {s : Symbol} {p : Phase} {cancellable : Bool}
    {w : World} {u : CompilationUnit} {x : Declaration} {goal : Designation}
    (hp : p ≠ .raw) (hs : w.registry.declaration s = .ok (u, x))
    (hx : x.isEligible = true)
    (hgoal : u.designateWith allowLocal s.decl = .ok goal) :
    request setup allowLocal s p cancellable w =
      Action.resolveDesignation setup goal p cancellable
        { w with counters := w.counters.countRequest } := by
  unfold request
  rw [bind_run_ok (show count Counters.countRequest w =
    (.ok (), { w with counters := w.counters.countRequest }) from rfl),
    if_neg hp]
  have hfound : declaration s { w with counters := w.counters.countRequest } =
      (.ok (u, x), { w with counters := w.counters.countRequest }) := by
    unfold declaration
    simp only [hs]
    rfl
  rw [bind_run_ok hfound]
  simp only [hx, Bool.not_true, Bool.false_eq_true, if_false]
  rw [hgoal]
  rfl

/-- A request is one for a designation, or it is counted and nothing else
happens; which of the two is a matter of the registry. -/
theorem Action.request_cases (setup : Setup) (allowLocal : Bool) (s : Symbol)
    (p : Phase) (r : Registry) :
    (∃ answer, ∀ (w : World) (cancellable : Bool), w.registry = r →
      request setup allowLocal s p cancellable w =
        (answer, { w with counters := w.counters.countRequest })) ∨
      ∃ u x goal, r.declaration s = .ok (u, x) ∧ x.isEligible = true ∧
        u.designateWith allowLocal s.decl = .ok goal ∧
        ∀ (w : World) (cancellable : Bool), w.registry = r →
          request setup allowLocal s p cancellable w =
            Action.resolveDesignation setup goal p cancellable
              { w with counters := w.counters.countRequest } := by
  by_cases hp : p = .raw
  · subst hp
    exact Or.inl ⟨.ok (), fun _ _ _ => rfl⟩
  have hcount : ∀ w, count Counters.countRequest w =
      (.ok (), { w with counters := w.counters.countRequest }) := fun _ => rfl
  rcases hs : r.declaration s with e | ⟨u, x⟩
  · refine Or.inl ⟨.error (.error e), fun w cancellable hw => ?_⟩
    have hfound : declaration s { w with counters := w.counters.countRequest } =
        (.error (.error e), { w with counters := w.counters.countRequest }) := by
      unfold declaration
      simp only [hw, hs]
      rfl
    unfold request
    rw [bind_run_ok (hcount w), if_neg hp, bind_run_error hfound]
  have hfound : ∀ w : World, w.registry = r →
      declaration s { w with counters := w.counters.countRequest } =
        (.ok (u, x), { w with counters := w.counters.countRequest }) := fun w hw => by
    unfold declaration
    simp only [hw, hs]
    rfl
  cases hx : x.isEligible with
  | true =>
      rcases hgoal : u.designateWith allowLocal s.decl with e | goal
      · refine Or.inl ⟨.error (.error e), fun w cancellable hw => ?_⟩
        unfold request
        rw [bind_run_ok (hcount w), if_neg hp, bind_run_ok (hfound w hw)]
        simp only [hx, Bool.not_true, Bool.false_eq_true, if_false, hgoal]
        rfl
      · exact Or.inr ⟨u, x, goal, rfl, hx, hgoal, fun w _ hw =>
          request_eq_resolveDesignation hp (hw ▸ hs) hx hgoal⟩
  | false =>
      refine Or.inl ⟨.ok (), fun w cancellable hw => ?_⟩
      unfold request
      rw [bind_run_ok (hcount w), if_neg hp, bind_run_ok (hfound w hw)]
      simp only [hx, Bool.not_false, if_true]
      rfl

/-- A request that answers has resolved the imports of the file and brought
the path and the target to the core of the phase, if the markers did not
answer it at once, or if it was for a phase beyond the supertypes and the
chain is ordinary. The phase of annotations for extensions is vouched for
by the file alone. -/
theorem resolve_hasReached {setup : Setup} {s : Symbol} {p : Phase}
    {cancellable : Bool} {w w' : World} {u : CompilationUnit}
    {x : Declaration} {goal : Designation} (hquiet : setup.Quiet)
    (hw : Reaches setup anyCall w)
    (hs : w.registry.declaration s = .ok (u, x)) (hx : x.isEligible = true)
    (hgoal : u.designate s.decl = .ok goal) (hp : .imports < p)
    (hmarkers : w.current goal < p ∨ (.supertypes < p ∧ goal.Ordinary))
    (hrun : Action.resolve setup s p cancellable w = (.ok (), w')) :
    .imports ≤ w'.own u .root ∧ (.extensionAnnotations < p →
      ∀ d ∈ goal.path ++ [goal.target], p.core ≤ w'.own u d) := by
  have hcoherent := hw.coherent hquiet
  have hchained := hw.chained hquiet
  have hpath := fun a => CompilationUnit.mem_path_iff hgoal (a := a)
  obtain rfl := CompilationUnit.unit_of_designateWith hgoal
  have hu : w.Registered goal.unit :=
    (hcoherent.registered (Registry.declaration_eq_ok_iff.mp hs).1).1
  have hraw : p ≠ .raw := by
    rintro rfl
    exact absurd hp (by decide)
  unfold Action.resolve at hrun
  rw [request_eq_resolveDesignation hraw hs hx hgoal] at hrun
  have hI := World.Chained.steady.and_registered goal.unit
  exact (World.Chained.resolveDesignation hquiet hp hpath).ok
    ⟨hI.counters w w.counters.countRequest (Nat.le_refl _)
      ⟨⟨hcoherent, hchained⟩, hu⟩, hmarkers⟩ hrun

/-- The types of a function in a class. -/
theorem resolve_hasReached_plainClass :
    let w := World.after (.plain .default) [.addUnit .plainClass]
    let w' := (Action.resolve (.plain .default) ⟨⟨0⟩, ⟨2⟩⟩ .types false w).2
    ∃ u goal, w.registry.unit? ⟨0⟩ = some u ∧ u.designate ⟨2⟩ = .ok goal ∧
      .imports ≤ w'.own u .root ∧
        ∀ d ∈ goal.path ++ [goal.target], .types ≤ w'.own u d := by
  have hrun : (Action.resolve (.plain .default) ⟨⟨0⟩, ⟨2⟩⟩ .types false
      (World.after (.plain .default) [.addUnit .plainClass])).1 = .ok () := by
    decide +kernel
  have h := resolve_hasReached (s := ⟨⟨0⟩, ⟨2⟩⟩) (p := .types)
    (Setup.quiet_plain .default)
    (Reaches.after (.plain .default) [.addUnit .plainClass])
    rfl rfl rfl (by decide) (Or.inl (by decide +kernel)) (run_of_fst hrun)
  exact ⟨_, _, rfl, rfl, h.1, h.2 (by decide)⟩

-- ================================================= where markers say less

/-- What one might expect of a request for a declaration that goes through
the phases, as does everything around it: that the imports are resolved
and the whole chain is at the core of the phase if it answers. -/
def World.ReachesChain (w : World) (s : Symbol) (p : Phase) : Prop :=
  match w.registry.declaration s with
  | .error _ => True
  | .ok (u, x) =>
    match u.designate s.decl, Action.resolve (.plain .default) s p false w with
    | .ok goal, (.ok (), w') =>
      x.isEligible = true → (∀ a ∈ u.ancestors s.decl, u.isEligible a = true) →
        .imports ≤ w'.own u .root ∧
          ∀ d ∈ goal.path ++ [goal.target], p.core ≤ w'.own u d
    | _, _ => True

instance (w : World) (s : Symbol) (p : Phase) :
    Decidable (w.ReachesChain s p) := by
  unfold World.ReachesChain
  split
  · exact inferInstance
  · split
    · exact inferInstance
    · exact inferInstance

/-- For annotations of extensions the file alone is marked: its marker vouches
for everything in it, and the chain of a function in a class is left where
it was. -/
theorem not_reachesChain :
    ¬ (World.after (.plain .default) [.addUnit .plainClass]).ReachesChain
      ⟨⟨0⟩, ⟨2⟩⟩ .extensionAnnotations := by
  decide +kernel

/-- A declaration whose node is that of a library function in a class: the
function is the target, and markers of libraries say nothing about what is
around them. -/
def UnitSpec.borrowedLibrary : UnitSpec :=
  .ofEntries "a.kt" [.member 0 (.classNamed "C" []),
    .member 1 { DeclSpec.functionNamed "m" none with origin := .library },
    .member 0 { DeclSpec.functionNamed "g" none with borrows := some ⟨2⟩ }]

/-- A class in executable code with the node of a class outside, so that
its members are targets although walks leave out what is around them. -/
def UnitSpec.borrowedInBody : UnitSpec :=
  .ofEntries "a.kt" [.member 0 (.classNamed "D" []),
    .member 0 (.functionNamed "f" none),
    ⟨⟨2⟩, true, .functionNamed "h" none⟩,
    .member 3 { DeclSpec.classNamed "O" [] with borrows := some ⟨1⟩ },
    .member 4 (.functionNamed "t" none)]

/-- The chain has to be ordinary: the target may be one that does not go
through the phases, or one inside of executable code, although what was
asked for is neither. -/
theorem not_reachesChain_of_borrowed :
    let after spec calls := World.after (.plain .default)
      (.addUnit spec :: calls)
    ¬ (after .borrowedLibrary []).ReachesChain ⟨⟨0⟩, ⟨3⟩⟩ .types ∧
    ¬ (after .borrowedInBody [.resolve false ⟨⟨0⟩, ⟨2⟩⟩ .types false]
      ).ReachesChain ⟨⟨0⟩, ⟨5⟩⟩ .types := by
  decide +kernel

/-- A class that extends one which is nested in a class with a clause of
its own. Its session reaches the nested class and leaves the one around it
as it was. -/
def UnitSpec.nestedBase : UnitSpec :=
  .ofEntries "a.kt" [.member 0 (.classNamed "A" ["Outer.Inner"]),
    .member 0 (.classNamed "Outer" ["Base"]),
    .member 2 (.classNamed "Inner" []),
    .member 3 (.functionNamed "m" none), .member 0 (.classNamed "Base" [])]

/-- Markers that answer a request for supertypes do not speak for the chain:
the member that they were raised for was passed by a session, and the class
around its own was not. -/
theorem not_reachesChain_of_passed :
    ¬ (World.after (.plain .default) [.addUnit .nestedBase,
      .resolve false ⟨⟨0⟩, ⟨1⟩⟩ .supertypes false]).ReachesChain
        ⟨⟨0⟩, ⟨4⟩⟩ .supertypes := by
  decide +kernel

/-- A type parameter with a member: where the class is only passed, the
parameter is marked as a whole and its member is not looked at. -/
def UnitSpec.memberOfParameter : UnitSpec :=
  .ofEntries "a.kt" [.member 0 (.classNamed "C" []),
    .member 1 (.bare .typeParameter .classDecl (some "T")),
    .member 2 (.functionNamed "f" none), .member 1 (.functionNamed "g" none)]

/-- Neither do they below a type parameter, whatever the phase. -/
theorem not_reachesChain_below_parameter :
    ¬ (World.after (.plain .default) [.addUnit .memberOfParameter,
      .resolve false ⟨⟨0⟩, ⟨4⟩⟩ .types false]).ReachesChain
        ⟨⟨0⟩, ⟨3⟩⟩ .types := by
  decide +kernel

end StagedResolve
