/-
Piecework: a class in pieces, or as a whole.

# Pieces

A request for something in a class does its work on pieces of the class:
on what was asked for, with all that is inside of it, and on what is
passed on the way there. What that leaves can be told from the markers:
everything in the class holds what the blueprint tells for the phase that
it has reached, and everything else is as it was (`Blueprint.Fits`). A
phase keeps it so (`Blueprint.Ready.fits_of_committed`), since what is
marked was worked on, and passing a class is all the work there is for it
(`CompilationUnit.Passable`).

# Phases in turn

The work of a phase counts only if the work before it was done. So a
request carries along which phases everything it comes by has reached, and
that what it passes is no further than they are (`Blueprint.Progress`);
each phase adds itself to them (`Blueprint.Ready.progress_of_committed`).
When the last one has done its work, all that the request was about has
come to the phase that was asked for (`Blueprint.Progress.complete`).
-/
import StagedResolve.Proofs.Errands
import StagedResolve.Proofs.Staging

namespace StagedResolve

open StagedResolve.Action World

-- ====================================================== a class and its members

namespace CompilationUnit

variable {u : CompilationUnit} {p q : Phase} {d m t : DeclId}

/-- What has members is there. -/
theorem isSome_of_mem_children (hm : m ∈ u.children d) :
    (u.decl? d).isSome = true := by
  unfold children at hm
  cases hd : u.decl? d with
  | none =>
      rw [hd] at hm
      cases hm
  | some x => rfl

/-- So is what belongs to something. -/
theorem isSome_of_parent? (hm : u.parent? d = some m) :
    (u.decl? d).isSome = true := by
  obtain ⟨x, hx, -⟩ := Option.bind_eq_some_iff.mp hm
  rw [hx]
  rfl

/-- What is found inside something outside of executable code is found for any
phase. -/
theorem Inside.of_nonlocal (hu : u.WellFormed)
    (hinherits : ∀ d m, u.parent? m = some d → u.isLocal d = true →
      u.isLocal m = true) (h : u.Inside p t d) (hd : u.isLocal d = false) :
    u.Inside q t d := by
  induction h with
  | refl => exact .refl
  | tail _ hlast ih =>
      rename_i m d _
      have hm : u.isLocal m = false := by
        refine Bool.eq_false_iff.mpr fun hm => ?_
        have := hinherits m d ((hu.child_iff m d).mp hlast.child) hm
        rw [hd] at this
        cases this
      exact (ih hm).tail ⟨hlast.child, hlast.eligible, Or.inl hd⟩

/-- What is found inside something, apart from that, belongs to something that
is found inside as well. -/
theorem Inside.exists_parent (hu : u.WellFormed) (h : u.Inside p t d)
    (hne : d ≠ t) : ∃ m, u.Inside p t m ∧ u.parent? d = some m := by
  cases h with
  | refl => exact absurd rfl hne
  | tail hm hlast => exact ⟨_, hm, (hu.child_iff _ d).mp hlast.child⟩

/-- What is found inside something is below it. -/
theorem Inside.below (hu : u.WellFormed) (h : u.Inside p t d) :
    t = d ∨ t ∈ u.ancestors d := by
  induction h with
  | refl => exact Or.inl rfl
  | tail _ hlast ih =>
      rw [hu.ancestors_of_parent ((hu.child_iff _ _).mp hlast.child)]
      exact Or.inr (List.mem_cons.mpr ih)

/-- What is found inside a class is not the file. -/
theorem Inside.isRoot_eq_false (hu : u.WellFormed) (h : u.Inside p t d)
    (ht : t ≠ .root) : d.isRoot = false := by
  refine Bool.eq_false_iff.mpr fun hroot => ?_
  obtain rfl := DeclId.eq_root hroot
  rcases h.below hu with heq | hup
  · exact ht heq
  · exact Nat.not_lt_zero _ (hu.index_lt_of_mem_ancestors hup)

/-- What is found inside something that goes through the phases goes through
them. -/
theorem Inside.eligible (h : u.Inside p t d) (ht : u.isEligible t = true) :
    u.isEligible d = true := by
  cases h with
  | refl => exact ht
  | tail _ hlast => exact hlast.eligible

end CompilationUnit

/-- What a whole has reached, everything inside has reached that the phase has
work for. -/
theorem World.Deep.le_own_of_inside {w : World} (hw : w.Deep)
    {u : CompilationUnit} (hu : w.Registered u) (hbare : u.BareParameters)
    (hwf : u.WellFormed)
    (hinherits : ∀ d m, u.parent? m = some d → u.isLocal d = true →
      u.isLocal m = true) {t d : DeclId} {p q : Phase}
    (ht : u.isEligible t = true) (hq : q ≤ w.below u t)
    (hin : u.Inside p t d) (hplace : u.isLocal d = true → q = .bodies) :
    q ≤ w.own u d := by
  have hinside : u.Inside q t d := by
    cases hlocal : u.isLocal d with
    | false => exact hin.of_nonlocal hwf hinherits hlocal
    | true =>
        rw [hplace hlocal]
        exact hin.lift id fun _ _ h => ⟨h.child, h.eligible, Or.inr rfl⟩
  obtain ⟨he, hbelow⟩ := hw.le_below_of_inside hu hbare ht hq hinside
  obtain ⟨x, hx⟩ := CompilationUnit.exists_decl?_of_isEligible he
  exact Phase.le_trans hbelow (hw.below_le_own hu hx)

/-- A marker that has passed a phase is not raised to it. -/
theorem Phase.raise_of_le {m q : Phase} (h : q ≤ m) : m.raise q = m := by
  revert h
  cases m <;> cases q <;> decide

/-- One that has not is raised to it. -/
theorem Phase.raise_of_lt {m q : Phase} (h : m < q) : m.raise q = q := by
  revert h
  cases m <;> cases q <;> decide

-- ============================================================ markers at hand

/-- A phase that has reached all that it was run for breaks no promise. -/
theorem Action.markerFault?_eq_none {w : World} {goal : Designation} {q : Phase}
    (hfile : .imports ≤ w.own goal.unit .root)
    (hpath : ∀ d ∈ goal.path, q ≤ w.own goal.unit d)
    (hown : q ≤ w.own goal.unit goal.target)
    (hbelow : q ≤ w.below goal.unit goal.target) :
    markerFault? w goal q = none := by
  have hwide : ¬ w.own goal.unit .root < .lastFileWide := fun hlt =>
    Phase.not_le_of_lt hlt hfile
  have hnone : (goal.path.find? fun d => decide (w.own goal.unit d < q)) =
      none :=
    List.find?_eq_none.mpr fun d hd hlt =>
      Phase.not_le_of_lt (of_decide_eq_true hlt) (hpath d hd)
  unfold markerFault?
  dsimp only
  rw [if_neg hwide, hnone]
  dsimp only
  refine if_neg ?_
  rw [Bool.or_eq_true, decide_eq_true_iff, decide_eq_true_iff]
  rintro (hlt | hlt)
  · exact Phase.not_le_of_lt hlt hown
  · exact Phase.not_le_of_lt hlt hbelow

/-- A phase that gets its context, comes to the end of its walk and commits it
succeeds if that breaks no promise. -/
theorem Action.runPhase_run {setup : Setup} {goal : Designation} {g : Guard}
    {cancellable : Bool} {q : Phase} {rule : PhaseRule} {c : Context}
    {v : Visits} {w w₁ w₂ : World} (hrule : q.rule? = some rule)
    (henter : Context.enter setup goal.unit g cancellable w = (.ok c, w))
    (hwalk : Walk.run rule c goal { w with session := .start } = (.ok v, w₁))
    (hcommit : v.commit g goal.unit q w₁ = (.ok (), w₂))
    (hmarkers : markerFault? w₂ goal q = none) :
    runPhase setup goal g cancellable q w =
      (.ok (), { w₂ with counters := w₂.counters.countCommit q }) := by
  let w₃ : World := { w₂ with counters := w₂.counters.countCommit q }
  have hstart : updateSession (fun _ => .start) w =
      (.ok (), { w with session := .start }) := rfl
  have hcount : count (fun n => n.countCommit q) w₂ = (.ok (), w₃) := rfl
  have hread : (Action.read fun w => markerFault? w goal q) w₃ = (.ok none, w₃) :=
    congrArg (fun f => (Except.ok f, w₃)) hmarkers
  unfold runPhase
  rw [hrule]
  dsimp only
  rw [bind_run_ok henter, bind_run_ok hstart, bind_run_ok hwalk,
    bind_run_ok hcommit, bind_run_ok hcount]
  split
  · unfold checkMarkers
    rw [bind_run_ok hread]
    rfl
  · rfl

/-- What a walk passes on its way to the target: the path and its type
parameters. -/
def Designation.Passes (goal : Designation) (u : CompilationUnit) (d : DeclId) :
    Prop :=
  d ∈ goal.path ∨ ∃ a ∈ goal.path, d ∈ u.parameters a

/-- All work on a walk is on what it passes and on the target with all below
it. -/
theorem Designation.decl_of_mem_plan (goal : Designation) {u : CompilationUnit}
    (hu : u.WellFormed) {k : Work} (hk : k ∈ goal.plan u) :
    goal.Passes u k.decl ∨
      goal.target = k.decl ∨ goal.target ∈ u.ancestors k.decl := by
  rcases List.mem_append.mp hk with hk | hk
  · obtain ⟨a, ha, hk⟩ := List.mem_flatMap.mp hk
    rcases List.mem_cons.mp hk with rfl | hk
    · exact Or.inl (Or.inl ha)
    · obtain ⟨m, hm, rfl⟩ := List.mem_map.mp hk
      exact Or.inl (Or.inr ⟨a, ha, hm⟩)
  · obtain ⟨d, hd, rfl⟩ := List.mem_map.mp hk
    exact Or.inr ((hu.mem_subtree hd).imp_left Eq.symm)

/-- A class may be passed: there is nothing to do for it but to read
annotations and to store its status. -/
structure CompilationUnit.Passable (u : CompilationUnit) (d : DeclId) (s : Slots) :
    Prop where
  kind : u.kind? d = some .classDecl
  nonlocal : u.isLocal d = false
  code : ∀ x, u.decl? d = some x → x.hasCode = false
  headed : s.Headed
  parameters : ∀ m ∈ u.parameters d, u.isLocal m = false

namespace Blueprint

/-- A class in a unit in which no work fails. -/
structure Owner (b : Blueprint) (owner : DeclId) (p : Phase) : Prop where
  kind : b.unit.kind? owner = some .classDecl
  nonlocal : b.unit.isLocal owner = false
  eligible : b.unit.isEligible owner = true
  root : owner ≠ .root
  bare : b.unit.BareParameters
  inherits : ∀ d m, b.unit.parent? m = some d → b.unit.isLocal d = true →
    b.unit.isLocal m = true
  contracts : ∀ d x, b.unit.decl? d = some x → x.kind.isCallable = false →
    x.contract = []
  plain : p = .bodies → ∀ d, owner ∈ b.unit.ancestors d →
    b.unit.isLocal d = true → b.unit.isClassLike d = false

/-- A designation of a class, or of something in it, for which all that is
passed in the class may be passed. -/
structure Concerns (b : Blueprint) (owner : DeclId) (p : Phase)
    (goal : Designation) : Prop where
  unit : goal.unit = b.unit
  fits : goal.Matches b.unit
  path : ∀ a, a ∈ goal.path ↔
    a ∈ b.unit.ancestors goal.target ∧ a.isRoot = false
  nonlocal : ∀ a ∈ goal.path ++ [goal.target], b.unit.isLocal a = false
  target : b.unit.Inside p owner goal.target
  passed : ∀ a ∈ goal.path, owner = a ∨ owner ∈ b.unit.ancestors a →
    b.unit.Inside p owner a ∧ b.unit.Passable a (b.start a)

variable {b : Blueprint} {owner d m : DeclId} {p q : Phase}
  {goal : Designation} {w w' : World}

/-- The slots of everything that belongs to a class are what the blueprint
tells of them, for the phase that each of them has reached; and everything else
below the class is as it was. -/
structure Fits (b : Blueprint) (owner : DeclId) (p : Phase) (w : World) :
    Prop where
  governs : b.Governs w
  deep : w.Deep
  file : .imports ≤ w.own b.unit .root
  whole : .supertypes ≤ w.below b.unit owner
  level : b.base ≤ w.below b.unit owner ∨ b.base ≤ .sealedInheritors
  told : ∀ d, b.unit.Inside p owner d →
    w.slots b.unit d = b.slots d (w.own b.unit d)
  bound : ∀ d, b.unit.Inside p owner d →
    w.own b.unit d ≤ b.base ∨ w.own b.unit d ≤ p
  outside : ∀ d, b.unit.isEligible d = true →
    owner = d ∨ owner ∈ b.unit.ancestors d → ¬ b.unit.Inside p owner d →
    w.slots b.unit d = b.start d

/-- How far a request for a designation has come: which work is done on what
it comes by, and what it passes is no further than that. -/
structure Progress (b : Blueprint) (owner : DeclId) (p : Phase)
    (goal : Designation) (x : Phase) (before : List Phase) (w : World) :
    Prop where
  reached : ∀ d, b.unit.Inside p owner d →
    goal.Passes b.unit d ∨ b.unit.Inside p goal.target d →
    ∀ r ∈ Phase.works (b.unit.isLocal d) b.base p, r ∈ before ∨ r ≤ x →
      r ≤ w.own b.unit d
  passed : ∀ d, b.unit.Inside p owner d → goal.Passes b.unit d →
    w.own b.unit d ≤ b.base ∨ ∃ r ∈ before, w.own b.unit d ≤ r

-- ------------------------------------------------------ what belongs to a class

namespace Owner

/-- A class is not the file. -/
theorem isRoot_eq_false (ho : b.Owner owner p) : owner.isRoot = false :=
  Bool.eq_false_iff.mpr fun h => ho.root (DeclId.eq_root h)

/-- It is not a type parameter either. -/
theorem ne_of_parameter (ho : b.Owner owner p) {a : DeclId}
    (hd : d ∈ b.unit.parameters a) : owner ≠ d := by
  rintro rfl
  cases ho.kind.symm.trans (CompilationUnit.mem_parameters_iff.mp hd).2

/-- With a type parameter what has it belongs to the class. -/
theorem inside_of_parameter (ho : b.Owner owner p) (hu : b.unit.WellFormed)
    {a : DeclId} (hin : b.unit.Inside p owner d) (hd : d ∈ b.unit.parameters a) :
    b.unit.Inside p owner a := by
  obtain ⟨m, hm, hparent⟩ := hin.exists_parent hu (ho.ne_of_parameter hd).symm
  obtain rfl : a = m := Option.some.inj
    ((hu.parent_of_parameter hd).1.symm.trans hparent)
  exact hm

/-- Work on what is there does not fail: only on classes in executable code it
might, and there are none in the class. -/
theorem smooth (ho : b.Owner owner p) (hqp : q ≤ p)
    (hd : (b.unit.decl? d).isSome = true)
    (hplace : b.unit.isLocal d = true → b.unit.isClassLike d = false ∨
      owner ∈ b.unit.ancestors d) : b.Smooth q d := by
  refine ⟨hd, ho.contracts d, fun hbodies hlocal => ?_⟩
  rcases hplace hlocal with hplain | hup
  · exact hplain
  · subst hbodies
    have hp : p = .bodies :=
      Phase.position_inj (Nat.le_antisymm (Phase.le_bodies p) hqp)
    exact ho.plain hp d hup hlocal

/-- What belongs to a class is there. -/
theorem exists_decl (ho : b.Owner owner p) (hd : b.unit.Inside p owner d) :
    ∃ y, b.unit.decl? d = some y :=
  CompilationUnit.exists_decl?_of_isEligible (hd.eligible ho.eligible)

end Owner

-- -------------------------------------------------------- where walks come by

namespace Concerns

/-- A designation of something in a class is not one of the file. -/
theorem isRoot_eq_false (hg : b.Concerns owner p goal) :
    goal.target.isRoot = false :=
  Bool.eq_false_iff.mpr fun h => hg.fits.target (DeclId.eq_root h)

/-- What a walk goes on to is inside. -/
theorem inside_of_reached (hqp : q ≤ p)
    (h : Walk.Reached b.unit q w goal.target d) :
    b.unit.Inside p goal.target d := by
  induction h with
  | refl => exact .refl
  | tail _ hlast ih =>
      refine ih.tail ⟨hlast.child, hlast.eligible, ?_⟩
      cases hl : b.unit.isLocal _ with
      | false => exact Or.inl rfl
      | true =>
          rw [hlast.nonlocal hl] at hqp
          exact Or.inr (Phase.position_inj
            (Nat.le_antisymm (Phase.le_bodies p) hqp))

/-- What a walk comes by, goes through the phases and is below the class
belongs to the class. -/
theorem inside (hg : b.Concerns owner p goal) (ho : b.Owner owner p)
    (hqp : q ≤ p) (hd : goal.Passes b.unit d ∨
      Walk.Reached b.unit q w goal.target d)
    (he : b.unit.isEligible d = true)
    (hbelow : owner = d ∨ owner ∈ b.unit.ancestors d) :
    b.unit.Inside p owner d := by
  have hu := hg.fits.wellFormed
  rcases hd with (hd | ⟨a, ha, hd⟩) | hd
  · exact (hg.passed d hd hbelow).1
  · have hchild := (CompilationUnit.mem_parameters_iff.mp hd).1
    have hup := hbelow.resolve_left (ho.ne_of_parameter hd)
    rw [hu.ancestors_of_parent ((hu.child_iff a d).mp hchild)] at hup
    obtain ⟨hin, hpass⟩ := hg.passed a ha (List.mem_cons.mp hup)
    exact hin.tail ⟨hchild, he, Or.inl (hpass.parameters d hd)⟩
  · exact hg.target.trans (inside_of_reached hqp hd)

/-- What is in executable code is come by only when bodies are resolved. -/
theorem eq_bodies_of_local (hg : b.Concerns owner p goal)
    (ho : b.Owner owner p) (hin : b.unit.Inside p owner d)
    (hd : goal.Passes b.unit d ∨ Walk.Reached b.unit q w goal.target d)
    (hlocal : b.unit.isLocal d = true) : q = .bodies := by
  have hu := hg.fits.wellFormed
  rcases hd with (hd | ⟨a, ha, hd⟩) | hd
  · rw [hg.nonlocal d (List.mem_append_left _ hd)] at hlocal
    cases hlocal
  · have hup := (ho.inside_of_parameter hu hin hd).below hu
    rw [(hg.passed a ha hup).2.parameters d hd] at hlocal
    cases hlocal
  · rcases Relation.ReflTransGen.cases_tail_iff _ _ _ |>.mp hd with heq | ⟨m, -, hlast⟩
    · rw [heq, hg.nonlocal _ (List.mem_append_right _
        (List.mem_singleton_self _))] at hlocal
      cases hlocal
    · exact hlast.nonlocal hlocal

/-- Where a walk comes by a member it has come by what that belongs to. -/
theorem parent_visited (hg : b.Concerns owner p goal)
    (hd : Walk.Reached b.unit q w goal.target d)
    (hm : b.unit.parent? d = some m) (hroot : m.isRoot = false) :
    goal.Passes b.unit m ∨ Walk.Reached b.unit q w goal.target m := by
  have hu := hg.fits.wellFormed
  rcases Relation.ReflTransGen.cases_tail_iff _ _ _ |>.mp hd with heq | ⟨m', hm', hlast⟩
  · refine Or.inl (Or.inl ((hg.path m).mpr ⟨?_, hroot⟩))
    rw [← heq, hu.ancestors_of_parent hm]
    exact List.mem_cons_self ..
  · obtain rfl : m' = m := Option.some.inj
      (((hu.child_iff m' d).mp hlast.child).symm.trans hm)
    exact Or.inr hm'

/-- No work on a walk fails. -/
theorem smooth (hg : b.Concerns owner p goal) (ho : b.Owner owner p)
    (hqp : q ≤ p) : ∀ k ∈ goal.plan b.unit, b.Smooth q k.decl := by
  have hu := hg.fits.wellFormed
  intro k hk
  rcases goal.decl_of_mem_plan hu hk with (ha | ⟨a, ha, hm⟩) | heq | hup
  · obtain ⟨m, hm, -⟩ := hu.exists_child_of_mem_ancestors
      ((hg.path _).mp ha).1
    refine ho.smooth hqp (CompilationUnit.isSome_of_mem_children
      ((hu.child_iff _ m).mpr hm)) fun hlocal => ?_
    cases (hg.nonlocal _ (List.mem_append_left _ ha)).symm.trans hlocal
  · refine ho.smooth hqp (CompilationUnit.isSome_of_parent?
      (hu.parent_of_parameter hm).1) fun _ => Or.inl ?_
    rw [CompilationUnit.isClassLike, (CompilationUnit.mem_parameters_iff.mp hm).2]
    rfl
  · rw [← heq]
    refine ho.smooth hqp hg.fits.there fun hlocal => ?_
    cases (hg.nonlocal _ (List.mem_append_right _
      (List.mem_singleton_self _))).symm.trans hlocal
  · obtain ⟨m, hm, -⟩ := hu.mem_ancestors_iff.mp hup
    refine ho.smooth hqp (CompilationUnit.isSome_of_parent? hm) fun _ => Or.inr ?_
    rcases hg.target.below hu with heq | habove
    · exact heq ▸ hup
    · exact hu.ancestors_trans habove hup

end Concerns

-- ------------------------------------------------------------ one phase

section phase

variable {x : Phase} {before : List Phase} {v : Visits} {w₀ w₁ w₂ : World}

/-- A walk that was committed, in figures: what is known of the worlds before,
between and after. -/
structure Committed (b : Blueprint) (q : Phase) (goal : Designation)
    (v : Visits) (w w₁ w₂ : World) : Prop where
  walked : b.Walked q goal v w w₁
  commit : Rewrites b.unit (v.committed q) w₁ w₂
  registered : w₁.Registered b.unit

namespace Committed

variable (h : b.Committed q goal v w w₁ w₂)
include h

/-- What was visited. -/
theorem visited_iff : d ∈ v.headers ∨ d ∈ v.members ↔
    goal.Passes b.unit d ∨ Walk.Reached b.unit q w goal.target d := by
  rw [h.walked.headers, h.walked.members, Designation.Passes, or_assoc]

/-- The own marker of what was visited has risen. -/
theorem own_of_visited (hd : goal.Passes b.unit d ∨
    Walk.Reached b.unit q w goal.target d) :
    w₂.own b.unit d = (w.own b.unit d).raise q := by
  rw [← h.walked.done.own]
  unfold World.own
  rw [h.commit.state_self h.registered]
  exact if_pos (h.visited_iff.mpr hd)

/-- That of anything else has not. -/
theorem own_of_not_visited (hd : ¬ (goal.Passes b.unit d ∨
    Walk.Reached b.unit q w goal.target d)) :
    w₂.own b.unit d = w.own b.unit d := by
  rw [← h.walked.done.own]
  unfold World.own
  rw [h.commit.state_self h.registered]
  exact if_neg (mt h.visited_iff.mp hd)

/-- Own markers only rise. -/
theorem le_own (d : DeclId) : w.own b.unit d ≤ w₂.own b.unit d := by
  by_cases hd : goal.Passes b.unit d ∨ Walk.Reached b.unit q w goal.target d
  · rw [h.own_of_visited hd]
    exact Phase.le_raise _ _
  · rw [h.own_of_not_visited hd]
    exact Phase.le_refl _

/-- The target is marked as a whole. -/
theorem le_below_target : q ≤ w₂.below b.unit goal.target :=
  (h.commit.le_below_iff h.registered).mpr (Or.inr
    ⟨(h.walked.members _).mpr (Or.inr .refl), Phase.le_refl q⟩)

/-- So no promise is broken. -/
theorem markerFault?_eq_none (hunit : goal.unit = b.unit)
    (hfile : .imports ≤ w.own b.unit .root) : markerFault? w₂ goal q = none := by
  have hown : ∀ d, goal.Passes b.unit d ∨
      Walk.Reached b.unit q w goal.target d → q ≤ w₂.own b.unit d := by
    intro d hd
    rw [h.own_of_visited hd]
    exact Phase.goal_le_raise _ _
  refine Action.markerFault?_eq_none ?_ (fun d hd => ?_) ?_ ?_ <;> rw [hunit]
  · exact Phase.le_trans hfile (h.le_own .root)
  · exact hown d (Or.inl (Or.inl hd))
  · exact hown _ (Or.inr .refl)
  · exact h.le_below_target

/-- The commit leaves all slots. -/
theorem slots_eq (d : DeclId) :
    w₂.slots b.unit d = w₁.slots b.unit d :=
  h.commit.slots b.unit d h.registered

/-- What was worked on was passed, or come to and not marked. -/
theorem passes_or_fresh {k : Work} (hk : k ∈ v.work) :
    goal.Passes b.unit k.decl ∨
      Walk.Reached b.unit q w goal.target k.decl ∧ w.own b.unit k.decl < q := by
  rcases (h.walked.works k).mp hk with ⟨a, ha, hk⟩ | ⟨d, hd, hfresh, rfl⟩
  · rcases List.mem_cons.mp hk with rfl | hk
    · exact Or.inl (Or.inl ha)
    · obtain ⟨m, hm, rfl⟩ := List.mem_map.mp hk
      exact Or.inl (Or.inr ⟨a, ha, hm⟩)
  · exact Or.inr ⟨hd, hfresh⟩

/-- What was not visited was not worked on. -/
theorem slots_of_not_visited (hd : ¬ (goal.Passes b.unit d ∨
    Walk.Reached b.unit q w goal.target d)) :
    w₂.slots b.unit d = w.slots b.unit d := by
  rw [h.slots_eq, h.walked.done.others]
  rintro k hk rfl
  exact hd ((h.passes_or_fresh hk).imp_right And.left)

/-- What was marked already was not worked on, unless it was passed. -/
theorem slots_of_marked (hd : ¬ goal.Passes b.unit d)
    (hmarked : q ≤ w.own b.unit d) :
    w₂.slots b.unit d = w.slots b.unit d := by
  rw [h.slots_eq, h.walked.done.others]
  rintro k hk rfl
  exact Phase.not_le_of_lt ((h.passes_or_fresh hk).resolve_left hd).2 hmarked

/-- What was visited and not marked was passed, or worked on. -/
theorem exists_work (hd : goal.Passes b.unit d ∨
    Walk.Reached b.unit q w goal.target d) (hfresh : w.own b.unit d < q)
    {y : Declaration} (hy : b.unit.decl? d = some y) :
    ∃ k : Work, (k = .member d ∨ k = .header d ∧ d ∈ goal.path) ∧
      w₂.slots b.unit d = b.work y (w₂.typeAbove b.unit y) q k
        (w.slots b.unit d) := by
  have htype : w₂.typeAbove b.unit y = w₁.typeAbove b.unit y :=
    World.typeAbove_congr hy fun m _ => h.slots_eq m
  have hworked : ∀ k ∈ v.work, k.decl = d →
      w₂.slots b.unit d = b.work y (w₂.typeAbove b.unit y) q k
        (w.slots b.unit d) := by
    rintro k hk rfl
    rw [h.slots_eq, htype]
    exact h.walked.done.worked k hk y hy
  rcases hd with (hd | ⟨a, ha, hd⟩) | hd
  · exact ⟨.header d, Or.inr ⟨rfl, hd⟩, hworked _ ((h.walked.works _).mpr
      (Or.inl ⟨d, hd, List.mem_cons_self ..⟩)) rfl⟩
  · exact ⟨.member d, Or.inl rfl, hworked _ ((h.walked.works _).mpr
      (Or.inl ⟨a, ha, List.mem_cons_of_mem _ (List.mem_map_of_mem hd)⟩)) rfl⟩
  · exact ⟨.member d, Or.inl rfl, hworked _ ((h.walked.works _).mpr
      (Or.inr ⟨d, hd, hfresh, rfl⟩)) rfl⟩

/-- There is nothing to do for the inheritors of sealed classes. -/
theorem slots_of_sealed (hq : q = .sealedInheritors) {y : Declaration}
    (hy : b.unit.decl? d = some y) :
    w₂.slots b.unit d = w.slots b.unit d := by
  subst hq
  rw [h.slots_eq]
  by_cases hex : ∃ k ∈ v.work, k.decl = d
  · obtain ⟨k, hk, rfl⟩ := hex
    rw [h.walked.done.worked k hk y hy]
    cases k <;> rfl
  · exact h.walked.done.others d fun k hk heq => hex ⟨k, hk, heq⟩

end Committed

/-- All is ready for a phase: what the blueprint tells holds so far, and the
phases before have done their work on what is to be come by. -/
structure Ready (b : Blueprint) (owner : DeclId) (p : Phase) (goal : Designation)
    (x : Phase) (before : List Phase) (q : Phase) (w : World) : Prop where
  ground : b.Owner owner p
  aim : b.Concerns owner p goal
  fits : b.Fits owner p w
  progress : b.Progress owner p goal x before w
  after : .supertypes < q
  le : q ≤ p
  earlier : ∀ isLocal, ∀ r ∈ Phase.works isLocal b.base p, r < q →
    r ∈ before ∨ r ≤ x
  rises : ∀ r ∈ before, r < q
  fresh : b.base < q ∨ q = .sealedInheritors

/-- On what the phase comes by, the work of the phases before it is done. -/
theorem Ready.le_own_of_mem_works (hr : b.Ready owner p goal x before q w)
    (hin : b.unit.Inside p owner d)
    (hd : goal.Passes b.unit d ∨ Walk.Reached b.unit q w goal.target d) {r : Phase}
    (hrq : r ∈ Phase.works (b.unit.isLocal d) b.base q) :
    r = q ∨ r ≤ w.own b.unit d := by
  rw [Phase.mem_works_iff] at hrq
  obtain ⟨hmem, ⟨hbase, hle⟩, hplace⟩ := hrq
  refine or_iff_not_imp_left.mpr fun hne => ?_
  have hlt : r < q := Phase.lt_of_not_le fun hqr => hne
    (Phase.position_inj (Nat.le_antisymm hle hqr))
  have hworks : r ∈ Phase.works (b.unit.isLocal d) b.base p :=
    Phase.mem_works_iff.mpr ⟨hmem, ⟨hbase, Phase.le_trans hle hr.le⟩, hplace⟩
  exact hr.progress.reached d hin
    (hd.imp_right fun hd => Concerns.inside_of_reached hr.le hd) r hworks
    (hr.earlier _ r hworks hlt)

namespace Ready

variable (hr : b.Ready owner p goal x before q w)
  (h : b.Committed q goal v w w₁ w₂)
include hr h

/-- What was marked already has its slots still. -/
theorem slots_of_marked (hin : b.unit.Inside p owner d)
    (hmarked : q ≤ w.own b.unit d) :
    w₂.slots b.unit d = w.slots b.unit d := by
  obtain ⟨y, hy⟩ := hr.ground.exists_decl hin
  by_cases hpass : goal.Passes b.unit d
  · rcases hr.progress.passed d hin hpass with hle | ⟨r, hbefore, hle⟩
    · refine h.slots_of_sealed (hr.fresh.resolve_left fun hlt => ?_) hy
      exact Phase.not_le_of_lt hlt (Phase.le_trans hmarked hle)
    · exact absurd (Phase.le_trans hmarked hle)
        (Phase.not_le_of_lt (hr.rises r hbefore))
  · exact h.slots_of_marked hpass hmarked

/-- What was visited and not marked was worked on, and it is all the same
whether it was only passed. -/
theorem slots_of_fresh (hin : b.unit.Inside p owner d)
    (hd : goal.Passes b.unit d ∨ Walk.Reached b.unit q w goal.target d)
    (hfresh : w.own b.unit d < q) {y : Declaration}
    (hy : b.unit.decl? d = some y) :
    w₂.slots b.unit d = b.step y (w₂.typeAbove b.unit y) q
      (b.slots d (w.own b.unit d)) := by
  have hu := hr.fits.governs.wellFormed
  obtain ⟨k, hk, hslots⟩ := h.exists_work hd hfresh hy
  rw [hslots, hr.fits.told _ hin]
  rcases hk with rfl | ⟨rfl, hpath⟩
  · rfl
  · obtain ⟨-, hpass⟩ := hr.aim.passed d hpath (hin.below hu)
    obtain rfl : y.id = d := hu.numbered d y hy
    have hkind : y.kind = .classDecl := Option.some.inj
      ((CompilationUnit.kind?_of_decl? hy).symm.trans hpass.kind)
    have hlocal : y.isLocal = false :=
      (CompilationUnit.isLocal_of_decl? hy).symm.trans hpass.nonlocal
    refine pass_eq_step hy hkind hlocal (hpass.code y hy) fun htypes => ?_
    rw [slots_of_le hu (Or.inl (htypes ▸ hfresh))]
    exact hpass.headed

/-- The type of what an accessor belongs to is what the blueprint tells of it,
where it counts. -/
theorem typeAbove_eq (hin : b.unit.Inside p owner d)
    (hd : goal.Passes b.unit d ∨ Walk.Reached b.unit q w goal.target d)
    {y : Declaration} (hy : b.unit.decl? d = some y) (hkind : y.kind = .accessor)
    (hq : q = .implicitTypes ∨ q = .bodies)
    (htold : ∀ m, b.unit.parent? d = some m → b.unit.Inside p owner m →
      w₂.slots b.unit m = b.slots m (w₂.own b.unit m)) :
    w₂.typeAbove b.unit y = b.above y q := by
  have hu := hr.fits.governs.wellFormed
  have hkind : b.unit.kind? d = some .accessor := by
    rw [CompilationUnit.kind?_of_decl? hy, hkind]
  have hne : d ≠ owner := by
    rintro rfl
    cases hr.ground.kind.symm.trans hkind
  obtain ⟨m, hm, hparent⟩ := hin.exists_parent hu hne
  have hy' : y.parent = some m :=
    (CompilationUnit.parent?_of_decl? hy).symm.trans hparent
  -- nothing that is passed is an accessor
  have hreached : Walk.Reached b.unit q w goal.target d := by
    refine hd.resolve_left ?_
    rintro (hpath | ⟨a, -, hparameter⟩)
    · cases (hr.aim.passed d hpath (hin.below hu)).2.kind.symm.trans hkind
    · cases (CompilationUnit.mem_parameters_iff.mp hparameter).2.symm.trans hkind
  have hvisited := hr.aim.parent_visited hreached hparent
    (hm.isRoot_eq_false hu hr.ground.root)
  have hmark : q ≤ w₂.own b.unit m := by
    rw [h.own_of_visited hvisited]
    exact Phase.le_raise_iff.mpr (Or.inr (Phase.le_refl q))
  rw [World.typeAbove, above, hy']
  show (w₂.slots b.unit m).returnType.type? = (b.slots m q).returnType.type?
  rw [htold m hparent hm]
  rcases hq with rfl | rfl
  · obtain ⟨z, hz⟩ := hr.ground.exists_decl hm
    have hlocal : z.isLocal = false := by
      refine Bool.eq_false_iff.mpr fun hl => ?_
      have hlocal : b.unit.isLocal d = true :=
        hr.ground.inherits m d hparent
          ((CompilationUnit.isLocal_of_decl? hz).trans hl)
      cases hr.aim.eq_bodies_of_local hr.ground hin hd hlocal
    rw [returnType_slots hu hz hlocal hmark]
  · rw [Phase.position_inj (Nat.le_antisymm (Phase.le_bodies _) hmark)]

/-- So everything that belongs to the class has the slots that the blueprint
tells. The induction is on its number, since what an accessor belongs to comes
before it. -/
theorem told (hin : b.unit.Inside p owner d) :
    w₂.slots b.unit d = b.slots d (w₂.own b.unit d) := by
  have hu := hr.fits.governs.wellFormed
  obtain ⟨n, hn⟩ : ∃ n, d.index = n := ⟨_, rfl⟩
  induction n using Nat.strongRecOn generalizing d with
  | ind n ih =>
      by_cases hd : goal.Passes b.unit d ∨
          Walk.Reached b.unit q w goal.target d
      · by_cases hmarked : q ≤ w.own b.unit d
        · rw [h.own_of_visited hd, Phase.raise_of_le hmarked,
            hr.slots_of_marked h hin hmarked, hr.fits.told d hin]
        · have hfresh := Phase.lt_of_not_le hmarked
          obtain ⟨y, hy⟩ := hr.ground.exists_decl hin
          have hisLocal := CompilationUnit.isLocal_of_decl? hy
          rw [h.own_of_visited hd, Phase.raise_of_lt hfresh,
            hr.slots_of_fresh h hin hd hfresh hy,
            slots_next hu hy hfresh hr.fresh]
          · refine step_congr fun hkind hq => hr.typeAbove_eq h hin hd hy hkind hq
              fun m hparent hm => ih m.index ?_ hm rfl
            rw [← hn]
            exact hu.earlier d m hparent
          · intro hlocal
            exact hr.aim.eq_bodies_of_local hr.ground hin hd
              (hisLocal.trans hlocal)
          · exact fun r hrq => hr.le_own_of_mem_works hin hd (hisLocal ▸ hrq)
      · rw [h.own_of_not_visited hd, h.slots_of_not_visited hd,
          hr.fits.told d hin]

/-- What the blueprint tells holds after the phase. -/
theorem fits_of_committed (hdeep : w₂.Deep) : b.Fits owner p w₂ := by
  have hbelow : ∀ r : Phase, r ≤ w.below b.unit owner →
      r ≤ w₂.below b.unit owner := by
    intro r hle
    refine (h.commit.le_below_iff h.registered).mpr (Or.inl ?_)
    rw [h.walked.done.below]
    exact hle
  refine ⟨?_, hdeep, ?_, hbelow _ hr.fits.whole,
    hr.fits.level.imp_left (hbelow _), fun d hin => hr.told h hin,
    fun d hin => ?_, fun d he hup hout => ?_⟩
  · refine h.walked.done.governs.of_sameClause hdeep.backed.grounded.coherent
      h.commit.registry fun u d hu => ?_
    rw [h.commit.slots u d hu]
    exact ⟨rfl, rfl, rfl⟩
  · exact Phase.le_trans hr.fits.file (h.le_own .root)
  · by_cases hd : goal.Passes b.unit d ∨ Walk.Reached b.unit q w goal.target d
    · rw [h.own_of_visited hd]
      by_cases hmarked : q ≤ w.own b.unit d
      · rw [Phase.raise_of_le hmarked]
        exact hr.fits.bound d hin
      · rw [Phase.raise_of_lt (Phase.lt_of_not_le hmarked)]
        exact Or.inr hr.le
    · rw [h.own_of_not_visited hd]
      exact hr.fits.bound d hin
  · rw [h.slots_of_not_visited fun hd =>
      hout (hr.aim.inside hr.ground hr.le hd he hup)]
    exact hr.fits.outside d he hup hout

/-- And the phase is one of those that have done their work. -/
theorem progress_of_committed (hdeep : w₂.Deep) :
    b.Progress owner p goal x (before ++ [q]) w₂ := by
  have hu := hr.fits.governs.wellFormed
  have hreg : w₂.Registered b.unit := h.commit.registered_iff.mpr h.registered
  refine ⟨fun d hin hd r hworks hr' => ?_, fun d hin hpass => ?_⟩
  · have hearlier : r ∈ before ∨ r ≤ x → r ≤ w₂.own b.unit d := fun hr' =>
      Phase.le_trans (hr.progress.reached d hin hd r hworks hr') (h.le_own d)
    rcases hr' with hr' | hr'
    · rcases List.mem_append.mp hr' with hr' | hr'
      · exact hearlier (Or.inl hr')
      · obtain rfl := List.mem_singleton.mp hr'
        rcases hd with hpass | htarget
        · rw [h.own_of_visited (Or.inl hpass)]
          exact Phase.goal_le_raise _ _
        · exact hdeep.le_own_of_inside hreg hr.ground.bare hu hr.ground.inherits
            (hr.aim.target.eligible hr.ground.eligible) h.le_below_target
            htarget (Phase.mem_works_iff.mp hworks).2.2
    · exact hearlier (Or.inr hr')
  · rw [h.own_of_visited (Or.inl hpass)]
    by_cases hmarked : q ≤ w.own b.unit d
    · rw [Phase.raise_of_le hmarked]
      refine (hr.progress.passed d hin hpass).imp_right ?_
      rintro ⟨r, hbefore, hle⟩
      exact ⟨r, List.mem_append_left _ hbefore, hle⟩
    · rw [Phase.raise_of_lt (Phase.lt_of_not_le hmarked)]
      exact Or.inr ⟨q, List.mem_append_right _ (List.mem_singleton_self q),
        Phase.le_refl q⟩

end Ready

end phase

-- ================================================= phases, as they are run

/-- A resolver is set up for what a blueprint tells. -/
structure Serves (b : Blueprint) (setup : Setup) : Prop where
  inference : setup.inference = b.inference
  hooks : setup.hooks = []
  defaults : setup.config.defaultImports = b.scope.defaults

/-- Only units and states matter to what a blueprint tells. -/
theorem Fits.of_eq (h : b.Fits owner p w) (hw' : w'.Deep)
    (hr : w'.registry = w.registry) (hs : w'.states = w.states) :
    b.Fits owner p w' := by
  have hstate : ∀ u d, w'.state u d = w.state u d := fun u d => by
    rw [World.state, hs, World.state]
  have hown : ∀ d, w'.own b.unit d = w.own b.unit d := fun d => by
    rw [World.own, hstate, World.own]
  have hslots : ∀ u d, w'.slots u d = w.slots u d := fun u d => by
    rw [World.slots, hstate, World.slots]
  have hbelow : w'.below b.unit owner = w.below b.unit owner := by
    rw [World.below, hstate, World.below]
  refine ⟨?_, hw', ?_, hbelow ▸ h.whole, hbelow ▸ h.level, fun d hin => ?_,
    fun d hin => ?_, fun d he hup hout => ?_⟩
  · refine h.governs.of_sameClause hw'.backed.grounded.coherent hr
      fun u d _ => ?_
    rw [hslots]
    exact ⟨rfl, rfl, rfl⟩
  · rw [hown]
    exact h.file
  · rw [hown, hslots]
    exact h.told d hin
  · rw [hown]
    exact h.bound d hin
  · rw [hslots]
    exact h.outside d he hup hout

/-- And to how far a request has come. -/
theorem Progress.of_eq {x : Phase} {before : List Phase}
    (h : b.Progress owner p goal x before w) (hs : w'.states = w.states) :
    b.Progress owner p goal x before w' := by
  have hown : ∀ d, w'.own b.unit d = w.own b.unit d := fun d => by
    rw [World.own, World.state, hs, World.own, World.state]
  refine ⟨fun d hin hd r hr hr' => ?_, fun d hin hd => ?_⟩
  · rw [hown]
    exact h.reached d hin hd r hr hr'
  · rw [hown]
    exact h.passed d hin hd

section phases

variable {x : Phase} {before : List Phase} {setup : Setup} {g : Guard}

/-- What a walk has come by is there. -/
theorem Walked.isSome {v : Visits} (h : b.Walked q goal v w w')
    (hu : b.unit.WellFormed)
    (hsmooth : ∀ k ∈ goal.plan b.unit, b.Smooth q k.decl)
    (hd : d ∈ v.headers ∨ d ∈ v.members) : (b.unit.decl? d).isSome := by
  have hplan : ∀ a ∈ goal.path, ∀ k ∈ Walk.headerWork b.unit a,
      (b.unit.decl? k.decl).isSome := fun a ha k hk =>
    (hsmooth k (List.mem_append_left _ (List.mem_flatMap.mpr ⟨a, ha, hk⟩))).there
  rw [h.headers, h.members] at hd
  rcases hd with hd | ⟨a, ha, hd⟩ | hd
  · exact hplan d hd (.header d) (List.mem_cons_self ..)
  · exact hplan a ha (.member d) (List.mem_cons_of_mem _ (List.mem_map_of_mem hd))
  · cases hd with
    | refl =>
        exact (hsmooth (.member goal.target) (List.mem_append_right _
          (List.mem_map_of_mem (hu.mem_subtree_iff.mpr (Or.inl rfl))))).there
    | tail _ hlast =>
        obtain ⟨y, hy⟩ := CompilationUnit.exists_decl?_of_isEligible hlast.eligible
        rw [hy]
        rfl

/-- A phase that all is ready for does its work. -/
theorem Ready.runPhases_run (hr : b.Ready owner p goal x before q w)
    (hs : b.Serves setup) (hrun : q.isExtension = false)
    (hg : g.lock = .ofUnit b.unit.id) :
    ∃ w', Action.runPhases setup goal g false [q] w = (.ok (), w') ∧
      b.Fits owner p w' ∧ b.Progress owner p goal x (before ++ [q]) w' := by
  obtain ⟨rule, hrule⟩ := Option.ne_none_iff_exists'.mp
    (Phase.rule?_ne_none (Nat.lt_trans (by decide) hr.after) hrun)
  have hdeep₀ := World.Deep.idle.session w .start hr.fits.deep
  let w₀ : World := { w with session := .start }
  have hr₀ : b.Ready owner p goal x before q w₀ :=
    { hr with
      fits := hr.fits.of_eq hdeep₀ rfl rfl
      progress := hr.progress.of_eq rfl }
  have hsmooth := hr.aim.smooth hr.ground hr.le
  obtain ⟨c, henter, hc, -⟩ := hr.fits.governs.enter hs.inference hs.hooks
    hs.defaults hg false
  obtain ⟨v, w₁, hwalk, hwalked⟩ := hr₀.fits.governs.run_walk hr.aim.fits
    hr.ground.bare hsmooth hc hrule hr.after
  have hu₁ := hwalked.done.governs.registered
  obtain ⟨w₂, hcommit, hrewrites⟩ := Visits.commit_run (v := v) (p := q) hg hu₁
    fun d hd => hwalked.isSome hr.fits.governs.wellFormed hsmooth hd
  have hcommitted : b.Committed q goal v w₀ w₁ w₂ := ⟨hwalked, hrewrites, hu₁⟩
  let w₃ : World := { w₂ with counters := w₂.counters.countCommit q }
  have hphase : runPhase setup goal g false q w = (.ok (), w₃) :=
    runPhase_run hrule (hr.aim.unit.symm ▸ henter) hwalk
      (hr.aim.unit.symm ▸ hcommit)
      (hcommitted.markerFault?_eq_none hr.aim.unit hr.fits.file)
  have hphases : runPhases setup goal g false [q] w = (.ok (), w₃) := by
    have hcheck : checkCancelled false q w = (.ok (), w) := rfl
    exact (bind_run_ok ((bind_run_ok hcheck _).trans hphase) _).trans rfl
  have hdeep₃ : w₃.Deep := ((World.Deep.tended.runPhases (t := w.thread)
    World.Deep.idle World.Deep.committed (Setup.quiet_of_hooks hs.hooks) (hr.aim.unit.symm ▸ hg)
    [q]).ok ⟨⟨hr.fits.deep, hr.aim.unit.symm ▸ hr.fits.governs.registered⟩,
      .refl _⟩ hphases).1.1
  have hdeep₂ : w₂.Deep :=
    World.Deep.idle.counters w₃ w₂.counters (Nat.le_refl _) hdeep₃
  exact ⟨w₃, hphases, (hr₀.fits_of_committed hcommitted hdeep₂).of_eq hdeep₃
    rfl rfl, (hr₀.progress_of_committed hcommitted hdeep₂).of_eq rfl⟩

/-- How far what belongs to a class has come when all the work up to a phase is
done on it. -/
def Complete (b : Blueprint) (owner : DeclId) (p : Phase) (goal : Designation)
    (w : World) : Prop :=
  ∀ d, b.unit.Inside p owner d →
    goal.Passes b.unit d ∨ b.unit.Inside p goal.target d →
    ∀ r ∈ Phase.works (b.unit.isLocal d) b.base p, r ≤ w.own b.unit d

/-- The phases that are left for a designation do all their work. The induction
is on the phases, from what those before have brought. -/
theorem Progress.runPhases_run {after : List Phase}
    (hsteps : (max x .lastFileWide).stepsTo p = before ++ after)
    (hprogress : b.Progress owner p goal x before w) (hw : b.Fits owner p w)
    (ho : b.Owner owner p) (ha : b.Concerns owner p goal) (hs : b.Serves setup)
    (hg : g.lock = .ofUnit b.unit.id) (hx : .supertypes ≤ x)
    (hbase : b.base ≤ x ∨ b.base ≤ .sealedInheritors) :
    ∃ w', Action.runPhases setup goal g false after w = (.ok (), w') ∧
      b.Fits owner p w' ∧
      b.Progress owner p goal x ((max x .lastFileWide).stepsTo p) w' := by
  induction after generalizing before w with
  | nil =>
      rw [List.append_nil] at hsteps
      exact ⟨w, rfl, hw, hsteps ▸ hprogress⟩
  | cons q after ih =>
      have hq : q ∈ (max x .lastFileWide).stepsTo p := by
        rw [hsteps]
        exact List.mem_append_right _ (List.mem_cons_self ..)
      obtain ⟨⟨hlt, hle⟩, hext⟩ := Phase.mem_stepsTo_iff.mp hq
      have hup := Phase.stepsTo_pairwise (max x .lastFileWide) p
      rw [hsteps] at hup
      have hxq := (Phase.max_lt_iff.mp hlt).1
      have hafter : .supertypes < q := Nat.lt_of_le_of_lt hx hxq
      have hfresh : b.base < q ∨ q = .sealedInheritors := by
        rcases hbase with hle | hle
        · exact Or.inl (Nat.lt_of_le_of_lt hle hxq)
        · refine Or.imp_left (Nat.lt_of_le_of_lt hle) ?_
          revert hafter
          cases q <;> decide
      have hr : b.Ready owner p goal x before q w :=
        { ground := ho
          aim := ha
          fits := hw
          progress := hprogress
          after := hafter
          le := hle
          earlier := fun isLocal r hr hrq => by
            obtain ⟨hlate, hrun, -⟩ := Phase.after_of_mem_works hr
            exact Phase.mem_or_le_of_stepsTo hsteps
              (Nat.lt_trans (by decide : Phase.lastFileWide < .supertypes) hlate)
              hrun hrq
          rises := fun r hr => (List.pairwise_append.mp hup).2.2 r hr q
            (List.mem_cons_self ..)
          fresh := hfresh }
      obtain ⟨w₁, hrun, hfits₁, hprogress₁⟩ := hr.runPhases_run hs hext hg
      have hsteps₁ : (max x .lastFileWide).stepsTo p = (before ++ [q]) ++ after := by
        rw [hsteps, List.append_assoc, List.singleton_append]
      obtain ⟨w', hrun', hdone⟩ := ih hsteps₁ hprogress₁ hfits₁
      exact ⟨w', (runPhases_append hrun).trans hrun', hdone⟩

/-- When they have, everything that the designation is about has come to the
phase. -/
theorem Progress.complete
    (h : b.Progress owner p goal x ((max x .lastFileWide).stepsTo p) w) :
    b.Complete owner p goal w := by
  intro d hin hd r hr
  refine h.reached d hin hd r hr (or_iff_not_imp_right.mpr fun hxr => ?_)
  obtain ⟨hlate, hrun, -⟩ := Phase.after_of_mem_works hr
  exact Phase.mem_stepsTo_iff.mpr ⟨⟨Phase.max_lt_iff.mpr ⟨Phase.lt_of_not_le hxr,
    Nat.lt_trans (by decide : Phase.lastFileWide < .supertypes) hlate⟩,
      (Phase.mem_works_iff.mp hr).2.1.2⟩, hrun⟩

end phases

end Blueprint

end StagedResolve
