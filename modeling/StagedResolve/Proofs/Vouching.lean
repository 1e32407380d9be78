/-
Vouching: what the marker of a whole answers for.

# One marker for many

A declaration is known to be resolved when the marker of it or of
anything around it as a whole says so, so one marker answers for all that
is below it. It may, if what it stands for is backed all the way down: a
declaration that is marked as a whole is marked itself, and so is, as a
whole, whatever it has inside (`World.BackedIn`). What is in executable
code is left out until the bodies are resolved, and so is what is inside
of a type parameter, which a walk that only passes its owner marks as a
whole without looking inside.

# Who marks wholes

Two parts of a request do. A walk that is committed marks what it came
by, and it came by all that is inside unless that is left out or marked
already. A session marks members of a class that it reached, with all
that is below them, one after the other and owners first, so only the
whole list is closed again (`CompilationUnit.closed_passedBy`).
Everything else that is written leaves the markers of wholes where they
are.
-/
import StagedResolve.Proofs.Inference

namespace StagedResolve

open StagedResolve.Action World

namespace World

variable {v w : World} {u : CompilationUnit}

-- ============================================================= the markers

/-- The markers of wholes in a unit are backed by what is inside. -/
structure BackedIn (w : World) (u : CompilationUnit) : Prop where
  own : ∀ d p, u.isEligible d = true → .supertypes ≤ p →
    p ≤ w.below u d → p ≤ w.own u d
  inside : ∀ d m p, u.parent? m = some d → u.kind? d ≠ some .typeParameter →
    u.isEligible d = true → u.isEligible m = true →
    (u.isLocal m = false ∨ p = .bodies) → .supertypes ≤ p →
    p ≤ w.below u d → p ≤ w.below u m
  file : ∀ p, u.isEligible .root = true → .supertypes ≤ p →
    ¬ p ≤ w.below u .root

/-- Raising own markers leaves it so. -/
theorem BackedIn.of_marks (hv : v.BackedIn u)
    (hown : ∀ d, v.own u d ≤ w.own u d)
    (hbelow : ∀ d, w.below u d = v.below u d) : w.BackedIn u := by
  constructor
  case own =>
    intro d p he hp hle
    rw [hbelow] at hle
    exact Phase.le_trans (hv.own d p he hp hle) (hown d)
  case inside =>
    intro d m p hm hk hd he hplace hp hle
    rw [hbelow] at hle ⊢
    exact hv.inside d m p hm hk hd he hplace hp hle
  case file =>
    intro p he hp
    rw [hbelow]
    exact hv.file p he hp

/-- Where nothing is marked there is nothing to back. -/
theorem BackedIn.of_raw
    (h : ∀ d, u.isEligible d = true → w.own u d = .raw ∧ w.below u d = .raw) :
    w.BackedIn u := by
  have hraw : ∀ p : Phase, .supertypes ≤ p → ¬ p ≤ .raw := by
    intro p
    cases p <;> decide
  constructor
  case own =>
    intro d p he hp hle
    rw [(h d he).2] at hle
    exact absurd hle (hraw p hp)
  case inside =>
    intro d m p _ _ hd _ _ hp hle
    rw [(h d hd).2] at hle
    exact absurd hle (hraw p hp)
  case file =>
    intro p he hp
    rw [(h .root he).2]
    exact hraw p hp

/-- Marking declarations as wholes leaves it so, if the file is not among
them and what is inside of them is marked too, as far as it counts. -/
theorem BackedIn.rewrites {visits : Visits} {phase : Phase}
    (hw : w.BackedIn u) (hu : w.Registered u)
    (h : Rewrites u (visits.committed phase) w v)
    (hroot : DeclId.root ∉ visits.members)
    (hclosed : ∀ d ∈ visits.members, u.kind? d ≠ some .typeParameter →
      ∀ m, u.parent? m = some d → u.isEligible m = true →
        (u.isLocal m = false ∨ phase = .bodies) →
        m ∈ visits.members ∨ phase ≤ w.below u m) : v.BackedIn u := by
  constructor
  case own =>
    intro d p he hp hle
    refine (h.le_own_iff hu).mpr ?_
    rcases (h.le_below_iff hu).mp hle with hle | ⟨hmem, hle⟩
    · exact Or.inl (hw.own d p he hp hle)
    · exact Or.inr ⟨Or.inr hmem, hle⟩
  case inside =>
    intro d m p hm hk hd he hplace hp hle
    refine (h.le_below_iff hu).mpr ?_
    rcases (h.le_below_iff hu).mp hle with hle | ⟨hmem, hle⟩
    · exact Or.inl (hw.inside d m p hm hk hd he hplace hp hle)
    · have hplace : u.isLocal m = false ∨ phase = .bodies :=
        hplace.imp_right fun hbodies : p = .bodies => Phase.position_inj
          (Nat.le_antisymm phase.le_bodies (hbodies ▸ hle))
      rcases hclosed d hmem hk m hm he hplace with hmem | hbelow
      · exact Or.inr ⟨hmem, hle⟩
      · exact Or.inl (Phase.le_trans hle hbelow)
  case file =>
    intro p he hp hle
    rcases (h.le_below_iff hu).mp hle with hle | ⟨hmem, -⟩
    · exact hw.file p he hp hle
    · exact hroot hmem

/-- A marker of a whole speaks for what is below it, type parameters and
executable code apart. -/
theorem BackedIn.inside_chain (hw : w.BackedIn u) (hwf : u.WellFormed)
    {a d : DeclId} {p : Phase}
    (heligible : ∀ e ∈ d :: u.ancestors d, u.isEligible e = true)
    (hplace : (∀ e ∈ d :: u.ancestors d, u.isLocal e = false) ∨ p = .bodies)
    (hparameter : ∀ e ∈ u.ancestors d, u.kind? e ≠ some .typeParameter)
    (hp : .supertypes ≤ p) (ha : p ≤ w.below u a) (had : a ∈ u.ancestors d) :
    p ≤ w.below u d :=
  hwf.descend (fun e he q hq hup hbelow => hw.inside q e p hup
    (hparameter q hq) (heligible q (List.mem_cons_of_mem _ hq))
    (heligible e he) (hplace.imp_left fun hlocal => hlocal e he) hp hbelow)
    ha had

/-- What the markers answer for a declaration, its own marker says, if
type parameters and executable code are out of the way. -/
theorem BackedIn.le_own (hw : w.BackedIn u) (hwf : u.WellFormed)
    {d : DeclId} {p : Phase} (hroot : d.isRoot = false)
    (heligible : ∀ e ∈ d :: u.ancestors d, u.isEligible e = true)
    (hplace : (∀ e ∈ d :: u.ancestors d, u.isLocal e = false) ∨ p = .bodies)
    (hparameter : ∀ e ∈ u.ancestors d, u.kind? e ≠ some .typeParameter)
    (hp : .supertypes ≤ p) (hrun : p.isExtension = false)
    (hle : p ≤ w.reached u d) : p ≤ w.own u d := by
  have hcore : p ≤ p.core := (Phase.le_core_iff hrun).mpr (Phase.le_refl p)
  have hfile : Phase.extensionAnnotations < p :=
    Nat.lt_of_lt_of_le (by decide : Phase.extensionAnnotations < .supertypes) hp
  rcases (le_reached_iff hroot hfile).mp hle with ⟨a, ha, hbelow⟩ | ⟨-, hown⟩
  · have hbelow := Phase.le_trans hcore hbelow
    refine hw.own d p (heligible d (List.mem_cons_self ..)) hp ?_
    rcases List.mem_cons.mp ha with rfl | ha
    · exact hbelow
    · exact hw.inside_chain hwf heligible hplace hparameter hp hbelow ha
  · exact Phase.le_trans hcore hown

-- ============================================================== the world

/-- The markers of wholes are backed in every unit. -/
structure Backed (w : World) : Prop where
  grounded : w.Grounded
  unit : ∀ u, w.Registered u → w.BackedIn u

namespace Backed

/-- Where no marker of a whole has moved. -/
theorem of_below (hv : v.Backed) (hw : w.Grounded)
    (hown : ∀ u d, v.Registered u → v.own u d ≤ w.own u d)
    (hbelow : ∀ u d, v.Registered u → w.below u d = v.below u d)
    (hfresh : ∀ u d, w.Registered u → ¬ v.Registered u →
      w.states.find? (u.symbol d) = none) : w.Backed := by
  refine ⟨hw, fun u hu => ?_⟩
  by_cases hreg : v.Registered u
  · exact (hv.unit u hreg).of_marks (fun d => hown u d hreg)
      fun d => hbelow u d hreg
  · exact .of_raw fun d he => raw_of_fresh (hfresh u d hu hreg) he

/-- The same where no clause has moved either. -/
theorem unmoved (hv : v.Backed) (h : v.Unmoved w) (hw : w.Coherent)
    (hbelow : ∀ u d, v.Registered u → w.below u d = v.below u d) : w.Backed :=
  hv.of_below (hv.grounded.unmoved h hw) h.later.own hbelow h.fresh

/-- A state is set that leaves the marker of the whole. -/
theorem setState {goal : Phase} {d : DeclId} {s : DeclState} (hw : w.Backed)
    (hu : w.Registered u) (hs : (w.state u d).Raised goal s)
    (hg : (w.setState u d s).Grounded) (hbelow : s.below = w.below u d) :
    (w.setState u d s).Backed := by
  refine hw.of_below hg (later_setState hu hs).own (fun v e hv => ?_)
    fun v e hv hnew => absurd hv hnew
  rw [below, state_setState hu hv]
  split
  · next h =>
    obtain ⟨rfl, rfl⟩ := h
    exact hbelow
  · rfl

/-- Steps that mark nothing leave it. -/
theorem idle : Idle Backed where
  coherent := fun _ hw => hw.grounded.coherent
  classifier := fun _ k hw =>
    have hc := hw.grounded.coherent
    hw.unmoved (unmoved_classifier hc k) (hc.classifier k) fun _ _ _ => rfl
  counters := fun _ c hc hw => hw.unmoved (unmoved_of_eq rfl rfl hc)
    ((Steady.coherent_self .bodies).counters _ c hc hw.grounded.coherent)
    fun _ _ _ => rfl
  touches := fun _ _ hv h => hv.unmoved h.unmoved
    (hv.grounded.coherent.touches h) h.below
  slots := fun w u d s hw hu hd hclause => hw.setState hu (.of_slots .raw _ s)
    (Grounded.structural.idle.slots w u d s hw.grounded hu hd hclause) rfl
  session := fun _ s hw => hw.unmoved (unmoved_of_eq rfl rfl (Nat.le_refl _))
    ((Steady.coherent_self .bodies).session _ s hw.grounded.coherent)
    fun _ _ _ => rfl
  thread := fun _ t hw => hw.unmoved (unmoved_of_eq rfl rfl (Nat.le_refl _))
    ((Steady.coherent_self .bodies).thread _ t hw.grounded.coherent)
    fun _ _ _ => rfl

/-- Marks that are backed in the one unit that they are set in. -/
theorem rewrites {visits : Visits} {phase : Phase} (hw : w.Backed)
    (hu : w.Registered u) (h : Rewrites u (visits.committed phase) w v)
    (hself : v.BackedIn u) : v.Backed := by
  refine ⟨hw.grounded.unmoved h.unmoved (h.coherent hw.grounded.coherent hu),
    fun c hc => ?_⟩
  by_cases hcu : c = u
  · exact hcu ▸ hself
  · have hreg := h.registered_iff.mp hc
    refine (hw.unit c hreg).of_marks (fun d => h.later.own c d hreg) fun d => ?_
    rw [below, below, h.state c d hreg, if_neg hcu]

/-- What a walk has visited may be marked: it came by all that is inside,
or left it out. -/
theorem commit {rule : PhaseRule} {c : Context} {D : DeclId → World → Prop}
    {goal : Designation} {visits : Visits} {phase : Phase} (hw : w.Backed)
    (hu : w.Registered c.unit) (hrule : phase.rule? = some rule)
    (hroute : Walk.Route rule c D goal .root visits w)
    (h : Rewrites c.unit (visits.committed phase) w v) : v.Backed := by
  have hwf := hw.grounded.coherent.wellFormed hu
  refine hw.rewrites hu h ((hw.unit _ hu).rewrites hu h (fun hmem => ?_)
    fun d hmem hk m hm he hplace => ?_)
  · obtain ⟨q, hq⟩ := hroute.parent_isSome (Or.inr hmem)
    exact Nat.not_lt_zero _ (hwf.earlier .root q hq)
  · obtain rfl := Phase.phase_of_rule? hrule
    refine (hroute.full d hmem hk m ((hwf.child_iff d m).mpr hm)).imp_right ?_
    rintro ⟨-, hleft | ⟨hlocal, hbodies⟩ | hleft⟩
    · exact absurd (hleft.symm.trans he) (by decide)
    · rcases hplace with hplace | hplace
      · exact absurd (hlocal.symm.trans hplace) (by decide)
      · exact absurd (hbodies.symm.trans ((Phase.inBodies_iff hrule).mpr
          hplace)) (by decide)
    · exact hleft

end Backed

end World

-- ====================================================== marked in passing

/-- What is inside of something that a session marks in passing is marked
with it. -/
theorem CompilationUnit.closed_passedBy {u : CompilationUnit}
    {owner d m : DeclId} (hu : u.WellFormed)
    (hd : d ∈ (u.passedBy owner).members) (hm : u.parent? m = some d)
    (he : u.isEligible m = true) (hl : u.isLocal m = false) :
    m ∈ (u.passedBy owner).members := by
  obtain ⟨⟨a, ha, hclass, hlocal, hsub⟩, -⟩ := mem_passedBy_iff.mp hd
  exact mem_passedBy_iff.mpr ⟨⟨a, ha, hclass, hlocal,
    hu.child_mem_subtree hsub ((hu.child_iff d m).mpr hm)⟩, hl, he⟩

namespace World.Backed

variable {v w : World} {u : CompilationUnit}

/-- What a session marks is backed when all of it is marked. -/
theorem members (g : Guard) (u : CompilationUnit) (owner : DeclId)
    (hg : g.lock = .ofUnit u.id) :
    Triple (fun w => w.Backed ∧ w.Registered u) (markMembers g u owner)
      (fun _ w => w.Backed ∧ w.Registered u) fun _ => False := by
  rintro w ⟨hw, hu⟩
  have hwf := hw.grounded.coherent.wellFormed hu
  obtain ⟨w', hrun, h⟩ := Visits.commit_run (v := u.passedBy owner)
    (p := .supertypes) hg hu fun d hd =>
      (CompilationUnit.passed_of_mem (hd.resolve_left List.not_mem_nil)).isSome
  rw [markMembers_eq, hrun]
  refine ⟨hw.rewrites hu h ((hw.unit u hu).rewrites hu h
    (fun hroot => (CompilationUnit.passed_of_mem hroot).ne_root hwf rfl) ?_),
    h.registered_iff.mpr hu⟩
  intro d hd _ m hm he hplace
  exact Or.inl (CompilationUnit.closed_passedBy hwf hd hm he
    (hplace.resolve_right (by decide)))

/-- It survives results being written back. -/
theorem tended : Tended Backed fun _ _ => True :=
  { idle with
    referring := fun _ hw => hw.grounded.referring
    fill := fun w u _ c r hw hu _ hx hk he _ hfits _ =>
      hw.setState hu (raised_filled w u c.decl r)
        (hw.grounded.filled hu hx hk he hfits) rfl
    members := members }

/-- It survives what is written to a file. -/
theorem keepsFile (u : CompilationUnit) :
    KeepsFile (fun w => w.Backed ∧ w.Registered u) u := by
  have hkeep := (Grounded.structural.and_lasting
    (lasting_registered u)).keepsFile (u := u) fun w hw => hw.2
  exact {
    imports := fun w table errors hw hd ht =>
      have hg := hkeep.imports w table errors ⟨hw.1.grounded, hw.2⟩ hd ht
      ⟨hw.1.setState hw.2 (.of_slots .raw _ _) hg.1 rfl, hg.2⟩
    raise := fun w p hw hd =>
      have hg := hkeep.raise w p ⟨hw.1.grounded, hw.2⟩ hd
      ⟨hw.1.setState hw.2 (.of_own _ (Phase.le_refl p)) hg.1 rfl, hg.2⟩ }

end World.Backed

-- ========================================================== whole requests

section requests

variable {I : World → Prop} {setup : Setup} {phase : Phase}
  {cancellable : Bool}

/-- A condition that commits of walks leave. -/
def Committed (I : World → Prop) : Prop :=
  ∀ p rule c goal visits w v, p.rule? = some rule → I w →
    w.Registered c.unit → Walk.Route rule c
      (Walk.SessionDone rule c.unit goal) goal .root visits w →
    Rewrites c.unit (visits.committed p) w v → I v

/-- A condition that is left by all that marks nothing, by sessions and by
commits of walks is left by phases for a designation. -/
theorem Tended.runPhases {t : Thread} {goal : Designation} {g : Guard}
    (hI : Tended I fun _ _ => True) (hidle : Idle I) (hcommit : Committed I)
    (hquiet : setup.Quiet) (hg : g.lock = .ofUnit goal.unit.id)
    (phases : List Phase) :
    Triple (fun w => (I w ∧ w.Registered goal.unit) ∧ t.Alike w.thread)
      (Action.runPhases setup goal g cancellable phases)
      (fun _ w => (I w ∧ w.Registered goal.unit) ∧ t.Alike w.thread)
      fun w => I w ∧ w.Registered goal.unit := by
  have hwrites := (hI.writesBack goal.unit.id t).and_lasting
    (lasting_registered goal.unit)
  refine AdvancesBy.keeps (runPhases_advances (S := Onward)
    (T := fun _ _ => True) (fun _ hw => hw.1) (fun _ => lasting_const True)
    fun p _ => ?_)
  refine hwrites.runPhase (hidle.and_registered goal.unit) (fun _ hw => hw.2)
    hg hquiet (lasting_const True) (fun _ _ _ => trivial) ?_
  rintro rule c visits w v hrule hunit ⟨hw, hu⟩ hroute - h
  have hreg := h.registered_iff.mpr hu
  rw [← hunit] at hu hroute h
  exact ⟨⟨hcommit p rule c goal visits w v hrule hw hu hroute h, hreg⟩,
    trivial⟩

/-- If it is left by what is written to files too, it is left by
requests. -/
theorem Tended.request {allowLocal : Bool} {s : Symbol}
    (hI : Tended I fun _ _ => True) (hidle : Idle I) (hcommit : Committed I)
    (hfile : ∀ u, KeepsFile (fun w => I w ∧ w.Registered u) u)
    (hquiet : setup.Quiet) :
    Triple I (Action.request setup allowLocal s phase cancellable)
      (fun _ => I) I := by
  refine hidle.request (fun _ hw => hw) fun u x goal _ _ hgoal => ?_
  obtain rfl := CompilationUnit.unit_of_designateWith hgoal
  have hregistered := hidle.and_registered goal.unit
  refine (hregistered.resolveDesignation (Q := fun w => I w ∧
    w.Registered goal.unit) (fun w hw _ => hregistered.counters w _
      (Nat.le_refl _) hw) (.pre ?_ fun _ hw => hw.1)).conseq
        (fun _ hw => hw) (fun _ _ hw => hw.1) fun _ hw => hw.1
  refine hregistered.resolveUnderLock hregistered.thread fun g hg w hw => ?_
  have halike := hregistered.alike w.thread
  refine ((halike.resolveLocked (fun _ hw => hw.1)
    (halike.fileWork fun _ hw => hw.1.2) ((hfile goal.unit).alike w.thread)
    fun _ _ => ?_).post fun _ _ hw => hw.1) w ⟨hw, .refl _⟩
  exact (hI.runPhases hidle hcommit hquiet hg _).pre fun _ hw => hw.1.1

end requests

-- =============================================================== histories

/-- The markers of wholes are backed in every world that is reached. -/
theorem Reaches.backed {setup : Setup} {allowed : World → Call → Prop}
    (hquiet : setup.Quiet) {w : World} (h : Reaches setup allowed w) :
    w.Backed := by
  have hI := World.Backed.idle
  refine (h.invariant (P := World.Backed) hquiet (fun r hr => ?_)
    (fun v w hc hv h => ?_) hI.thread
    (fun w allowLocal s phase cancellable _ hw _ => ?_)
    fun w id _ hw => (hI.resolveFile World.Backed.keepsFile).world hw).2
  · exact ⟨.start hr, fun u _ => .of_raw fun d he => raw_of_fresh rfl he⟩
  · refine hv.of_below (hv.grounded.reregisters h) (fun u d _ => ?_)
      (fun u d _ => ?_) fun u d hu hnew => h.fresh hc hu hnew d
    · rw [World.own, World.own, h.state_eq]
      exact Phase.le_refl _
    · rw [World.below, World.below, h.state_eq]
  · exact (World.Backed.tended.request hI (fun _ _ _ _ _ _ _ hrule hw hu =>
      hw.commit hu hrule) World.Backed.keepsFile hquiet).world hw

/-- What is known about a declaration is no more than its own marker says,
for every phase that runs on demand, whatever was registered, looked up and
asked for before: if the answer for a declaration that goes through the
phases, as does everything around it, is that it has reached a phase, then
so it has itself. Left out are declarations that are in executable code or
inside of something that is, unless the answer is the same for the bodies,
and declarations inside of type parameters. -/
theorem own_of_isAtLeast {setup : Setup} (hquiet : setup.Quiet) {w : World}
    (hw : Reaches setup anyCall w) {s : Symbol} {p : Phase}
    {u : CompilationUnit} {x : Declaration}
    (hs : w.registry.declaration s = .ok (u, x))
    (hroot : s.decl.isRoot = false)
    (heligible : ∀ a ∈ s.decl :: u.ancestors s.decl, u.isEligible a = true)
    (hplace : (∀ a ∈ s.decl :: u.ancestors s.decl, u.isLocal a = false) ∨
      w.isAtLeast s .bodies = true)
    (hparameter : ∀ a ∈ u.ancestors s.decl, u.kind? a ≠ some .typeParameter)
    (hp : p.isLazy = true) (hanswer : w.isAtLeast s p = true) :
    p ≤ w.own u s.decl := by
  have hbacked := hw.backed hquiet
  have hcoherent := hbacked.grounded.coherent
  obtain ⟨hunit, hx⟩ := Registry.declaration_eq_ok_iff.mp hs
  have hu := (hcoherent.registered hunit).1
  have hwf := hcoherent.wellFormed hu
  -- the declaration goes through the phases, so the markers answer
  have he := heligible s.decl (List.mem_cons_self ..)
  rw [CompilationUnit.isEligible, hx, Option.any_some] at he
  have hreached : ∀ q, w.isAtLeast s q = true → q ≤ w.reached u s.decl := by
    intro q hq
    simpa only [isAtLeast, hs, he, Bool.not_true, Bool.false_or,
      decide_eq_true_eq] using hq
  have hlazy : .supertypes ≤ p ∧ p.isExtension = false := by
    revert hp
    cases p <;> decide
  rcases hplace with hlocal | hbodies
  · exact (hbacked.unit u hu).le_own hwf hroot heligible (Or.inl hlocal)
      hparameter hlazy.1 hlazy.2 (hreached p hanswer)
  · exact Phase.le_trans p.le_bodies <| (hbacked.unit u hu).le_own hwf hroot
      heligible (Or.inr rfl) hparameter (by decide) rfl (hreached _ hbodies)

/-- The function in a class, once the class was asked for. -/
theorem own_of_isAtLeast_plainClass :
    let w := World.after (.plain .default) [.addUnit .plainClass,
      .resolve false ⟨⟨0⟩, ⟨1⟩⟩ .types false]
    ∃ u ∈ w.registry.unit? ⟨0⟩, w.isAtLeast ⟨⟨0⟩, ⟨2⟩⟩ .types = true ∧
      .types ≤ w.own u ⟨2⟩ := by
  intro w
  have hquiet := Setup.quiet_plain .default
  have hanswer : w.isAtLeast ⟨⟨0⟩, ⟨2⟩⟩ .types = true := by decide +kernel
  obtain ⟨u, hu, x, hx, heligible, hlocal, hparameter⟩ :
      ∃ u ∈ w.registry.unit? ⟨0⟩, ∃ x ∈ u.decl? ⟨2⟩,
        (∀ a ∈ ⟨2⟩ :: u.ancestors ⟨2⟩, u.isEligible a = true) ∧
        (∀ a ∈ ⟨2⟩ :: u.ancestors ⟨2⟩, u.isLocal a = false) ∧
        ∀ a ∈ u.ancestors ⟨2⟩, u.kind? a ≠ some .typeParameter := by
    decide +kernel
  exact ⟨u, hu, hanswer, own_of_isAtLeast (s := ⟨⟨0⟩, ⟨2⟩⟩) hquiet
    (Reaches.after (.plain .default) [.addUnit .plainClass,
      .resolve false ⟨⟨0⟩, ⟨1⟩⟩ .types false])
    (Registry.declaration_eq_ok_iff.mpr ⟨hu, hx⟩) rfl heligible
    (Or.inl hlocal) hparameter rfl hanswer⟩

/-- A function with a local variable. -/
def UnitSpec.localVariable : UnitSpec :=
  .ofEntries "a.kt" [.member 0 (.functionNamed "f" none),
    ⟨⟨1⟩, true, .ofForm .localVariable "x"⟩]

/-- The markers answer for declarations that nothing was done for: for a
local variable when its function was asked for, and for the member of a
type parameter when its class was passed on the way to another member. -/
theorem not_own_of_isAtLeast :
    let inBody := World.after (.plain .default) [.addUnit .localVariable,
      .resolve false ⟨⟨0⟩, ⟨1⟩⟩ .types false]
    let inParameter := World.after (.plain .default)
      [.addUnit .functionInParameter, .resolve false ⟨⟨0⟩, ⟨4⟩⟩ .types false]
    (∃ u ∈ inBody.registry.unit? ⟨0⟩,
      (∀ a ∈ ⟨2⟩ :: u.ancestors ⟨2⟩, u.isEligible a = true) ∧
      inBody.isAtLeast ⟨⟨0⟩, ⟨2⟩⟩ .types = true ∧
      inBody.own u ⟨2⟩ = .raw) ∧
    ∃ u ∈ inParameter.registry.unit? ⟨0⟩,
      (∀ a ∈ ⟨3⟩ :: u.ancestors ⟨3⟩, u.isEligible a = true) ∧
      u.isLocal ⟨3⟩ = false ∧ inParameter.isAtLeast ⟨⟨0⟩, ⟨3⟩⟩ .types = true ∧
      inParameter.own u ⟨3⟩ = .raw := by
  decide +kernel

end StagedResolve
