/-
Histories: what a caller can do, and what every reachable world is like.

# Calls

A history begins with a fresh registry and goes on call by call: units
are registered, replaced or announced, classifiers are looked up, and
phases are asked for. Between calls other threads take and drop locks
and cancel or reset the token (`Call`). A call may fail; a history goes
on from the world that it left. Which calls a history may make is a
parameter (`Reaches`): most results are about all histories, some about
those whose callers keep to a rule.

# Whole requests

A condition that survives a phase for a designation, and the little that
is done around it, survives a request (`Static.request`). For a condition
that raising markers does not break, this is all there is to show
(`Steady.request`); so in every reachable world the registry is coherent
and markers only ever rise.
-/
import StagedResolve.Proofs.Catalogs
import StagedResolve.Proofs.Designations
import StagedResolve.Proofs.Findings
import StagedResolve.Proofs.PhaseSteps
import StagedResolve.Proofs.Waiting
import StagedResolve.Workspace

namespace StagedResolve

open StagedResolve.Action World

-- ============================================================ one request

namespace Action

/-- Taking the lock for a request changes the thread and nothing else. -/
theorem lockForRequest_triple {I : World → Prop}
    (hI : ∀ w t, I w → I { w with thread := t }) (id : UnitId) (phase : Phase)
    (cancellable : Bool) :
    Triple I (lockForRequest id phase cancellable)
      (fun g w => I w ∧ g.lock = .ofUnit id) I := by
  refine .read_then fun mayWait => ?_
  split
  · split
    · intro w hw
      unfold lockUnitCancellable
      rcases hr : w.thread.lockCancellable (.ofUnit id) phase with ⟨e | g, t⟩
      · exact hI w t hw
      · refine ⟨hI w t hw, Thread.lock_lockCancellable (t := w.thread) (p := phase) ?_⟩
        rw [hr]
    · exact fun w hw => ⟨hI w _ hw, w.thread.lock_lock _⟩
  · refine .read_then fun held => ?_
    refine .bind (Q := fun found w => I w ∧ ∀ g, found = some g →
      g.lock = .ofUnit id) (fun w hw => ?_) fun found => ?_
    · exact ⟨hI w _ hw, fun g hg => Thread.lock_lockOrdered hg⟩
    · cases found with
      | some g => exact .pure fun w hw => ⟨hw.1, hw.2 g rfl⟩
      | none => exact .stop fun w hw => hw.1

end Action

namespace Action

/-- What is done under the lock of the unit of a designation. -/
theorem resolveUnderLock_triple {setup : Setup} {goal : Designation}
    {phase : Phase} {cancellable : Bool} {P Q E : World → Prop}
    (hP : ∀ w t, P w → P { w with thread := t })
    (hQ : ∀ w t, Q w → Q { w with thread := t })
    (hE : ∀ w t, E w → E { w with thread := t }) (hPE : ∀ w, P w → E w)
    (h : ∀ g, g.lock = .ofUnit goal.unit.id →
      Triple P (resolveLocked setup goal phase cancellable g)
        (fun _ => Q) E) :
    Triple P (resolveUnderLock setup goal phase cancellable)
      (fun _ => Q) E := by
  refine .bind ((lockForRequest_triple hP _ _ _).conseq (fun _ hw => hw)
    (fun _ _ hw => hw) hPE) fun g => ?_
  exact .assume fun hg => (h g hg).holding (fun _ w hw => hQ w _ hw)
    fun w hw => hE w _ hw

/-- What is done once the unit of a designation is locked: its imports,
and then what there is to do for a file, or the missing phases of
anything else. -/
theorem resolveLocked_triple {setup : Setup} {goal : Designation}
    {phase : Phase} {cancellable : Bool} {g : Guard}
    {P J Q E : World → Prop}
    (himports : Triple P (resolveImports g goal.unit) (fun _ => J) E)
    (hJE : ∀ w, J w → E w)
    (hannotations : goal.isFile = true →
      Triple J (resolveFileAnnotations setup goal.unit g phase)
        (fun _ => Q) E)
    (hannotated : goal.isFile = true → ∀ w, J w →
      phase ≤ .imports ∨ phase ≤ w.own goal.unit .root → Q w)
    (hanswered : goal.isFile = false → ∀ w, J w → phase ≤ w.current goal →
      Q { w with counters := w.counters.countAlreadyResolved })
    (hphases : goal.isFile = false → ∀ current, Triple
      (fun w => J w ∧ ¬ phase ≤ w.current goal ∧ w.current goal = current)
      (runPhases setup goal g cancellable
        ((max current .lastFileWide).stepsTo phase)) (fun _ => Q) E) :
    Triple P (resolveLocked setup goal phase cancellable g)
      (fun _ => Q) E := by
  refine .bind himports fun _ => ?_
  split
  · next hfile =>
    refine .read_bind fun reached => ?_
    split
    · exact .bind (.checkCancelled fun w hw => hJE w hw.1) fun _ =>
        (hannotations hfile).pre fun w hw => hw.1
    · next hskip =>
      refine .pure fun w hw => hannotated hfile w hw.1 ?_
      rw [hw.2]
      by_cases hle : phase ≤ .imports
      · exact Or.inl hle
      · refine Or.inr (Phase.le_of_not_lt fun hlt => hskip ?_)
        have hwide : Phase.lastFileWide < phase := Phase.lt_of_not_le hle
        simp [hwide, hlt]
  · next hfile =>
    have hfile := Bool.eq_false_iff.mpr hfile
    refine .read_bind fun current => ?_
    split
    · next hle =>
      refine .update fun w hw => hanswered hfile w hw.1 ?_
      rw [hw.2]
      exact hle
    · next hle =>
      refine (hphases hfile current).pre fun w hw => ⟨hw.1, ?_, hw.2⟩
      rw [hw.2]
      exact hle

end Action

section requests

variable {I : World → Prop} {setup : Setup} {goal : Designation}
  {phase : Phase} {cancellable : Bool}

/-- A condition together with the registration of a unit. -/
theorem Detached.and_registered (hI : Detached I) (u : CompilationUnit) :
    Detached fun w => I w ∧ w.Registered u :=
  hI.and_lasting (lasting_registered u)

/-- The same of an idle condition. -/
theorem Idle.and_registered (hI : Idle I) (u : CompilationUnit) :
    Idle fun w => I w ∧ w.Registered u :=
  hI.and_lasting (lasting_registered u)

/-- What is done under the lock of the unit. -/
theorem Detached.resolveUnderLock {Q : World → Prop} (hI : Detached I)
    (hQ : ∀ w t, Q w → Q { w with thread := t })
    (h : ∀ g, g.lock = .ofUnit goal.unit.id →
      Triple I (resolveLocked setup goal phase cancellable g)
        (fun _ => Q) I) :
    Triple I (Action.resolveUnderLock setup goal phase cancellable)
      (fun _ => Q) I :=
  resolveUnderLock_triple hI.thread hQ hI.thread (fun _ => id) h

/-- Counting a cancellation, if there was one. -/
theorem Action.Triple.countingCancellation {P Q E : World → Prop}
    {x : Action Unit} (h : Triple P x (fun _ => Q) E)
    (hE : ∀ w, E w → E { w with counters := w.counters.countCancellation }) :
    Triple P (Action.countingCancellation x) (fun _ => Q) E := by
  intro w hw
  have hrun := h w hw
  have hattempt : attempt x w = (.ok (x w).1, (x w).2) := rfl
  unfold Action.countingCancellation
  rw [bind_run_ok hattempt]
  rcases hr : x w with ⟨e | a, w'⟩
  · rw [hr] at hrun
    cases hf : e.isCancelled with
    | true =>
        simp only [hf, if_true]
        exact hE w' hrun
    | false =>
        simp only [hf, Bool.false_eq_true, if_false]
        exact hrun
  · rw [hr] at hrun
    exact hrun

/-- Counting a cancellation leaves a condition that counting leaves. -/
theorem Static.countingCancellation {P Q : World → Prop} {x : Action Unit}
    (hI : Static I) (h : Triple P x (fun _ => Q) I) :
    Triple P (Action.countingCancellation x) (fun _ => Q) I :=
  h.countingCancellation fun w hw => hI.counters w _ (Nat.le_refl _) hw

/-- A request that the markers do not answer is taken up under the lock. -/
theorem Static.resolveDesignation {P Q : World → Prop} (hI : Static I)
    (hearly : ∀ w, P w → phase ≤ w.current goal →
      Q { w with counters := w.counters.countAlreadyResolved })
    (h : Triple (fun w => P w ∧ ¬ phase ≤ w.current goal)
      (Action.resolveUnderLock setup goal phase cancellable)
      (fun _ => Q) I) :
    Triple P (Action.resolveDesignation setup goal phase cancellable)
      (fun _ => Q) I := by
  refine .read_bind fun current => ?_
  split
  · next hle =>
    refine .update fun w hw => hearly w hw.1 ?_
    rw [hw.2]
    exact hle
  · next hle =>
    refine (hI.countingCancellation h).pre fun w hw => ⟨hw.1, ?_⟩
    rw [hw.2]
    exact hle

/-- A request leaves what bringing a designation to its phase leaves. -/
theorem Static.request {P : World → Prop} {allowLocal : Bool} {s : Symbol}
    (hP : Static P) (hPI : ∀ w, P w → I w)
    (h : ∀ u x goal, u.decl? s.decl = some x → x.isEligible = true →
      u.designateWith allowLocal s.decl = .ok goal →
      Triple (fun w => P w ∧ w.Registered u)
        (Action.resolveDesignation setup goal phase cancellable)
        (fun _ => I) I) :
    Triple P (Action.request setup allowLocal s phase cancellable)
      (fun _ => I) I := by
  have hcount : ∀ n : Counters, n.deferred ≤ n.countRequest.deferred :=
    fun _ => Nat.le_refl _
  refine .bind ((hP.count hcount).conseq (fun _ hw => hw) (fun _ _ hw => hw)
    hPI) fun _ => ?_
  split
  · exact .pure hPI
  · refine .bind (Q := fun r w => P w ∧ (w.Registered r.1 ∧
      r.1.decl? s.decl = some r.2)) (fun w hw => ?_) fun r => ?_
    · unfold Action.declaration
      rcases hr : w.registry.declaration s with e | ⟨u, x⟩
      · exact hPI w hw
      · obtain ⟨hu, hx⟩ := Registry.declaration_eq_ok_iff.mp hr
        exact ⟨hw, ((hP.coherent w hw).registered hu).1, hx⟩
    · obtain ⟨u, x⟩ := r
      dsimp only
      split
      · exact .pure fun w hw => hPI w hw.1
      · next helig =>
        have hkeep : Triple (fun w => (P w ∧ w.Registered u) ∧
            u.decl? s.decl = some x) (do
              let goal ← ofExcept (u.designateWith allowLocal s.decl)
              Action.resolveDesignation setup goal phase cancellable)
            (fun _ => I) I := by
          refine .assume fun hx => ?_
          rcases hgoal : u.designateWith allowLocal s.decl with e | goal
          · exact .bind (Q := fun _ _ => False)
              (.stop fun w hw => hPI w hw.1) fun _ _ hw => hw.elim
          · refine .bind (Q := fun a w => (P w ∧ w.Registered u) ∧ a = goal)
              (.pure fun w hw => ⟨hw, rfl⟩) fun a => .assume ?_
            rintro rfl
            exact h u x a hx (by simpa using helig) hgoal
        exact hkeep.pre fun w hw => ⟨⟨hw.1, hw.2.1⟩, hw.2.2⟩

end requests

-- ================================================================== files

/-- A condition that survives the file itself being marked. -/
structure RaisesFile (I : World → Prop) (u : CompilationUnit) : Prop where
  raise : ∀ w p, I w → (u.decl? .root).isSome →
    I (w.setState u .root { w.state u .root with
      own := (w.own u .root).raise p })

/-- A condition that survives what is written to the file itself, that is
its import table and how far its own marker is. -/
structure KeepsFile (I : World → Prop) (u : CompilationUnit) : Prop
    extends RaisesFile I u where
  imports : ∀ w (table : ImportTable) errors, I w →
    (u.decl? .root).isSome → table.Genuine w →
    I (w.setState u .root { w.state u .root with
      slots := { w.slots u .root with imports := some table }.report
        .imports errors })

/-- Conditions on markers are such. -/
theorem KeepsFile.of_raised {I : World → Prop} {u : CompilationUnit}
    (h : ∀ w s, I w → (u.decl? .root).isSome →
      (w.state u .root).Raised .bodies s → s.below = w.below u .root →
      I (w.setState u .root s)) : KeepsFile I u where
  imports := fun w table errors hw hd _ => h w _ hw hd (.of_slots _ _ _) rfl
  raise := fun w p hw hd =>
    h w _ hw hd (.of_own _ (by cases p <;> decide)) rfl

/-- Marking the file itself. -/
theorem RaisesFile.raiseFile {I : World → Prop} {u : CompilationUnit}
    {g : Guard} {phase : Phase} (hfile : RaisesFile I u) :
    Triple I (Action.raiseOwn g u .root phase)
      (fun _ w => I w ∧ phase ≤ w.own u .root) I := by
  refine writeState_triple (fun _ hw => hw) fun w hw hd => ⟨hfile.raise w _ hw hd, ?_⟩
  rw [World.own, state_setState_self]
  exact Phase.goal_le_raise _ _

/-- Writing leaves the thread alone. -/
theorem KeepsFile.alike {I : World → Prop} {u : CompilationUnit}
    (h : KeepsFile I u) (t : Thread) :
    KeepsFile (fun w => I w ∧ t.Alike w.thread) u where
  imports := fun w table errors hw hd ht =>
    ⟨h.imports w table errors hw.1 hd ht, hw.2⟩
  raise := fun w p hw hd => ⟨h.raise w p hw.1 hd, hw.2⟩

/-- What lasts may be added. -/
theorem KeepsFile.and_lasting {I Q : World → Prop} {u : CompilationUnit}
    (h : KeepsFile I u) (hu : ∀ w, I w → w.Registered u) (hQ : Lasting Q) :
    KeepsFile (fun w => I w ∧ Q w) u where
  imports := fun w table errors hw hd ht =>
    ⟨h.imports w table errors hw.1 hd ht,
      hQ w _ (later_setState (hu w hw.1) (.of_slots .raw _ _)) hw.2⟩
  raise := fun w p hw hd =>
    ⟨h.raise w p hw.1 hd,
      hQ w _ (later_setState (hu w hw.1) (.of_own _ (Phase.le_refl p))) hw.2⟩

/-- Resolving the imports of a file writes to the file, and marks it. -/
theorem Static.resolveImports {I : World → Prop} {g : Guard}
    {u : CompilationUnit} (hI : Static I) (hfile : KeepsFile I u) :
    Triple I (Action.resolveImports g u)
      (fun _ w => I w ∧ .imports ≤ w.own u .root) I := by
  refine .read_bind fun own => ?_
  split
  · next hle =>
    exact .pure fun w hw => ⟨hw.1, by rw [hw.2]; exact hle⟩
  · refine .bind ((importTable_advances hI u).triple.pre fun w hw => hw.1)
      fun r => ?_
    refine .bind (writeState_triple (Q := I) (fun w hw => hw.1) fun w hw hd =>
      hfile.imports w r.1 r.2 hw.1 hd (hw.2.genuine (hI.coherent w hw.1)))
      fun _ => ?_
    exact .bind hfile.raiseFile fun _ => .pure fun _ hw => hw

/-- A condition that survives the annotations of a file being resolved. -/
def AnnotatesFile (I : World → Prop) (u : CompilationUnit) : Prop :=
  ∀ c : Context, c.unit = u → ∀ phase,
    Triple I (c.resolveAnnotations .root phase) (fun _ => I) I

section files

variable {I : World → Prop} {setup : Setup} {goal : Designation}
  {phase : Phase} {cancellable : Bool}

/-- Resolving the annotations of a file writes to the file, and marks
it. -/
theorem Static.resolveFileAnnotations {g : Guard} {u : CompilationUnit}
    (hI : Static I) (hwork : AnnotatesFile I u) (hfile : RaisesFile I u) :
    Triple I (Action.resolveFileAnnotations setup u g phase)
      (fun _ w => I w ∧ phase ≤ w.own u .root) I := by
  refine .read_bind fun own => ?_
  split
  · next hle =>
    exact .pure fun w hw => ⟨hw.1, by rw [hw.2]; exact hle⟩
  · refine .bind ((hI.enter setup u g false).pre fun w hw => hw.1)
      fun c => .assume ?_
    rintro ⟨-, hunit, -, -⟩
    exact .bind (hwork c hunit phase) fun _ => hfile.raiseFile

/-- What is done for a file or, phase by phase, for a designation. -/
theorem Static.resolveLocked {E : World → Prop} {g : Guard} (hI : Static I)
    (hIE : ∀ w, I w → E w) (hwork : AnnotatesFile I goal.unit)
    (hfile : KeepsFile I goal.unit)
    (hphases : goal.isFile = false → ∀ current, Triple
      (fun w => (I w ∧ .imports ≤ w.own goal.unit .root) ∧
        ¬ phase ≤ w.current goal ∧ w.current goal = current)
      (runPhases setup goal g cancellable
        ((max current .lastFileWide).stepsTo phase)) (fun _ => I) E) :
    Triple I (Action.resolveLocked setup goal phase cancellable g)
      (fun _ => I) E := by
  refine resolveLocked_triple ((hI.resolveImports hfile).conseq
    (fun _ hw => hw) (fun _ _ hw => hw) hIE) (fun w hw => hIE w hw.1)
    (fun _ => ?_) (fun _ w hw _ => hw.1) (fun _ w hw _ => ?_) hphases
  · exact (hI.resolveFileAnnotations hwork hfile.toRaisesFile).conseq
      (fun w hw => hw.1) (fun _ w hw => hw.1) hIE
  · exact hI.counters w _ (Nat.le_refl _) hw.1

/-- A calm condition survives whatever is written to a file in its
phases. -/
theorem Calm.fileWork {u : CompilationUnit} (hI : Calm I)
    (hu : ∀ w, I w → w.Registered u) : AnnotatesFile I u :=
  fun _ hc phase =>
    ((hI.work fun w hw => hc ▸ hu w hw).resolveAnnotations trivial phase).triple

end files

/-- What is done for a file as such. -/
theorem Detached.resolveFile {I : World → Prop} {setup : Setup} {id : UnitId}
    (hI : Detached I)
    (hwork : ∀ u, AnnotatesFile (fun w => I w ∧ w.Registered u) u)
    (hfile : ∀ u, KeepsFile (fun w => I w ∧ w.Registered u) u) :
    Triple I (Action.resolveFile setup id) (fun _ => I) I := by
  refine .read_bind fun found => ?_
  cases found with
  | none => exact .stop fun w hw => hw.1
  | some u =>
      have hI' := hI.and_registered u
      have hbody : ∀ g, Triple (fun w => I w ∧ w.Registered u) (do
          let _ ← Action.resolveImports g u
          Action.resolveFileAnnotations setup u g .bodies)
          (fun _ w => I w ∧ w.Registered u) fun w => I w ∧ w.Registered u :=
        fun g => .bind (hI'.resolveImports (hfile u)) fun _ =>
          (hI'.resolveFileAnnotations (hwork u) (hfile u).toRaisesFile).conseq
            (fun w hw => hw.1) (fun _ w hw => hw.1) fun w hw => hw
      refine .bind (Q := fun _ w => I w ∧ w.Registered u) (fun w hw => ?_)
        fun g => ?_
      · exact ⟨hI.thread w _ hw.1, ((hI.coherent w hw.1).registered hw.2).1⟩
      · exact (hbody g).holding (fun _ w hw => hI.thread w _ hw.1)
          fun w hw => hI.thread w _ hw.1

/-- The same for a condition that whatever is written to a file leaves. -/
theorem Idle.resolveFile {I : World → Prop} {setup : Setup} {id : UnitId}
    (hI : Idle I)
    (hfile : ∀ u, KeepsFile (fun w => I w ∧ w.Registered u) u) :
    Triple I (Action.resolveFile setup id) (fun _ => I) I :=
  hI.toDetached.resolveFile
    (fun u => (hI.and_registered u).fileWork fun _ hw => hw.2) hfile

/-- What is kept by every phase for a designation, and by what is done for
files, is kept by requests. -/
theorem Detached.request_of_phases {I : World → Prop} {setup : Setup}
    {allowLocal : Bool} {s : Symbol} {phase : Phase} {cancellable : Bool}
    (hI : Detached I)
    (hwork : ∀ u, AnnotatesFile (fun w => I w ∧ w.Registered u) u)
    (hfile : ∀ u, KeepsFile (fun w => I w ∧ w.Registered u) u)
    (hphase : ∀ goal g p, g.lock = .ofUnit goal.unit.id →
      Triple (fun w => I w ∧ w.Registered goal.unit)
        (Action.runPhase setup goal g cancellable p)
        (fun _ w => I w ∧ w.Registered goal.unit)
        fun w => I w ∧ w.Registered goal.unit) :
    Triple I (Action.request setup allowLocal s phase cancellable)
      (fun _ => I) I := by
  refine hI.request (fun _ hw => hw) fun u x goal _ _ hgoal => ?_
  obtain rfl := CompilationUnit.unit_of_designateWith hgoal
  have hJ := hI.and_registered goal.unit
  refine (hJ.resolveDesignation (Q := fun w => I w ∧ w.Registered goal.unit)
    (fun w hw _ => hJ.counters w _ (Nat.le_refl _) hw)
    (.pre ?_ fun _ hw => hw.1)).conseq
      (fun _ hw => hw) (fun _ _ hw => hw.1) fun _ hw => hw.1
  refine hJ.resolveUnderLock hJ.thread fun g hg => ?_
  refine hJ.resolveLocked (fun _ hw => hw) (hwork goal.unit) (hfile goal.unit)
    fun _ current => ?_
  exact (Triple.each fun p _ => .bind (.checkCancelled fun _ hw => hw)
    fun _ => hphase goal g p hg).pre fun _ hw => hw.1.1

-- ========================================================= steady requests

namespace Steady

variable {I : World → Prop} {setup : Setup}

/-- The work of a walk raises no marker but through sessions. -/
theorem walk {goal : Phase} {phase : Phase} {rule : PhaseRule} {c : Context}
    (hI : Steady goal I)
    (hgoal : phase = .supertypes ∨ phase = .bodies → .supertypes ≤ goal)
    (hu : ∀ w, I w → w.Registered c.unit) (hquiet : c.setup.Quiet)
    (hrule : phase.rule? = some rule) : Walk.Keeps (.solo I I) rule c
      fun _ => True := by
  refine .of_rule hrule (hI.idle.work hu).tasks (fun v w d h => by rw [h.1])
    (fun v w d h => by rw [h.1])
    (fun q d _ => .of_triple (hI.idle.runHooks hu hquiet)) fun d hd => ?_
  unfold PhaseRule.classSupertypes
  split
  · exact .of_triple (hI.resolveSupertypes (hgoal (hd.imp_right And.left)) hu _)
  · exact .pure

/-- The work of a walk establishes nothing in particular. -/
theorem establishes {goal : Phase} {phase : Phase} {rule : PhaseRule}
    {c : Context} {target : Designation} (hI : Steady goal I) (hgoal : .supertypes ≤ goal)
    (hu : ∀ w, I w → w.Registered c.unit) (hwf : c.unit.WellFormed)
    (hquiet : c.setup.Quiet) (hrule : phase.rule? = some rule) :
    Walk.Establishes rule c target I I fun _ _ => True := by
  have hkeeps : ∀ {J : World → Prop}, Steady goal J →
      (∀ w, J w → w.Registered c.unit) →
      Walk.Keeps (.solo J J) rule c fun _ => True := fun hJ hu =>
    hJ.walk (fun _ => hgoal) hu hquiet hrule
  have hadv : ∀ {x : Action Unit}, (∀ {J : World → Prop}, Steady goal J →
      (∀ w, J w → w.Registered c.unit) → Action.Keeps (.solo J J) x) →
      Advances I x (fun _ _ => True) I := by
    intro x hx R hR
    have h := (hx (hI.and_lasting hR) fun w hw => hu w hw.1).triple
    exact h.conseq (fun _ hw => hw) (fun _ _ hw => ⟨hw, trivial⟩)
      fun w hw => hw.1
  exact {
    registered := hu
    wellFormed := hwf
    stop := fun _ hw => hw
    lasting := fun _ => lasting_const True
    header := fun d _ => hadv fun hJ hu' =>
      .bind ((hkeeps hJ hu').header d trivial) fun _ =>
        (hkeeps hJ hu').hooks d trivial
    member := fun d => hadv fun hJ hu' => (hkeeps hJ hu').workOn trivial
    marked := fun _ _ _ _ => trivial }

/-- Committing a walk. -/
theorem commit {limit : Phase} (hI : Steady limit I) {v : Visits} {g : Guard}
    {u : CompilationUnit} {p : Phase} (hp : p ≤ limit)
    (hu : ∀ w, I w → w.Registered u) :
    Triple I (v.commit g u p) (fun _ => I) I := by
  refine .bind (.each fun d _ => hI.raiseOwn hu hp) fun _ => ?_
  exact .each fun d _ => .bind (hI.raiseOwn hu hp) fun _ => hI.raiseBelow hu hp

/-- One phase for a designation. -/
theorem runPhase {limit : Phase} {goal : Designation} {g : Guard}
    {cancellable : Bool} {phase : Phase} (hI : Steady limit I)
    (hp : phase ≤ limit) (hquiet : setup.Quiet)
    (hu : ∀ w, I w → w.Registered goal.unit) :
    Advances I (Action.runPhase setup goal g cancellable phase)
      (fun _ _ => True) I := by
  intro R hR w hw
  have hwf := (hI.coherent w hw.1).wellFormed (hu w hw.1)
  refine runPhase_advances (K := I) (D := fun _ _ => True) hI.idle.toStatic
    (fun _ hw => hw) (lasting_const True) (fun _ _ _ => trivial)
    (fun w hw => hI.session w _ hw) ?_ ?_ R hR w hw
  · rintro rule c hrule rfl hunit -
    have hlimit := Phase.le_trans (Phase.supertypes_le_of_rule? hrule) hp
    exact hI.establishes hlimit (fun w hw => hunit ▸ hu w hw)
      (hunit ▸ hwf) hquiet hrule
  · intro rule c v R _ _ hR
    have hJ := hI.and_lasting hR
    exact (hJ.commit hp fun w hw => hu w hw.1).conseq (fun _ hw => hw.1)
      (fun _ _ hw => ⟨hw.1, hw.2, trivial⟩) fun _ hw => hw.1

/-- Phases for a designation. -/
theorem runPhases {limit : Phase} {goal : Designation} {g : Guard}
    {cancellable : Bool} {phases : List Phase} (hI : Steady limit I)
    (hphases : ∀ p ∈ phases, p ≤ limit) (hquiet : setup.Quiet)
    (hu : ∀ w, I w → w.Registered goal.unit) :
    Triple I (Action.runPhases setup goal g cancellable phases) (fun _ => I) I :=
  AdvancesBy.keeps (runPhases_advances (S := Onward)
    (T := fun _ _ => True) (fun _ hw => hw)
    (fun _ => lasting_const True) fun p hp =>
      hI.runPhase (hphases p hp) hquiet hu)

/-- A request. -/
theorem request {allowLocal : Bool} {s : Symbol} {phase : Phase}
    {cancellable : Bool} (hI : Steady .bodies I) (hquiet : setup.Quiet) :
    Triple I (Action.request setup allowLocal s phase cancellable)
      (fun _ => I) I :=
  hI.idle.request_of_phases
    (fun u => (hI.and_registered u).idle.fileWork fun _ hw => hw.2)
    (fun u => .of_raised fun w s hw hd hs _ =>
      (hI.and_registered u).write w u .root s hw hw.2 hd hs)
    fun goal _ p _ => ((hI.and_registered goal.unit).runPhase p.le_bodies
      hquiet fun _ hw => hw.2).keeps

/-- Resolving a file as such. -/
theorem resolveFile (hI : Steady .bodies I) (id : UnitId) :
    Triple I (Action.resolveFile setup id) (fun _ => I) I :=
  hI.idle.resolveFile fun u => .of_raised fun w s hw hd hs _ =>
    (hI.and_registered u).write w u .root s hw hw.2 hd hs

end Steady

-- ================================================================ calls

/-- Something that a caller does, or that other threads do between calls. -/
inductive Call where
  | addUnit (spec : UnitSpec)
  | replaceUnit (old : UnitId) (spec : UnitSpec)
  | addSource (path : String) (declares : List QualifiedName) (spec : UnitSpec)
  | lookUp (key : NameKey)
  | resolve (allowLocal : Bool) (symbol : Symbol) (phase : Phase)
      (cancellable : Bool)
  | resolveFile (unit : UnitId)
  | otherTakes (lock : LockId)
  | otherReleases (lock : LockId)
  | setToken (token : Token)

/-- The world after a call, whether it answered or failed. -/
def Call.run (setup : Setup) : Call → World → World
  | addUnit spec, w => (Action.addUnit spec w).2
  | replaceUnit old spec, w => (Action.replaceUnit old spec w).2
  | addSource path declares spec, w =>
    (Action.addSource path declares spec w).2
  | lookUp key, w => (Action.classifier key w).2
  | resolve allowLocal s phase cancellable, w =>
    (Action.request setup allowLocal s phase cancellable w).2
  | resolveFile id, w => (Action.resolveFile setup id w).2
  | otherTakes l, w => (Action.updateThread (fun t => t.otherTakes l) w).2
  | otherReleases l, w =>
    (Action.updateThread (fun t => t.otherReleases l) w).2
  | setToken token, w => (Action.updateToken (fun _ => token) w).2

/-- Whether a call changes the registry and nothing else. -/
def Call.Registers : Call → Prop
  | addUnit _ | replaceUnit _ _ | addSource _ _ _ | lookUp _ => True
  | _ => False

/-- The worlds that histories lead to whose calls are all allowed where
they are made. -/
inductive Reaches (setup : Setup) (allowed : World → Call → Prop) :
    World → Prop where
  | start (r : Registry) (h : r = .empty ∨ r = .withBuiltins) :
      Reaches setup allowed (World.start r)
  | step (w : World) (call : Call) (h : Reaches setup allowed w)
      (hcall : allowed w call) : Reaches setup allowed (call.run setup w)

/-- Every call is allowed. -/
def anyCall : World → Call → Prop := fun _ _ => True

/-- What is reached by some calls is reached. -/
theorem Reaches.any {setup : Setup} {allowed : World → Call → Prop}
    {w : World} (h : Reaches setup allowed w) : Reaches setup anyCall w := by
  induction h with
  | start r h => exact .start r h
  | step w call _ _ ih => exact .step w call ih trivial

-- ============================================================ reachability

/-- Only the registry and the log have changed, and the registry has
evolved into a coherent one, whose index is in no better order. -/
structure World.Reregisters (v w : World) : Prop where
  coherent : w.registry.Coherent
  evolves : v.registry.Evolves w.registry
  upright : w.registry.Upright → v.registry.Upright
  states : w.states = v.states
  counters : w.counters = v.counters
  thread : w.thread = v.thread

/-- A fresh registry is coherent. -/
theorem Registry.coherent_start {r : Registry}
    (h : r = .empty ∨ r = .withBuiltins) : r.Coherent :=
  (coherent_empty.alters (alters_start h)).1

/-- So is a world of a coherent registry in which nothing was resolved. -/
theorem World.Coherent.start {r : Registry} (hr : r.Coherent) :
    (World.start r).Coherent := by
  refine ⟨hr, fun _ _ => rfl, fun u d x _ hx => ?_, fun u d x _ hx => ?_⟩
  · simp only [World.own, World.state, World.start, Table.find?_empty, hx]
    exact Phase.le_refl _
  · simp only [World.below, World.state, World.start, Table.find?_empty, hx]
    exact Phase.le_refl _

/-- What registering, replacing, announcing and looking up do to the
registry. -/
theorem Call.alters (setup : Setup) {call : Call} (w : World)
    (h : call.Registers) :
    w.registry.Alters (call.run setup w).registry := by
  cases call with
  | addUnit spec =>
      simp only [run, Action.addUnit, Action.draft]
      cases hd : spec.draft with
      | error f => exact .same
      | ok d => exact .addUnit spec d hd
  | replaceUnit old spec =>
      simp only [run, Action.replaceUnit, Action.draft]
      cases hd : spec.draft with
      | error f => exact .same
      | ok d => exact .replaceUnit old spec d hd
  | addSource path declares spec =>
      simp only [run, Action.addSource, Action.draft]
      cases hd : spec.draft with
      | error f => exact .same
      | ok d => exact .addSource path declares spec d hd
  | lookUp key => exact .lookUp key
  | resolve | resolveFile | otherTakes | otherReleases | setToken => exact h.elim

/-- And to the rest. -/
theorem Call.rest_eq (setup : Setup) {call : Call} (w : World)
    (h : call.Registers) : (call.run setup w).states = w.states ∧
      (call.run setup w).counters = w.counters ∧
      (call.run setup w).thread = w.thread := by
  cases call with
  | addUnit spec =>
      simp only [run, Action.addUnit, Action.draft]
      cases spec.draft <;> exact ⟨rfl, rfl, rfl⟩
  | replaceUnit old spec =>
      simp only [run, Action.replaceUnit, Action.draft]
      cases spec.draft <;> exact ⟨rfl, rfl, rfl⟩
  | addSource path declares spec =>
      simp only [run, Action.addSource, Action.draft]
      cases spec.draft <;> exact ⟨rfl, rfl, rfl⟩
  | lookUp key => exact ⟨rfl, rfl, rfl⟩
  | resolve | resolveFile | otherTakes | otherReleases | setToken => exact h.elim

/-- Altogether the registry has evolved and nothing else has changed. -/
theorem Call.reregisters (setup : Setup) {call : Call} {w : World}
    (hw : w.registry.Coherent) (hup : w.registry.Upright)
    (h : call.Registers) : w.Reregisters (call.run setup w) := by
  obtain ⟨hcoherent, hevolves⟩ := hw.alters (Call.alters setup w h)
  obtain ⟨hstates, hcounters, hthread⟩ := Call.rest_eq setup w h
  exact ⟨hcoherent, hevolves, fun _ => hup, hstates, hcounters, hthread⟩

/-- A change of the registry changes no state. -/
theorem World.Reregisters.state_eq {v w : World} (h : v.Reregisters w)
    (u : CompilationUnit) (d : DeclId) : w.state u d = v.state u d := by
  rw [World.state, World.state, h.states]

/-- What is new has no states yet. -/
theorem World.Reregisters.fresh {v w : World} (h : v.Reregisters w)
    (hv : v.Coherent) {u : CompilationUnit} (hu : w.Registered u)
    (hnew : ¬ v.Registered u) (d : DeclId) :
    w.states.find? (u.symbol d) = none := by
  rw [h.states]
  exact hv.fresh (u.symbol d)
    ((h.evolves.known u.id u hu).resolve_left hnew)

/-- A change of the registry keeps a world coherent. -/
theorem World.Reregisters.coherent_world {v w : World} (h : v.Reregisters w)
    (hv : v.Coherent) : w.Coherent := by
  -- a unit that is new has no states yet
  have hstart : ∀ u d x, w.Registered u → u.decl? d = some x →
      x.startPhase ≤ w.own u d ∧ x.startPhase ≤ w.below u d := by
    intro u d x hu hx
    rw [World.own, World.below, h.state_eq]
    rcases h.evolves.known u.id u hu with hu | hid
    · exact ⟨hv.startOwn u d x hu hx, hv.startBelow u d x hu hx⟩
    · rw [World.state, hv.fresh (u.symbol d) hid]
      simp only [hx]
      exact ⟨Phase.le_refl _, Phase.le_refl _⟩
  refine ⟨h.coherent, fun s hs => ?_, fun u d x hu hx => (hstart u d x hu hx).1,
    fun u d x hu hx => (hstart u d x hu hx).2⟩
  rw [h.states]
  exact hv.fresh s (Nat.le_trans h.evolves.next hs)

/-- A condition on registries that look-ups keep is a steady one. -/
theorem Steady.registry {P : Registry → Prop} (goal : Phase)
    (hlookUp : ∀ r k, r.Coherent → P r → P (r.classifier k).registry) :
    Steady goal fun w => w.Coherent ∧ P w.registry :=
  have hself := Steady.coherent_self goal
  { coherent := fun _ hw => hw.1
    classifier := fun w k hw =>
      ⟨hself.classifier w k hw.1, hlookUp _ k hw.1.registry hw.2⟩
    counters := fun w c h hw => ⟨hself.counters w c h hw.1, hw.2⟩
    touches := fun v w hv h =>
      ⟨hself.touches v w hv.1 h, by rw [h.registry]; exact hv.2⟩
    session := fun w s hw => ⟨hself.session w s hw.1, hw.2⟩
    thread := fun w t hw => ⟨hself.thread w t hw.1, hw.2⟩
    write := fun w u d s hw hu hd hs =>
      ⟨hself.write w u d s hw.1 hu hd hs, hw.2⟩ }

/-- Every world that is reached is coherent and has a catalog, and what
holds of an empty registry and survives every operation holds of its
registry. -/
theorem Reaches.cataloged {setup : Setup} {allowed : World → Call → Prop}
    {P : Registry → Prop} (hquiet : setup.Quiet) (hempty : P .empty)
    (halters : ∀ r s, r.Coherent → P r → r.Alters s → P s) {w : World}
    (h : Reaches setup allowed w) :
    w.Coherent ∧ w.registry.Catalog ∧ P w.registry := by
  have hsteady := Steady.registry (P := fun r => r.Catalog ∧ P r) .bodies
    fun r k hr h => ⟨h.1.classifier hr k, halters r _ hr h.2 (.lookUp k)⟩
  induction h with
  | start r hr =>
      have hstart := Registry.alters_start hr
      exact ⟨.start (Registry.coherent_start hr),
        Registry.catalog_empty.alters Registry.coherent_empty hstart,
        halters _ _ Registry.coherent_empty hempty hstart⟩
  | step w call _ _ ih =>
      obtain ⟨hw, hcatalog, hP⟩ := ih
      by_cases hreg : call.Registers
      · have hstep := Call.reregisters setup hw.registry
          (hcatalog.upright hw.registry) hreg
        have halter := Call.alters setup w hreg
        exact ⟨hstep.coherent_world hw, hcatalog.alters hw.registry halter,
          halters _ _ hw.registry hP halter⟩
      · cases call with
        | addUnit | replaceUnit | addSource | lookUp =>
            exact absurd trivial hreg
        | resolve allowLocal s phase cancellable =>
            exact (hsteady.request hquiet).world ⟨hw, hcatalog, hP⟩
        | resolveFile id =>
            exact (hsteady.resolveFile id).world ⟨hw, hcatalog, hP⟩
        | otherTakes l | otherReleases l | setToken token =>
            exact hsteady.thread w _ ⟨hw, hcatalog, hP⟩

/-- The index of every registry that is reached is upright. -/
theorem Reaches.upright {setup : Setup} {allowed : World → Call → Prop}
    (hquiet : setup.Quiet) {w : World} (h : Reaches setup allowed w) :
    w.registry.Upright := by
  obtain ⟨hw, hcatalog, -⟩ := h.cataloged (P := fun _ => True) hquiet trivial
    fun _ _ _ _ _ => trivial
  exact hcatalog.upright hw.registry

/-- What holds at the start and survives every sort of call holds in every
world that is reached. -/
theorem Reaches.invariant {setup : Setup} {allowed : World → Call → Prop}
    {P : World → Prop} (hquiet : setup.Quiet)
    (hstart : ∀ r, (World.start r).Coherent → P (World.start r))
    (hregisters : ∀ v w, v.Coherent → P v → v.Reregisters w → P w)
    (hthread : ∀ w t, P w → P { w with thread := t })
    (hresolve : ∀ w allowLocal s phase cancellable, w.Coherent → P w →
      allowed w (.resolve allowLocal s phase cancellable) →
      P (Action.request setup allowLocal s phase cancellable w).2)
    (hfile : ∀ w id, w.Coherent → P w →
      P (Action.resolveFile setup id w).2)
    {w : World} (h : Reaches setup allowed w) : w.Coherent ∧ P w := by
  have hcoherent := Steady.coherent_self .bodies
  induction h with
  | start r hr =>
      have hr := World.Coherent.start (Registry.coherent_start hr)
      exact ⟨hr, hstart r hr⟩
  | step w call h hcall ih =>
      obtain ⟨hw, hP⟩ := ih
      by_cases hreg : call.Registers
      · have hstep := Call.reregisters setup hw.registry
          (h.upright hquiet) hreg
        exact ⟨hstep.coherent_world hw, hregisters _ _ hw hP hstep⟩
      · cases call with
        | addUnit | replaceUnit | addSource | lookUp =>
            exact absurd trivial hreg
        | resolve allowLocal s phase cancellable =>
            exact ⟨(hcoherent.request hquiet).world hw,
              hresolve w allowLocal s phase cancellable hw hP hcall⟩
        | resolveFile id =>
            exact ⟨(hcoherent.resolveFile id).world hw, hfile w id hw hP⟩
        | otherTakes l | otherReleases l | setToken token =>
            exact ⟨hcoherent.thread w _ hw, hthread w _ hP⟩

/-- Every world that is reached is coherent. -/
theorem Reaches.coherent {setup : Setup} {allowed : World → Call → Prop}
    (hquiet : setup.Quiet) {w : World} (h : Reaches setup allowed w) :
    w.Coherent :=
  (h.invariant (P := fun _ => True) hquiet (fun _ _ => trivial)
    (fun _ _ _ _ _ => trivial) (fun _ _ _ => trivial)
    (fun _ _ _ _ _ _ _ _ => trivial) fun _ _ _ _ => trivial).1

/-- No call takes back that something was put off. -/
theorem Call.deferred_le {setup : Setup} (hquiet : setup.Quiet) {w : World}
    (hw : w.Coherent) (call : Call) :
    w.counters.deferred ≤ (call.run setup w).counters.deferred := by
  by_cases hreg : call.Registers
  · exact Nat.le_of_eq (congrArg _ (Call.rest_eq setup w hreg).2.1.symm)
  · have hsteady := (Steady.coherent_self .bodies).and_lasting
      (Q := fun v => w.counters.deferred ≤ v.counters.deferred)
      fun _ _ h hv => Nat.le_trans hv h.deferred
    have hstart := And.intro hw (Nat.le_refl w.counters.deferred)
    cases call with
    | addUnit | replaceUnit | addSource | lookUp => exact absurd trivial hreg
    | resolve allowLocal s phase cancellable =>
        exact ((hsteady.request hquiet).world hstart).2
    | resolveFile id => exact ((hsteady.resolveFile id).world hstart).2
    | otherTakes l | otherReleases l | setToken token => exact Nat.le_refl _

-- ======================================================== small histories

/-- The world after some calls, from an empty registry on. -/
def World.after (setup : Setup) (calls : List Call) : World :=
  calls.foldl (fun w call => call.run setup w) (.start .empty)

/-- Such a world is reached. -/
theorem Reaches.after (setup : Setup) (calls : List Call) :
    Reaches setup anyCall (World.after setup calls) := by
  have hfold : ∀ (calls : List Call) (w : World), Reaches setup anyCall w →
      Reaches setup anyCall
        (calls.foldl (fun w call => call.run setup w) w) := by
    intro calls
    induction calls with
    | nil => exact fun _ hw => hw
    | cons call rest ih => exact fun w hw => ih _ (.step w call hw trivial)
  exact hfold calls _ (.start _ (Or.inl rfl))

/-- A resolver without hooks has only quiet ones. -/
theorem Setup.quiet_of_hooks {setup : Setup} (h : setup.hooks = []) :
    setup.Quiet := by
  intro hook hmem
  rw [h] at hmem
  cases hmem

/-- Such as the one nobody has touched. -/
theorem Setup.quiet_plain (config : Config) : (Setup.plain config).Quiet :=
  quiet_of_hooks rfl

/-- The markers of a declaration, if it is there. -/
def World.markers? (w : World) (s : Symbol) : Option (Phase × Phase) :=
  (w.registry.unit? s.unit).map fun u => (w.own u s.decl, w.below u s.decl)

/-- A unit of one package without imports. -/
def UnitSpec.ofEntries (path : String) (entries : List UnitEntry) : UnitSpec :=
  { path := path, package := "p", imports := [], annotations := [],
    entries := entries }

/-- A declaration that is a member of the one with a number. -/
def UnitEntry.member (owner : Nat) (spec : DeclSpec) : UnitEntry :=
  ⟨⟨owner⟩, false, spec⟩

/-- A class that extends what the given names mean. -/
def DeclSpec.classNamed (name : String) (supertypes : List String) :
    DeclSpec :=
  { DeclSpec.ofForm .classDecl name with
    supertypes := supertypes.map .named }

/-- A function of a written type, if one is given. -/
def DeclSpec.functionNamed (name : String) (type : Option String) :
    DeclSpec :=
  { DeclSpec.ofForm .function name with declaredType := type.map .named }

/-- A class with a function in it. -/
def UnitSpec.plainClass : UnitSpec :=
  .ofEntries "a.kt" [.member 0 (.classNamed "C" []),
    .member 1 (.functionNamed "f" none)]

end StagedResolve
