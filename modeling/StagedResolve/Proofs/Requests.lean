/-
Requests: what every part of one keeps.

A steady condition survives each part of a request that raises markers
no further than its goal: the session of the supertype phase, the work
of the other phases, and, where the goal is the end of the sequence,
whole requests. Each part has its lemma here, from the parts it is made
of, so a condition has to be checked for the single steps only
(`Steady`). What needs more than that, above all what becomes of the
markers where a walk is committed, has its own account elsewhere and
uses these lemmas for the rest.
-/
import StagedResolve.Proofs.Sessions
import StagedResolve.Proofs.Worlds
import StagedResolve.Resolver

namespace StagedResolve

open StagedResolve.Action World

variable {goal : Phase} {I : World → Prop}

/-- Writing to a declaration that is there; under the guard of another unit
nothing is written. -/
theorem Action.writeState_triple {P Q E : World → Prop} {g : Guard}
    {u : CompilationUnit} {d : DeclId} {f : DeclState → DeclState}
    (hPE : ∀ w, P w → E w) (hf : ∀ w, P w → (u.decl? d).isSome →
      Q (w.setState u d (f (w.state u d)))) :
    Triple P (Action.writeState g u d f) (fun _ => Q) E := by
  intro w hw
  unfold Action.writeState
  by_cases hg : g.lock ≠ .ofUnit u.id
  · rw [if_pos hg]
    exact hPE w hw
  · rw [if_neg hg]
    cases hd : u.decl? d with
    | none => exact hPE w hw
    | some x => exact hf w hw (by rw [hd]; rfl)

/-- A condition that each hook keeps, given what quiet hooks do, is kept by
the hooks for a declaration. -/
theorem Context.runHooks_triple {c : Context} {phase : Phase} {d : DeclId}
    (hcoherent : ∀ w, I w → w.Coherent) (hu : ∀ w, I w → w.Registered c.unit)
    (hquiet : c.setup.Quiet)
    (hhook : ∀ h ∈ c.setup.hooks, ∀ x w, I w →
      w.Touches (h c.guard phase c.unit x w).2 →
      I (h c.guard phase c.unit x w).2) :
    Triple I (c.runHooks phase d) (fun _ => I) I := by
  unfold Context.runHooks
  split
  · next x hx =>
    refine .each fun h hh w hw => ?_
    have hid := ((hcoherent w hw).wellFormed (hu w hw)).numbered d x hx
    have hw' := hhook h hh x w hw (hquiet h hh c.guard phase c.unit x w
      (hu w hw) (by rw [hid]; exact hx))
    rcases hr : h c.guard phase c.unit x w with ⟨e | a, w'⟩
    · rw [hr] at hw'
      exact hw'
    · rw [hr] at hw'
      exact hw'
  · exact .stop fun _ => id

namespace Static

-- ==================================================== looking names up

/-- Looking names up. -/
theorem lookups (hI : Static I) : (SideBySide.solo I I).Lookups where
  registry := fun v w h => by rw [h.1]
  classifier := fun k => .of_triple fun w hw => hI.classifier w k hw

/-- Counting. -/
theorem count (hI : Static I) {f : Counters → Counters}
    (hf : ∀ c, c.deferred ≤ (f c).deferred) :
    Triple I (Action.count f) (fun _ => I) I :=
  .update fun w hw => hI.counters w _ (hf _) hw

/-- The work of a phase, the supertype phase apart, where slots may be
written to. -/
theorem work (hI : Static I) {c : Context} {P : DeclId → Prop}
    (hwrite : ∀ w d s, I w → P d → (c.unit.decl? d).isSome →
      (w.slots c.unit d).SameClause s →
      I (w.setState c.unit d { w.state c.unit d with slots := s })) :
    (SideBySide.solo I I).Work c P where
  toLookups := hI.lookups
  stop := fun _ _ => id
  slots := fun v w d h => by rw [h.1]
  source := fun s => .read fun v w h => by rw [h.1]
  write := fun d _ hd hf => .of_triple (writeState_triple (fun _ => id)
    fun w hw hsome => hwrite w d _ hw hd hsome (hf _))

end Static

namespace Calm

-- ==================================================== what leaves markers

/-- The work of a phase, the supertype phase apart. -/
theorem work (hI : Calm I) {c : Context}
    (hu : ∀ w, I w → w.Registered c.unit) :
    (SideBySide.solo I I).Work c fun _ => True :=
  hI.toStatic.work fun w d s hw _ hd => hI.slots w c.unit d s hw (hu w hw) hd

/-- The hooks for a declaration. -/
theorem runHooks (hI : Calm I) {c : Context} {phase : Phase}
    {d : DeclId} (hu : ∀ w, I w → w.Registered c.unit)
    (hquiet : c.setup.Quiet) :
    Triple I (c.runHooks phase d) (fun _ => I) I :=
  Context.runHooks_triple hI.coherent hu hquiet fun _ _ _ w hw htouch =>
    hI.touches w _ hw htouch

end Calm

namespace Steady

-- ======================================================== single steps

/-- A condition together with the registration of a unit. -/
theorem and_registered (hI : Steady goal I) (u : CompilationUnit) :
    Steady goal fun w => I w ∧ w.Registered u :=
  hI.and_lasting (lasting_registered u)

/-- Changing the session. -/
theorem updateSession (hI : Steady goal I) (f : Session → Session) :
    Triple I (Action.updateSession f) (fun _ => I) I :=
  .update fun w hw => hI.session w _ hw

/-- Dropping a guard after an action. -/
theorem holding {α : Type} (hI : Steady goal I) {g : Guard} {x : Action α}
    {Q : α → World → Prop} (hx : Triple I x Q I)
    (hQ : ∀ a w t, Q a w → Q a { w with thread := t }) :
    Triple I (Action.holding g x) Q I :=
  Triple.holding hx (fun a w hw => hQ a w _ hw) fun w hw => hI.thread w _ hw

/-- Changing the state of a declaration of a registered unit. -/
theorem writeState (hI : Steady goal I) {g : Guard} {u : CompilationUnit}
    {d : DeclId} {f : DeclState → DeclState}
    (hu : ∀ w, I w → w.Registered u)
    (hf : ∀ s, DeclState.Raised goal s (f s)) :
    Triple I (Action.writeState g u d f) (fun _ => I) I :=
  writeState_triple (fun _ => id) fun w hw hd =>
    hI.write w u d _ hw (hu w hw) hd (hf _)

/-- Changing the slots of a declaration of a registered unit. -/
theorem writeSlots (hI : Steady goal I) {g : Guard} {u : CompilationUnit}
    {d : DeclId} {f : Slots → Slots} (hu : ∀ w, I w → w.Registered u) :
    Triple I (Action.writeSlots g u d f) (fun _ => I) I :=
  hI.writeState hu fun s => .of_slots goal s _

/-- Raising an own marker. -/
theorem raiseOwn (hI : Steady goal I) {g : Guard} {u : CompilationUnit}
    {d : DeclId} {p : Phase} (hu : ∀ w, I w → w.Registered u)
    (hp : p ≤ goal) : Triple I (Action.raiseOwn g u d p) (fun _ => I) I :=
  hI.writeState hu fun s => .of_own s hp

/-- Raising the marker of a whole. -/
theorem raiseBelow (hI : Steady goal I) {g : Guard} {u : CompilationUnit}
    {d : DeclId} {p : Phase} (hu : ∀ w, I w → w.Registered u)
    (hp : p ≤ goal) : Triple I (Action.raiseBelow g u d p) (fun _ => I) I :=
  hI.writeState hu fun s => .of_below s hp

-- ============================================== looking up and computing

/-- Computing clauses. -/
theorem computes (hI : Steady goal I) :
    (SideBySide.solo I I).Computes fun _ => False where
  toLookups := hI.idle.lookups
  stop := fun _ _ => id
  named := fun v w id u h hu =>
    (hI.coherent w (h.1 ▸ h.2)).registry.named id u hu
  session := fun v w h => by rw [h.1]
  met := fun _ _ _ _ h => h.elim
  update := fun f _ => .of_triple (hI.updateSession f)
  imports := fun v w u h _ => by rw [h.1]
  clause := fun v w u d h _ _ _ => by rw [h.1]; exact ⟨rfl, rfl⟩
  round := .of_triple (hI.idle.count fun _ => Nat.le_refl _)

-- ============================================================ the session

/-- A unit that the session needs, and that it is registered. -/
theorem sessionUnit? (hI : Steady goal I) (id : UnitId) :
    Triple I (Action.sessionUnit? id)
      (fun found w => I w ∧ ∀ u, found = some u → w.Registered u ∧ u.id = id)
      I := by
  refine .read_bind fun found => ?_
  cases found with
  | none => exact .pure fun w hw => ⟨hw.1, fun u h => by cases h⟩
  | some u =>
      have hI' := hI.and_lasting ((lasting_registered u).and
        (lasting_const (u.id = id)))
      have hdone : ∀ w, I w ∧ (w.Registered u ∧ u.id = id) →
          I w ∧ ∀ v, some u = some v → w.Registered v ∧ v.id = id := by
        rintro w ⟨hw, hu⟩
        refine ⟨hw, fun v hv => ?_⟩
        cases hv
        exact hu
      have hkeep : Triple (fun w => I w ∧ (w.Registered u ∧ u.id = id)) (do
          if ← Action.session fun s => s.imports.contains id then
            return some u
          else
            let table ← Action.storedOrFreshImports u
            Action.updateSession fun s =>
              { s with imports := s.imports.insert id table }
            return some u)
          (fun found w => I w ∧
            ∀ v, found = some v → w.Registered v ∧ v.id = id)
          (fun w => I w ∧ (w.Registered u ∧ u.id = id)) := by
        refine .bind (Q := fun _ w => I w ∧ (w.Registered u ∧ u.id = id))
          (.read fun w hw => hw) fun known => ?_
        split
        · exact .pure hdone
        · refine .bind (hI'.idle.lookups.storedOrFreshImports ?_).triple
            fun table => ?_
          · exact fun v w h => by rw [h.1]
          · exact .bind (hI'.updateSession _) fun _ => .pure hdone
      refine hkeep.conseq (fun w hw => ?_) (fun _ _ hw => hw)
        fun w hw => hw.1
      exact ⟨hw.1, (hI.coherent w hw.1).registered hw.2⟩

/-- Marking the members of a class. -/
theorem markMembers (hI : Steady goal I) (hgoal : .supertypes ≤ goal)
    {g : Guard} {u : CompilationUnit} {owner : DeclId}
    (hu : ∀ w, I w → w.Registered u) :
    Triple I (Action.markMembers g u owner) (fun _ => I) I :=
  .each fun _ _ => .bind (hI.raiseOwn hu hgoal) fun _ => hI.raiseBelow hu hgoal

/-- Writing the result of one class back. -/
theorem applyTo (hI : Steady goal I) (hgoal : .supertypes ≤ goal)
    {g : Guard} {u : CompilationUnit} {c : Symbol}
    (hu : ∀ w, I w → w.Registered u) :
    Triple I (Action.applyTo g u c) (fun _ => I) I := by
  refine .read_then fun result => ?_
  cases result with
  | none => exact .pure fun _ => id
  | some r =>
      refine .read_then fun own => ?_
      split
      · exact .pure fun _ => id
      · refine .bind (hI.writeSlots hu) fun _ => ?_
        refine .bind (hI.raiseOwn hu hgoal) fun _ => ?_
        refine .read_then fun isSeed => ?_
        split
        · exact hI.markMembers hgoal hu
        · exact .pure fun _ => id

/-- Taking the lock of a unit where the order of units allows it. -/
theorem lockUnitOrdered (hI : Steady goal I) (id : UnitId) :
    Triple I (Action.lockUnitOrdered id) (fun _ => I) I :=
  fun w hw => hI.thread w _ hw

/-- Writing the results for one unit back, or putting them off. -/
theorem applyUnit (hI : Steady goal I) (hgoal : .supertypes ≤ goal)
    {c : Context} (hu : ∀ w, I w → w.Registered c.unit) (id : UnitId)
    (classes : List Symbol) :
    Triple I (Action.applyUnit c id classes) (fun _ => I) I := by
  unfold Action.applyUnit
  split
  · exact .each fun _ _ => hI.applyTo hgoal hu
  · refine .bind (hI.sessionUnit? id) fun found => ?_
    cases found with
    | none =>
        intro w hw
        exact hw.1
    | some u =>
        have hI' := hI.and_registered u
        refine Triple.conseq (P := fun w => I w ∧ w.Registered u)
          (Q := fun _ w => I w ∧ w.Registered u)
          (E := fun w => I w ∧ w.Registered u) ?_
          (fun w hw => ⟨hw.1, (hw.2 u rfl).1⟩) (fun _ w hw => hw.1)
          fun w hw => hw.1
        refine .bind (hI'.lockUnitOrdered id) fun guard => ?_
        cases guard with
        | none => exact hI'.idle.count fun c => Nat.le_succ _
        | some g =>
            refine hI'.holding (.each fun _ _ =>
              hI'.applyTo hgoal fun w hw => hw.2) fun _ w t hw => ?_
            exact hI'.thread w t hw

/-- Writing all results back. -/
theorem applyResults (hI : Steady goal I) (hgoal : .supertypes ≤ goal)
    {c : Context} (hu : ∀ w, I w → w.Registered c.unit) :
    Triple I (Action.applyResults c) (fun _ => I) I := by
  refine .read_then fun pending => ?_
  refine .each fun id _ => ?_
  exact .bind (hI.applyUnit hgoal hu id _) fun _ => hI.updateSession _

/-- The whole session for some classes. -/
theorem resolveSupertypes (hI : Steady goal I) (hgoal : .supertypes ≤ goal)
    {c : Context} (hu : ∀ w, I w → w.Registered c.unit)
    (seeds : List Symbol) :
    Triple I (Action.resolveSupertypes c seeds) (fun _ => I) I := by
  refine .bind (hI.updateSession _) fun _ => ?_
  refine .read_then fun bound => ?_
  have hcheck : Action.Keeps (.solo I I)
      (Action.checkCancelled c.cancellable .supertypes) :=
    .of_triple (.checkCancelled fun _ hw => hw)
  refine .bind (hI.computes.computeRounds _ hcheck bound seeds).triple
    fun _ => ?_
  refine .bind (hI.updateSession _) fun _ => ?_
  exact hI.applyResults hgoal hu

end Steady

end StagedResolve
