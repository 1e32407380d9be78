/-
Service: what walks do with the sessions of their phases.

# One session to a phase

A phase starts a session when it has entered its unit, and nothing but
its walk does anything with it: the walk of the supertype phase asks it
for every class it comes by, the walk of the last phase for classes in
executable code, and between two calls there are hooks, other work, and
the commit at the end. None of that moves a clause or touches the
session, so the session that a walk has is a served one at every moment
(`Served.keeps`, `Served.walk`).

# Requests

Requests run phases one after the other, each from a world in which a
session may start, so the session that a request leaves behind has served
its last phase (`World.Grounded.served_of_resolveDesignation`). If the
request has put nothing off, neither has that session, and what it knows
of classes agrees with the slots (`World.Grounded.agrees_of_resolveDesignation`).
-/
import StagedResolve.Proofs.Agreement
import StagedResolve.Proofs.SessionWalks
import StagedResolve.Proofs.Staging

namespace StagedResolve

open StagedResolve.Action World

-- ================================================================== walks

/-- A session that has served a walk in a unit so far. -/
def World.Serves (v : World) (u : CompilationUnit) (w : World) : Prop :=
  v.Served w ∧ w.Registered u

namespace World.Served

variable {v w : World} {u : CompilationUnit} {c : Context} {rule : PhaseRule}
  {phase : Phase}

/-- Setting a state with the clause as it was does not end a session. -/
theorem setState (h : v.Served w) (hu : w.Registered u) {d : DeclId}
    {s : DeclState} {p : Phase} (hs : (w.state u d).Raised p s)
    (hclause : (w.slots u d).SameClause s.slots) :
    v.Served (w.setState u d s) := by
  have hcoherent := h.level.grounded.coherent
  refine h.between ?_ (hcoherent.setState hu hs) rfl
  exact unmoved_setState hu hs hclause.supertypes hclause.expansion
    fun _ ht => Or.inl (hclause.imports ▸ ht)

/-- Nothing ends it that leaves hierarchy and session alone. -/
theorem calm (v : World) : Calm v.Served where
  coherent := fun _ h => h.level.grounded.coherent
  classifier := fun _ k h => h.between
    (unmoved_classifier h.level.grounded.coherent k)
    (h.level.grounded.coherent.classifier k) rfl
  counters := fun w n hn h => h.between (unmoved_of_eq rfl rfl hn)
    (Grounded.structural.idle.counters w n hn h.level.grounded).coherent rfl
  touches := fun _ _ h htouch => h.between htouch.unmoved
    (h.level.grounded.coherent.touches htouch) htouch.session
  slots := fun _ _ _ s h hu _ hs => h.setState hu (.of_slots .raw _ s) hs

/-- The session for a class goes on with it. -/
theorem classSupertypes (hguard : c.guard.lock = .ofUnit c.unit.id)
    (d : DeclId) :
    Triple (v.Serves c.unit) (PhaseRule.classSupertypes c d)
      (fun _ => v.Serves c.unit) fun _ => True := by
  unfold PhaseRule.classSupertypes
  split
  · have hsteady := (Steady.coherent_self .supertypes).and_registered c.unit
    have hkeeps := hsteady.resolveSupertypes (Phase.le_refl _)
      (fun _ hw => hw.2) [c.unit.symbol d]
    refine .of_runs ?_ fun _ _ _ _ _ => trivial
    rintro w ⟨⟩ w' ⟨hw, hreg⟩ hrun
    have hcoherent := hw.level.grounded.coherent
    refine ⟨hw.call c _ hreg hguard (fun b hb => ?_) hrun,
      (hkeeps.ok ⟨hcoherent, hreg⟩ hrun).2⟩
    rw [List.mem_singleton.mp hb]
    exact hcoherent.known hreg d
  · exact .pure fun _ hw => hw

/-- Whatever a rule has a walk do goes on with the session of its phase. -/
theorem keeps (hrule : phase.rule? = some rule) (hquiet : c.setup.Quiet)
    (hguard : c.guard.lock = .ofUnit c.unit.id) :
    Walk.Keeps (.solo (v.Serves c.unit) fun _ => True) rule c
      fun _ => True := by
  have hcalm : Calm (v.Serves c.unit) :=
    (calm v).and_lasting (lasting_registered c.unit)
  exact .of_rule hrule
    ((hcalm.work fun _ hw => hw.2).weaken fun _ _ => trivial).tasks
    (fun _ _ _ h => by rw [h.1]) (fun _ _ _ h => by rw [h.1])
    (fun _ _ _ => Keeps.weaken
      (.of_triple (hcalm.runHooks (fun _ hw => hw.2) hquiet))
      fun _ _ => trivial)
    fun d _ => .of_triple (classSupertypes hguard d)

/-- So does a whole walk. -/
theorem walk (hrule : phase.rule? = some rule) (hquiet : c.setup.Quiet)
    (hguard : c.guard.lock = .ofUnit c.unit.id) (goal : Designation) :
    Triple (v.Serves c.unit) (Walk.run rule c goal) (fun _ => v.Serves c.unit)
      fun _ => True :=
  ((keeps hrule hquiet hguard).run (.anywhere c.unit goal)).triple

/-- Raising markers when the walk is committed does not end the session. -/
theorem commit (visits : Visits) (g : Guard) (u : CompilationUnit) (p : Phase) :
    Triple (v.Serves u) (visits.commit g u p) (fun _ => v.Serves u)
      fun _ => True := by
  have hraise : ∀ {f : DeclState → DeclState} (d : DeclId),
      (∀ s, DeclState.Raised p s (f s)) → (∀ s, (f s).slots = s.slots) →
      Triple (v.Serves u) (writeState g u d f) (fun _ => v.Serves u)
        fun _ => True :=
    fun d hf hslots => writeState_triple (fun _ _ => trivial) fun w hw _ =>
      ⟨hw.1.setState hw.2 (hf _) (by rw [hslots]; exact ⟨rfl, rfl, rfl⟩), hw.2⟩
  have hown : ∀ d, Triple _ (raiseOwn g u d p) _ _ := fun d =>
    hraise d (fun s => .of_own s (Phase.le_refl p)) fun _ => rfl
  have hbelow : ∀ d, Triple _ (raiseBelow g u d p) _ _ := fun d =>
    hraise d (fun s => .of_below s (Phase.le_refl p)) fun _ => rfl
  exact .bind (.each fun d _ => hown d) fun _ =>
    .each fun d _ => .bind (hown d) fun _ => hbelow d

/-- Neither do the count of the phase and the check of its markers. -/
theorem check (u : CompilationUnit) (goal : Designation) (p : Phase) (b : Bool) :
    Triple (v.Serves u) (do
        count fun n => n.countCommit p
        if b then checkMarkers goal p)
      (fun _ => v.Serves u) fun _ => True := by
  refine .bind (Q := fun _ => v.Serves u) (.update fun w hw => ?_) fun _ => ?_
  · exact ⟨(calm v).counters w _ (Nat.le_refl _) hw.1, hw.2⟩
  split
  · refine .read_then fun fault => ?_
    cases fault with
    | none => exact .pure fun _ hw => hw
    | some _ => exact .stop fun _ _ => trivial
  · exact .pure fun _ hw => hw

end World.Served

-- =============================================================== requests

/-- A step of a request has a walk. -/
theorem Phase.rule?_ne_none_of_mem_stepsTo {x p q : Phase}
    (h : q ∈ (max x lastFileWide).stepsTo p) : q.rule? ≠ none := by
  obtain ⟨⟨hlt, -⟩, hrun⟩ := mem_stepsTo_iff.mp h
  exact rule?_ne_none (max_lt_iff.mp hlt).2 hrun

namespace World.Grounded

variable {setup : Setup} {goal : Designation} {g : Guard}
  {cancellable : Bool} {phase : Phase} {w w' : World}

/-- A phase that answers leaves the session that it began: it was started
when the phase had entered its unit, and all that has been done with it
since are the calls of the walk. -/
theorem served_of_runPhase (hw : w.Grounded) (hquiet : setup.Quiet)
    (hu : w.Registered goal.unit) (hg : g.lock = .ofUnit goal.unit.id)
    (hrule : phase.rule? ≠ none)
    (hrun : runPhase setup goal g cancellable phase w = (.ok (), w')) :
    ∃ v : World, w.Onward v ∧ v.Serves goal.unit w' := by
  obtain ⟨rule, hrule⟩ := Option.ne_none_iff_exists'.mp hrule
  unfold runPhase at hrun
  rw [hrule] at hrun
  -- entering the unit changes no state
  obtain ⟨c, x, henter, hrun⟩ := bind_run_eq_ok_iff.mp hrun
  have hstatic := (Reading.static w).and_lasting (lasting_registered goal.unit)
  obtain ⟨⟨hx, hreg⟩, rfl, hunit, rfl, -⟩ :=
    (hstatic.enter setup goal.unit g cancellable).ok ⟨.start hw, hu⟩ henter
  rw [← hunit] at hg hreg hrun ⊢
  obtain ⟨⟨⟩, v, hstart, hrun⟩ := bind_run_eq_ok_iff.mp hrun
  cases hstart
  have hbegun := Grounded.structural.idle.session x .start hx.grounded
  obtain ⟨visits, y, hwalk, hrun⟩ := bind_run_eq_ok_iff.mp hrun
  obtain ⟨⟨⟩, z, hcommit, hrun⟩ := bind_run_eq_ok_iff.mp hrun
  have hy := (Served.walk hrule hquiet hg goal).ok ⟨.start hbegun rfl, hreg⟩ hwalk
  have hz := (Served.commit visits c.guard c.unit phase).ok hy hcommit
  exact ⟨{ x with session := .start },
    hx.later.trans (.of_eq rfl rfl (Nat.le_refl _)),
    (Served.check c.unit goal phase _).ok hz hrun⟩

/-- Of several phases the last one leaves its session. -/
theorem served_of_runPhases {phases : List Phase} (hw : w.Grounded)
    (hquiet : setup.Quiet) (hu : w.Registered goal.unit)
    (hg : g.lock = .ofUnit goal.unit.id)
    (hrules : ∀ p ∈ phases, p.rule? ≠ none) (hne : phases ≠ [])
    (hrun : runPhases setup goal g cancellable phases w = (.ok (), w')) :
    ∃ v : World, w.counters.deferred ≤ v.counters.deferred ∧ v.Served w' := by
  induction phases generalizing w with
  | nil => exact absurd rfl hne
  | cons p rest ih =>
      obtain ⟨⟨⟩, x, hfirst, hrest⟩ := bind_run_eq_ok_iff.mp hrun
      obtain ⟨⟨⟩, y, hcheck, hphase⟩ := bind_run_eq_ok_iff.mp hfirst
      obtain rfl : y = w := (Triple.checkCancelled (P := (· = w))
        (E := fun _ => True) fun _ _ => trivial).ok rfl hcheck
      obtain ⟨v, hv, hserved, hreg⟩ := hw.served_of_runPhase hquiet hu hg
        (hrules p (List.mem_cons_self ..)) hphase
      cases rest with
      | nil =>
          cases hrest
          exact ⟨v, hv.deferred, hserved⟩
      | cons q rest =>
          obtain ⟨v', hle, hserved'⟩ := ih hserved.level.grounded hreg
            (fun p hp => hrules p (List.mem_cons_of_mem _ hp))
            (List.cons_ne_nil q rest) hrest
          exact ⟨v', Nat.le_trans (Nat.le_trans hv.deferred
            hserved.level.since) hle, hserved'⟩

/-- A request that the markers did not answer leaves the session of its last
phase. -/
theorem served_of_resolveDesignation (hw : w.Grounded) (hquiet : setup.Quiet)
    (hu : w.Registered goal.unit) (hfile : goal.isFile = false)
    (hp : .extensionAnnotations < phase) (hbehind : ¬ phase ≤ w.current goal)
    (hrun : resolveDesignation setup goal phase cancellable w = (.ok (), w')) :
    ∃ v : World, w.counters.deferred ≤ v.counters.deferred ∧ v.Served w' := by
  rw [resolveDesignation_eq_ok hbehind, resolveUnderLock_eq_ok] at hrun
  obtain ⟨g, x, u, hlock, hlocked, rfl⟩ := hrun
  obtain ⟨hg, rfl, -⟩ := lockForRequest_eq_ok hlock
  -- resolving the imports marks nothing but the file
  have hJ : Structural fun x => (x.Grounded ∧ x.Registered goal.unit) ∧
      w.counters.deferred ≤ x.counters.deferred :=
    (Grounded.structural.and_lasting (lasting_registered goal.unit)).and_lasting
      (lasting_since _)
  have hidle := hJ.idle.and_unanswered (fun _ hx => hx.1.2) hfile hp
  have hkeeps := (hJ.keepsFile fun _ hx => hx.1.2).and_unanswered
    (fun _ hx => hx.1.2) hfile hp
  have hstart := hidle.thread w (w.thread.lock (.ofUnit goal.unit.id)).2
    ⟨⟨⟨hw, hu⟩, Nat.le_refl _⟩, hbehind⟩
  obtain ⟨b, y, himports, -⟩ := bind_run_eq_ok_iff.mp hlocked
  obtain ⟨⟨⟨⟨hy, hreg⟩, hle⟩, hbehind⟩, -⟩ :=
    (hidle.resolveImports hkeeps).ok hstart himports
  rw [resolveLocked_run hfile himports, if_neg hbehind] at hlocked
  have hne : (max (y.current goal) .lastFileWide).stepsTo phase ≠ [] := by
    obtain ⟨q, hq⟩ := exists_reached_eq y goal.unit goal.target
    have hq : y.current goal = q.satisfied := hq
    rw [hq] at hbehind ⊢
    obtain ⟨l, hl⟩ := Phase.stepsTo_eq_append_core hp (Phase.lt_of_not_le hbehind)
    rw [hl]
    exact List.append_ne_nil_of_right_ne_nil l (List.cons_ne_nil _ _)
  obtain ⟨v, hle', hserved⟩ := hy.served_of_runPhases hquiet hreg
    (hg ▸ Thread.lock_lock ..) (fun _ => Phase.rule?_ne_none_of_mem_stepsTo) hne
    hlocked
  refine ⟨v, Nat.le_trans hle hle', hserved.between ?_ ?_ rfl⟩
  · exact unmoved_of_eq rfl rfl (Nat.le_refl _)
  · exact (Grounded.structural.idle.thread u _ hserved.level.grounded).coherent

/-- If such a request has put nothing off, what its last session knows of a
class is what the slots say, unless it has passed the class over. -/
theorem agrees_of_resolveDesignation (hw : w.Grounded) (hquiet : setup.Quiet)
    (hu : w.Registered goal.unit) (hfile : goal.isFile = false)
    (hp : .extensionAnnotations < phase) (hbehind : ¬ phase ≤ w.current goal)
    (hrun : resolveDesignation setup goal phase cancellable w = (.ok (), w'))
    (hzero : w'.counters.deferred = w.counters.deferred) {b : Symbol}
    {r : Computed} (hr : w'.session.result? b = some r) : w'.Agrees b r := by
  obtain ⟨v, hle, hserved⟩ := hw.served_of_resolveDesignation hquiet hu hfile hp
    hbehind hrun
  have hsince := hserved.level.since
  exact hserved.level.agrees (by omega) b r hr

end World.Grounded

end StagedResolve
