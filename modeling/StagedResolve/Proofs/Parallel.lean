/-
Whole requests, in two runs side by side.

# The steps

Two runs that agree about the units, the states of declarations and the
session may still differ in their locks, their tokens and their counters.
Most of a request does not notice: it reads what both agree on, and writes
the same in both (`SideBySide.Agrees`); and apart from sessions and from the
hierarchy it reads and writes the unit at hand alone, so it does not matter
either what else the runs agree about (`SideBySide.Shares`). The one place where a phase looks
at the locks is where another unit is locked to write results back. A
relation that survives this too (`SideBySide.Phases`) survives every
phase; one that also survives that the lock of the unit at hand is taken
and dropped survives a request (`SideBySide.Requests`).

How many requests there were, and how many of them the markers answered,
is about the requests and not about what they do, so it is set aside
where counters are compared (`Counters.work`).
-/
import StagedResolve.Proofs.Designations
import StagedResolve.Proofs.Registries
import StagedResolve.Proofs.Sessions
import StagedResolve.Proofs.Walks
import StagedResolve.Resolver

namespace StagedResolve

open StagedResolve.Action

/-- What was counted, apart from the requests themselves. -/
def Counters.work (c : Counters) : Counters :=
  { c with requests := 0, alreadyResolved := 0 }

/-- The runs agree about the states in some units, and the relation survives
what is done to those and does not depend on other threads. -/
structure SideBySide.Shares (p : SideBySide) (setup : Setup)
    (cancellable : Bool) (common : CompilationUnit → Prop) : Prop
    extends p.Lookups where
  stop : ∀ v w, p.along v w → p.failed v w
  state : ∀ v w u d, p.along v w → common u → v.state u d = w.state u d
  write : ∀ g u d f, common u → Keeps p (Action.writeState g u d f)
  /-- Whatever is counted, as long as it does not depend on the number of
  requests; what was put off is not forgotten. -/
  count : ∀ f : Counters → Counters, (∀ c, (f c).work = (f c.work).work) →
    (∀ c, c.deferred ≤ (f c).deferred) → Keeps p (Action.count f)
  check : ∀ phase, Keeps p (Action.checkCancelled cancellable phase)
  hooks : ∀ h ∈ setup.hooks, ∀ g phase u x, Keeps p (h g phase u x)

/-- The runs agree about units, states and the session, and the relation
survives what does not depend on other threads. -/
structure SideBySide.Agrees (p : SideBySide) (setup : Setup)
    (cancellable : Bool) : Prop
    extends p.Shares setup cancellable fun _ => True where
  named : ∀ v w id u, p.along v w → w.registry.unit? id = some u → u.id = id
  session : ∀ v w, p.along v w → v.session = w.session
  update : ∀ f, Keeps p (Action.updateSession f)

/-- The relation survives writing to other units as well, and putting that
off. -/
structure SideBySide.Phases (p : SideBySide) (setup : Setup)
    (cancellable : Bool) : Prop extends p.Agrees setup cancellable where
  elsewhere : ∀ id u classes, Keeps p (do
    match ← Action.lockUnitOrdered id with
    | some g => Action.holding g (Action.each (Action.applyTo g u) classes)
    | none => Action.count Counters.countDeferred)

namespace SideBySide.Shares

variable {p : SideBySide} {setup : Setup} {cancellable : Bool}
  {common : CompilationUnit → Prop} {v w : World} {u : CompilationUnit}
  {goal : Designation}

-- ============================================================ what is read

theorem own (hp : p.Shares setup cancellable common) (h : p.along v w)
    (hu : common u) (d : DeclId) : v.own u d = w.own u d := by
  rw [World.own, World.own, hp.state v w u d h hu]

theorem below (hp : p.Shares setup cancellable common) (h : p.along v w)
    (hu : common u) (d : DeclId) : v.below u d = w.below u d := by
  rw [World.below, World.below, hp.state v w u d h hu]

theorem slots (hp : p.Shares setup cancellable common) (h : p.along v w)
    (hu : common u) (d : DeclId) : v.slots u d = w.slots u d := by
  rw [World.slots, World.slots, hp.state v w u d h hu]

theorem clause (hp : p.Shares setup cancellable common) (h : p.along v w)
    (hu : common u) (d : DeclId) : v.clause u d = w.clause u d := by
  rw [World.clause, World.clause, hp.slots h hu]

theorem current (hp : p.Shares setup cancellable common) (h : p.along v w)
    (hu : common goal.unit) : v.current goal = w.current goal := by
  have hbelow : v.below goal.unit = w.below goal.unit :=
    funext fun d => hp.below h hu d
  simp only [World.current, World.reached, hp.own h hu, hbelow]

theorem markerFault? (hp : p.Shares setup cancellable common)
    (h : p.along v w) (hu : common goal.unit) (phase : Phase) :
    Action.markerFault? v goal phase = Action.markerFault? w goal phase := by
  simp only [Action.markerFault?, hp.own h hu, hp.below h hu]

/-- Reading markers. -/
theorem readOwn (hp : p.Shares setup cancellable common) (hu : common u)
    (d : DeclId) : Keeps p (Action.read fun w => w.own u d) :=
  .read fun _ _ h => hp.own h hu d

-- ================================================== the parts of a phase

/-- Marking the members of a class. -/
theorem markMembers (hp : p.Shares setup cancellable common) (hu : common u)
    (g : Guard) (owner : DeclId) : Keeps p (Action.markMembers g u owner) :=
  .each fun _ _ => .bind (hp.write g u _ _ hu) fun _ => hp.write g u _ _ hu

/-- Writing the result of one class back, where the session is the same. -/
theorem applyTo (hp : p.Shares setup cancellable common) (hu : common u)
    (hsession : ∀ v w, p.along v w → v.session = w.session) (g : Guard)
    (c : Symbol) : Keeps p (Action.applyTo g u c) := by
  refine .bind (.read fun v w h => by rw [hsession v w h]) fun result => ?_
  cases result with
  | none => exact .pure
  | some r =>
      refine .bind (hp.readOwn hu c.decl) fun own => ?_
      split
      · exact .pure
      · refine .bind (hp.write g u _ _ hu) fun _ => ?_
        refine .bind (hp.write g u _ _ hu) fun _ => ?_
        refine .bind (.read fun v w h => by rw [hsession v w h]) fun seed => ?_
        split
        · exact hp.markMembers hu g _
        · exact .pure

/-- The work of every phase but the supertype phase, where the hierarchy is
the same. -/
theorem work (hp : p.Shares setup cancellable common) {c : Context}
    (hu : common c.unit) (hsource : ∀ v w s, p.along v w →
      v.committedClasses s = w.committedClasses s) :
    p.Work c fun _ => True where
  toLookups := hp.toLookups
  stop := hp.stop
  slots := fun _ _ d h => hp.slots h hu d
  source := fun s => .read fun v w h => hsource v w s h
  write := fun d _ _ _ => hp.write c.guard c.unit d _ hu

/-- Raising the markers of what a walk came by. -/
theorem commit (hp : p.Shares setup cancellable common) (hu : common u)
    (v : Visits) (g : Guard) (phase : Phase) : Keeps p (v.commit g u phase) :=
  .bind (.each fun _ _ => hp.write g u _ _ hu) fun _ =>
    .each fun _ _ => .bind (hp.write g u _ _ hu) fun _ => hp.write g u _ _ hu

/-- The check of what a phase has marked. -/
theorem checkMarkers (hp : p.Shares setup cancellable common)
    (hu : common goal.unit) (phase : Phase) :
    Keeps p (Action.checkMarkers goal phase) := by
  refine .bind (.read fun v w h => hp.markerFault? h hu phase) fun found => ?_
  cases found with
  | none => exact .pure
  | some f => exact .stop hp.stop

/-- Entering a unit, and what is done there in its context. -/
theorem enter (hp : p.Shares setup cancellable common) {β : Type}
    {f : Context → Action β} (hu : common u) (g : Guard) (b : Bool)
    {q : SideBySide} (hpq : p.Weakens q)
    (hf : ∀ c, c.setup = setup → c.unit = u → c.cancellable = b →
      Leads p q (f c)) :
    Leads p q (Context.enter setup u g b >>= f) := by
  unfold Context.enter
  rw [bind_assoc]
  refine .bind (hp.toLookups.ofUnit _ fun v w h => by
    rw [hp.slots h hu]).leads (fun scope => ?_) hpq
  exact hf _ rfl rfl rfl

/-- The imports of a file. -/
theorem resolveImports (hp : p.Shares setup cancellable common)
    (hu : common u) (g : Guard) : Keeps p (Action.resolveImports g u) := by
  refine .bind (hp.readOwn hu .root) fun own => ?_
  split
  · exact .pure
  · refine .bind (hp.toLookups.importDirectives _ _) fun r => ?_
    refine .bind (hp.write g u _ _ hu) fun _ => ?_
    exact .bind (hp.write g u _ _ hu) fun _ => .pure

/-- The annotations of a file. -/
theorem resolveFileAnnotations (hp : p.Shares setup cancellable common)
    (hu : common u) (hsource : ∀ v w s, p.along v w →
      v.committedClasses s = w.committedClasses s) (g : Guard)
    (phase : Phase) :
    Keeps p (Action.resolveFileAnnotations setup u g phase) := by
  refine .bind (hp.readOwn hu .root) fun own => ?_
  split
  · exact .pure
  · refine (hp.enter hu g false (.refl p) fun c _ hunit _ => ?_).keeps
    subst hunit
    refine (Keeps.bind ((hp.work hu hsource).resolveAnnotations trivial phase)
      fun _ => ?_).leads
    exact hp.write g c.unit _ _ hu

/-- A request for something that belongs to a whole file. -/
theorem resolveLocked_file (hp : p.Shares setup cancellable common)
    (hu : common goal.unit) (hsource : ∀ v w s, p.along v w →
      v.committedClasses s = w.committedClasses s)
    (hfile : goal.isFile = true) (phase : Phase) (g : Guard) :
    Keeps p (Action.resolveLocked setup goal phase cancellable g) := by
  refine .bind (hp.resolveImports hu g) fun _ => ?_
  rw [if_pos hfile]
  refine .bind (hp.readOwn hu .root) fun reached => ?_
  split
  · exact .bind (hp.check phase) fun _ =>
      hp.resolveFileAnnotations hu hsource g phase
  · exact .pure

/-- The hooks for a declaration. -/
theorem runHooks (hp : p.Shares setup cancellable common) {c : Context}
    (hsetup : c.setup = setup) (phase : Phase) (d : DeclId) :
    Keeps p (c.runHooks phase d) := by
  unfold Context.runHooks
  split
  · exact .each fun h hh => hp.hooks h (hsetup ▸ hh) _ _ _ _
  · exact .stop hp.stop

/-- A phase for a designation, from one relation to another that holds once
the session has started afresh and that the walk keeps. -/
theorem runPhase {q : SideBySide} (hp : p.Shares setup cancellable common)
    (hq : q.Shares setup cancellable common) (hu : common goal.unit)
    (hpq : p.Weakens q)
    (hstart : Leads p q (Action.updateSession fun _ => .start)) (g : Guard)
    {phase : Phase} (hwalk : ∀ c rule, phase.rule? = some rule →
      c.setup = setup → c.unit = goal.unit → c.cancellable = cancellable →
      Walk.Keeps q rule c fun _ => True) :
    Leads p q (Action.runPhase setup goal g cancellable phase) := by
  unfold Action.runPhase
  cases hrule : phase.rule? with
  | none => exact Keeps.pure.leads.post hpq
  | some rule =>
      refine hp.enter hu g cancellable hpq fun c hsetup hunit hc => ?_
      refine .bind hstart (fun _ => Keeps.leads ?_) (.refl q)
      refine .bind ((hwalk c rule hrule hsetup hunit hc).run
        (hunit ▸ .anywhere _ goal)) fun visits => ?_
      refine .bind (hq.commit hu visits g phase) fun _ => ?_
      refine .bind (hq.count _ (fun _ => rfl) fun _ => Nat.le_refl _) fun _ => ?_
      split
      · exact hq.checkMarkers hu phase
      · exact .pure

end SideBySide.Shares

namespace SideBySide.Agrees

variable {p : SideBySide} {setup : Setup} {cancellable : Bool}

/-- Computing clauses, about all of which the runs agree. -/
theorem computes (hp : p.Agrees setup cancellable) :
    p.Computes fun _ => False where
  toLookups := hp.toLookups
  stop := hp.stop
  named := hp.named
  session := hp.session
  met := fun _ _ _ _ h => h.elim
  update := fun f _ => hp.update f
  imports := fun v w u h _ => by rw [hp.slots h trivial]
  clause := fun v w u d h _ _ _ => ⟨hp.clause h trivial d, hp.own h trivial d⟩
  round := hp.count _ (fun _ => rfl) fun _ => Nat.le_refl _

/-- Writing the result of one class back. -/
theorem applyTo (hp : p.Agrees setup cancellable) (g : Guard)
    (u : CompilationUnit) (c : Symbol) : Keeps p (Action.applyTo g u c) :=
  hp.toShares.applyTo trivial hp.session g c

/-- The runs agree about the hierarchy. -/
theorem committedClasses (hp : p.Agrees setup cancellable) {v w : World}
    (h : p.along v w) (s : Symbol) :
    v.committedClasses s = w.committedClasses s := by
  simp only [World.committedClasses, hp.registry v w h, hp.clause h trivial]

end SideBySide.Agrees

namespace SideBySide.Phases

variable {p : SideBySide} {setup : Setup} {cancellable : Bool}

/-- Writing the results for one unit back, or putting them off. -/
theorem applyUnit (hp : p.Phases setup cancellable) (c : Context)
    (id : UnitId) (classes : List Symbol) :
    Keeps p (Action.applyUnit c id classes) := by
  unfold Action.applyUnit
  split
  · exact .each fun b _ => hp.applyTo c.guard c.unit b
  · refine .bind (hp.computes.sessionUnit? id) fun found => ?_
    cases found with
    | none => exact .pure
    | some u =>
        exact hp.elsewhere id u classes

/-- Writing all results back. -/
theorem applyResults (hp : p.Phases setup cancellable) (c : Context) :
    Keeps p (Action.applyResults c) := by
  refine .bind (hp.computes.readSession _) fun pending => ?_
  refine .each fun id _ => ?_
  exact .bind (hp.applyUnit c id _) fun _ => hp.update _

/-- The whole session for some classes. -/
theorem resolveSupertypes (hp : p.Phases setup cancellable) (c : Context)
    (hc : c.cancellable = cancellable) (seeds : List Symbol) :
    Keeps p (Action.resolveSupertypes c seeds) := by
  refine .bind (hp.update _) fun _ => ?_
  refine .bind hp.computes.readBound fun bound => ?_
  refine .bind (hp.computes.computeRounds _ (hc ▸ hp.check _) bound seeds)
    fun _ => ?_
  exact .bind (hp.update _) fun _ => hp.applyResults c

/-- A walk. -/
theorem walk (hp : p.Phases setup cancellable) {c : Context}
    (hsetup : c.setup = setup) (hc : c.cancellable = cancellable)
    {phase : Phase} {rule : PhaseRule} (hrule : phase.rule? = some rule) :
    Walk.Keeps p rule c fun _ => True := by
  refine .of_rule hrule (hp.work trivial fun _ _ s h =>
    hp.committedClasses h s).tasks (fun v w d h => hp.own h trivial d)
    (fun v w d h => hp.below h trivial d) (fun q d _ => hp.runHooks hsetup q d)
    fun d _ => ?_
  unfold PhaseRule.classSupertypes
  split
  · exact hp.resolveSupertypes c hc _
  · exact .pure

/-- A phase for a designation. -/
theorem runPhase (hp : p.Phases setup cancellable) (goal : Designation)
    (g : Guard) (phase : Phase) :
    Keeps p (Action.runPhase setup goal g cancellable phase) :=
  (hp.toShares.runPhase hp.toShares trivial (.refl p) (hp.update _).leads g
    fun _ _ hrule hsetup _ hc => hp.walk hsetup hc hrule).keeps

/-- Phases one after the other. -/
theorem runPhases (hp : p.Phases setup cancellable) (goal : Designation)
    (g : Guard) (phases : List Phase) :
    Keeps p (Action.runPhases setup goal g cancellable phases) :=
  .each fun phase _ => .bind (hp.check phase) fun _ => hp.runPhase goal g phase

/-- All that is done once the unit is locked. -/
theorem resolveLocked (hp : p.Phases setup cancellable) (goal : Designation)
    (phase : Phase) (g : Guard) :
    Keeps p (Action.resolveLocked setup goal phase cancellable g) := by
  cases hfile : goal.isFile with
  | true =>
      exact hp.resolveLocked_file trivial (fun _ _ s h =>
        hp.committedClasses h s) hfile phase g
  | false =>
      refine .bind (hp.resolveImports trivial g) fun _ => ?_
      rw [if_neg (by rw [hfile]; exact Bool.false_ne_true)]
      refine .bind (.read fun v w h => hp.current h trivial) fun current => ?_
      split
      · exact hp.count _ (fun _ => rfl) fun _ => Nat.le_refl _
      · exact hp.runPhases goal g _

end SideBySide.Phases

-- ============================================================== a request

/-- The relation survives that the lock of the unit at hand is taken and
dropped, and it holds after failures as well. -/
structure SideBySide.Requests (p : SideBySide) (setup : Setup)
    (cancellable : Bool) : Prop extends p.Phases setup cancellable where
  together : ¬ p.alone
  failed : ∀ v w, p.failed v w → p.along v w
  lock : ∀ id phase, Keeps p (Action.lockForRequest id phase cancellable)
  holding : ∀ g (x : Action Unit), Keeps p x → Keeps p (Action.holding g x)

namespace SideBySide.Requests

variable {p : SideBySide} {setup : Setup} {cancellable : Bool}

/-- Counting a cancellation, if there was one. -/
theorem countingCancellation (hp : p.Requests setup cancellable)
    {x : Action Unit} (hx : Keeps p x) :
    Keeps p (Action.countingCancellation x) := by
  have hattempt : Keeps p (Action.attempt x) := by
    refine ⟨hx.gone, fun v w hvw => (hx.run v w hvw).imp_right fun hm => ?_⟩
    unfold Action.attempt
    rcases hv : x v with ⟨e | a, v'⟩ <;> rcases hw : x w with ⟨f | b, w'⟩ <;>
      rw [hv, hw] at hm
    · obtain ⟨rfl, hfailed⟩ := hm.resolve_left hp.together
      exact ⟨rfl, hp.failed v' w' hfailed⟩
    · exact (hp.together hm).elim
    · exact (hp.together hm).elim
    · exact ⟨by rw [hm.1], hm.2⟩
  refine .bind hattempt fun r => ?_
  cases r with
  | ok a => exact .pure
  | error f =>
      dsimp only
      split
      · exact .bind (hp.count _ (fun _ => rfl) fun _ => Nat.le_refl _) fun _ =>
          .stop hp.stop
      · exact .stop hp.stop

/-- Bringing a designation to a phase. -/
theorem resolveDesignation (hp : p.Requests setup cancellable)
    (goal : Designation) (phase : Phase) :
    Keeps p (Action.resolveDesignation setup goal phase cancellable) := by
  refine .bind (.read fun v w h => hp.current h trivial) fun current => ?_
  split
  · exact hp.count _ (fun _ => rfl) fun _ => Nat.le_refl _
  · refine hp.countingCancellation (.bind (hp.lock _ phase) fun g => ?_)
    exact hp.holding g _ (hp.resolveLocked goal phase g)

/-- A request. -/
theorem request (hp : p.Requests setup cancellable) (allowLocal : Bool)
    (s : Symbol) (phase : Phase) :
    Keeps p (Action.request setup allowLocal s phase cancellable) := by
  refine .bind (hp.count _ (fun _ => rfl) fun _ => Nat.le_refl _) fun _ => ?_
  split
  · exact .pure
  have hdeclaration : Keeps p (Action.declaration s) := by
    refine ⟨fun w hw => ?_, fun v w hvw => Or.inr ?_⟩ <;>
      unfold Action.declaration
    · cases w.registry.declaration s <;> exact hw
    · rw [hp.registry v w hvw]
      cases w.registry.declaration s with
      | error e => exact Or.inr ⟨rfl, hp.stop v w hvw⟩
      | ok r => exact ⟨rfl, hvw⟩
  refine .bind hdeclaration fun r => ?_
  obtain ⟨u, x⟩ := r
  dsimp only
  split
  · exact .pure
  · rcases u.designateWith allowLocal s.decl with e | goal
    · exact .bind (.stop hp.stop) fun goal => hp.resolveDesignation goal phase
    · exact hp.resolveDesignation goal phase

end SideBySide.Requests

end StagedResolve
