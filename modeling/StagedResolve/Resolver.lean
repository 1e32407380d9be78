/-
Bringing a declaration to a phase.

A request is answered from the markers alone if they are high enough.
Otherwise the unit is locked, waiting only where the order of units
allows it, the imports of the file are resolved, and the lazy phases
that are missing are run one after the other. A phase is committed when
its whole walk has succeeded and not before, so a request that fails in
a phase leaves the markers of the phases before it.

A file is a target of its own kind: beyond its imports only its
annotations are resolved.
-/
import StagedResolve.Walk

namespace StagedResolve

namespace Action

-- ========================================================== one phase

/-- A broken promise about the markers of a designation after a phase, if there is one. -/
def markerFault? (w : World) (goal : Designation) (phase : Phase) : Option Fault :=
  let u := goal.unit
  if w.own u .root < .lastFileWide then some (.importsBehind u.id phase)
  else
    match goal.path.find? fun d => decide (w.own u d < phase) with
    | some d => some (.pathMemberBehind (u.symbol d) (w.own u d) phase)
    | none =>
      if w.own u goal.target < phase || w.below u goal.target < phase then
        some (.targetBehind goal.symbol (w.own u goal.target) (w.below u goal.target) phase)
      else none

/-- Make sure that a phase has reached everything it was committed for. -/
def checkMarkers (goal : Designation) (phase : Phase) : Action Unit := do
  match ← read fun w => markerFault? w goal phase with
  | some f => fault f
  | none => return ()

/-- Run one lazy phase for a designation and commit it. -/
def runPhase (setup : Setup) (goal : Designation) (g : Guard) (cancellable : Bool)
    (phase : Phase) : Action Unit := do
  match phase.rule? with
  | none => return ()
  | some rule =>
    let c ← Context.enter setup goal.unit g cancellable
    updateSession fun _ => .start
    let visits ← Walk.run rule c goal
    visits.commit g goal.unit phase
    count fun n => n.countCommit phase
    if setup.config.checkInvariants then checkMarkers goal phase

/-- Run the given phases for a designation, looking at the token before each of them. -/
def runPhases (setup : Setup) (goal : Designation) (g : Guard) (cancellable : Bool)
    (phases : List Phase) : Action Unit :=
  each (fun p => do
    checkCancelled cancellable p
    runPhase setup goal g cancellable p) phases

/-- Resolve the annotations of a file in the name of a phase, unless it has reached the phase. -/
def resolveFileAnnotations (setup : Setup) (u : CompilationUnit) (g : Guard) (phase : Phase) :
    Action Unit := do
  if (← read fun w => w.own u .root) ≥ phase then return ()
  let c ← Context.enter setup u g false
  c.resolveAnnotations .root phase
  raiseOwn g u .root phase

-- ============================================================ requests

/-- The lock for a request. A unit that may not be waited for is attempted once; if it is busy the
request is refused. -/
def lockForRequest (u : UnitId) (phase : Phase) (cancellable : Bool) : Action Guard := do
  let mayWait ← read fun w => w.thread.owns (.ofUnit u) || w.thread.mayWaitFor u
  if mayWait then
    if cancellable then lockUnitCancellable u phase else lockUnit u
  else
    let held ← read fun w => w.thread.highest?.getD u
    match ← lockUnitOrdered u with
    | some g => return g
    | none => fail (.lockOrderViolation u held)

/-- What a request does once its unit is locked. -/
def resolveLocked (setup : Setup) (goal : Designation) (phase : Phase) (cancellable : Bool)
    (g : Guard) : Action Unit := do
  let _ ← resolveImports g goal.unit
  if goal.isFile then
    let reached ← read fun w => w.own goal.unit .root
    if .lastFileWide < phase && reached < phase then
      checkCancelled cancellable phase
      resolveFileAnnotations setup goal.unit g phase
  else
    let current ← read fun w => w.current goal
    if current ≥ phase then count Counters.countAlreadyResolved
    else
      runPhases setup goal g cancellable ((max current .lastFileWide).stepsTo phase)

/-- Resolve a designation under the lock of its unit. -/
def resolveUnderLock (setup : Setup) (goal : Designation) (phase : Phase) (cancellable : Bool) :
    Action Unit := do
  let g ← lockForRequest goal.unit.id phase cancellable
  holding g (resolveLocked setup goal phase cancellable g)

/-- Count a cancellation if an action ends with one. -/
def countingCancellation (x : Action Unit) : Action Unit := do
  match ← attempt x with
  | .ok () => return ()
  | .error f => do
    if f.isCancelled then count Counters.countCancellation
    stop f

/-- Bring the target of a designation to a phase. -/
def resolveDesignation (setup : Setup) (goal : Designation) (phase : Phase) (cancellable : Bool) :
    Action Unit := do
  if (← read fun w => w.current goal) ≥ phase then count Counters.countAlreadyResolved
  else countingCancellation (resolveUnderLock setup goal phase cancellable)

/-- Bring a declaration to a phase, or its nearest container outside executable code if that is
allowed. Nothing is to be done for the first phase, nor for a declaration that does not go through
the phases. -/
def request (setup : Setup) (allowLocal : Bool) (s : Symbol) (phase : Phase)
    (cancellable : Bool) : Action Unit := do
  count Counters.countRequest
  if phase = .raw then return ()
  let (u, d) ← declaration s
  if !d.isEligible then return ()
  let goal ← ofExcept (u.designateWith allowLocal s.decl)
  resolveDesignation setup goal phase cancellable

/-- Bring a declaration, and the chain of declarations it depends on, to at least a phase. -/
def resolve (setup : Setup) : Symbol → Phase → (cancellable : Bool) → Action Unit :=
  request setup false

/-- The same, except that a declaration in executable code has its nearest container outside
resolved instead of being refused. -/
def resolveEnclosing (setup : Setup) : Symbol → Phase → (cancellable : Bool) → Action Unit :=
  request setup true

/-- Resolve the imports and the annotations of a file. -/
def resolveFile (setup : Setup) (id : UnitId) : Action Unit := do
  match ← unit? id with
  | none => fail (.unitNotFound id)
  | some u =>
    let g ← lockUnit id
    holding g do
      let _ ← resolveImports g u
      resolveFileAnnotations setup u g .bodies

end Action

-- ============================================================= answers

namespace World

/-- Whether a declaration is known to be resolved to at least a phase. This reads markers only; what
is not registered is never resolved, and what does not go through the phases always is. -/
def isAtLeast (w : World) (s : Symbol) (phase : Phase) : Bool :=
  match w.registry.declaration s with
  | .error _ => false
  | .ok (u, d) => !d.isEligible || decide (phase ≤ w.reached u s.decl)

end World

end StagedResolve
