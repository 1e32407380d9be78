/-
Working on a world from outside.

These are the changes that a caller makes besides asking for phases:
registering, replacing and announcing units, controlling the token,
holding locks, and moving single markers or slots under a lock of the
caller's choice.
-/
import StagedResolve.Resolver

namespace StagedResolve

namespace Action

-- ========================================================= registering

/-- Build a described unit; a description that refers to a declaration that does not exist is a
fault. -/
def draft (spec : UnitSpec) : Action Draft :=
  match spec.draft with
  | .ok d => answer d
  | .error f => fault f

/-- Register a described unit. -/
def addUnit (spec : UnitSpec) : Action (Except RegistryError CompilationUnit) := do
  let d ← draft spec
  fun w =>
    let (r, registry) := w.registry.addUnit d
    (.ok r, { w with registry := registry })

/-- Register a described unit in place of an old one. -/
def replaceUnit (old : UnitId) (spec : UnitSpec) :
    Action (Except RegistryError CompilationUnit) := do
  let d ← draft spec
  fun w =>
    let (r, registry) := w.registry.replaceUnit old d
    (.ok r, { w with registry := registry })

/-- Announce a unit that is built when one of the classifiers it declares is looked up. -/
def addSource (path : String) (declares : List QualifiedName) (spec : UnitSpec) :
    Action Unit := do
  let d ← draft spec
  update fun w => { w with registry := w.registry.addSource path declares d }

/-- The registered unit with an id; a missing one is an error. -/
def unit (id : UnitId) : Action CompilationUnit := do
  match ← unit? id with
  | some u => return u
  | none => fail (.unitNotFound id)

-- ================================================== tokens and other threads

/-- Change what the thread shares with others. -/
def updateThread (f : Thread → Thread) : Action Unit :=
  update fun w => { w with thread := f w.thread }

/-- Change the token. -/
def updateToken (f : Token → Token) : Action Unit :=
  updateThread fun t => { t with token := f t.token }

-- ============================================================ under a lock

/-- Run an action under the lock of a unit. -/
def underLock {α : Type} (id : UnitId) (x : Guard → Action α) : Action α := do
  let g ← lockUnit id
  holding g (x g)

/-- Raise a marker of a declaration under the lock of some unit. Answers where it was. -/
def raiseMarker (s : Symbol) (phase : Phase) (lock : UnitId) (whole : Bool) : Action Phase := do
  let (u, _) ← declaration s
  let locked ← unit lock
  underLock locked.id fun g => do
    let before ← read fun w => if whole then w.below u s.decl else w.own u s.decl
    if whole then raiseBelow g u s.decl phase else raiseOwn g u s.decl phase
    return before

/-- Store a return type of a declaration under the lock of some unit. -/
def storeReturnType (s : Symbol) (type : ResolvedType) (lock : UnitId) : Action Unit := do
  let (u, _) ← declaration s
  let locked ← unit lock
  underLock locked.id fun g =>
    writeSlots g u s.decl fun slots => { slots with returnType := .resolved type }

/-- Resolve the imports of a unit under its lock. -/
def resolveUnitImports (id : UnitId) : Action Bool := do
  let u ← unit id
  underLock id fun g => resolveImports g u

end Action

end StagedResolve
