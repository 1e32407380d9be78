/-
Looking at single parts of a resolution.

A supertype session can be run by itself from chosen seeds, and a walk
can be run along a designation made by hand, with the rule of a phase or
with one that does nothing. Both go on under the lock of the unit, and
neither touches the counters of the resolver.
-/
import StagedResolve.Workspace

namespace StagedResolve

-- ================================================================ names

namespace Action

/-- The scope of the unit that a declaration belongs to. -/
def scopeAt (config : Config) (s : Symbol) : Action Scope := do
  let (u, _) ← declaration s
  Scope.ofUnit u config.defaultImports

/-- What names mean at a declaration, with the committed supertypes. -/
def lookupNames (config : Config) (s : Symbol) (position : Position) (names : List String) :
    Action (List (Option Meaning)) := do
  let sc ← scopeAt config s
  collect (fun n => sc.lookup committedSource s.decl n position) names

/-- What a type resolves to at a declaration; nothing is stored. -/
def resolveTypeAt (config : Config) (s : Symbol) (position : Position) (t : WrittenType) :
    Action (ResolvedType × List ResolveError) := do
  let sc ← scopeAt config s
  sc.resolve committedSource s.decl position t

/-- The type of a built-in class as a unit sees it. -/
def builtinIn (config : Config) (id : UnitId) (name : String) : Action ResolvedType := do
  let sc ← Scope.ofUnit (← unit id) config.defaultImports
  sc.builtin name

/-- A fresh import table of a unit with what is wrong in it, and the table its scope uses. -/
def importTables (config : Config) (id : UnitId) :
    Action ((ImportTable × List ResolveError) × ImportTable) := do
  let u ← unit id
  let fresh ← importTable u
  let sc ← Scope.ofUnit u config.defaultImports
  return (fresh, sc.imports)

-- ============================================================= sessions

/-- Run an action with counters of its own, and answer with them. -/
def withOwnCounters {α : Type} (x : Action α) : Action (α × Counters) := fun w =>
  match x { w with counters := .zero } with
  | (.ok a, w') => (.ok (a, w'.counters), { w' with counters := w.counters })
  | (.error e, w') => (.error e, { w' with counters := w.counters })

end Action

/-- What one run of a session came to. -/
structure SessionRun where
  result : Except ResolveError Unit
  /-- How many classes the session has met so far. -/
  met : Nat
  /-- How many rounds there have been so far. -/
  rounds : Nat

/-- What a session came to. -/
structure SessionOutcome where
  runs : List SessionRun
  /-- The classes that each class asked about refers to. -/
  classes : List (List Symbol)
  /-- The supertypes of each class asked about, as far as they were computed. -/
  supertypes : List (Option (List ResolvedType))

namespace Action

/-- Answer with the error of resolving that an action ends with; faults go on. -/
def catchError {α : Type} (x : Action α) : Action (Except ResolveError α) := do
  match ← attempt x with
  | .ok a => return .ok a
  | .error (.error e) => return .error e
  | .error (.fault f) => fault f

/-- Run a session from lists of seeds, one after the other, and then ask it about classes. -/
def inspectSession (config : Config) (id : UnitId) (seeds : List (List Symbol))
    (query classes : List Symbol) (cancellable : Bool) : Action (SessionOutcome × Counters) := do
  let u ← unit id
  underLock id fun g => withOwnCounters do
    let c ← Context.enter (.plain config) u g cancellable
    updateSession fun _ => .start
    let runs ← collect (fun some => do
      let result ← catchError (resolveSupertypes c some)
      let met ← session fun s => s.order.length
      let rounds ← read fun w => w.counters.supertypeRounds
      return (⟨result, met, rounds⟩ : SessionRun)) seeds
    let found ← collect (sessionSource config.defaultImports) classes
    let supertypes ← collect (fun s => session fun m => m.supertypes? s) query
    return ⟨runs, found, supertypes⟩

-- ================================================================ walks

/-- Walk along a designation made by hand with a rule that does nothing. -/
def inspectWalk (config : Config) (goal : Designation) (phase : Phase) (inBodies commit : Bool)
    (cancellable : Bool) : Action Visits :=
  underLock goal.unit.id fun g => do
    let c ← Context.enter (.plain config) goal.unit g cancellable
    let visits ← Walk.run (.idle phase inBodies) c goal
    if commit then visits.commit g goal.unit phase
    return visits

/-- Walk along a designation made by hand with the rule of a phase, if the phase has one. -/
def inspectPhase (config : Config) (goal : Designation) (phase : Phase) (commit : Bool)
    (cancellable : Bool) : Action (Option Visits) :=
  underLock goal.unit.id fun g => do
    let (visits, _) ← withOwnCounters do
      let c ← Context.enter (.plain config) goal.unit g cancellable
      updateSession fun _ => .start
      match phase.rule? with
      | none => return none
      | some rule => return some (← Walk.run rule c goal)
    match visits with
    | none => return none
    | some v =>
      if commit then v.commit g goal.unit phase
      return some v

end Action

end StagedResolve
