/-
What a resolver is set up with.

Besides its tunables a resolver takes two things from outside: hooks,
which are called for every declaration a phase has worked on, before
anything of the phase is committed, and the inference of types that were
not written. A hook acts on the world under the lock of the unit and may
fail the phase; inference only answers.
-/
import StagedResolve.Scope

namespace StagedResolve

-- ============================================================= tunables

/-- The tunables of a resolver. -/
structure Config where
  /-- How often, in milliseconds, a cancellable wait looks at the token. -/
  pollMillis : Nat
  /-- Whether the markers of a designation are checked after each phase. -/
  checkInvariants : Bool
  /-- Packages that every file imports, searched last. -/
  defaultImports : List String
  /-- How many computations a supertype session begins between two looks at the token. -/
  interval : Nat
  deriving DecidableEq, Repr

namespace Config

/-- The tunables nobody has touched. -/
def default : Config :=
  { pollMillis := 10, checkInvariants := true, defaultImports := ["builtins"], interval := 16 }

instance : Inhabited Config := ⟨default⟩

/-- One more package that every file imports. -/
def addDefaultImport (c : Config) (package : String) : Config :=
  { c with defaultImports := c.defaultImports ++ [package] }

/-- Other packages that every file imports. -/
def setDefaultImports (c : Config) (packages : List String) : Config :=
  { c with defaultImports := packages }

/-- Another interval; it is never zero. -/
def setInterval (c : Config) (n : Nat) : Config := { c with interval := max n 1 }

end Config

-- ============================================================ inference

/-- What may be looked at to infer the type of a declaration. -/
structure InferenceRequest where
  unit : CompilationUnit
  decl : Declaration
  /-- The type of the initializer or of the expression body, if there is one. -/
  initializer : Option ResolvedType
  /-- The type of the property that an accessor belongs to. -/
  propertyType : Option ResolvedType
  /-- The type of what returns nothing. -/
  unitType : ResolvedType

/-- Inference answers with a type, or not at all. -/
abbrev Inference := InferenceRequest → Option ResolvedType

namespace Inference

/-- Inference from the syntax: an initializer gives its type, a function without an expression body
returns nothing, a setter returns nothing, and any other accessor has the type of its property. -/
def fromSyntax : Inference := fun r =>
  match r.initializer with
  | some t => some t
  | none =>
    match r.decl.kind with
    | .function | .anonymousFunction =>
      if r.decl.has .expressionBody then none else some r.unitType
    | .accessor => if r.decl.name = some "<set>" then some r.unitType else r.propertyType
    | _ => none

/-- Inference that always answers with the top type. -/
def alwaysAny : Inference := fun _ => some .any

/-- Inference that never answers. -/
def never : Inference := fun _ => none

/-- Inference that answers with an error type whose name spells the request out. -/
def spelled : Inference := fun r =>
  let part (t : Option ResolvedType) := (t.map ResolvedType.text).getD "-"
  some (.error ((r.unit.symbol r.decl.id).text ++ " init=" ++ part r.initializer ++ " property="
    ++ part r.propertyType ++ " unit=" ++ r.unitType.text))

end Inference

-- ================================================================ hooks

/-- What is called for a declaration that a phase has worked on. The guard is one of the unit's own
lock. -/
abbrev Hook := Guard → Phase → CompilationUnit → Declaration → Action Unit

namespace Hook

/-- A hook that writes what it sees to the log. -/
def recorder : Hook := fun _ p u d =>
  Action.update fun w => { w with log := w.log ++ [.seen p (u.symbol d.id)] }

/-- A hook that cancels the token. -/
def canceller : Hook := fun _ _ _ _ =>
  Action.update fun w => { w with thread := { w.thread with token := w.thread.token.cancel } }

/-- A hook that leaves a note on the declaration. -/
def annotator : Hook := fun g p u d =>
  Action.writeSlots g u d.id fun s => s.addDiagnostic ⟨p, .unresolved "note" (.point 1 1)⟩

/-- A hook that fails the phase. -/
def failing : Hook := fun _ p u d => Action.fail (.unexpectedKind (u.symbol d.id) d.kind p)

/-- A hook that is only active in one phase, or for declarations of one name, or both. -/
def only (phase : Option Phase) (name : Option String) (h : Hook) : Hook := fun g p u d =>
  if phase.all (· == p) && name.all (· == d.nameOrKind) then h g p u d else Action.answer ()

end Hook

/-- Everything a resolver is set up with. -/
structure Setup where
  config : Config
  inference : Inference
  /-- The hooks, in the order in which they are called. -/
  hooks : List Hook

/-- A resolver without hooks, with inference from the syntax. -/
def Setup.plain (config : Config) : Setup := ⟨config, .fromSyntax, []⟩

-- ============================================================== context

/-- What the work of a phase goes on in: one unit, under its lock. -/
structure Context where
  setup : Setup
  unit : CompilationUnit
  guard : Guard
  scope : Scope
  /-- Whether the request can be cancelled. -/
  cancellable : Bool

namespace Context

/-- The context for work on a unit. -/
def enter (setup : Setup) (unit : CompilationUnit) (guard : Guard) (cancellable : Bool) :
    Action Context := do
  return ⟨setup, unit, guard, ← Scope.ofUnit unit setup.config.defaultImports, cancellable⟩

/-- The error for a declaration that a phase has no rule for. -/
def unexpected (c : Context) (d : DeclId) (phase : Phase) : ResolveError :=
  .unexpectedKind (c.unit.symbol d) ((c.unit.kind? d).getD default) phase

/-- Call the hooks for a declaration. -/
def runHooks (c : Context) (phase : Phase) (d : DeclId) : Action Unit :=
  match c.unit.decl? d with
  | some x => Action.each (fun h => h c.guard phase c.unit x) c.setup.hooks
  | none => Action.fault .indexOutOfBounds

/-- Resolve a written type inside a declaration, with the committed supertypes. -/
def resolveType (c : Context) (d : DeclId) (t : WrittenType) :
    Action (ResolvedType × List ResolveError) :=
  c.scope.resolve Action.committedSource d .body t

end Context

end StagedResolve
