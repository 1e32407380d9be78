/-
Declarations, split into what never changes and what resolution fills in.

A `Declaration` is structure: its kind, its place in the tree and
everything that was written, fixed once the unit is built. A `DeclState`
is what the phases produce: two markers that only rise and the slots. A
declaration tells its own first state (`initialState`), so a state has
to be stored only once it differs from that.
-/
import StagedResolve.Failure
import StagedResolve.Name
import StagedResolve.ResolvedType
import StagedResolve.Table

namespace StagedResolve

-- =========================================================== imports

/-- An import directive of a file. -/
structure ImportDirective where
  /-- The full name of a classifier, or of a package for a star import. -/
  path : String
  /-- The name that the classifier has in the file, where the directive gives it another one. -/
  otherName : Option String
  /-- Whether a package is imported as a whole. -/
  isStar : Bool
  span : Span
  deriving DecidableEq, Repr, Inhabited

/-- The name that a directive introduces into the file; a star import introduces none by
itself. -/
def ImportDirective.importedName? (d : ImportDirective) : Option String :=
  if d.isStar then none
  else some (d.otherName.getD ((segments d.path).getLastD ""))

/-- What the imports of a file refer to. -/
structure ImportTable where
  /-- The classifiers imported one by one, under the names they have in the file. -/
  explicit : Table String Symbol
  /-- The packages imported as a whole, in the order of their directives. -/
  stars : List String
  deriving DecidableEq, Repr

/-- The table of a file without imports. -/
def ImportTable.empty : ImportTable := ⟨.empty, []⟩

instance : Inhabited ImportTable := ⟨.empty⟩

-- ============================================================= slots

/-- The resolution results of a declaration. -/
structure Slots where
  /-- The supertype clause of a class. -/
  supertypes : List Slot
  /-- The type of a value, or the return type of a callable. -/
  returnType : Slot
  receiver : Option Slot
  /-- The right-hand side of a type alias. -/
  expansion : Option Slot
  /-- The upper bounds of a type parameter. -/
  bounds : List Slot
  annotations : List Slot
  status : Option Status
  contract : Option (List ResolvedEffect)
  /-- The import table; only files have one. -/
  imports : Option ImportTable
  bodyResolved : Bool
  diagnostics : List Diagnostic
  deriving DecidableEq, Repr

namespace Slots

/-- Slots in which nothing was written. -/
def empty : Slots :=
  { supertypes := [], returnType := .implicit, receiver := none, expansion := none, bounds := [],
    annotations := [], status := none, contract := none, imports := none, bodyResolved := false,
    diagnostics := [] }

instance : Inhabited Slots := ⟨empty⟩

/-- Record a diagnostic unless the same one is already recorded. -/
def addDiagnostic (s : Slots) (d : Diagnostic) : Slots :=
  if s.diagnostics.contains d then s else { s with diagnostics := s.diagnostics ++ [d] }

/-- Record errors found by a phase, in order. -/
def report (s : Slots) (phase : Phase) : List ResolveError → Slots
  | [] => s
  | e :: rest => (s.addDiagnostic ⟨phase, e⟩).report phase rest

end Slots

-- ====================================================== declarations

/-- A node of the declaration tree of a unit. -/
structure Declaration where
  id : DeclId
  kind : DeclKind
  name : Option String
  parent : Option DeclId
  children : List DeclId
  origin : Origin
  modifiers : List Modifier
  classKind : Option ClassKind
  /-- The syntax node the declaration stands for. -/
  node : NodeId
  /-- The node belongs to another declaration and was only borrowed. -/
  isBorrowed : Bool
  /-- The name of a classifier that can be found from everywhere. -/
  qualifiedName : Option QualifiedName
  /-- Nested in executable code. -/
  isLocal : Bool
  /-- The type of the initializer or of the expression body, if it is known from the syntax. -/
  initializer : Option WrittenType
  contract : List WrittenEffect
  /-- The slots as they were written. -/
  written : Slots
  deriving DecidableEq, Repr, Inhabited

/-- How far a declaration was resolved, and to what. -/
structure DeclState where
  /-- The phase the declaration itself has reached. -/
  own : Phase
  /-- The phase that the declaration and everything to be resolved below it have reached. -/
  below : Phase
  slots : Slots
  deriving DecidableEq, Repr, Inhabited

namespace Declaration

/-- Whether the declaration goes through the phases. -/
def isEligible (d : Declaration) : Bool := d.origin.isEligible

/-- Where the markers of a declaration start: one that does not go through the phases is resolved
from the start. -/
def startPhase (d : Declaration) : Phase := if d.isEligible then .raw else .bodies

/-- The state of a declaration that nobody has touched. -/
def initialState (d : Declaration) : DeclState := ⟨d.startPhase, d.startPhase, d.written⟩

/-- Whether a modifier is set. -/
def has (d : Declaration) (m : Modifier) : Bool := d.modifiers.contains m

/-- The name, or the kind of a declaration without a name. -/
def nameOrKind (d : Declaration) : String := d.name.getD d.kind.text

/-- Whether the declaration is an interface. -/
def isInterface (d : Declaration) : Bool := d.classKind == some .interface

/-- Whether the declaration is a file. -/
def isFile (d : Declaration) : Bool := d.kind == .file

/-- How many supertype references the declaration can contribute to a search, and one more for
itself. -/
def searchWeight (d : Declaration) : Nat :=
  1 + d.written.supertypes.length + (if d.written.expansion.isSome then 1 else 0)

/-- Whether the declaration has executable code, or an initializer. -/
def hasCode (d : Declaration) : Bool := d.has .hasBody || d.initializer.isSome

end Declaration

end StagedResolve
