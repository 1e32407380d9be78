/-
Printed states of declarations.

A report says of one declaration how far it was resolved and to what,
each part in its printed form. Two reports of a declaration are equal
exactly if nothing that is printed has changed, so comparing the reports
before and after a request shows what the request did.
-/
import StagedResolve.World

namespace StagedResolve

/-- The printed form of an import table: the explicit imports sorted by name, and the packages. -/
structure ImportReport where
  explicit : List (String × String)
  stars : List String
  deriving DecidableEq, Repr

/-- The printed form of an import table. -/
def ImportTable.report (t : ImportTable) : ImportReport :=
  { explicit := (t.explicit.entries.map fun e => (e.1, e.2.text)).mergeSort
      fun a b => decide (a.1 ≤ b.1)
    stars := t.stars }

/-- The printed state of one declaration. -/
structure StateReport where
  symbol : String
  own : String
  below : String
  returnType : String
  supertypes : List String
  bounds : List String
  annotations : List String
  receiver : Option String
  expansion : Option String
  status : Option String
  contract : Option (List ResolvedEffect)
  imports : Option ImportReport
  bodyResolved : Bool
  diagnostics : List String
  deriving DecidableEq, Repr

/-- The printed form of a state. -/
def DeclState.report (s : DeclState) (symbol : Symbol) : StateReport :=
  { symbol := symbol.text
    own := s.own.name
    below := s.below.name
    returnType := s.slots.returnType.text
    supertypes := s.slots.supertypes.map Slot.text
    bounds := s.slots.bounds.map Slot.text
    annotations := s.slots.annotations.map Slot.text
    receiver := s.slots.receiver.map Slot.text
    expansion := s.slots.expansion.map Slot.text
    status := s.slots.status.map Status.text
    contract := s.slots.contract
    imports := s.slots.imports.map ImportTable.report
    bodyResolved := s.slots.bodyResolved
    diagnostics := s.slots.diagnostics.map Diagnostic.text }

namespace World

/-- The printed states of the declarations of a unit, in order. -/
def unitReports (w : World) (u : CompilationUnit) : List StateReport :=
  u.declIds.map fun d => (w.state u d).report (u.symbol d)

/-- The printed states of all declarations, by unit and then in order. -/
def reports (w : World) : List StateReport :=
  w.registry.unitIds.flatMap fun id =>
    match w.registry.unit? id with
    | some u => w.unitReports u
    | none => []

end World

/-- The reports that are new or differ from those before. -/
def changedReports (before after : List StateReport) : List StateReport :=
  after.filter fun r => !before.contains r

end StagedResolve
