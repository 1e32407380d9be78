/-
The imports of a file.

A directive that names a classifier enters it under the name it has in
the file; a later directive for the same name wins. A star import is
kept if its package exists. What cannot be found is reported and left
out. Looking a classifier up can build the source that promises it, so
directives are treated one after the other, in order.
-/
import StagedResolve.World

namespace StagedResolve

namespace Action

/-- Treat one import directive. -/
def importDirective (d : ImportDirective) (table : ImportTable) :
    Action (ImportTable × List ResolveError) :=
  if d.isStar then do
    if ← read fun w => w.registry.hasPackage d.path then
      return ({ table with stars := table.stars ++ [d.path] }, [])
    else return (table, [.unresolved (d.path ++ ".*") d.span])
  else do
    match ← classifier (.classifier d.path), d.importedName? with
    | some s, some name => return ({ table with explicit := table.explicit.insert name s }, [])
    | _, _ => return (table, [.unresolved d.path d.span])

/-- Treat a list of import directives, in order. -/
def importDirectives :
    List ImportDirective → ImportTable → Action (ImportTable × List ResolveError)
  | [], table => return (table, [])
  | d :: rest, table => do
    let (table, errors) ← importDirective d table
    let (table, more) ← importDirectives rest table
    return (table, errors ++ more)

/-- The import table of a unit, and what is wrong with its imports. Nothing is stored. -/
def importTable (u : CompilationUnit) : Action (ImportTable × List ResolveError) :=
  importDirectives u.imports .empty

/-- The import table that was stored for a unit, or a fresh one. -/
def storedOrFreshImports (u : CompilationUnit) : Action ImportTable := do
  match ← read fun w => (w.slots u .root).imports with
  | some table => return table
  | none => return (← importTable u).1

/-- Resolve and store the imports of a unit, unless that was done before. Answers whether there was
anything to do. -/
def resolveImports (g : Guard) (u : CompilationUnit) : Action Bool := do
  if (← read fun w => w.own u .root) ≥ .imports then return false
  let (table, errors) ← importTable u
  writeSlots g u .root fun s => { s with imports := some table }.report .imports errors
  raiseOwn g u .root .imports
  return true

end Action

end StagedResolve
