/-
The package that every file imports without saying so.

Its classes come from a library, so they are resolved from the start.
-/
import StagedResolve.Registry

namespace StagedResolve

namespace Builtins

/-- The package of the built-in classes. -/
def package : String := "builtins"

/-- The built-in classes. -/
def classNames : List String :=
  ["Any", "Nothing", "Unit", "Boolean", "Int", "Long", "Double", "String"]

/-- The declaration of a built-in class; only the top class can be extended. -/
def classSpec (name : String) : DeclSpec :=
  { DeclSpec.ofForm .classDecl name with
    origin := .library
    modifiers := if name = "Any" then [.openMod] else [] }

/-- The unit of the built-in classes. -/
def unitSpec : UnitSpec :=
  { path := "<builtins>", package := package, imports := [], annotations := [],
    entries := classNames.map fun n => ⟨.root, false, classSpec n⟩ }

end Builtins

/-- A registry that holds the built-in classes. -/
def Registry.withBuiltins : Registry :=
  match Builtins.unitSpec.draft with
  | .ok d => (Registry.empty.addUnit d).2
  | .error _ => Registry.empty

end StagedResolve
