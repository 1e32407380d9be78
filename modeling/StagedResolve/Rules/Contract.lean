/-
Contracts of callables.

An effect may talk about a parameter by name; resolving it replaces the
name by the position of the first parameter of that name. An effect
whose parameter does not exist is dropped and reported. Only callables
have contracts: written on anything else, one fails the phase.
-/
import StagedResolve.Setup

namespace StagedResolve

namespace CompilationUnit

/-- The names of the parameters of a declaration, in order. -/
def parameterNames (u : CompilationUnit) (d : Declaration) : List String :=
  ((d.children.filterMap u.decl?).filter fun x => x.kind == .parameter).map fun x =>
    x.name.getD ""

/-- Resolve effects against a list of parameter names, in order. -/
def resolveEffects (parameters : List String) :
    List WrittenEffect → List ResolvedEffect × List ResolveError
  | [] => ([], [])
  | e :: rest =>
    let (effects, errors) := resolveEffects parameters rest
    match e.parameter with
    | none => (⟨e.kind, none⟩ :: effects, errors)
    | some name =>
      match parameters.findIdx? (· == name) with
      | some i => (⟨e.kind, some i⟩ :: effects, errors)
      | none => (effects, .unresolved name e.span :: errors)

/-- The contract of a declaration, and the effects that talk about no parameter of it. -/
def contractOf (u : CompilationUnit) (d : Declaration) : List ResolvedEffect × List ResolveError :=
  resolveEffects (u.parameterNames d) d.contract

end CompilationUnit

/-- Store the contract of a declaration. -/
def Context.storeContract (c : Context) (d : DeclId) (phase : Phase) : Action Unit :=
  match c.unit.decl? d with
  | none => Action.fault .indexOutOfBounds
  | some x =>
    if x.kind.isCallable then
      let (effects, errors) := c.unit.contractOf x
      Action.writeSlots c.guard c.unit d fun s =>
        { s with contract := some effects }.report phase errors
    else if x.contract.isEmpty then Action.answer ()
    else Action.fail (c.unexpected d phase)

end StagedResolve
