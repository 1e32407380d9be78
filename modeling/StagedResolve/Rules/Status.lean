/-
Visibility and modality.

Both follow from the modifiers that were written, from what encloses the
declaration, and from nothing that a phase computes. Where several
modifiers of one sort are written the first of a fixed order counts.
-/
import StagedResolve.Setup

namespace StagedResolve

/-- Who may see a declaration: what sits in executable code is seen only there. -/
def Declaration.visibility (d : Declaration) : Visibility :=
  if d.isLocal then .enclosingCode
  else if d.has .privateMod then .owner
  else if d.has .protectedMod then .subclasses
  else if d.has .internalMod then .module
  else .everyone

namespace CompilationUnit

/-- Whether the declaration is a function or a property directly inside an interface. -/
def isInterfaceMember (u : CompilationUnit) (d : Declaration) : Bool :=
  ((d.parent.bind u.decl?).any Declaration.isInterface)
    && (d.kind == .function || d.kind == .property)

/-- Whether a declaration may be overridden. An interface and what it only announces are abstract;
what an interface implements, and what overrides something, is open. -/
def modality (u : CompilationUnit) (d : Declaration) : Modality :=
  if d.has .abstractMod then .abstractDecl
  else if d.has .sealedMod then .sealedDecl
  else if d.has .openMod then .openDecl
  else if d.isInterface then .abstractDecl
  else if u.isInterfaceMember d then (if d.hasCode then .openDecl else .abstractDecl)
  else if d.has .overrideMod then .openDecl
  else .finalDecl

/-- The status of a declaration. -/
def statusOf (u : CompilationUnit) (d : Declaration) : Status := ⟨d.visibility, u.modality d⟩

end CompilationUnit

/-- Store the status of a declaration. -/
def Context.storeStatus (c : Context) (d : DeclId) : Action Unit :=
  match c.unit.decl? d with
  | some x =>
    Action.writeSlots c.guard c.unit d fun s => { s with status := some (c.unit.statusOf x) }
  | none => Action.fault .indexOutOfBounds

end StagedResolve
