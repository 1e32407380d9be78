/-
Compilation units: one source file, its syntax tree and its declarations.

The declaration tree is read through parent links and lists of children,
all by number. A declaration is always built after its owner, so parent
numbers are smaller and climbing ends at the file.
-/
import StagedResolve.Declaration
import StagedResolve.SourceTree

namespace StagedResolve

/-- One source file. Its first declaration is the file itself. -/
structure CompilationUnit where
  id : UnitId
  path : String
  package : String
  tree : SourceTree
  decls : List Declaration
  imports : List ImportDirective
  deriving DecidableEq, Repr, Inhabited

namespace CompilationUnit

/-- The number of declarations. -/
def size (u : CompilationUnit) : Nat := u.decls.length

/-- The numbers of the declarations, in order. -/
def declIds (u : CompilationUnit) : List DeclId := (List.range u.size).map DeclId.mk

/-- The symbol of a declaration. -/
def symbol (u : CompilationUnit) (d : DeclId) : Symbol := ⟨u.id, d⟩

/-- The declaration with a number. -/
def decl? (u : CompilationUnit) (d : DeclId) : Option Declaration := u.decls[d.index]?

/-- The owner of a declaration. -/
def parent? (u : CompilationUnit) (d : DeclId) : Option DeclId := (u.decl? d).bind (·.parent)

/-- The declarations directly inside a declaration. -/
def children (u : CompilationUnit) (d : DeclId) : List DeclId :=
  match u.decl? d with
  | some x => x.children
  | none => []

/-- The kind of a declaration. -/
def kind? (u : CompilationUnit) (d : DeclId) : Option DeclKind := (u.decl? d).map (·.kind)

/-- The declarations around a declaration, nearest first, the file last. -/
def ancestors (u : CompilationUnit) (d : DeclId) : List DeclId := climb u.parent? u.size d

/-- A declaration and everything below it, each declaration before what it contains. -/
def subtree (u : CompilationUnit) (d : DeclId) : List DeclId := preorder u.children u.size d

/-- Whether a declaration is a class or a type alias of a given name. -/
def declaresClassifier (u : CompilationUnit) (name : String) (d : DeclId) : Bool :=
  match u.decl? d with
  | some x => x.kind.isNamedClassifier && x.name == some name
  | none => false

/-- The first classifier of a given name directly inside a declaration. -/
def nested? (u : CompilationUnit) (owner : DeclId) (name : String) : Option DeclId :=
  (u.children owner).find? (u.declaresClassifier name)

/-- Whether a declaration is a type parameter of a given name. -/
def declaresTypeParameter (u : CompilationUnit) (name : String) (d : DeclId) : Bool :=
  match u.decl? d with
  | some x => x.kind == .typeParameter && x.name == some name
  | none => false

/-- The first type parameter of a given name directly inside a declaration. -/
def typeParameter? (u : CompilationUnit) (owner : DeclId) (name : String) : Option DeclId :=
  (u.children owner).find? (u.declaresTypeParameter name)

/-- Whether the declaration owns a supertype clause or an expansion. -/
def isClassLike (u : CompilationUnit) (d : DeclId) : Bool :=
  (u.kind? d).any DeclKind.isClassLike

/-- Whether the declaration sits in executable code. -/
def isLocal (u : CompilationUnit) (d : DeclId) : Bool := (u.decl? d).any (·.isLocal)

/-- Whether the declaration goes through the phases. -/
def isEligible (u : CompilationUnit) (d : DeclId) : Bool := (u.decl? d).any Declaration.isEligible

/-- The declaration a syntax node was made for; a borrowed node does not count. -/
def declarationFor? (u : CompilationUnit) (n : NodeId) : Option DeclId :=
  (u.decls.find? fun d => !d.isBorrowed && d.node == n).map (·.id)

/-- The classifiers of the unit that can be found from everywhere, in order: the key and the name
each is found by, and its symbol. -/
def classifiers (u : CompilationUnit) : List (QualifiedName × Symbol) :=
  u.decls.filterMap fun d => d.qualifiedName.map fun n => (n, u.symbol d.id)

end CompilationUnit

end StagedResolve
