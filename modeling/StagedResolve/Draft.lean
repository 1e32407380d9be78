/-
Drafts: how the two trees of a unit are grown together.

A front end describes declarations one after the other, each with the
number of its owner. Adding a declaration creates its syntax node below
the node of the owner, or, for a declaration inside executable code,
below a block of the owner that is created with its first local. A
declaration may also borrow the node of an earlier one instead of having
a node of its own. The two ways of adding are the only ones, so both
trees, and the links between them, agree by construction.
-/
import StagedResolve.CompilationUnit

namespace StagedResolve

-- ============================================================= forms

/-- The forms of declarations that a front end names. -/
inductive DeclForm where
  | classDecl
  | interface
  | enumClass
  | annotationClass
  | object
  | anonymousObject
  | typeAlias
  | function
  | anonymousFunction
  | primaryConstructor
  | constructor
  | property
  | getter
  | setter
  | parameter
  | propertyParameter
  | typeParameter
  | enumEntry
  | field
  | initializer
  | localVariable
  | destructuringEntry
  deriving DecidableEq, Repr, Inhabited

namespace DeclForm

/-- What kind of declaration a form makes. -/
def kind : DeclForm → DeclKind
  | classDecl | interface | enumClass | annotationClass | object => .classDecl
  | anonymousObject => .anonymousObject
  | typeAlias => .typeAlias
  | function => .function
  | anonymousFunction => .anonymousFunction
  | primaryConstructor | constructor => .constructor
  | property => .property
  | getter | setter => .accessor
  | parameter | propertyParameter => .parameter
  | typeParameter => .typeParameter
  | enumEntry => .enumEntry
  | field => .field
  | initializer => .initializer
  | localVariable | destructuringEntry => .localVariable

/-- What kind of syntax node a form has. -/
def node : DeclForm → NodeKind
  | classDecl | interface | enumClass | annotationClass | object => .classDecl
  | anonymousObject => .object
  | typeAlias => .typeAlias
  | function => .function
  | anonymousFunction => .functionLiteral
  | primaryConstructor => .primaryConstructor
  | constructor => .secondaryConstructor
  | property | field | localVariable => .property
  | getter | setter => .accessor
  | parameter => .parameter false
  | propertyParameter => .parameter true
  | typeParameter => .typeParameter
  | enumEntry => .enumEntry
  | initializer => .initializer
  | destructuringEntry => .destructuringEntry

/-- The flavour of the classes a form makes. -/
def classKind? : DeclForm → Option ClassKind
  | classDecl => some .plain
  | interface => some .interface
  | enumClass => some .enumClass
  | annotationClass => some .annotationClass
  | object | anonymousObject => some .object
  | _ => none

/-- Fields are generated; everything else is written in source. -/
def origin : DeclForm → Origin
  | field => .synthetic
  | _ => .source

/-- The name of a declaration of this form: some forms have none, accessors have fixed ones, and
the others take the name they are given. -/
def nameFor (form : DeclForm) (given : String) : Option String :=
  match form with
  | anonymousObject | anonymousFunction | primaryConstructor | constructor | initializer => none
  | getter => some "<get>"
  | setter => some "<set>"
  | _ => some given

end DeclForm

-- ==================================================== specifications

/-- The description of one declaration. -/
structure DeclSpec where
  kind : DeclKind
  /-- The kind of the syntax node that is made for the declaration. -/
  node : NodeKind
  name : Option String
  classKind : Option ClassKind
  modifiers : List Modifier
  origin : Origin
  supertypes : List WrittenType
  /-- The written type of a value, or return type of a callable. -/
  declaredType : Option WrittenType
  receiver : Option WrittenType
  /-- The right-hand side of a type alias. -/
  expansion : Option WrittenType
  bounds : List WrittenType
  annotations : List WrittenType
  initializer : Option WrittenType
  contract : List WrittenEffect
  /-- The declaration whose syntax node is borrowed. -/
  borrows : Option DeclId
  span : Span
  deriving DecidableEq, Repr, Inhabited

namespace DeclSpec

/-- A declaration of which nothing more is known than its kind, its node and its name. -/
def bare (kind : DeclKind) (node : NodeKind) (name : Option String) : DeclSpec :=
  { kind := kind, node := node, name := name, classKind := none, modifiers := [],
    origin := .source, supertypes := [], declaredType := none, receiver := none,
    expansion := none, bounds := [], annotations := [], initializer := none, contract := [],
    borrows := none, span := .nowhere }

/-- A declaration of one of the named forms. -/
def ofForm (form : DeclForm) (name : String) : DeclSpec :=
  { bare form.kind form.node (form.nameFor name) with
    classKind := form.classKind?, origin := form.origin }

/-- The same declaration with more modifiers. -/
def withModifiers (s : DeclSpec) (more : List Modifier) : DeclSpec :=
  { s with modifiers := s.modifiers ++ more }

/-- The same declaration with a block for a body. -/
def withBlockBody (s : DeclSpec) : DeclSpec := s.withModifiers [.hasBody]

/-- The same declaration with one expression for a body, of a known type. -/
def withExpressionBody (s : DeclSpec) (type : WrittenType) : DeclSpec :=
  { s.withModifiers [.hasBody, .expressionBody] with initializer := some type }

/-- The slots of a declaration as it is described. -/
def slots (s : DeclSpec) : Slots :=
  { Slots.empty with
    supertypes := s.supertypes.map .written
    returnType := .ofWritten? s.declaredType
    receiver := s.receiver.map .written
    expansion := s.expansion.map .written
    bounds := s.bounds.map .written
    annotations := s.annotations.map .written }

end DeclSpec

-- ============================================================ drafts

/-- A unit that is being built. -/
structure Draft where
  path : String
  package : String
  tree : SourceTree
  decls : List Declaration
  imports : List ImportDirective
  /-- The body block of each declaration that has locals. -/
  bodies : Table DeclId NodeId
  deriving DecidableEq, Repr, Inhabited

namespace Draft

/-- The declaration of the file itself. -/
def fileDecl (path : String) (annotations : List WrittenType) : Declaration :=
  { id := .root, kind := .file, name := some path, parent := none, children := [],
    origin := .source, modifiers := [], classKind := none, node := .root, isBorrowed := false,
    qualifiedName := none, isLocal := false, initializer := none, contract := [],
    written := { Slots.empty with annotations := annotations.map .written } }

/-- The draft of a file without declarations. -/
def start (path package : String) (imports : List ImportDirective)
    (annotations : List WrittenType) : Draft :=
  { path := path, package := package, tree := .empty, decls := [fileDecl path annotations],
    imports := imports, bodies := .empty }

/-- The number the next declaration gets. -/
def nextId (d : Draft) : DeclId := ⟨d.decls.length⟩

/-- The declaration with a number. -/
def decl? (d : Draft) (id : DeclId) : Option Declaration := d.decls[id.index]?

/-- The name by which a new classifier can be found from everywhere: it must not be local, and
everything around it must have such a name. -/
def qualifiedNameFor (d : Draft) (owner : Declaration) (spec : DeclSpec) (isLocal : Bool) :
    Option QualifiedName :=
  if isLocal || !spec.kind.isNamedClassifier then none
  else
    match spec.name with
    | none => none
    | some name =>
      if owner.isFile then some (.topLevel d.package name)
      else owner.qualifiedName.map (·.child name)

/-- The node of a new declaration: a new one below `anchor`, or the borrowed one. -/
def placeNode (d : Draft) (anchor : NodeId) (spec : DeclSpec) :
    Except Fault (NodeId × SourceTree) :=
  match spec.borrows with
  | none => .ok (d.tree.nextId, d.tree.push spec.node anchor spec.span)
  | some lender =>
    match d.decl? lender with
    | some l => .ok (l.node, d.tree)
    | none => .error .indexOutOfBounds

/-- The new declaration, once its node has been placed. -/
def newDecl (d : Draft) (owner : Declaration) (node : NodeId) (tree : SourceTree)
    (spec : DeclSpec) : Declaration :=
  let isLocal := tree.isLocal node
  { id := d.nextId, kind := spec.kind, name := spec.name, parent := some owner.id, children := [],
    origin := spec.origin, modifiers := spec.modifiers, classKind := spec.classKind, node := node,
    isBorrowed := spec.borrows.isSome,
    qualifiedName := d.qualifiedNameFor owner spec isLocal, isLocal := isLocal,
    initializer := spec.initializer, contract := spec.contract, written := spec.slots }

/-- Add a declaration of `owner` whose node belongs below `anchor`. -/
def insert (d : Draft) (owner : Declaration) (anchor : NodeId) (spec : DeclSpec) :
    Except Fault Draft :=
  match d.placeNode anchor spec with
  | .error f => .error f
  | .ok (node, tree) =>
    let id := d.nextId
    let decls := d.decls ++ [d.newDecl owner node tree spec]
    .ok { d with
      tree := tree
      decls := decls.modify owner.id.index fun o => { o with children := o.children ++ [id] } }

/-- Add a declaration as a member of `owner` or in its header. -/
def add (d : Draft) (owner : DeclId) (spec : DeclSpec) : Except Fault Draft :=
  match d.decl? owner with
  | none => .error .indexOutOfBounds
  | some o => d.insert o o.node spec

/-- The draft in which a declaration has a body block, and that block. A declaration that is not a
property has a body from then on. -/
def withBody (d : Draft) (owner : Declaration) (span : Span) : NodeId × Draft :=
  let (block, d) :=
    match d.bodies.find? owner.id with
    | some block => (block, d)
    | none =>
      (d.tree.nextId,
        { d with
          tree := d.tree.push .block owner.node span
          bodies := d.bodies.insert owner.id d.tree.nextId })
  if owner.kind = .property then (block, d)
  else
    (block,
      { d with
        decls := d.decls.modify owner.id.index fun o =>
          { o with modifiers := o.modifiers ++ [.hasBody] } })

/-- Add a declaration inside the executable code of `owner`. -/
def addLocal (d : Draft) (owner : DeclId) (spec : DeclSpec) : Except Fault Draft :=
  match d.decl? owner with
  | none => .error .indexOutOfBounds
  | some o =>
    let (block, d) := d.withBody o spec.span
    d.insert o block spec

/-- The finished unit. -/
def finish (d : Draft) (id : UnitId) : CompilationUnit :=
  { id := id, path := d.path, package := d.package, tree := d.tree, decls := d.decls,
    imports := d.imports }

end Draft

-- ============================================== descriptions of units

/-- One declaration of a described unit: its owner, and whether it belongs to the owner's
executable code. -/
structure UnitEntry where
  owner : DeclId
  inBody : Bool
  spec : DeclSpec
  deriving DecidableEq, Repr, Inhabited

/-- The description of a whole unit; the entry at place `i` becomes declaration number `i + 1`. -/
structure UnitSpec where
  path : String
  package : String
  imports : List ImportDirective
  annotations : List WrittenType
  entries : List UnitEntry
  deriving DecidableEq, Repr, Inhabited

namespace UnitSpec

/-- Add entries to a draft one after the other. -/
def extend : List UnitEntry → Draft → Except Fault Draft
  | [], d => .ok d
  | e :: rest, d =>
    match if e.inBody then d.addLocal e.owner e.spec else d.add e.owner e.spec with
    | .ok d => extend rest d
    | .error f => .error f

/-- The draft of a described unit. An entry with an owner or a lender that does not exist yet is
refused. -/
def draft (s : UnitSpec) : Except Fault Draft :=
  extend s.entries (.start s.path s.package s.imports s.annotations)

end UnitSpec

end StagedResolve
