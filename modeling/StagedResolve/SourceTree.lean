/-
The syntax tree of one file, as far as resolution needs it.

Only the kind, the parent and the place of each node are kept: enough to
decide whether a declaration sits in executable code, and whether it can
be resolved without resolving what encloses it.
-/
import StagedResolve.Ancestry
import StagedResolve.Span
import StagedResolve.Symbol

namespace StagedResolve

/-- The syntactic category of a node. -/
inductive NodeKind where
  | file
  | classDecl
  /-- An anonymous object. -/
  | object
  | typeAlias
  | function
  /-- A lambda or an anonymous function. -/
  | functionLiteral
  | primaryConstructor
  | secondaryConstructor
  | property
  | accessor
  /-- A value parameter; the flag marks one that is also a property of its class. -/
  | parameter (valOrVar : Bool)
  | typeParameter
  | enumEntry
  | destructuringEntry
  | initializer
  /-- Executable code: everything below a block is local. -/
  | block
  deriving DecidableEq, Repr, Inhabited

namespace NodeKind

/-- Every kind of node. -/
def all : List NodeKind :=
  [file, classDecl, object, typeAlias, function, functionLiteral, primaryConstructor,
    secondaryConstructor, property, accessor, parameter false, parameter true, typeParameter,
    enumEntry, destructuringEntry, initializer, block]

/-- Whether nodes of this kind own a class body. -/
def isClassLike : NodeKind → Bool
  | classDecl | object => true
  | _ => false

end NodeKind

/-- A node of a syntax tree. -/
structure SourceNode where
  kind : NodeKind
  parent : Option NodeId
  span : Span
  deriving DecidableEq, Repr, Inhabited

/-- A syntax tree; node number zero is the file. -/
structure SourceTree where
  nodes : List SourceNode
  deriving DecidableEq, Repr

namespace SourceTree

/-- The tree of an empty file. -/
def empty : SourceTree := ⟨[⟨.file, none, .nowhere⟩]⟩

instance : Inhabited SourceTree := ⟨empty⟩

/-- The number of nodes. -/
def size (t : SourceTree) : Nat := t.nodes.length

/-- The number the next node gets. -/
def nextId (t : SourceTree) : NodeId := ⟨t.nodes.length⟩

/-- The tree with one more node. -/
def push (t : SourceTree) (kind : NodeKind) (parent : NodeId) (span : Span) : SourceTree :=
  ⟨t.nodes ++ [⟨kind, some parent, span⟩]⟩

/-- The node with a number. -/
def node? (t : SourceTree) (id : NodeId) : Option SourceNode := t.nodes[id.index]?

/-- The kind of a node. -/
def kind? (t : SourceTree) (id : NodeId) : Option NodeKind := (t.node? id).map (·.kind)

/-- The parent of a node. -/
def parent? (t : SourceTree) (id : NodeId) : Option NodeId := (t.node? id).bind (·.parent)

/-- The nodes above a node, nearest first. -/
def ancestors (t : SourceTree) (id : NodeId) : List NodeId := climb t.parent? t.size id

/-- Whether a node sits in executable code: some node above it is a block. -/
def isLocal (t : SourceTree) (id : NodeId) : Bool :=
  (t.ancestors id).any fun n => t.kind? n == some .block

/-- Whether every parent that is named is a node of the tree. -/
def isClosed (t : SourceTree) : Bool :=
  t.nodes.all fun n => n.parent.all fun p => decide (p.index < t.size)

end SourceTree

end StagedResolve
