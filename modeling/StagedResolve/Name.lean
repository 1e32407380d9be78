/-
Qualified names and the keys they are indexed by.

A qualified name keeps its package apart from its chain of classes,
because `a.b.C` can mean the class `C` of the package `a.b` as well as
the class `C` nested in `b` nested in `a`. Both have one written form,
and names are indexed by the digest of that form, under one mark for
classifiers and another for packages.

Dotted texts are taken apart here as lists of characters: `splitDots`
cuts at every dot, `dottedPrefixes` lists what stands before each dot.
-/
import StagedResolve.Digest

namespace StagedResolve

-- ====================================================== dotted texts

/-- The pieces between the dots of a text; there is always one more piece than there are dots. -/
def splitDots : List Char → List (List Char)
  | [] => [[]]
  | c :: rest =>
    if c = '.' then [] :: splitDots rest
    else
      match splitDots rest with
      | [] => [[c]]
      | piece :: pieces => (c :: piece) :: pieces

/-- What stands before each dot of a text, shortest first. -/
def dottedPrefixes : List Char → List (List Char)
  | [] => []
  | c :: rest =>
    (if c = '.' then [[]] else []) ++ (dottedPrefixes rest).map (c :: ·)

/-- The pieces of a dotted name. -/
def segments (name : String) : List String := (splitDots name.toList).map String.ofList

/-- A package and every package that encloses it. -/
def enclosingPackages (package : String) : List String :=
  package :: (dottedPrefixes package.toList).map String.ofList

/-- A path relative to a package, in full. -/
def joinPackage (package name : String) : String :=
  if package = "" then name else package ++ "." ++ name

-- ============================================================== keys

/-- What a classifier or a package is indexed by. -/
structure NameKey where
  bits : UInt64
  deriving DecidableEq, Repr, Inhabited

namespace NameKey

/-- The mark of classifier keys. -/
def classifierMark : UInt64 := 0x2fac10b63a6cc57c

/-- The mark of package keys. -/
def packageMark : UInt64 := 0x1a095090689d4647

/-- The key of a classifier's full written name. -/
def classifier (name : String) : NameKey := ⟨classifierMark ^^^ Digest.ofString name⟩

/-- The key of a package. -/
def package (name : String) : NameKey := ⟨packageMark ^^^ Digest.ofString name⟩

/-- The written form of a key. -/
def text (k : NameKey) : String := "SymbolId(0x" ++ Digest.hex k.bits ++ ")"

end NameKey

-- =================================================== qualified names

/-- The name of a classifier: its package and its classes, outermost first. -/
structure QualifiedName where
  package : String
  classes : List String
  deriving DecidableEq, Repr, Inhabited

namespace QualifiedName

/-- A classifier directly in a package. -/
def topLevel (package name : String) : QualifiedName := ⟨package, [name]⟩

/-- A classifier nested in this one. -/
def child (n : QualifiedName) (name : String) : QualifiedName :=
  { n with classes := n.classes ++ [name] }

/-- Whether the classifier is nested in another one. -/
def isNested (n : QualifiedName) : Bool := decide (1 < n.classes.length)

/-- The classifier this one is nested in. -/
def outer? (n : QualifiedName) : Option QualifiedName :=
  if n.isNested then some { n with classes := n.classes.dropLast } else none

/-- The classifiers this one is nested in, innermost first. -/
def outers (n : QualifiedName) : List QualifiedName :=
  ascend n.classes.length n
where
  /-- At most `fuel` steps outwards; the length of the chain is enough. -/
  ascend : Nat → QualifiedName → List QualifiedName
    | 0, _ => []
    | fuel + 1, n =>
      match n.outer? with
      | none => []
      | some o => o :: ascend fuel o

/-- The last class of the chain. -/
def simpleName (n : QualifiedName) : String := n.classes.getLastD ""

/-- The written form: the package, unless it is the root package, and the classes, joined by
dots. -/
def text (n : QualifiedName) : String :=
  (if n.package = "" then "" else n.package ++ ".") ++ ".".intercalate n.classes

/-- The key this name is indexed by. -/
def key (n : QualifiedName) : NameKey := .classifier n.text

/-- Names are ordered by package and then by their chains of classes, the chains as words are in a
dictionary. -/
def le (a b : QualifiedName) : Bool :=
  decide (a.package < b.package)
    || (a.package == b.package && !b.classes.lex a.classes fun x y => decide (x < y))

end QualifiedName

end StagedResolve
