/-
The vocabulary declarations are described with: what kind of thing a
declaration is, where it came from, which modifiers were written on it,
and what status and contract effects it ends up with.
-/
import StagedResolve.Span

namespace StagedResolve

-- ================================================= kinds and origins

/-- What kind of thing a declaration is. -/
inductive DeclKind where
  | file
  | classDecl
  | anonymousObject
  | typeAlias
  | function
  | anonymousFunction
  | constructor
  | property
  | accessor
  | parameter
  | typeParameter
  | enumEntry
  | field
  | initializer
  | localVariable
  deriving DecidableEq, Repr, Inhabited

namespace DeclKind

/-- Every kind, in the order of the definition. -/
def all : List DeclKind :=
  [file, classDecl, anonymousObject, typeAlias, function, anonymousFunction, constructor, property,
    accessor, parameter, typeParameter, enumEntry, field, initializer, localVariable]

/-- Whether declarations of this kind own a supertype clause or an expansion. -/
def isClassLike : DeclKind → Bool
  | classDecl | anonymousObject | typeAlias => true
  | _ => false

/-- Whether declarations of this kind may carry a contract. -/
def isCallable : DeclKind → Bool
  | function | anonymousFunction | constructor | property | accessor | field | localVariable
  | enumEntry => true
  | _ => false

/-- Whether declarations of this kind are classifiers with a name of their own. -/
def isNamedClassifier : DeclKind → Bool
  | classDecl | typeAlias => true
  | _ => false

/-- Whether declarations of this kind have a type that is inferred when it is not written. -/
def hasValueType : DeclKind → Bool
  | function | anonymousFunction | property | accessor | parameter | field | localVariable => true
  | _ => false

/-- The kind in words. -/
def text : DeclKind → String
  | file => "file"
  | classDecl => "class"
  | anonymousObject => "anonymous object"
  | typeAlias => "type alias"
  | function => "function"
  | anonymousFunction => "anonymous function"
  | constructor => "constructor"
  | property => "property"
  | accessor => "accessor"
  | parameter => "parameter"
  | typeParameter => "type parameter"
  | enumEntry => "enum entry"
  | field => "field"
  | initializer => "initializer"
  | localVariable => "local variable"

end DeclKind

/-- The flavour of a class declaration. -/
inductive ClassKind where
  | plain
  | interface
  | enumClass
  | object
  | annotationClass
  deriving DecidableEq, Repr, Inhabited

/-- Where a declaration came from. -/
inductive Origin where
  /-- Written in source. -/
  | source
  /-- Generated, as default accessors are. -/
  | synthetic
  /-- A copy of an inherited member with its type arguments substituted. -/
  | substitutionOverride
  /-- Generated for delegation, and resolved from the start. -/
  | delegated
  /-- Loaded from a compiled library, and resolved from the start. -/
  | library
  deriving DecidableEq, Repr, Inhabited

namespace Origin

/-- Every origin, in the order of the definition. -/
def all : List Origin := [source, synthetic, substitutionOverride, delegated, library]

/-- Whether declarations of this origin go through the phases at all. -/
def isEligible : Origin → Bool
  | source | synthetic | substitutionOverride => true
  | delegated | library => false

end Origin

-- ========================================================= modifiers

/-- A modifier of a declaration. The last two say how a callable is written. -/
inductive Modifier where
  | privateMod
  | protectedMod
  | internalMod
  | abstractMod
  | openMod
  | sealedMod
  | overrideMod
  | innerMod
  | dataMod
  /-- The callable has a body, a block or an expression. -/
  | hasBody
  /-- The body of the callable is one expression. -/
  | expressionBody
  deriving DecidableEq, Repr, Inhabited

namespace Modifier

/-- Every modifier; the one at place `i` has the weight `2 ^ i` in a packed set. -/
def all : List Modifier :=
  [privateMod, protectedMod, internalMod, abstractMod, openMod, sealedMod, overrideMod, innerMod,
    dataMod, hasBody, expressionBody]

/-- The weights of the members of a set that occur in a list of modifiers, the first of which
weighs `weight` and each later one twice as much as the one before it. -/
def packFrom (set : List Modifier) : List Modifier → Nat → Nat
  | [], _ => 0
  | m :: rest, weight =>
    (if set.contains m then weight else 0) + packFrom set rest (2 * weight)

/-- A set of modifiers packed into a number. -/
def pack (set : List Modifier) : Nat := packFrom set all 1

end Modifier

-- ============================================== status and contracts

/-- Who may see a declaration. -/
inductive Visibility where
  | everyone
  | subclasses
  | module
  | owner
  /-- Declared inside executable code. -/
  | enclosingCode
  deriving DecidableEq, Repr, Inhabited

/-- The printed form of a visibility. -/
def Visibility.text : Visibility → String
  | everyone => "public"
  | subclasses => "protected"
  | module => "internal"
  | owner => "private"
  | enclosingCode => "local"

/-- Whether a declaration may be overridden. -/
inductive Modality where
  | finalDecl
  | openDecl
  | abstractDecl
  | sealedDecl
  deriving DecidableEq, Repr, Inhabited

/-- The printed form of a modality. -/
def Modality.text : Modality → String
  | finalDecl => "final"
  | openDecl => "open"
  | abstractDecl => "abstract"
  | sealedDecl => "sealed"

/-- Resolved visibility and modality. -/
structure Status where
  visibility : Visibility
  modality : Modality
  deriving DecidableEq, Repr, Inhabited

/-- The printed form of a status. -/
def Status.text (s : Status) : String := s.visibility.text ++ " " ++ s.modality.text

/-- What a contract effect promises. -/
inductive EffectKind where
  | callsInPlace
  | returnsImpliesNotNull
  | returnsNotNull
  deriving DecidableEq, Repr, Inhabited

/-- A contract effect as written; it may talk about a parameter by name. -/
structure WrittenEffect where
  kind : EffectKind
  parameter : Option String
  span : Span
  deriving DecidableEq, Repr, Inhabited

/-- A contract effect with its parameter found; the number is the parameter's position. -/
structure ResolvedEffect where
  kind : EffectKind
  parameter : Option Nat
  deriving DecidableEq, Repr, Inhabited

end StagedResolve
