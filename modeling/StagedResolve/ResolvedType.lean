/-
What a type reference resolved to, and the slot that holds either form.

A slot starts as it was written, or as implicit where nothing was
written, and is replaced in place once. An error type keeps the name
that could not be resolved, so that resolving never loses what was
asked for.
-/
import StagedResolve.Symbol
import StagedResolve.WrittenType

namespace StagedResolve

/-- A resolved type. -/
inductive ResolvedType where
  /-- A class-like declaration applied to type arguments. -/
  | classType (symbol : Symbol) (args : List ResolvedType) (nullable : Bool)
  /-- A type parameter. -/
  | parameter (symbol : Symbol) (nullable : Bool)
  /-- The top type: what a class without a supertype clause extends, and what takes the place of
  a supertype that closes a cycle. -/
  | any
  /-- A reference that could not be resolved, by the name that was written. -/
  | error (name : String)
  deriving Repr, Inhabited

namespace ResolvedType

mutual

/-- Equality of resolved types is decided part by part. -/
def decEq : (a b : ResolvedType) → Decidable (a = b)
  | .classType s as q, .classType s' as' q' =>
    if h : s = s' ∧ q = q' then
      match decEqs as as' with
      | isTrue h' => isTrue (by obtain ⟨h₁, h₂⟩ := h; subst h₁ h₂ h'; rfl)
      | isFalse h' => isFalse (fun e => by injection e with _ e; exact h' e)
    else isFalse (fun e => by injection e with h₁ _ h₂; exact h ⟨h₁, h₂⟩)
  | .parameter s q, .parameter s' q' =>
    if h : s = s' ∧ q = q' then isTrue (by obtain ⟨h₁, h₂⟩ := h; subst h₁ h₂; rfl)
    else isFalse (fun e => by injection e with h₁ h₂; exact h ⟨h₁, h₂⟩)
  | .any, .any => isTrue rfl
  | .error n, .error n' =>
    if h : n = n' then isTrue (by subst h; rfl)
    else isFalse (fun e => by injection e with h'; exact h h')
  | .classType .., .parameter .. => isFalse (fun e => by cases e)
  | .classType .., .any => isFalse (fun e => by cases e)
  | .classType .., .error _ => isFalse (fun e => by cases e)
  | .parameter .., .classType .. => isFalse (fun e => by cases e)
  | .parameter .., .any => isFalse (fun e => by cases e)
  | .parameter .., .error _ => isFalse (fun e => by cases e)
  | .any, .classType .. => isFalse (fun e => by cases e)
  | .any, .parameter .. => isFalse (fun e => by cases e)
  | .any, .error _ => isFalse (fun e => by cases e)
  | .error _, .classType .. => isFalse (fun e => by cases e)
  | .error _, .parameter .. => isFalse (fun e => by cases e)
  | .error _, .any => isFalse (fun e => by cases e)

/-- Equality of lists of resolved types is decided member by member. -/
def decEqs : (as bs : List ResolvedType) → Decidable (as = bs)
  | [], [] => isTrue rfl
  | [], _ :: _ => isFalse (fun e => by cases e)
  | _ :: _, [] => isFalse (fun e => by cases e)
  | a :: as, b :: bs =>
    match decEq a b, decEqs as bs with
    | isTrue h, isTrue h' => isTrue (by subst h h'; rfl)
    | isFalse h, _ => isFalse (fun e => h (List.cons.inj e).1)
    | _, isFalse h => isFalse (fun e => h (List.cons.inj e).2)

end

instance : DecidableEq ResolvedType := decEq

/-- A class type without arguments that is not nullable. -/
def ofClass (s : Symbol) : ResolvedType := .classType s [] false

/-- The class-like declaration a type refers to. -/
def class? : ResolvedType → Option Symbol
  | .classType s _ _ => some s
  | _ => none

/-- Whether the type itself is an error. -/
def isError : ResolvedType → Bool
  | .error _ => true
  | _ => false

/-- Whether the type is the top type. -/
def isAny : ResolvedType → Bool
  | .any => true
  | _ => false

mutual

/-- Whether the type or one of its arguments, at any depth, is an error. -/
def containsError : ResolvedType → Bool
  | .error _ => true
  | .classType _ args _ => someContainsError args
  | _ => false

/-- Whether a member of a list of types contains an error. -/
def someContainsError : List ResolvedType → Bool
  | [] => false
  | t :: rest => containsError t || someContainsError rest

end

mutual

/-- The written form. -/
def text : ResolvedType → String
  | .classType s args nullable =>
    s.text ++ (if args.isEmpty then "" else "<" ++ ", ".intercalate (texts args) ++ ">")
      ++ (if nullable then "?" else "")
  | .parameter s nullable => "T" ++ s.text ++ (if nullable then "?" else "")
  | .any => "Any"
  | .error name => "<error: " ++ name ++ ">"

/-- The written forms of a list of types. -/
def texts : List ResolvedType → List String
  | [] => []
  | t :: rest => text t :: texts rest

end

/-- The class-like declarations that the members of a list refer to, in order. -/
def classes (types : List ResolvedType) : List Symbol := types.filterMap class?

end ResolvedType

/-- A place of a declaration that carries a type. -/
inductive Slot where
  /-- Written and not yet resolved. -/
  | written (type : WrittenType)
  /-- Not written; to be inferred. -/
  | implicit
  /-- Replaced by what it resolved to. -/
  | resolved (type : ResolvedType)
  deriving DecidableEq, Repr, Inhabited

namespace Slot

/-- The slot of a type that may not have been written. -/
def ofWritten? : Option WrittenType → Slot
  | some t => .written t
  | none => .implicit

/-- Whether the slot was replaced. -/
def isResolved : Slot → Bool
  | .resolved _ => true
  | _ => false

/-- Whether nothing was written and nothing was inferred yet. -/
def isImplicit : Slot → Bool
  | .implicit => true
  | _ => false

/-- Whether no written type is left to resolve. -/
def isSettled : Slot → Bool
  | .written _ => false
  | _ => true

/-- The resolved type, if the slot was replaced. -/
def type? : Slot → Option ResolvedType
  | .resolved t => some t
  | _ => none

/-- The written type, if it is still there. -/
def written? : Slot → Option WrittenType
  | .written t => some t
  | _ => none

/-- The printed state of a slot. -/
def text : Slot → String
  | .implicit => "implicit"
  | .written t => "~" ++ t.text
  | .resolved t => "=" ++ t.text

/-- The resolved types of a list of slots, in order. -/
def types (slots : List Slot) : List ResolvedType := slots.filterMap type?

end Slot

end StagedResolve
