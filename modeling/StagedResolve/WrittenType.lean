/-
Type references exactly as they were written.

A written type is a name, which may be dotted, with type arguments and
an optional trailing question mark. The name is taken whole: a text such
as `List<Int>` in the name's place is a name with angle brackets in it,
not a type with an argument.
-/
import StagedResolve.Name
import StagedResolve.Span

namespace StagedResolve

/-- A type reference as written in source. -/
structure WrittenType where
  name : String
  args : List WrittenType
  nullable : Bool
  span : Span
  deriving Repr

namespace WrittenType

/-- A reference by name alone. -/
def named (name : String) : WrittenType := ⟨name, [], false, .nowhere⟩

instance : Inhabited WrittenType := ⟨named ""⟩

mutual

/-- Equality of written types is decided part by part. -/
def decEq : (a b : WrittenType) → Decidable (a = b)
  | ⟨n, as, q, s⟩, ⟨n', as', q', s'⟩ =>
    if hn : n = n' ∧ q = q' ∧ s = s' then
      match decEqs as as' with
      | isTrue h => isTrue (by obtain ⟨h₁, h₂, h₃⟩ := hn; subst h₁ h₂ h₃ h; rfl)
      | isFalse h => isFalse (fun e => by injection e with _ e; exact h e)
    else isFalse (fun e => by injection e with h₁ _ h₂ h₃; exact hn ⟨h₁, h₂, h₃⟩)

/-- Equality of lists of written types is decided member by member. -/
def decEqs : (as bs : List WrittenType) → Decidable (as = bs)
  | [], [] => isTrue rfl
  | [], _ :: _ => isFalse (fun e => by cases e)
  | _ :: _, [] => isFalse (fun e => by cases e)
  | a :: as, b :: bs =>
    match decEq a b, decEqs as bs with
    | isTrue h, isTrue h' => isTrue (by subst h h'; rfl)
    | isFalse h, _ => isFalse (fun e => h (List.cons.inj e).1)
    | _, isFalse h => isFalse (fun e => h (List.cons.inj e).2)

end

instance : DecidableEq WrittenType := decEq

mutual

/-- The written form: the name, the arguments in angle brackets if there are any, and the
question mark. -/
def text : WrittenType → String
  | ⟨name, args, nullable, _⟩ =>
    name ++ (if args.isEmpty then "" else "<" ++ ", ".intercalate (texts args) ++ ">")
      ++ (if nullable then "?" else "")

/-- The written forms of a list of types. -/
def texts : List WrittenType → List String
  | [] => []
  | t :: rest => text t :: texts rest

end

/-- Whether the name has a dot in it. -/
def isQualified (t : WrittenType) : Bool := t.name.toList.contains '.'

/-- The pieces of the name between its dots, empty ones left out. -/
def segments (t : WrittenType) : List String := (StagedResolve.segments t.name).filter (· ≠ "")

end WrittenType

end StagedResolve
