/-
The fixed sequence of analysis phases, and the arithmetic that schedules them.

A declaration climbs this sequence one phase at a time. Three of the
phases are reserved for extensions: nothing here runs them, and they
count as reached together with the phase before them (`satisfied`). The
first two phases belong to a whole file; every later phase that is not
an extension phase is lazy, that is, run for one declaration on demand.

Positions are a contract with whoever stores them, so the order on
phases is the order of positions and nothing else.
-/

namespace StagedResolve

/-- One step of the total order of analysis passes. -/
inductive Phase where
  /-- The declaration exists as it was built; nothing is resolved. -/
  | raw
  /-- The import directives of the whole file are resolved. -/
  | imports
  /-- Reserved for extensions. -/
  | extensionAnnotations
  /-- Supertypes of classes and expansions of type aliases are resolved. -/
  | supertypes
  /-- The inheritors of sealed classes are known. -/
  | sealedInheritors
  /-- The types written in signatures are resolved. -/
  | types
  /-- Reserved for extensions. -/
  | extensionStatus
  /-- Visibility and modality are resolved. -/
  | status
  /-- Contracts of callables are resolved. -/
  | contracts
  /-- Reserved for extensions. -/
  | newMembers
  /-- Types that were not written are inferred. -/
  | implicitTypes
  /-- Executable bodies are resolved. -/
  | bodies
  deriving DecidableEq, Repr, Inhabited

namespace Phase

/-- Every phase, in order. -/
def all : List Phase :=
  [raw, imports, extensionAnnotations, supertypes, sealedInheritors, types, extensionStatus,
    status, contracts, newMembers, implicitTypes, bodies]

/-- The place of a phase in the sequence, counted from zero. -/
def position : Phase → Nat
  | raw => 0
  | imports => 1
  | extensionAnnotations => 2
  | supertypes => 3
  | sealedInheritors => 4
  | types => 5
  | extensionStatus => 6
  | status => 7
  | contracts => 8
  | newMembers => 9
  | implicitTypes => 10
  | bodies => 11

/-- The phase at a position, if there is one. -/
def ofPosition? (n : Nat) : Option Phase := all[n]?

/-- What is reported for a number that is no position. -/
def positionError (n : Nat) : String :=
  "No discriminant in enum `Phase` matches the value `" ++ toString n ++ "`"

instance : LE Phase := ⟨fun a b => a.position ≤ b.position⟩
instance : LT Phase := ⟨fun a b => a.position < b.position⟩
instance (a b : Phase) : Decidable (a ≤ b) := inferInstanceAs (Decidable (a.position ≤ b.position))
instance (a b : Phase) : Decidable (a < b) := inferInstanceAs (Decidable (a.position < b.position))
instance : Max Phase := maxOfLe
instance : Min Phase := minOfLe

/-- Phases are ordered by position. -/
theorem le_def {a b : Phase} : a ≤ b ↔ a.position ≤ b.position := Iff.rfl

/-- One phase is before another if its position is. -/
theorem lt_def {a b : Phase} : a < b ↔ a.position < b.position := Iff.rfl

/-- Positions tell phases apart. -/
theorem position_inj {a b : Phase} (h : a.position = b.position) : a = b := by
  cases a <;> cases b <;> first | rfl | (simp [position] at h)

/-- Reading a position back gives the phase. -/
theorem ofPosition?_position (p : Phase) : ofPosition? p.position = some p := by
  cases p <;> rfl

/-- The following phase; the last one has none. -/
def next? (p : Phase) : Option Phase := ofPosition? (p.position + 1)

/-- The preceding phase; the first one has none. -/
def previous? (p : Phase) : Option Phase :=
  match p.position with
  | 0 => none
  | n + 1 => ofPosition? n

/-- Whether the phase is reserved for extensions. -/
def isExtension : Phase → Bool
  | extensionAnnotations | extensionStatus | newMembers => true
  | _ => false

/-- The last phase that always runs for a whole file. -/
def lastFileWide : Phase := imports

/-- Whether the phase runs on demand for one declaration. -/
def isLazy (p : Phase) : Bool := decide (lastFileWide < p) && !p.isExtension

/-- The highest phase that is satisfied once `p` is reached: the extension phases that directly
follow it come with it. -/
def satisfied (p : Phase) : Phase :=
  ((all.drop (p.position + 1)).takeWhile isExtension).getLastD p

/-- The phases strictly after `start` up to and including `upTo`, in order. -/
def rangeTo (start upTo : Phase) : List Phase :=
  all.filter fun p => decide (start < p) && decide (p ≤ upTo)

/-- The phases that are run to get from `start` to `upTo`. -/
def stepsTo (start upTo : Phase) : List Phase :=
  (start.rangeTo upTo).filter fun p => !p.isExtension

/-- The name a phase is written with. -/
def name : Phase → String
  | raw => "raw"
  | imports => "imports"
  | extensionAnnotations => "annotations-for-extensions"
  | supertypes => "supertypes"
  | sealedInheritors => "sealed-class-inheritors"
  | types => "types"
  | extensionStatus => "extension-status-update"
  | status => "status"
  | contracts => "contracts"
  | newMembers => "new-members-generation"
  | implicitTypes => "implicit-types-body"
  | bodies => "body"

/-- The phase with a given name, if there is one. -/
def ofName? (s : String) : Option Phase := all.find? fun p => p.name == s

end Phase

/-- A marker only ever rises: raising it to a phase it has passed leaves it where it is. -/
def Phase.raise (marker goal : Phase) : Phase := max marker goal

end StagedResolve
