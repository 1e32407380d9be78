/-
Identities of units and of the things inside them.

A unit id is allocated once and never reused, so a rebuilt unit cannot
be taken for the one it replaces; unit ids also fix the order in which
unit locks may be waited for. Inside a unit, declarations and syntax
nodes are numbered from zero, and number zero is always the file. A
symbol, a unit together with a declaration number, names a declaration
across all units.

Ids are stored in 32 bits. Here they are numbers without a bound, which
comes to the same as long as fewer than 2^32 unit ids are allocated and no
unit has 2^32 declarations or syntax nodes. Beyond that ids would be used
again, and everything that rests on their being fresh assumes that it does
not come to that.
-/

namespace StagedResolve

/-- One compilation unit. -/
structure UnitId where
  index : Nat
  deriving DecidableEq, Repr, Inhabited

namespace UnitId

instance : LE UnitId := ⟨fun a b => a.index ≤ b.index⟩
instance : LT UnitId := ⟨fun a b => a.index < b.index⟩
instance (a b : UnitId) : Decidable (a ≤ b) := inferInstanceAs (Decidable (a.index ≤ b.index))
instance (a b : UnitId) : Decidable (a < b) := inferInstanceAs (Decidable (a.index < b.index))
instance : Max UnitId := maxOfLe

/-- Units are ordered by their ids. -/
theorem le_def {a b : UnitId} : a ≤ b ↔ a.index ≤ b.index := Iff.rfl

/-- One unit is before another if its id is. -/
theorem lt_def {a b : UnitId} : a < b ↔ a.index < b.index := Iff.rfl

/-- The written form, as in `unit_3`. -/
def text (u : UnitId) : String := "unit_" ++ toString u.index

/-- The greatest id of a list, if it has any. -/
def greatest? : List UnitId → Option UnitId
  | [] => none
  | u :: rest =>
    match greatest? rest with
    | none => some u
    | some v => some (max u v)

end UnitId

/-- The number of a declaration inside its unit. -/
structure DeclId where
  index : Nat
  deriving DecidableEq, Repr, Inhabited

namespace DeclId

/-- The file declaration. -/
def root : DeclId := ⟨0⟩

/-- Whether this is the file declaration. -/
def isRoot (d : DeclId) : Bool := d.index == 0

/-- The written form, as in `#12`. -/
def text (d : DeclId) : String := "#" ++ toString d.index

end DeclId

/-- The number of a node in the syntax tree of its unit. -/
structure NodeId where
  index : Nat
  deriving DecidableEq, Repr, Inhabited

/-- The file node. -/
def NodeId.root : NodeId := ⟨0⟩

/-- A declaration across all units. -/
structure Symbol where
  unit : UnitId
  decl : DeclId
  deriving DecidableEq, Repr, Inhabited

namespace Symbol

/-- The file declaration of a unit. -/
def rootOf (u : UnitId) : Symbol := ⟨u, .root⟩

/-- Whether the symbol names a file declaration. -/
def isRoot (s : Symbol) : Bool := s.decl.isRoot

/-- The written form, as in `unit_3#12`. -/
def text (s : Symbol) : String := s.unit.text ++ s.decl.text

/-- Symbols are ordered by unit and then by declaration. -/
def le (a b : Symbol) : Bool :=
  decide (a.unit < b.unit) || (a.unit == b.unit && decide (a.decl.index ≤ b.decl.index))

end Symbol

end StagedResolve
