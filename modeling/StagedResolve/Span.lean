/-
Places in source text.
-/

namespace StagedResolve

/-- A line and a column, both counted from one, and a length in bytes. Line zero marks a place
that has no source text of its own. -/
structure Span where
  line : Nat
  column : Nat
  length : Nat
  deriving DecidableEq, Repr

namespace Span

/-- The place of what was never written. -/
def nowhere : Span := ⟨0, 0, 0⟩

instance : Inhabited Span := ⟨nowhere⟩

/-- The empty span at a place. -/
def point (line column : Nat) : Span := ⟨line, column, 0⟩

/-- Whether the place has no source text of its own. -/
def isSynthetic (s : Span) : Bool := s.line == 0

/-- The written form, as in `3:7`. -/
def text (s : Span) : String := toString s.line ++ ":" ++ toString s.column

end Span

end StagedResolve
