/-
Climbing and descending a tree that is given by links.

The declarations of a unit and the nodes of its syntax tree are both
lists whose members name their parent by number. `climb` follows the
links upwards and `preorder` follows the lists of children downwards;
both take the number of links that they may follow. In a tree of `n`
members no chain of links is longer than `n`, so the callers pass the
size of their tree and lose nothing.
-/

namespace StagedResolve

/-- The members met by following parent links from `a`, nearest first, `fuel` of them at most. -/
def climb {α : Type} (parent? : α → Option α) : (fuel : Nat) → (a : α) → List α
  | 0, _ => []
  | fuel + 1, a =>
    match parent? a with
    | none => []
    | some p => p :: climb parent? fuel p

/-- A member and everything below it down to depth `fuel`, each member before its children. -/
def preorder {α : Type} (children : α → List α) : (fuel : Nat) → (a : α) → List α
  | 0, a => [a]
  | fuel + 1, a => a :: (children a).flatMap (preorder children fuel)

end StagedResolve
