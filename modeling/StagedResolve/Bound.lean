/-
Adding up what the members of a list weigh.

Searches over classes and their supertypes have no structure to recurse
on, so they count steps. What they can meet is listed somewhere, each
member weighs as many steps as it can cause, and the sum of the weights
(`totalOf`) bounds the search.
-/

namespace StagedResolve

/-- The sum of the weights of the members of a list. -/
def totalOf {α : Type} (weight : α → Nat) : List α → Nat
  | [] => 0
  | a :: rest => weight a + totalOf weight rest

/-- Lists weigh together what they weigh one by one. -/
theorem totalOf_append {α : Type} (weight : α → Nat) (as bs : List α) :
    totalOf weight (as ++ bs) = totalOf weight as + totalOf weight bs := by
  induction as with
  | nil => simp [totalOf]
  | cons a rest ih => simp [totalOf, ih, Nat.add_assoc]

end StagedResolve
