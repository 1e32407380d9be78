/-
Listings: what is listed below a declaration, and in which order.

# Lists of children

A draft lists a new declaration with its owner, behind what is there, and
the new one has the greatest number. So lists of children are in the order
of numbers (`UnitSpec.draft_ascending`) and list nothing twice.

# Subtrees

Numbers rise on the way down, so the bound on the depth of a subtree is
never felt: a subtree is its root and the subtrees of the children, one
after the other (`WellFormed.subtree_eq`), and what is in it is what has
the root above it (`WellFormed.mem_subtree_iff`). A stack on which each
declaration is replaced by its children comes to the same list
(`WellFormed.unstacks`); that it ever gets empty is part of the statement.
-/
import Mathlib.Data.List.Flatten
import Mathlib.Data.List.Nodup
import StagedResolve.Proofs.Titles

namespace StagedResolve

-- ================================================================== subtrees

/-- A stack is emptied, its top first: what is taken off is listed, and its
children are put in its place, the first one on top. -/
inductive Unstacks {α : Type} (children : α → List α) :
    List α → List α → Prop
  | empty : Unstacks children [] []
  | take {a : α} {rest listed : List α} :
      Unstacks children (children a ++ rest) listed →
        Unstacks children (a :: rest) (a :: listed)

namespace CompilationUnit

variable {u : CompilationUnit} {a d e p : DeclId}

namespace WellFormed

/-- A child has a greater number than its parent, and is there. -/
theorem index_of_child (hu : u.WellFormed) (h : d ∈ u.children p) :
    p.index < d.index ∧ d.index < u.size :=
  have hparent := (hu.child_iff p d).mp h
  ⟨hu.earlier d p hparent, index_lt_size_of_parent hparent⟩

/-- The last declaration has no children. -/
theorem children_of_last (hu : u.WellFormed) (h : u.size ≤ a.index + 1) :
    u.children a = [] := by
  refine List.eq_nil_iff_forall_not_mem.mpr fun c hc => ?_
  have hlt := hu.index_of_child hc
  omega

/-- How deep one may go down from a declaration does not count, if it is deep
enough for all declarations that come later. -/
theorem preorder_eq (hu : u.WellFormed) {fuel fuel' : Nat}
    (h : u.size ≤ a.index + 1 + fuel) (h' : u.size ≤ a.index + 1 + fuel') :
    preorder u.children fuel a = preorder u.children fuel' a := by
  induction fuel generalizing fuel' a with
  | zero => cases fuel' <;> simp [preorder, hu.children_of_last h]
  | succ fuel ih =>
      cases fuel' with
      | zero => simp [preorder, hu.children_of_last h']
      | succ fuel' =>
          have hbelow : ∀ c ∈ u.children a,
              preorder u.children fuel c = preorder u.children fuel' c := by
            intro c hc
            have hlt := (hu.index_of_child hc).1
            exact ih (by omega) (by omega)
          simp only [preorder, List.flatMap_congr hbelow]

/-- A subtree is its root and what is below each child in turn. -/
theorem subtree_eq (hu : u.WellFormed) (d : DeclId) :
    u.subtree d = d :: (u.children d).flatMap u.subtree := by
  have hdeeper : u.subtree d = preorder u.children (u.size + 1) d :=
    hu.preorder_eq (by omega) (by omega)
  rw [hdeeper]
  rfl

/-- Going down from a declaration comes by nothing twice, if nothing is
listed twice. -/
theorem preorder_nodup (hu : u.WellFormed)
    (hlist : ∀ p, (u.children p).Nodup) (fuel : Nat) (a : DeclId) :
    (preorder u.children fuel a).Nodup := by
  induction fuel generalizing a with
  | zero => exact List.nodup_singleton a
  | succ fuel ih =>
      refine List.nodup_cons.mpr ⟨fun ha => ?_, List.nodup_flatMap.mpr
        ⟨fun c _ => ih c, ?_⟩⟩
      · obtain ⟨c, hc, ha⟩ := List.mem_flatMap.mp ha
        have hlt := (hu.index_of_child hc).1
        rcases hu.mem_preorder ha with rfl | hup
        · exact Nat.lt_irrefl _ hlt
        · exact Nat.lt_asymm hlt (hu.index_lt_of_mem_ancestors hup)
      · refine (hlist a).imp_of_mem fun {b c} hb hc hne d hdb hdc => hne ?_
        exact hu.eq_of_parent ((hu.mem_preorder hdb).imp_left Eq.symm)
          ((hu.mem_preorder hdc).imp_left Eq.symm)
          ((hu.child_iff a b).mp hb) ((hu.child_iff a c).mp hc)

/-- A subtree holds its root and whatever has that above it. -/
theorem mem_subtree_iff (hu : u.WellFormed) :
    e ∈ u.subtree d ↔ e = d ∨ d ∈ u.ancestors e := by
  refine ⟨hu.mem_subtree, fun h => ?_⟩
  induction e using hu.parent_induction with
  | top e hp =>
      rw [ancestors_of_no_parent hp] at h
      obtain rfl := h.resolve_right List.not_mem_nil
      rw [hu.subtree_eq]
      exact List.mem_cons_self ..
  | step e p hp ih =>
      rcases h with rfl | h
      · rw [hu.subtree_eq]
        exact List.mem_cons_self ..
      · rw [hu.ancestors_of_parent hp] at h
        have hup : p ∈ u.subtree d :=
          ih ((List.mem_cons.mp h).imp_left Eq.symm)
        exact hu.child_mem_subtree hup ((hu.child_iff p e).mpr hp)

/-- A stack is emptied after the subtrees of what is on it were listed. -/
theorem unstacks (hu : u.WellFormed) (stack : List DeclId) :
    Unstacks u.children stack (stack.flatMap u.subtree) := by
  -- each step lists one declaration of what is left to be listed
  obtain ⟨n, hn⟩ : ∃ n, (stack.flatMap u.subtree).length = n := ⟨_, rfl⟩
  induction n generalizing stack with
  | zero =>
      cases stack with
      | nil => exact .empty
      | cons d rest =>
          rw [List.flatMap_cons, hu.subtree_eq] at hn
          cases hn
  | succ n ih =>
      cases stack with
      | nil => cases hn
      | cons d rest =>
          have hstep : (d :: rest).flatMap u.subtree =
              d :: (u.children d ++ rest).flatMap u.subtree := by
            rw [List.flatMap_cons, hu.subtree_eq, List.flatMap_append]
            rfl
          rw [hstep] at hn ⊢
          exact .take (ih _ (Nat.succ.inj hn))

end WellFormed

end CompilationUnit

-- ========================================================= lists of children

namespace Draft

/-- The draft lists children in the order of their numbers, whatever unit it
becomes. -/
def Ascending (d : Draft) : Prop :=
  ∀ id p, ((d.finish id).children p).Pairwise fun c e => c.index < e.index

/-- An empty file lists nothing. -/
theorem start_ascending (path package : String)
    (imports : List ImportDirective) (annotations : List WrittenType) :
    (start path package imports annotations).Ascending := by
  rintro id ⟨i⟩
  cases i with
  | zero => exact .nil
  | succ i => exact .nil

/-- A new declaration is listed behind what is there. -/
theorem insert_ascending {d e : Draft} {owner o : Declaration}
    {anchor : NodeId} {spec : DeclSpec} (hd : d.WellFormed)
    (hlists : d.Ascending) (howner : d.decl? owner.id = some o)
    (h : d.insert owner anchor spec = .ok e) : e.Ascending := by
  intro id p
  have ho : o.id = owner.id := (hd id).numbered owner.id o howner
  unfold insert at h
  split at h
  · cases h
  · next node tree _ =>
    cases h
    have hchildren := CompilationUnit.WellFormed.children_append
      (u := d.finish id) (o := o) (x := d.newDecl owner node tree spec)
      (v := { d with
        tree := tree
        decls := (d.decls ++ [d.newDecl owner node tree spec]).modify
          owner.id.index fun o =>
            { o with children := o.children ++ [d.nextId] } }.finish id)
      (ho ▸ howner) rfl (by rw [ho]; rfl) p
    rw [hchildren]
    split
    · refine List.pairwise_append.mpr ⟨hlists id p,
        List.pairwise_singleton _ _, fun c hc c' hc' => ?_⟩
      rw [List.mem_singleton.mp hc']
      exact ((hd id).index_of_child hc).2
    · exact hlists id p

/-- So every draft lists children in that order. -/
theorem kept_ascending : Kept Ascending where
  body := fun d o span hd id p => by
    rw [CompilationUnit.children_congr (d.withBody_decl? o span id)]
    exact hd id p
  insert := fun _ _ _ _ _ _ hwf ho _ _ hd h => insert_ascending hwf hd ho h

/-- The draft lists nothing twice, whatever unit it becomes. -/
def ListsOnce (d : Draft) : Prop :=
  ∀ id p, ((d.finish id).children p).Nodup

/-- What is in order is listed once. -/
theorem Ascending.listsOnce {d : Draft} (h : d.Ascending) : d.ListsOnce :=
  fun id p => (h id p).imp fun {c e} (hlt : c.index < e.index) heq =>
    Nat.ne_of_lt hlt (congrArg DeclId.index heq)

end Draft

namespace UnitSpec

variable {s : UnitSpec} {d : Draft}

/-- A described unit lists children in the order of their numbers. -/
theorem draft_ascending (h : s.draft = .ok d) : d.Ascending :=
  Draft.kept_ascending.draft (Draft.start_ascending _ _ _ _) h

/-- So it lists nothing twice. -/
theorem draft_listsOnce (h : s.draft = .ok d) : d.ListsOnce :=
  (draft_ascending h).listsOnce

end UnitSpec

end StagedResolve
