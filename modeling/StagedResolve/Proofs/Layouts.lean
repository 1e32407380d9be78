/-
Layouts: how the declarations of a described unit stand to one another.

# Which descriptions become units

An entry may name what was described before it for its owner and for the
lender of its node. A description in which all entries do becomes a unit,
and no other one does (`UnitSpec.exists_draft_iff`).

# Two trees and a table

Such a unit is two trees, of declarations and of nodes, and a table from
nodes to declarations. What is known of each of them from how drafts grow
is put together here (`CompilationUnit.LaidOut`): parents and lists of
children agree, the way up ends at the file and the way down comes by
everything below once; the table knows the declarations that have a node
of their own; what is below a block is in executable code, whichever way
the block is found; and a name that is found from everywhere is made of
the names on the way down from the file (`laidOut_of_forms`).
-/
import Mathlib.Data.List.Chain
import Mathlib.Logic.Relation
import StagedResolve.Proofs.Listings
import StagedResolve.Proofs.Promotion

namespace StagedResolve

open Relation

-- ============================================ which descriptions become units

namespace Draft

variable {d e : Draft} {owner : Declaration} {anchor : NodeId} {spec : DeclSpec}

/-- What is there has a number below the length of the draft. -/
theorem exists_decl?_iff {id : DeclId} :
    (∃ x, d.decl? id = some x) ↔ id.index < d.decls.length :=
  ⟨fun ⟨_, hx⟩ => (List.getElem?_eq_some_iff.mp hx).1,
    fun hlt => ⟨_, List.getElem?_eq_getElem hlt⟩⟩

/-- A node can be had if its lender is there. -/
theorem exists_placeNode_iff : (∃ place, d.placeNode anchor spec = .ok place) ↔
    ∀ l ∈ spec.borrows, l.index < d.decls.length := by
  unfold placeNode
  cases spec.borrows with
  | none => simp
  | some l =>
      have hlender : (∃ x, d.decl? l = some x) ↔ l.index < d.decls.length :=
        exists_decl?_iff
      dsimp only
      cases hl : d.decl? l <;> rw [hl] at hlender <;> simpa using hlender

/-- So a declaration can be added then. -/
theorem exists_insert_iff : (∃ e, d.insert owner anchor spec = .ok e) ↔
    ∀ l ∈ spec.borrows, l.index < d.decls.length := by
  have hplace : (∃ place, d.placeNode anchor spec = .ok place) ↔ _ :=
    exists_placeNode_iff
  rw [← hplace]
  unfold insert
  cases d.placeNode anchor spec <;> simp

end Draft

namespace UnitEntry

variable {e : UnitEntry} {d d' : Draft}

/-- It can be added if its owner and the lender of its node are there. -/
theorem exists_addTo_iff : (∃ d', e.addTo d = .ok d') ↔
    e.owner.index < d.decls.length ∧
      ∀ l ∈ e.spec.borrows, l.index < d.decls.length := by
  rw [← Draft.exists_decl?_iff]
  rcases e.addTo_eq d with ⟨hnone, hadd⟩ | ⟨o, anchor, v, ho, hlength, hadd⟩
  · simp [hnone, hadd]
  · rw [hadd, Draft.exists_insert_iff, hlength, ho]
    simp

end UnitEntry

namespace UnitSpec

/-- Owners and lenders of nodes are described before what belongs to them or
borrows from them. -/
def InOrder (s : UnitSpec) : Prop :=
  ∀ (i : Nat) (e : UnitEntry), s.entries[i]? = some e →
    e.owner.index ≤ i ∧ ∀ l ∈ e.spec.borrows, l.index ≤ i

variable {entries : List UnitEntry} {d d' : Draft}

/-- Each entry is one declaration. -/
theorem length_extend (h : extend entries d = .ok d') :
    d'.decls.length = d.decls.length + entries.length := by
  induction entries generalizing d with
  | nil =>
      cases h
      rfl
  | cons e rest ih =>
      rw [extend] at h
      split at h
      · next v hv =>
        rw [ih h, UnitEntry.length_addTo (e := e) hv, List.length_cons]
        omega
      · cases h

/-- Entries can be added one after the other if each finds its owner and its
lender. -/
theorem exists_extend_iff {n : Nat} (hn : d.decls.length = n + 1) :
    (∃ d', extend entries d = .ok d') ↔
      ∀ (i : Nat) (e : UnitEntry), entries[i]? = some e →
        e.owner.index ≤ n + i ∧ ∀ l ∈ e.spec.borrows, l.index ≤ n + i := by
  induction entries generalizing d n with
  | nil => simp [extend]
  | cons e rest ih =>
      have hfirst : (∃ v, e.addTo d = .ok v) ↔ e.owner.index ≤ n ∧
          ∀ l ∈ e.spec.borrows, l.index ≤ n := by
        rw [UnitEntry.exists_addTo_iff, hn]
        simp only [Nat.lt_succ_iff]
      constructor
      · rintro ⟨d', h⟩ i f hf
        rw [extend] at h
        split at h
        · next v hv =>
          have hv : e.addTo d = .ok v := hv
          cases i with
          | zero =>
              cases hf
              exact hfirst.mp ⟨v, hv⟩
          | succ i =>
              have hrest := (ih (n := n + 1) (by
                rw [UnitEntry.length_addTo hv, hn])).mp ⟨d', h⟩ i f hf
              rwa [Nat.add_right_comm] at hrest
        · cases h
      · intro h
        obtain ⟨v, hv⟩ := hfirst.mpr (h 0 e rfl)
        have hrest := (ih (d := v) (n := n + 1) (by
          rw [UnitEntry.length_addTo hv, hn])).mpr fun i f hf => by
            rw [Nat.add_right_comm]
            exact h (i + 1) f hf
        obtain ⟨d', hd'⟩ := hrest
        refine ⟨d', ?_⟩
        have hone : (if e.inBody then d.addLocal e.owner e.spec
            else d.add e.owner e.spec) = .ok v := hv
        rw [extend, hone]
        exact hd'

variable {s : UnitSpec}

/-- A description becomes a unit if it is in order, and only then. -/
theorem exists_draft_iff : (∃ d, s.draft = .ok d) ↔ s.InOrder := by
  unfold draft InOrder
  rw [exists_extend_iff (n := 0) rfl]
  simp only [Nat.zero_add]

/-- The unit has the file and one declaration for each entry. -/
theorem draft_length (h : s.draft = .ok d) :
    d.decls.length = s.entries.length + 1 := by
  rw [length_extend h]
  exact Nat.add_comm ..

end UnitSpec

-- ============================================================== the way up

/-- The nodes above a node are those that parent links lead to. -/
theorem SourceTree.Earlier.mem_ancestors_iff {t : SourceTree} {n m : NodeId}
    (ht : t.Earlier) :
    m ∈ t.ancestors n ↔ TransGen (fun c p => t.parent? c = some p) n m := by
  constructor
  · intro h
    obtain ⟨i, hi⟩ : ∃ i, n.index = i := ⟨n.index, rfl⟩
    induction i using Nat.strongRecOn generalizing n with
    | ind i ih =>
        cases hp : t.parent? n with
        | none =>
            rw [ancestors_of_no_parent hp] at h
            cases h
        | some p =>
            have hlt := ht n p hp
            rw [ht.ancestors_of_parent hp] at h
            rcases List.mem_cons.mp h with rfl | h
            · exact .single hp
            · exact .head hp (ih p.index (by omega) h rfl)
  · intro h
    induction h using TransGen.head_induction_on with
    | single hp =>
        rw [ht.ancestors_of_parent hp]
        exact List.mem_cons_self ..
    | head hp _ ih =>
        rw [ht.ancestors_of_parent hp]
        exact List.mem_cons_of_mem _ ih

namespace CompilationUnit

variable {u : CompilationUnit} {a d p : DeclId} {x : Declaration}

namespace WellFormed

/-- What is around a declaration is its parent, the parent of that, and so
on. -/
theorem isChain_ancestors (hu : u.WellFormed) (d : DeclId) :
    (d :: u.ancestors d).IsChain fun c p => u.parent? c = some p := by
  induction d using hu.parent_induction with
  | top d hp =>
      rw [ancestors_of_no_parent hp]
      exact .singleton d
  | step d p hp ih =>
      rw [hu.ancestors_of_parent hp]
      exact .cons_cons hp ih

/-- The way up is over at something without a parent. -/
theorem getLast?_ancestors (hu : u.WellFormed) {top : DeclId}
    (htop : ∀ d, d.index < u.size → d ≠ top → ∃ p, u.parent? d = some p)
    (hd : d.index < u.size) :
    (d :: u.ancestors d).getLast? = some top := by
  induction d using hu.parent_induction with
  | top d hp =>
      rw [ancestors_of_no_parent hp]
      by_cases hne : d = top
      · rw [hne]
        rfl
      · obtain ⟨p, hp'⟩ := htop d hd hne
        exact nomatch hp.symm.trans hp'
  | step d p hp ih =>
      rw [hu.ancestors_of_parent hp, List.getLast?_cons_cons]
      exact ih (Nat.lt_trans (hu.earlier d p hp) hd)

/-- A parent lists its children once each, and nothing else. -/
theorem count_children (hu : u.WellFormed)
    (hlist : ∀ p, (u.children p).Nodup) (p d : DeclId) :
    (u.children p).count d = if u.parent? d = some p then 1 else 0 := by
  split
  · next hp =>
    exact List.count_eq_one_of_mem (hlist p) ((hu.child_iff p d).mpr hp)
  · next hp =>
    exact List.count_eq_zero.mpr fun hmem => hp ((hu.child_iff p d).mp hmem)

end WellFormed

-- =============================================================== names

/-- The name that a declaration was given. -/
def name? (u : CompilationUnit) (d : DeclId) : Option String :=
  (u.decl? d).bind (·.name)

/-- The declarations around a declaration, files apart, nearest first. -/
def enclosing (u : CompilationUnit) (d : DeclId) : List DeclId :=
  (u.ancestors d).filter fun a => u.kind? a != some .file

/-- A declaration has a name by which it is found from everywhere. -/
def IsTitled (u : CompilationUnit) (d : DeclId) : Prop :=
  ∃ x n, u.decl? d = some x ∧ x.qualifiedName = some n

section names

variable (hu : u.WellFormed) (hfile : ∀ d, d ≠ .root → u.kind? d ≠ some .file)
  (hnamed : NamedExactly u.package u.placedLabel?)

include hu hfile in
/-- Around a declaration there is its parent, unless that is the file, and
what is around that. -/
theorem enclosing_of_parent (hp : u.parent? d = some p) : u.enclosing d =
    if u.kind? p = some .file then [] else p :: u.enclosing p := by
  unfold enclosing
  rw [hu.ancestors_of_parent hp]
  by_cases hk : u.kind? p = some .file
  · have hroot : p = .root := Classical.not_not.mp fun hne => hfile p hne hk
    have htop : u.ancestors p = [] :=
      List.eq_nil_iff_forall_not_mem.mpr fun a ha => by
        have hlt := hu.index_lt_of_mem_ancestors ha
        rw [hroot] at hlt
        exact Nat.not_lt_zero _ hlt
    simp [hk, htop]
  · simp [hk]

include hnamed in
/-- A declaration has a name by which it is found from everywhere if it is a
classifier with a name of its own, is not in executable code, and is directly
in a file or in something with such a name. -/
theorem qualifiedName_eq_some_iff {n : QualifiedName}
    (hx : u.decl? d = some x) : x.qualifiedName = some n ↔
      ∃ p o, u.parent? d = some p ∧ u.decl? p = some o ∧ x.isLocal = false ∧
        x.kind.isNamedClassifier = true ∧ ∃ name, x.name = some name ∧
          ((o.kind = .file ∧ n = .topLevel u.package name) ∨
            o.kind ≠ .file ∧ ∃ m, o.qualifiedName = some m ∧
              n = m.child name) := by
  have hexact : x.qualifiedName = _ := hnamed d x.label x.isLocal
    (Option.map_eq_some_iff.mpr ⟨x, hx, rfl⟩)
  have hparent : u.parent? d = x.parent := by
    rw [parent?, hx, Option.bind_some]
  rw [hexact, hparent, Option.bind_eq_some_iff]
  constructor
  · rintro ⟨o, ho, hname⟩
    obtain ⟨p, hp, hplaced⟩ := Option.bind_eq_some_iff.mp ho
    obtain ⟨z, hz, rfl⟩ := Option.map_eq_some_iff.mp hplaced
    exact ⟨p, z, hp, hz, Label.nameIn_eq_some_iff.mp hname⟩
  · rintro ⟨p, o, hp, ho, hname⟩
    exact ⟨(o.label, o.isLocal), Option.bind_eq_some_iff.mpr
      ⟨p, hp, Option.map_eq_some_iff.mpr ⟨o, ho, rfl⟩⟩,
      Label.nameIn_eq_some_iff.mpr hname⟩

include hu hfile hnamed in
/-- Then everything around it has such a name, and its name is made of theirs
and its own. -/
theorem titled_of_qualifiedName {n : QualifiedName}
    (hx : u.decl? d = some x) (hn : x.qualifiedName = some n) :
    (∀ a ∈ u.enclosing d, u.IsTitled a) ∧ n.package = u.package ∧
      n.classes.map some = ((d :: u.enclosing d).map u.name?).reverse := by
  induction d using hu.parent_induction generalizing x n with
  | top d hd =>
      obtain ⟨p, -, hp, -⟩ := (qualifiedName_eq_some_iff hnamed hx).mp hn
      cases hd.symm.trans hp
  | step d q hq ih =>
      obtain ⟨p, o, hp, ho, -, -, name, hname, hplace⟩ :=
        (qualifiedName_eq_some_iff hnamed hx).mp hn
      obtain rfl := Option.some.inj (hq.symm.trans hp)
      have hkind : u.kind? q = some o.kind := by
        rw [kind?, ho, Option.map_some]
      have hown : u.name? d = some name := by
        rw [name?, hx, Option.bind_some, hname]
      rw [enclosing_of_parent hu hfile hp, hkind]
      rcases hplace with ⟨hof, rfl⟩ | ⟨hof, m, hm, rfl⟩
      · rw [if_pos (congrArg some hof)]
        refine ⟨fun a ha => (by cases ha), rfl, ?_⟩
        simp [hown, QualifiedName.topLevel]
      · rw [if_neg fun h => hof (Option.some.inj h)]
        obtain ⟨habove, hpackage, hclasses⟩ := ih ho hm
        refine ⟨fun a ha => ?_, hpackage, ?_⟩
        · rcases List.mem_cons.mp ha with rfl | ha
          · exact ⟨o, m, ho, hm⟩
          · exact habove a ha
        · rw [List.map_cons, List.reverse_cons, ← hclasses, hown]
          exact List.map_append

include hu hfile hnamed in
/-- So a declaration has such a name if it is a classifier with a name of its
own, is not in executable code, and everything around it has such a name. -/
theorem exists_qualifiedName_iff (hx : u.decl? d = some x)
    (hp : u.parent? d = some p) : (∃ n, x.qualifiedName = some n) ↔
      x.kind.isNamedClassifier = true ∧ (∃ name, x.name = some name) ∧
        x.isLocal = false ∧ ∀ a ∈ u.enclosing d, u.IsTitled a := by
  constructor
  · rintro ⟨n, hn⟩
    obtain ⟨-, -, -, -, hlocal, hkind, name, hname, -⟩ :=
      (qualifiedName_eq_some_iff hnamed hx).mp hn
    exact ⟨hkind, ⟨name, hname⟩, hlocal,
      (titled_of_qualifiedName hu hfile hnamed hx hn).1⟩
  · rintro ⟨hkind, ⟨name, hname⟩, hlocal, habove⟩
    obtain ⟨o, ho⟩ : ∃ o, u.decl? p = some o := ⟨_, List.getElem?_eq_getElem
      (Nat.lt_trans (hu.earlier d p hp) (index_lt_size hx))⟩
    rw [enclosing_of_parent hu hfile hp, kind?, ho, Option.map_some] at habove
    by_cases hof : o.kind = .file
    · exact ⟨_, (qualifiedName_eq_some_iff hnamed hx).mpr
        ⟨p, o, hp, ho, hlocal, hkind, name, hname, Or.inl ⟨hof, rfl⟩⟩⟩
    · rw [if_neg fun h => hof (Option.some.inj h)] at habove
      obtain ⟨y, m, hy, hm⟩ := habove p (List.mem_cons_self ..)
      obtain rfl := Option.some.inj (ho.symm.trans hy)
      exact ⟨_, (qualifiedName_eq_some_iff hnamed hx).mpr
        ⟨p, o, hp, ho, hlocal, hkind, name, hname, Or.inr ⟨hof, m, hm, rfl⟩⟩⟩

end names

end CompilationUnit

-- ================================================================ layouts

/-- The trees of a unit and the table from nodes to declarations agree with
one another, and with what is noted of each declaration. -/
structure CompilationUnit.LaidOut (u : CompilationUnit) : Prop where
  /-- Everything but the file has a parent that came before it. -/
  parent : ∀ d, d.index < u.size → d ≠ .root →
    ∃ p, u.parent? d = some p ∧ p.index < d.index
  /-- A declaration is listed once, by its parent. -/
  listed : ∀ p d, (u.children p).count d =
    if u.parent? d = some p then 1 else 0
  /-- Children are listed in the order of their numbers. -/
  ascending : ∀ p, (u.children p).Pairwise fun c d => c.index < d.index
  /-- Around a declaration there is its parent, the parent of that, and so
  on. -/
  upward : ∀ d, (d :: u.ancestors d).IsChain fun c p => u.parent? c = some p
  /-- The way up is over at the file, which has no parent. -/
  top : u.parent? .root = none ∧ ∀ d, d.index < u.size →
    (d :: u.ancestors d).getLast? = some .root
  /-- A subtree is its root and what is below each child in turn. -/
  preorder : ∀ d, u.subtree d = d :: (u.children d).flatMap u.subtree
  /-- A stack with nothing but the root on it comes to the same list. -/
  stacked : ∀ d, Unstacks u.children [d] (u.subtree d)
  /-- Nothing is in a subtree twice. -/
  once : ∀ d, (u.subtree d).Nodup
  /-- A subtree holds the declarations that are or have its root above
  them. -/
  below : ∀ d, d.index < u.size → ∀ e, e ∈ u.subtree d ↔
    e.index < u.size ∧ d ∈ e :: u.ancestors e
  /-- A node leads to the declaration that has it for its own. -/
  indexed : ∀ d x, u.decl? d = some x →
    (u.declarationFor? x.node = some d ↔ x.isBorrowed = false)
  /-- Below a block everything is local, and nothing else is. -/
  blocks : ∀ d x, u.decl? d = some x → (x.isLocal = true ↔
    ∃ b, TransGen (fun n m => u.tree.parent? n = some m) x.node b ∧
      u.tree.kind? b = some .block)
  /-- Classes and type aliases outside of executable code are found by name
  from everywhere if everything around them is. -/
  titled : ∀ d x, u.decl? d = some x → ((∃ n, x.qualifiedName = some n) ↔
    (x.kind = .classDecl ∨ x.kind = .typeAlias) ∧
      (∃ name, x.name = some name) ∧ x.isLocal = false ∧
      ∀ a ∈ u.enclosing d, u.IsTitled a)
  /-- Then the chain of the name is that of the names on the way down. -/
  chain : ∀ d x n, u.decl? d = some x → x.qualifiedName = some n →
    n.package = u.package ∧
      n.classes.map some = ((d :: u.enclosing d).map u.name?).reverse

/-- A declaration's node leads back to it exactly if the node is its own. -/
theorem Planted.declarationFor?_eq_iff {own : Prop} {u : CompilationUnit}
    {d : DeclId} {x : Declaration} (hwf : u.WellFormed)
    (h : Planted own u.tree u.placement?) (hx : u.decl? d = some x) :
    u.declarationFor? x.node = some d ↔ x.isBorrowed = false := by
  refine ⟨fun hfor => ?_, h.declarationFor?_eq hwf hx⟩
  obtain ⟨y, hy, hown, -⟩ := hwf.decl?_of_declarationFor? hfor
  obtain rfl := Option.some.inj (hx.symm.trans hy)
  exact hown

/-- A declaration of such a unit is local if there is a block above its
node. -/
theorem Planted.isLocal_iff {own : Prop} {u : CompilationUnit}
    {d : DeclId} {x : Declaration} (h : Planted own u.tree u.placement?)
    (hx : u.decl? d = some x) : x.isLocal = true ↔
      ∃ b, TransGen (fun n m => u.tree.parent? n = some m) x.node b ∧
        u.tree.kind? b = some .block := by
  have hlocal : x.isLocal = u.tree.isLocal x.node :=
    h.isLocal d _ (u.placement?_of_decl? hx)
  rw [hlocal, SourceTree.isLocal, List.any_eq_true]
  simp only [h.earlier.mem_ancestors_iff, beq_iff_eq]

/-- Everything but the file has a parent that came before it. -/
theorem Planted.exists_parent {own : Prop} {u : CompilationUnit} {d : DeclId}
    (hwf : u.WellFormed) (h : Planted own u.tree u.placement?)
    (hd : d.index < u.size) (hne : d ≠ .root) :
    ∃ p, u.parent? d = some p ∧ p.index < d.index := by
  obtain ⟨p, -, hp, -⟩ := h.placed_decl (List.getElem?_eq_getElem hd) hne
  exact ⟨p, hp, hwf.earlier d p hp⟩

/-- Classes and type aliases are the classifiers with a name of their own. -/
theorem DeclKind.isNamedClassifier_iff {k : DeclKind} :
    k.isNamedClassifier = true ↔ k = .classDecl ∨ k = .typeAlias := by
  cases k <;> simp [isNamedClassifier]

/-- Classes and type aliases are found by name from everywhere if they are
not in executable code and everything around them is found in the same
way. -/
theorem Planted.titled_iff {own : Prop} {u : CompilationUnit} {d : DeclId}
    {x : Declaration} (hwf : u.WellFormed)
    (h : Planted own u.tree u.placement?)
    (hnamed : NamedExactly u.package u.placedLabel?)
    (hfile : ∀ d, d ≠ .root → u.kind? d ≠ some .file)
    (hx : u.decl? d = some x) : (∃ n, x.qualifiedName = some n) ↔
      (x.kind = .classDecl ∨ x.kind = .typeAlias) ∧
        (∃ name, x.name = some name) ∧ x.isLocal = false ∧
        ∀ a ∈ u.enclosing d, u.IsTitled a := by
  rw [← DeclKind.isNamedClassifier_iff]
  by_cases hne : d = .root
  · -- the file is no classifier
    subst hne
    have hkind : x.kind = .file := hwf.file x hx
    constructor
    · rintro ⟨n, hn⟩
      obtain ⟨-, -, -, -, -, hclass, -⟩ :=
        (CompilationUnit.qualifiedName_eq_some_iff hnamed hx).mp hn
      rw [hkind] at hclass
      cases hclass
    · rintro ⟨hclass, -⟩
      rw [hkind] at hclass
      cases hclass
  · obtain ⟨p, hp, -⟩ :=
      h.exists_parent hwf (CompilationUnit.index_lt_size hx) hne
    exact CompilationUnit.exists_qualifiedName_iff hwf hfile hnamed hx hp

/-- A unit is laid out if its nodes stand as those of named forms do, its
declarations have the names that what they are in gives them, and only the
file passes for one. -/
theorem Planted.laidOut {own : Prop} {u : CompilationUnit}
    (hwf : u.WellFormed) (h : Planted own u.tree u.placement?)
    (hlists : ∀ p, (u.children p).Pairwise fun c d => c.index < d.index)
    (honce : ∀ p, (u.children p).Nodup)
    (hnamed : NamedExactly u.package u.placedLabel?)
    (hfile : ∀ d, d ≠ .root → u.kind? d ≠ some .file) : u.LaidOut where
  parent := fun _ hd hne => h.exists_parent hwf hd hne
  listed := hwf.count_children honce
  ascending := hlists
  upward := hwf.isChain_ancestors
  top := by
    obtain ⟨z, hz, hnone, -⟩ := h.root_decl
    refine ⟨by rw [CompilationUnit.parent?, hz, Option.bind_some, hnone],
      fun d hd => hwf.getLast?_ancestors (fun e he hne => ?_) hd⟩
    obtain ⟨p, hp, -⟩ := h.exists_parent hwf he hne
    exact ⟨p, hp⟩
  preorder := hwf.subtree_eq
  stacked := fun d => by
    have hstack := hwf.unstacks [d]
    rwa [List.flatMap_singleton] at hstack
  once := fun d => hwf.preorder_nodup honce _ d
  below := fun d hd e => by
    rw [hwf.mem_subtree_iff, List.mem_cons, eq_comm (a := e)]
    refine ⟨fun hmem => ⟨?_, hmem⟩, And.right⟩
    rcases hmem with rfl | habove
    · exact hd
    · obtain ⟨p, hp, -⟩ := hwf.mem_ancestors_iff.mp habove
      exact CompilationUnit.index_lt_size_of_parent hp
  indexed := fun _ _ hx => h.declarationFor?_eq_iff hwf hx
  blocks := fun _ _ hx => h.isLocal_iff hx
  titled := fun _ _ hx => h.titled_iff hwf hnamed hfile hx
  chain := fun _ _ _ hx hn =>
    (CompilationUnit.titled_of_qualifiedName hwf hfile hnamed hx hn).2

/-- A description by named forms becomes a unit exactly if it is in order.
The unit has the file and one declaration for each entry, which belongs to
the owner that the entry names, and it is laid out as a unit should be. -/
theorem laidOut_of_forms {s : UnitSpec} (hs : s.OfForms) :
    ((∃ draft, s.draft = .ok draft) ↔ s.InOrder) ∧
    ∀ draft id, s.draft = .ok draft →
      (draft.finish id).size = s.entries.length + 1 ∧
      (∀ (i : Nat) (e : UnitEntry), s.entries[i]? = some e →
        (draft.finish id).parent? ⟨i + 1⟩ = some e.owner) ∧
      (draft.finish id).LaidOut := by
  refine ⟨UnitSpec.exists_draft_iff, fun draft id h => ?_⟩
  have hgrown : draft.Grown False s.entries := hs.grown False.elim h
  have hsize : (draft.finish id).size = s.entries.length + 1 :=
    UnitSpec.draft_length h
  refine ⟨hsize, fun i e he => ?_, ?_⟩
  · have hlt := (List.getElem?_eq_some_iff.mp he).1
    have hx : (draft.finish id).decl? ⟨i + 1⟩ = some _ :=
      List.getElem?_eq_getElem
        (hsize ▸ Nat.succ_lt_succ hlt : i + 1 < (draft.finish id).size)
    obtain ⟨f, hf, howner, -⟩ :=
      hgrown.listed i _ ((draft.finish id).placement?_of_decl? hx)
    obtain rfl := Option.some.inj (he.symm.trans hf)
    rw [CompilationUnit.parent?, hx]
    exact howner
  · have hplanted : Planted False (draft.finish id).tree
        (draft.finish id).placement? := hgrown.planted
    exact hplanted.laidOut (UnitSpec.draft_wellFormed h id)
      (UnitSpec.draft_ascending h id) (UnitSpec.draft_listsOnce h id)
      (UnitSpec.namedExactly h id) fun d hd => hs.kind_ne_file h id hd

/-- A class in a class, with a function in whose body there is a class with
another one in it, and with a type alias; and a property of the outer class
with an accessor that borrows its node. -/
def UnitSpec.nestedLocals : UnitSpec :=
  .ofEntries "a.kt" [.member 0 (.classNamed "C" []),
    .member 1 (.classNamed "D" []), .member 2 (.functionNamed "f" none),
    ⟨⟨3⟩, true, .classNamed "L" []⟩, .member 4 (.classNamed "M" []),
    .member 2 (.ofForm .typeAlias "T"), .member 1 (.ofForm .property "x"),
    .member 7 { DeclSpec.ofForm .getter "" with borrows := some ⟨7⟩ }]

/-- It is described by named forms. -/
theorem UnitSpec.ofForms_nestedLocals : UnitSpec.nestedLocals.OfForms := by
  intro e he
  simp only [nestedLocals, ofEntries, List.mem_cons, List.not_mem_nil,
    or_false] at he
  rcases he with rfl | rfl | rfl | rfl | rfl | rfl | rfl | rfl
  · exact ⟨.classDecl, rfl, rfl⟩
  · exact ⟨.classDecl, rfl, rfl⟩
  · exact ⟨.function, rfl, rfl⟩
  · exact ⟨.classDecl, rfl, rfl⟩
  · exact ⟨.classDecl, rfl, rfl⟩
  · exact ⟨.typeAlias, rfl, rfl⟩
  · exact ⟨.property, rfl, rfl⟩
  · exact ⟨.getter, rfl, rfl⟩

/-- The alias is found from everywhere, by the names of the classes around
it; the classes in the body are not, although they hang on the same class,
and the node of the accessor leads to the property. -/
theorem laidOut_of_forms_nestedLocals :
    let s := UnitSpec.nestedLocals
    let draft := s.draft.toOption.getD default
    let u := draft.finish ⟨0⟩
    s.OfForms ∧ s.draft = .ok draft ∧ s.InOrder ∧ u.size = 9 ∧
      u.parent? ⟨6⟩ = some ⟨2⟩ ∧ u.LaidOut ∧
      u.subtree ⟨2⟩ = [⟨2⟩, ⟨3⟩, ⟨4⟩, ⟨5⟩, ⟨6⟩] ∧
      u.enclosing ⟨6⟩ = [⟨2⟩, ⟨1⟩] ∧
      (∃ x ∈ u.decl? ⟨6⟩, x.qualifiedName = some ⟨"p", ["C", "D", "T"]⟩) ∧
      (∃ x ∈ u.decl? ⟨5⟩, ¬ ∃ n, x.qualifiedName = some n) ∧
      ∃ x ∈ u.decl? ⟨8⟩, u.declarationFor? x.node ≠ some ⟨8⟩ := by
  intro s draft u
  have hforms : s.OfForms := UnitSpec.ofForms_nestedLocals
  have hdraft : s.draft = .ok draft := by decide +kernel
  obtain ⟨hiff, hall⟩ := laidOut_of_forms hforms
  obtain ⟨hsize, hparent, hlaid⟩ := hall draft ⟨0⟩ hdraft
  have hlocal : ∃ x ∈ u.decl? ⟨5⟩, x.isLocal = true := by decide +kernel
  have hborrowed : ∃ x ∈ u.decl? ⟨8⟩, x.isBorrowed = true := by decide +kernel
  obtain ⟨x, hx, hxlocal⟩ := hlocal
  obtain ⟨y, hy, hyborrowed⟩ := hborrowed
  refine ⟨hforms, hdraft, hiff.mp ⟨draft, hdraft⟩, hsize, hparent 5 _ rfl,
    hlaid, by decide +kernel, by decide +kernel, by decide +kernel,
    ⟨x, hx, fun hn => ?_⟩, y, hy, fun hfor => ?_⟩
  · rw [((hlaid.titled ⟨5⟩ x hx).mp hn).2.2.1] at hxlocal
    cases hxlocal
  · rw [(hlaid.indexed ⟨8⟩ y hy).mp hfor] at hyborrowed
    cases hyborrowed

end StagedResolve
