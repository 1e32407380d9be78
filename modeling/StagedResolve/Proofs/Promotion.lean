/-
Promotion: which declaration is resolved in place of another one.

# Two trees

The search for the declaration to resolve climbs the syntax tree, from
the node of a declaration up to the file, and asks of every node on the
way whether it stands alone and which declaration it was made for. So its
answer is a matter of nodes. But if what borrows a node borrows that of
its owner, the nodes on the way are those of the declarations around it,
in the same order, with blocks in between that no declaration has; and a
declaration that borrows adds none. So the search comes to the nearest
declaration, going up the declaration tree, that has a node of its own
that stands alone (`Planted.search_eq`).

# What follows

Whatever is found that way is its own target, is not in executable code,
and hides nothing between it and where the search began
(`promotion_sound`).
-/
import StagedResolve.Proofs.Designations
import StagedResolve.Proofs.Forms
import StagedResolve.Proofs.Histories

namespace StagedResolve

-- ======================================================== nodes on their own

namespace SourceTree

variable {t : SourceTree} {n p : NodeId}

/-- The way up to the file is over at the file. -/
theorem belowFile_of_file (h : t.kind? n = some .file) :
    t.belowFile n = [] := by
  simp [belowFile, h]

/-- Before that it goes on with the parent. -/
theorem Earlier.belowFile_of_parent (ht : t.Earlier)
    (h : t.parent? n = some p) (hfile : t.kind? n ≠ some .file) :
    t.belowFile n = n :: t.belowFile p := by
  unfold belowFile
  rw [ht.ancestors_of_parent h, List.takeWhile_cons, if_pos (by simpa using hfile)]

end SourceTree

namespace Planted

variable {own : Prop} {t : SourceTree} {place : DeclId → Option Placement}
  {n : NodeId}

/-- The file is not in executable code, and neither is a class that can be
named from it. -/
theorem not_isLocal_of_isHost (h : Planted own t place) (hn : t.IsHost n) :
    t.isLocal n = false := by
  obtain ⟨i, hi⟩ : ∃ i, n.index = i := ⟨n.index, rfl⟩
  induction i using Nat.strongRecOn generalizing n with
  | ind i ih =>
      rcases hn with hfile | hclass
      · have hroot := (h.file n).mp hfile
        apply SourceTree.isLocal_of_no_parent
        cases hp : t.parent? n with
        | none => rfl
        | some m =>
            rw [hroot] at hp
            exact absurd (h.earlier _ m hp) (Nat.not_lt_zero _)
      · obtain ⟨-, m, hm, hhost⟩ := h.earlier.parent_of_isNamedFromFile hclass
        have hlt := h.earlier n m hm
        rw [h.earlier.isLocal_of_parent hm, ih m.index (by omega) hhost rfl]
        simpa using h.earlier.not_block_of_isHost hhost

/-- So nothing that stands alone is. -/
theorem not_isLocal_of_standsAlone (h : Planted own t place)
    (hn : t.standsAlone n = true) : t.isLocal n = false := by
  by_cases hfile : t.kind? n = some .file
  · exact h.not_isLocal_of_isHost (Or.inl hfile)
  · obtain ⟨m, hm, hhost | ⟨hkind, q, hq, hhost⟩⟩ :=
      SourceTree.parent_of_standsAlone hn hfile
    · rw [h.earlier.isLocal_of_parent hm, h.not_isLocal_of_isHost hhost]
      simpa using h.earlier.not_block_of_isHost hhost
    · rw [h.earlier.isLocal_of_parent hm, h.earlier.isLocal_of_parent hq,
        h.not_isLocal_of_isHost hhost, hkind]
      simpa using h.earlier.not_block_of_isHost hhost

end Planted

-- ============================================================== the search

namespace CompilationUnit

/-- Whether a declaration below the file can be resolved on its own: it has a
node of its own that stands alone. -/
def isAlone (u : CompilationUnit) (d : DeclId) : Bool :=
  !d.isRoot && (u.decl? d).any fun x => !x.isBorrowed && u.tree.standsAlone x.node

/-- The declaration that a node was made for, if the node stands alone. -/
def aloneAt? (u : CompilationUnit) (n : NodeId) : Option DeclId :=
  if u.tree.standsAlone n then u.declarationFor? n else none

variable {u : CompilationUnit} {d t : DeclId} {x : Declaration}

/-- The search looks for such a declaration on the way up to the file. -/
theorem resolvableTarget_eq_ok_iff_search (hd : d.isRoot = false) :
    u.resolvableTarget d = .ok t ↔ ∃ x, u.decl? d = some x ∧
      (u.tree.belowFile x.node).findSome? u.aloneAt? = some t := by
  have hsearch : ∀ x : Declaration, (u.tree.belowFile x.node).findSome?
      (fun n => if u.tree.standsAlone n then u.declarationFor? n else none) =
        (u.tree.belowFile x.node).findSome? u.aloneAt? := fun _ => rfl
  unfold resolvableTarget
  rw [hd]
  simp only [Bool.false_eq_true, if_false, hsearch]
  cases u.decl? d with
  | none => simp
  | some x =>
      dsimp only
      cases hs : (u.tree.belowFile x.node).findSome? u.aloneAt? <;> simp [hs]

/-- The declarations around a declaration are above those that come before
them. -/
theorem WellFormed.ancestors_pairwise (hu : u.WellFormed) (d : DeclId) :
    (d :: u.ancestors d).Pairwise fun a b => b ∈ u.ancestors a := by
  induction d using hu.parent_induction with
  | top d hp =>
      rw [WellFormed.ancestors_of_no_parent hp]
      exact List.pairwise_singleton _ _
  | step d p hp ih =>
      refine List.pairwise_cons.mpr ⟨fun a ha => ha, ?_⟩
      rw [hu.ancestors_of_parent hp]
      exact ih

/-- What comes before the first member that is found is passed over. -/
theorem WellFormed.not_isAlone_of_find? (hu : u.WellFormed)
    (h : (d :: u.ancestors d).find? u.isAlone = some t) {e : DeclId}
    (he : e ∈ d :: u.ancestors d) (hte : t ∈ u.ancestors e) :
    u.isAlone e = false := by
  obtain ⟨-, before, after, hsplit, hpassed⟩ :=
    List.find?_eq_some_iff_append.mp h
  have hpairs := hu.ancestors_pairwise d
  have hlt := hu.index_lt_of_mem_ancestors hte
  rw [hsplit] at he hpairs
  rcases List.mem_append.mp he with hbefore | hafter
  · simpa using hpassed e hbefore
  · rcases List.mem_cons.mp hafter with rfl | hafter
    · exact absurd hlt (Nat.lt_irrefl _)
    · -- what comes after it is above it, and not below
      have habove := (List.pairwise_cons.mp
        (List.pairwise_append.mp hpairs).2.1).1 e hafter
      exact absurd (hu.index_lt_of_mem_ancestors habove) (by omega)

end CompilationUnit

namespace Planted

variable {own : Prop} {u : CompilationUnit} {d t : DeclId} {x : Declaration}

/-- A node of its own leads back to its declaration. -/
theorem declarationFor?_eq (hwf : u.WellFormed)
    (h : Planted own u.tree u.placement?) (hd : u.decl? d = some x)
    (hown : x.isBorrowed = false) : u.declarationFor? x.node = some d := by
  cases hfor : u.declarationFor? x.node with
  | none =>
      have hnone := List.find?_eq_none.mp (Option.map_eq_none_iff.mp hfor) x
        (List.mem_of_getElem? hd)
      simp [hown] at hnone
  | some e =>
      obtain ⟨y, he, hy, hnode⟩ := hwf.decl?_of_declarationFor? hfor
      rw [h.eq_of_node he hd hy hown hnode]

/-- So the search stops at a node if its declaration can be resolved on its
own. -/
theorem aloneAt?_eq (hwf : u.WellFormed)
    (h : Planted own u.tree u.placement?) (hd : u.decl? d = some x)
    (hne : d.isRoot = false) (hown : x.isBorrowed = false) :
    u.aloneAt? x.node = if u.isAlone d then some d else none := by
  have halone : u.isAlone d = u.tree.standsAlone x.node := by
    simp [CompilationUnit.isAlone, hd, hne, hown]
  rw [CompilationUnit.aloneAt?, halone, h.declarationFor?_eq hwf hd hown]

/-- The search along the nodes comes to the nearest declaration that can be
resolved on its own. -/
theorem search_eq (hwf : u.WellFormed) (h : Planted True u.tree u.placement?)
    (hd : u.decl? d = some x) :
    (u.tree.belowFile x.node).findSome? u.aloneAt? =
      (d :: u.ancestors d).find? u.isAlone := by
  induction d using hwf.parent_induction generalizing x with
  | top d hp =>
      -- only the file has no owner
      have hroot : d = .root := by
        by_cases hne : d = .root
        · exact hne
        · obtain ⟨o, -, ho, -⟩ := h.placed_decl hd hne
          exact nomatch hp.symm.trans ho
      obtain ⟨z, hz, -, -, hnode⟩ := h.root_decl
      rw [hroot] at hd hp ⊢
      obtain rfl := Option.some.inj (hz.symm.trans hd)
      rw [hnode, SourceTree.belowFile_of_file ((h.file _).mpr rfl),
        CompilationUnit.WellFormed.ancestors_of_no_parent hp]
      rfl
  | step d p hp ih =>
      have hroot : d.isRoot = false := by
        refine Bool.eq_false_iff.mpr fun hroot => ?_
        have hlt := hwf.earlier d p hp
        rw [DeclId.eq_root hroot] at hlt
        exact absurd hlt (Nat.not_lt_zero _)
      have hne : d ≠ .root := by
        rintro rfl
        cases hroot
      obtain ⟨o, y, ho, hy, hborrowed, hhangs⟩ := h.placed_decl hd hne
      obtain rfl : p = o := Option.some.inj (hp.symm.trans ho)
      have ih := ih hy
      rw [hwf.ancestors_of_parent hp, List.find?_cons, ← ih]
      cases hown : x.isBorrowed with
      | true =>
          have hpassed : u.isAlone d = false := by
            simp [CompilationUnit.isAlone, hd, hown]
          rw [hborrowed trivial hown, hpassed]
      | false =>
          obtain ⟨hhang, form, -, hkind⟩ := hhangs hown
          have hfile : u.tree.kind? x.node ≠ some .file := by
            rw [hkind]
            exact fun hk => form.node_ne_file (Option.some.inj hk)
          have hstop := h.aloneAt?_eq hwf hd hroot hown
          rcases hhang with hup | ⟨b, hup, hblock, hb⟩
          · rw [h.earlier.belowFile_of_parent hup hfile, List.findSome?_cons,
              hstop]
            cases u.isAlone d <;> rfl
          · -- nobody stops at a block
            have hpassed : u.aloneAt? b = none := by
              simp [CompilationUnit.aloneAt?, SourceTree.standsAlone, hblock]
            rw [h.earlier.belowFile_of_parent hup hfile,
              h.earlier.belowFile_of_parent hb (by rw [hblock]; decide),
              List.findSome?_cons, List.findSome?_cons, hstop, hpassed]
            cases u.isAlone d <;> rfl

/-- The target of a declaration below the file is the nearest one, at or
above it, that can be resolved on its own. -/
theorem resolvableTarget_eq_ok_iff (hwf : u.WellFormed)
    (h : Planted True u.tree u.placement?) (hd : d.isRoot = false) :
    u.resolvableTarget d = .ok t ↔
      (d :: u.ancestors d).find? u.isAlone = some t := by
  rw [CompilationUnit.resolvableTarget_eq_ok_iff_search hd]
  constructor
  · intro hsearch
    obtain ⟨x, hx, hfound⟩ := hsearch
    rw [← h.search_eq hwf hx]
    exact hfound
  · intro hfound
    cases hx : u.decl? d with
    | some x =>
        rw [← h.search_eq hwf hx] at hfound
        exact ⟨x, rfl, hfound⟩
    | none =>
        -- what is not there has nothing around it
        have hp : u.parent? d = none := by
          simp [CompilationUnit.parent?, hx]
        rw [CompilationUnit.WellFormed.ancestors_of_no_parent hp] at hfound
        simp [CompilationUnit.isAlone, hx] at hfound

/-- What can be resolved on its own is not in executable code. -/
theorem not_isLocal_of_isAlone (h : Planted own u.tree u.placement?)
    (ht : u.isAlone t = true) : u.isLocal t = false := by
  rw [CompilationUnit.isAlone, Bool.and_eq_true] at ht
  obtain ⟨y, hy, halone⟩ := (Option.any_eq_true ..).mp ht.2
  rw [Bool.and_eq_true] at halone
  rw [h.isLocal_eq hy]
  exact h.not_isLocal_of_standsAlone halone.2

/-- So the target of the file is the file, and any other one is found that
way. -/
theorem target_cases (hwf : u.WellFormed)
    (h : Planted True u.tree u.placement?) (ht : u.resolvableTarget d = .ok t) :
    (d = .root ∧ t = .root) ∨ (d.isRoot = false ∧
      (d :: u.ancestors d).find? u.isAlone = some t) := by
  cases hd : d.isRoot with
  | true =>
      rw [CompilationUnit.resolvableTarget, if_pos hd] at ht
      exact Or.inl ⟨DeclId.eq_root hd, (Except.ok.inj ht).symm⟩
  | false => exact Or.inr ⟨rfl, (h.resolvableTarget_eq_ok_iff hwf hd).mp ht⟩

/-- A target is its own target. -/
theorem target_self (hwf : u.WellFormed) (h : Planted True u.tree u.placement?)
    (ht : u.resolvableTarget d = .ok t) : u.resolvableTarget t = .ok t := by
  rcases h.target_cases hwf ht with ⟨-, rfl⟩ | ⟨-, hfind⟩
  · rfl
  · have halone := List.find?_some hfind
    have hroot : t.isRoot = false := by
      rw [CompilationUnit.isAlone, Bool.and_eq_true, Bool.not_eq_true']
        at halone
      exact halone.1
    rw [h.resolvableTarget_eq_ok_iff hwf hroot, List.find?_cons, halone]

/-- A target is not in executable code. -/
theorem not_isLocal_of_target (hwf : u.WellFormed)
    (h : Planted True u.tree u.placement?) (ht : u.resolvableTarget d = .ok t) :
    u.isLocal t = false := by
  rcases h.target_cases hwf ht with ⟨-, rfl⟩ | ⟨-, hfind⟩
  · exact h.isLocal_root
  · exact h.not_isLocal_of_isAlone (List.find?_some hfind)

/-- Nothing between a declaration and its target is its own target. -/
theorem target_nearest (hwf : u.WellFormed)
    (h : Planted True u.tree u.placement?) (ht : u.resolvableTarget d = .ok t)
    {e : DeclId} (he : e ∈ d :: u.ancestors d) (hte : t ∈ u.ancestors e) :
    u.resolvableTarget e ≠ .ok e := by
  intro hself
  have hbelow : e ≠ .root := by
    rintro rfl
    exact absurd (hwf.index_lt_of_mem_ancestors hte) (Nat.not_lt_zero _)
  rcases h.target_cases hwf ht with ⟨rfl, -⟩ | ⟨-, hfind⟩
  · refine hbelow ((List.mem_cons.mp he).resolve_right fun hup => ?_)
    exact absurd (hwf.index_lt_of_mem_ancestors hup) (Nat.not_lt_zero _)
  · have hpassed := hwf.not_isAlone_of_find? hfind he hte
    rcases h.target_cases hwf hself with ⟨hroot, -⟩ | ⟨-, hfound⟩
    · exact hbelow hroot
    · rw [List.find?_some hfound] at hpassed
      cases hpassed

end Planted

-- ============================================================ designations

namespace CompilationUnit

variable {u : CompilationUnit} {d t : DeclId} {x : Declaration}

/-- A target gives a designation, unless the declaration is in executable
code and its container may not be taken. -/
theorem designateWith_of_target {allowLocal : Bool} (hd : u.decl? d = some x)
    (hlocal : u.isLocal d = true → allowLocal = true)
    (ht : u.resolvableTarget d = .ok t) : u.designateWith allowLocal d =
      .ok ⟨u, ((u.ancestors t).filter fun a => !a.isRoot).reverse, t,
        u.isLocal d⟩ := by
  have hx : u.isLocal d = x.isLocal := by
    rw [isLocal, hd]
    rfl
  rw [hx] at hlocal ⊢
  unfold designateWith
  rw [hd]
  dsimp only
  rw [if_neg, ht]
  rw [Bool.and_eq_true, Bool.not_eq_true']
  intro h
  rw [hlocal h.1] at h
  cases h.2

/-- A declaration with a target is there. -/
theorem decl?_of_target (hroot : ∃ z, u.decl? .root = some z)
    (ht : u.resolvableTarget d = .ok t) : ∃ x, u.decl? d = some x := by
  cases hd : d.isRoot with
  | true =>
      rw [DeclId.eq_root hd]
      exact hroot
  | false =>
      obtain ⟨x, hx, -⟩ := (resolvableTarget_eq_ok_iff_search hd).mp ht
      exact ⟨x, hx⟩

/-- The path of a designation leads from the outside to the inside. -/
theorem WellFormed.path_pairwise (hu : u.WellFormed) (t : DeclId) :
    ((u.ancestors t).filter fun a => !a.isRoot).reverse.Pairwise
      fun a b => a ∈ u.ancestors b := by
  rw [List.pairwise_reverse]
  exact (List.pairwise_cons.mp (hu.ancestors_pairwise t)).2.filter _

end CompilationUnit

/-- In a unit that is described by named forms, in which what borrows a node
borrows that of its owner, promotion is sound, nearest and idempotent. The
target of a declaration is the declaration or around it, is not in executable
code and is its own target, and nothing in between is its own target; the
designation that allows for executable code has for its path what is around
the target, from the outside to the inside and without the file. A
declaration has a designation of its own if and only if it is not in
executable code and has a target, and then it is that of the target, as far
as target and path go. -/
theorem promotion_sound {s : UnitSpec} (hforms : s.OfForms)
    (hborrows : s.BorrowsFromOwner) {draft : Draft} (h : s.draft = .ok draft)
    (id : UnitId) (d : DeclId) :
    let u := draft.finish id
    (∀ t, u.resolvableTarget d = .ok t →
      (t = d ∨ t ∈ u.ancestors d) ∧ u.isLocal t = false ∧
      u.resolvableTarget t = .ok t ∧
      (∀ e ∈ d :: u.ancestors d, t ∈ u.ancestors e →
        u.resolvableTarget e ≠ .ok e) ∧
      ∃ goal, u.designateEnclosing d = .ok goal ∧ goal.target = t ∧
        (∀ a, a ∈ goal.path ↔ a ∈ u.ancestors t ∧ a.isRoot = false) ∧
        goal.path.Pairwise fun a b => a ∈ u.ancestors b) ∧
    ((∃ goal, u.designate d = .ok goal) ↔
      u.isLocal d = false ∧ ∃ t, u.resolvableTarget d = .ok t) ∧
    ∀ goal, u.designate d = .ok goal →
      u.resolvableTarget d = .ok goal.target ∧
      ∃ alone, u.designate goal.target = .ok alone ∧
        alone.target = goal.target ∧ alone.path = goal.path := by
  intro u
  have hwf : u.WellFormed := UnitSpec.draft_wellFormed h id
  have hplanted : Planted True u.tree u.placement? :=
    hforms.planted (fun _ => hborrows) h id
  have hthere : ∀ e t, u.resolvableTarget e = .ok t →
      ∃ x, u.decl? e = some x := by
    obtain ⟨z, hz, -⟩ := hplanted.root_decl
    exact fun e t => CompilationUnit.decl?_of_target ⟨z, hz⟩
  -- what is not in executable code and has a target has a designation
  have hdesignate : ∀ e t, u.isLocal e = false → u.resolvableTarget e = .ok t →
      u.designate e = .ok ⟨u, ((u.ancestors t).filter fun a =>
        !a.isRoot).reverse, t, u.isLocal e⟩ := by
    intro e t he ht
    obtain ⟨x, hx⟩ := hthere e t ht
    refine CompilationUnit.designateWith_of_target hx (fun hlocal => ?_) ht
    rw [he] at hlocal
    cases hlocal
  refine ⟨fun t ht => ⟨?_, hplanted.not_isLocal_of_target hwf ht,
    hplanted.target_self hwf ht, fun e => hplanted.target_nearest hwf ht, ?_⟩,
    ⟨fun hgoal => ?_, fun hgoal => ?_⟩, fun goal hgoal => ?_⟩
  · rcases hplanted.target_cases hwf ht with ⟨hd, ht⟩ | ⟨-, hfind⟩
    · exact Or.inl (ht.trans hd.symm)
    · exact List.mem_cons.mp (List.mem_of_find?_eq_some hfind)
  · obtain ⟨x, hx⟩ := hthere d t ht
    have hgoal : u.designateWith true d = .ok _ :=
      CompilationUnit.designateWith_of_target hx (fun _ => rfl) ht
    exact ⟨_, hgoal, rfl, fun a => CompilationUnit.mem_path_iff hgoal,
      hwf.path_pairwise t⟩
  · obtain ⟨goal, hgoal⟩ := hgoal
    obtain ⟨t, ht, hallow, -⟩ := CompilationUnit.designateWith_eq_ok hgoal
    exact ⟨hallow rfl, t, ht⟩
  · obtain ⟨hlocal, t, ht⟩ := hgoal
    exact ⟨_, hdesignate d t hlocal ht⟩
  · obtain ⟨t, ht, -, rfl⟩ := CompilationUnit.designateWith_eq_ok hgoal
    exact ⟨ht, _, hdesignate t t (hplanted.not_isLocal_of_target hwf ht)
      (hplanted.target_self hwf ht), rfl, rfl⟩

/-- A class with a property that is declared in its constructor, an accessor
of that property below a declaration that borrows the node of the property,
and a class in the body of a function. -/
def UnitSpec.constructorProperty : UnitSpec :=
  .ofEntries "a.kt" [.member 0 (.classNamed "C" []),
    .member 1 (.ofForm .primaryConstructor ""),
    .member 2 (.ofForm .propertyParameter "p"),
    .member 3 { DeclSpec.ofForm .property "p" with borrows := some ⟨3⟩ },
    .member 4 (.ofForm .getter ""), .member 1 (.functionNamed "f" none),
    ⟨⟨6⟩, true, .classNamed "L" []⟩, .member 7 (.functionNamed "g" none)]

/-- It is described by named forms. -/
theorem UnitSpec.ofForms_constructorProperty :
    UnitSpec.constructorProperty.OfForms := by
  intro e he
  simp only [constructorProperty, ofEntries, List.mem_cons, List.not_mem_nil,
    or_false] at he
  rcases he with rfl | rfl | rfl | rfl | rfl | rfl | rfl | rfl
  · exact ⟨.classDecl, rfl, rfl⟩
  · exact ⟨.primaryConstructor, rfl, rfl⟩
  · exact ⟨.propertyParameter, rfl, rfl⟩
  · exact ⟨.property, rfl, rfl⟩
  · exact ⟨.getter, rfl, rfl⟩
  · exact ⟨.function, rfl, rfl⟩
  · exact ⟨.classDecl, rfl, rfl⟩
  · exact ⟨.function, rfl, rfl⟩

/-- The accessor is resolved with the property, and the function in the local
class with the function around that. -/
theorem promotion_sound_constructorProperty :
    let s := UnitSpec.constructorProperty
    let draft := s.draft.toOption.getD default
    let u := draft.finish ⟨0⟩
    s.OfForms ∧ s.BorrowsFromOwner ∧ s.draft = .ok draft ∧
      u.resolvableTarget ⟨5⟩ = .ok ⟨3⟩ ∧ u.resolvableTarget ⟨3⟩ = .ok ⟨3⟩ ∧
      (∃ goal, u.designate ⟨5⟩ = .ok goal ∧
        ∃ alone, u.designate goal.target = .ok alone ∧ alone.path = goal.path) ∧
      u.resolvableTarget ⟨8⟩ = .ok ⟨6⟩ ∧ u.isLocal ⟨6⟩ = false ∧
      (∃ goal, u.designateEnclosing ⟨8⟩ = .ok goal ∧ goal.target = ⟨6⟩ ∧
        ∀ a, a ∈ goal.path ↔ a ∈ u.ancestors ⟨6⟩ ∧ a.isRoot = false) ∧
      ¬ ∃ goal, u.designate ⟨8⟩ = .ok goal := by
  intro s draft u
  have hborrows : s.BorrowsFromOwner := by
    unfold UnitSpec.BorrowsFromOwner
    decide +kernel
  have hdraft : s.draft = .ok draft := by decide +kernel
  have haccessor : u.resolvableTarget ⟨5⟩ = .ok ⟨3⟩ := by decide +kernel
  have hfunction : u.resolvableTarget ⟨8⟩ = .ok ⟨6⟩ := by decide +kernel
  obtain ⟨hsound, hiff, hown⟩ := promotion_sound UnitSpec.ofForms_constructorProperty
    hborrows hdraft ⟨0⟩ ⟨5⟩
  obtain ⟨hsound', hiff', -⟩ := promotion_sound
    UnitSpec.ofForms_constructorProperty hborrows hdraft ⟨0⟩ ⟨8⟩
  obtain ⟨goal, hgoal⟩ := hiff.mpr ⟨by decide +kernel, _, haccessor⟩
  obtain ⟨-, alone, halone, -, hpath⟩ := hown goal hgoal
  obtain ⟨-, hlocal, -, -, outer, houter, htarget, houterPath, -⟩ :=
    hsound' ⟨6⟩ hfunction
  refine ⟨UnitSpec.ofForms_constructorProperty, hborrows, hdraft, haccessor,
    (hsound ⟨3⟩ haccessor).2.2.1, ⟨goal, hgoal, alone, halone, hpath⟩,
    hfunction, hlocal, ⟨outer, houter, htarget, houterPath⟩, fun h => ?_⟩
  have hinside : u.isLocal ⟨8⟩ = true := by decide +kernel
  rw [(hiff'.mp h).1] at hinside
  cases hinside

end StagedResolve
