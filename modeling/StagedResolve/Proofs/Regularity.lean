/-
Regular units: what stands between the file and a target.

Whether a declaration can be resolved on its own is read off the syntax
tree. Between the file and a node that stands on its own there is nothing
but classes, and one primary constructor at the most. So in a unit of
named forms, in which what borrows a node has no members and borrows that
of its owner, the path to a target holds classes and constructors, and
neither the path nor the target is in executable code
(`CompilationUnit.Regular`).
-/
import Mathlib.Data.List.TakeWhile
import StagedResolve.Proofs.Designations
import StagedResolve.Proofs.Forms

namespace StagedResolve

-- ========================================================== regular units

/-- A unit in which what is inside of executable code is local, and in which
nothing but classes and constructors, and nothing local, stands between the
file and what can be resolved on its own. -/
structure CompilationUnit.Regular (u : CompilationUnit) : Prop where
  inherits : ∀ c p, u.parent? c = some p → u.isLocal p = true →
    u.isLocal c = true
  target : ∀ allowLocal d goal, u.designateWith allowLocal d = .ok goal →
    goal.isFile = d.isRoot
  path : ∀ allowLocal d goal, u.designateWith allowLocal d = .ok goal →
    ∀ a ∈ goal.path, u.kind? a = some .classDecl ∨
      u.kind? a = some .constructor
  nonlocal : ∀ allowLocal d goal, u.designateWith allowLocal d = .ok goal →
    ∀ a ∈ goal.path ++ [goal.target], u.isLocal a = false

/-- A unit is described by named forms: its entries are of such forms, and
what borrows the node of another declaration borrows that of its owner and
has no members. -/
structure UnitSpec.Named (s : UnitSpec) : Prop where
  form : ∀ e ∈ s.entries, ∃ form : DeclForm,
    e.spec.kind = form.kind ∧ e.spec.node = form.node
  lender : ∀ e ∈ s.entries, ∀ l, e.spec.borrows = some l → l = e.owner
  childless : ∀ i e, s.entries[i]? = some e → e.spec.borrows ≠ none →
    ∀ f ∈ s.entries, f.owner ≠ ⟨i + 1⟩

/-- The declarations are those of a draft that was grown from named forms, in
which nothing belongs to a declaration that borrows a node, and what borrows
one borrows that of its owner. -/
structure Formed (t : SourceTree) (place : DeclId → Option Placement) :
    Prop extends Planted True t place where
  owners : ∀ d p o q, place d = some p → p.owner = some o → place o = some q →
    q.isBorrowed = false

namespace Formed

variable {u : CompilationUnit} {d : DeclId} {x : Declaration}

/-- What is inside of executable code is local. -/
theorem inherits (h : Formed u.tree u.placement?) {c p : DeclId}
    (hp : u.parent? c = some p) (hlocal : u.isLocal p = true) :
    u.isLocal c = true := by
  obtain ⟨x, hx, howner⟩ := Option.bind_eq_some_iff.mp hp
  have hne : c ≠ .root := by
    rintro rfl
    obtain ⟨z, hz, hnone, -⟩ := h.root_decl
    obtain rfl := Option.some.inj (hz.symm.trans hx)
    exact nomatch hnone.symm.trans howner
  obtain ⟨o, y, ho, hy, hborrowed, hhangs⟩ := h.placed_decl hx hne
  obtain rfl : p = o := Option.some.inj (hp.symm.trans ho)
  rw [h.isLocal_eq hy] at hlocal
  rw [h.isLocal_eq hx]
  cases hb : x.isBorrowed with
  | true => rwa [hborrowed trivial hb]
  | false =>
      rcases (hhangs hb).1 with hup | ⟨b, hup, hkind, -⟩
      · rw [h.earlier.isLocal_of_parent hup, hlocal, Bool.or_true]
      · rw [h.earlier.isLocal_of_parent hup, hkind]
        rfl

/-- The node of an owner is that of the parent, if there is no block in
between. -/
theorem parent_node (h : Formed u.tree u.placement?) {m : NodeId}
    (hd : u.decl? d = some x) (hne : d ≠ .root)
    (hown : x.isBorrowed = false) (hm : u.tree.parent? x.node = some m)
    (hblock : u.tree.kind? m ≠ some .block) :
    ∃ o y, u.parent? d = some o ∧ u.decl? o = some y ∧
      y.isBorrowed = false ∧ y.node = m ∧ u.isLocal d = u.isLocal o := by
  obtain ⟨o, y, ho, hy, -, hhangs⟩ := h.placed_decl hd hne
  obtain rfl := (hhangs hown).1.eq_of_parent hm hblock
  have howner : x.placement.owner = some o := by
    rw [CompilationUnit.parent?, hd] at ho
    exact ho
  have hyown : y.isBorrowed = false :=
    h.owners d _ o _ (u.placement?_of_decl? hd) howner (u.placement?_of_decl? hy)
  refine ⟨o, y, ho, hy, hyown, rfl, ?_⟩
  rw [h.isLocal_eq hd, h.isLocal_eq hy, h.earlier.isLocal_of_parent hm]
  simp [hblock]

/-- Around a declaration whose node hangs on a host there are classes and
the file. -/
theorem above (hwf : u.WellFormed) (h : Formed u.tree u.placement?)
    {m : NodeId} (hd : u.decl? d = some x) (hne : d ≠ .root)
    (hown : x.isBorrowed = false) (hm : u.tree.parent? x.node = some m)
    (hhost : u.tree.IsHost m) :
    u.isLocal d = false ∧ ∀ a ∈ u.ancestors d, a.isRoot = false →
      u.kind? a = some .classDecl ∧ u.isLocal a = false := by
  induction d using hwf.parent_induction generalizing x m with
  | top d hp =>
      obtain ⟨o, y, ho, -⟩ := h.placed_decl hd hne
      exact nomatch hp.symm.trans ho
  | step d p hp ih =>
      obtain ⟨o, y, ho, hy, hyown, rfl, hup⟩ := h.parent_node hd hne hown hm
        (h.earlier.not_block_of_isHost hhost)
      obtain rfl : p = o := Option.some.inj (hp.symm.trans ho)
      rw [hup, hwf.ancestors_of_parent hp]
      rcases hhost with hfile | hclass
      · -- the declaration is one of the file
        obtain rfl := h.eq_root_of_node hy hyown ((h.file _).mp hfile)
        refine ⟨h.isLocal_root, fun a ha hna => ?_⟩
        rcases List.mem_cons.mp ha with rfl | ha
        · cases hna
        · exact absurd (hwf.index_lt_of_mem_ancestors ha) (Nat.not_lt_zero _)
      · obtain ⟨hkind, m', hm', hhost'⟩ :=
          h.earlier.parent_of_isNamedFromFile hclass
        have hpne : p ≠ .root := by
          rintro rfl
          obtain ⟨z, hz, -, -, hnode⟩ := h.root_decl
          obtain rfl := Option.some.inj (hy.symm.trans hz)
          rw [hnode, (h.file .root).mpr rfl] at hkind
          cases hkind
        obtain ⟨hlocal, habove⟩ := ih hy hpne hyown hm' hhost'
        refine ⟨hlocal, fun a ha hna => ?_⟩
        rcases List.mem_cons.mp ha with rfl | ha
        · obtain ⟨form, hform, hnode⟩ := h.form hy hpne hyown hkind
          exact ⟨by rw [hform, form.kind_of_node hnode], hlocal⟩
        · exact habove a ha hna

end Formed

/-- The target of a designation for something else than the file has a
node of its own that stands alone, and is not that of a file. -/
theorem CompilationUnit.standsAlone_of_designateWith {u : CompilationUnit}
    {allowLocal : Bool} {d : DeclId} {goal : Designation} (hwf : u.WellFormed)
    (hd : d.isRoot = false) (h : u.designateWith allowLocal d = .ok goal) :
    ∃ x, u.decl? goal.target = some x ∧ x.isBorrowed = false ∧
      u.tree.standsAlone x.node = true ∧ u.tree.kind? x.node ≠ some .file := by
  obtain ⟨target, htarget, -, rfl⟩ := designateWith_eq_ok h
  unfold resolvableTarget at htarget
  rw [hd] at htarget
  simp only [Bool.false_eq_true, if_false] at htarget
  split at htarget
  · cases htarget
  · split at htarget
    · next hfound =>
      cases htarget
      obtain ⟨n, hn, halone⟩ := List.exists_of_findSome?_eq_some hfound
      split at halone
      · next hstands =>
        obtain ⟨x, hx, hown, rfl⟩ := hwf.decl?_of_declarationFor? halone
        refine ⟨x, hx, hown, hstands, ?_⟩
        have hbelow := List.mem_takeWhile_imp hn
        simpa using hbelow
      · cases halone
    · cases htarget

/-- A designation for the file is for the file alone. -/
theorem CompilationUnit.WellFormed.designate_root {u : CompilationUnit}
    {allowLocal : Bool} {d : DeclId} {goal : Designation} (hwf : u.WellFormed)
    (hd : d.isRoot = true) (hgoal : u.designateWith allowLocal d = .ok goal) :
    goal.target = .root ∧ goal.path = [] := by
  obtain ⟨target, htarget, -, rfl⟩ :=
    CompilationUnit.designateWith_eq_ok hgoal
  rw [CompilationUnit.resolvableTarget, if_pos hd] at htarget
  cases htarget
  refine ⟨rfl, List.eq_nil_iff_forall_not_mem.mpr fun a ha => ?_⟩
  have ha := ((CompilationUnit.mem_path_iff hgoal).mp ha).1
  exact absurd (hwf.index_lt_of_mem_ancestors ha) (Nat.not_lt_zero _)

/-- The target of any other designation is not in executable code, and
around it there are classes, one constructor at the most, and the file. -/
theorem Formed.chain {u : CompilationUnit}
    {allowLocal : Bool} {d : DeclId} {goal : Designation} (hwf : u.WellFormed)
    (h : Formed u.tree u.placement?) (hd : d.isRoot = false)
    (hgoal : u.designateWith allowLocal d = .ok goal) :
    goal.target ≠ .root ∧ u.isLocal goal.target = false ∧
      ∀ a ∈ u.ancestors goal.target, a.isRoot = false →
        (u.kind? a = some .classDecl ∨ u.kind? a = some .constructor) ∧
          u.isLocal a = false := by
  obtain ⟨x, hx, hown, halone, hfile⟩ :=
    CompilationUnit.standsAlone_of_designateWith hwf hd hgoal
  obtain ⟨z, hz, -, -, hroot⟩ := h.root_decl
  have hne : goal.target ≠ .root := by
    intro heq
    obtain rfl := Option.some.inj ((heq ▸ hx).symm.trans hz)
    exact hfile (hroot ▸ (h.file .root).mpr rfl)
  refine ⟨hne, ?_⟩
  obtain ⟨m, hm, hhost | ⟨hkind, m', hm', hhost⟩⟩ :=
    SourceTree.parent_of_standsAlone halone hfile
  · obtain ⟨hlocal, habove⟩ := h.above hwf hx hne hown hm hhost
    exact ⟨hlocal, fun a ha hna =>
      ⟨Or.inl (habove a ha hna).1, (habove a ha hna).2⟩⟩
  · -- a property of a constructor
    obtain ⟨o, y, ho, hy, hyown, rfl, hup⟩ := h.parent_node hx hne hown hm
      (by rw [hkind]; exact nofun)
    have hone : o ≠ .root := by
      rintro rfl
      obtain rfl := Option.some.inj (hy.symm.trans hz)
      rw [hroot, (h.file .root).mpr rfl] at hkind
      cases hkind
    obtain ⟨hlocal, habove⟩ := h.above hwf hy hone hyown hm' hhost
    refine ⟨hup.trans hlocal, fun a ha hna => ?_⟩
    rw [hwf.ancestors_of_parent ho] at ha
    rcases List.mem_cons.mp ha with rfl | ha
    · obtain ⟨form, hform, hnode⟩ := h.form hy hone hyown hkind
      exact ⟨Or.inr (by rw [hform, form.kind_of_constructor hnode]), hlocal⟩
    · exact ⟨Or.inl (habove a ha hna).1, (habove a ha hna).2⟩

/-- A unit that was grown from named forms is regular. -/
theorem Formed.regular {u : CompilationUnit}
    (hwf : u.WellFormed) (h : Formed u.tree u.placement?) :
    u.Regular := by
  refine ⟨fun c p hp hl => h.inherits hp hl, fun allowLocal d goal hgoal => ?_,
    fun allowLocal d goal hgoal a ha => ?_,
    fun allowLocal d goal hgoal a ha => ?_⟩
  · cases hd : d.isRoot with
    | true =>
        rw [Designation.isFile, (hwf.designate_root hd hgoal).1]
        rfl
    | false =>
        rw [Designation.isFile]
        refine Bool.eq_false_iff.mpr fun hfile => ?_
        exact (h.chain hwf hd hgoal).1 (DeclId.eq_root hfile)
  · obtain ⟨ha', hna⟩ := (CompilationUnit.mem_path_iff hgoal).mp ha
    cases hd : d.isRoot with
    | true =>
        rw [(hwf.designate_root hd hgoal).2] at ha
        cases ha
    | false => exact ((h.chain hwf hd hgoal).2.2 a ha' hna).1
  · cases hd : d.isRoot with
    | true =>
        obtain ⟨htarget, hpath⟩ := hwf.designate_root hd hgoal
        rw [htarget, hpath] at ha
        rw [List.mem_singleton.mp ha]
        exact h.isLocal_root
    | false =>
        obtain ⟨-, hlocal, habove⟩ := h.chain hwf hd hgoal
        rcases List.mem_append.mp ha with ha | ha
        · obtain ⟨ha', hna⟩ := (CompilationUnit.mem_path_iff hgoal).mp ha
          exact (habove a ha' hna).2
        · rw [List.mem_singleton.mp ha]
          exact hlocal

/-- A unit is formed if it is described by named forms, nobody belongs to a
declaration that borrows, and that borrows from its owner. -/
theorem UnitSpec.Named.formed {s : UnitSpec} (hs : s.Named) {d : Draft}
    (h : s.draft = .ok d) : Formed d.tree d.placement? := by
  have hforms : s.OfForms := hs.form
  have hgrown : d.Grown True s.entries :=
    hforms.grown (fun _ => hs.lender) h
  refine ⟨hgrown.planted, fun a p o q ha ho hq => Bool.eq_false_iff.mpr
    fun hb => ?_⟩
  obtain ⟨r, hr, hnone, -, hown⟩ := hgrown.planted.root
  rcases o with ⟨_ | j⟩
  · obtain rfl := Option.some.inj (hq.symm.trans hr)
    exact nomatch hown.symm.trans hb
  · rcases a with ⟨_ | i⟩
    · obtain rfl := Option.some.inj (ha.symm.trans hr)
      exact nomatch hnone.symm.trans ho
    · obtain ⟨e, he, howner, -⟩ := hgrown.listed i p ha
      obtain ⟨f, hf, -, hborrows, -⟩ := hgrown.listed j q hq
      rw [hb] at hborrows
      refine hs.childless j f hf ?_ e (List.mem_of_getElem? he)
        (Option.some.inj (howner.symm.trans ho))
      intro hnone
      rw [hnone] at hborrows
      cases hborrows

/-- A unit that is described by named forms is regular. -/
theorem UnitSpec.Named.regular {s : UnitSpec} (hs : s.Named) {d : Draft}
    (h : s.draft = .ok d) (id : UnitId) : (d.finish id).Regular :=
  Formed.regular (UnitSpec.draft_wellFormed h id) (hs.formed h)

end StagedResolve
