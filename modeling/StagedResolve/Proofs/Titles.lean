/-
Titles: which declarations have a name that is found from everywhere.

# Growing drafts

A unit is described entry by entry. What noting a body and adding a
declaration keep holds of every described unit (`Draft.Kept`).

# Where a name comes from

The name by which a classifier is found from everywhere is put together
as the draft grows, from its own name and what it is in (`Label.nameIn`),
and later entries change nothing about it. So what a declaration is in
tells whether it has such a name, and which one (`NamedExactly`); in
particular, a declaration that has one is named after its place
(`NamedByPlace`), and only classes and type aliases have one
(`UnitSpec.titled`).
-/
import StagedResolve.Proofs.Trees

namespace StagedResolve

-- ============================================================ growing drafts

namespace Draft

/-- A condition that noting a body and adding a declaration do not break. -/
structure Kept (P : Draft → Prop) : Prop where
  body : ∀ d o span, P d → P (d.withBody o span).2
  insert : ∀ d e owner o anchor spec, d.WellFormed →
    d.decl? owner.id = some o → o.kind = owner.kind →
    o.qualifiedName = owner.qualifiedName → P d →
    d.insert owner anchor spec = .ok e → P e

variable {P : Draft → Prop} {d e : Draft} {owner : DeclId} {spec : DeclSpec}

/-- It survives a new member. -/
theorem Kept.add (hP : Kept P) (hd : d.WellFormed) (h : P d)
    (hadd : d.add owner spec = .ok e) : P e := by
  unfold Draft.add at hadd
  split at hadd
  · cases hadd
  · next o ho =>
    rw [← (hd ⟨0⟩).numbered owner o ho] at ho
    exact hP.insert d e o o _ spec hd ho rfl rfl h hadd

/-- And a new local. -/
theorem Kept.addLocal (hP : Kept P) (hd : d.WellFormed) (h : P d)
    (hadd : d.addLocal owner spec = .ok e) : P e := by
  unfold Draft.addLocal at hadd
  split at hadd
  · cases hadd
  · next o ho =>
    rw [← (hd ⟨0⟩).numbered owner o ho] at ho
    have hbody : (d.withBody o spec.span).2.WellFormed :=
      (withBody_wellFormed hd ho).1
    obtain ⟨more, hmore⟩ := d.withBody_decls o spec.span
    have ho' : (d.withBody o spec.span).2.decl? o.id =
        some { o with modifiers := o.modifiers ++ more } := by
      have hget : d.decls[o.id.index]? = some o := ho
      rw [decl?, hmore, List.getElem?_modify_eq, hget]
      rfl
    exact hP.insert _ e o _ _ spec hbody ho' rfl rfl (hP.body d o _ h) hadd

/-- So it survives whatever is added. -/
theorem Kept.extend (hP : Kept P) {entries : List UnitEntry}
    (hd : d.WellFormed) (h : P d) (hadd : UnitSpec.extend entries d = .ok e) :
    P e := by
  induction entries generalizing d with
  | nil =>
      cases hadd
      exact h
  | cons entry rest ih =>
      rw [UnitSpec.extend] at hadd
      split at hadd
      · next d' hd' =>
        have hone : UnitSpec.extend [entry] d = .ok d' := by
          rw [UnitSpec.extend, hd']
          rfl
        refine ih (UnitSpec.extend_wellFormed hd hone) ?_ hadd
        split at hd'
        · exact hP.addLocal hd h hd'
        · exact hP.add hd h hd'
      · cases hadd

/-- And every described unit has what an empty file has. -/
theorem Kept.draft (hP : Kept P) {s : UnitSpec}
    (h : P (.start s.path s.package s.imports s.annotations))
    (hdraft : s.draft = .ok d) : P d :=
  hP.extend (start_wellFormed _ _ _ _) h hdraft

end Draft

-- ==================================================================== labels

/-- What the name of a declaration depends on. -/
structure Label where
  kind : DeclKind
  name : Option String
  parent : Option DeclId
  qualifiedName : Option QualifiedName

/-- The label of a declaration. -/
def Declaration.label (x : Declaration) : Label :=
  ⟨x.kind, x.name, x.parent, x.qualifiedName⟩

/-- The labels of the declarations of a unit. -/
def CompilationUnit.label? (u : CompilationUnit) (d : DeclId) : Option Label :=
  (u.decl? d).map Declaration.label

/-- A declaration with a name is a classifier directly in a file or in a
declaration with a name, and named after its place. -/
def NamedByPlace (package : String) (label? : DeclId → Option Label) : Prop :=
  ∀ d x n, label? d = some x → x.qualifiedName = some n →
    ∃ p o name, x.parent = some p ∧ label? p = some o ∧
      x.kind.isNamedClassifier = true ∧ x.name = some name ∧
      ((o.kind = .file ∧ n = .topLevel package name) ∨
        ∃ m, o.qualifiedName = some m ∧ n = m.child name)

/-- The name by which something is found from everywhere, going by what it is
and what it is in. -/
def Label.nameIn (package : String) (owner x : Label) (isLocal : Bool) :
    Option QualifiedName :=
  if isLocal || !x.kind.isNamedClassifier then none
  else
    match x.name with
    | none => none
    | some name =>
      if owner.kind == .file then some (.topLevel package name)
      else owner.qualifiedName.map (·.child name)

/-- Such a name is had by classifiers with a name of their own, outside of
executable code, that are directly in a file or in something with such a
name. -/
theorem Label.nameIn_eq_some_iff {package : String} {owner x : Label}
    {isLocal : Bool} {n : QualifiedName} :
    owner.nameIn package x isLocal = some n ↔ isLocal = false ∧
      x.kind.isNamedClassifier = true ∧ ∃ name, x.name = some name ∧
        ((owner.kind = .file ∧ n = .topLevel package name) ∨
          owner.kind ≠ .file ∧ ∃ m, owner.qualifiedName = some m ∧
            n = m.child name) := by
  unfold nameIn
  cases isLocal with
  | true => simp
  | false =>
      cases hkind : x.kind.isNamedClassifier with
      | false => simp
      | true =>
          cases hname : x.name with
          | none => simp
          | some name =>
              by_cases hfile : owner.kind = .file
              · simp [hfile, eq_comm (b := n)]
              · simp [hfile, eq_comm (b := n)]

/-- The labels of the declarations of a unit, and which of them are in
executable code. -/
def CompilationUnit.placedLabel? (u : CompilationUnit) (d : DeclId) :
    Option (Label × Bool) :=
  (u.decl? d).map fun x => (x.label, x.isLocal)

/-- A declaration has the name that what it is in gives it, and no other. -/
def NamedExactly (package : String)
    (placed? : DeclId → Option (Label × Bool)) : Prop :=
  ∀ d x l, placed? d = some (x, l) → x.qualifiedName =
    (x.parent.bind placed?).bind fun o => o.1.nameIn package x l

namespace Draft

variable {d e : Draft}

/-- The labels of the declarations of a draft, in the same way. -/
def placedLabel? (d : Draft) : DeclId → Option (Label × Bool) :=
  (d.finish ⟨0⟩).placedLabel?

/-- Noting a body changes no label. -/
theorem placedLabel?_withBody (d : Draft) (owner : Declaration)
    (span : Span) : (d.withBody owner span).2.placedLabel? = d.placedLabel? :=
  funext (d.map_decl?_withBody (fun _ _ => rfl) owner span ⟨0⟩)

/-- Nor does it change the package. -/
theorem package_withBody (d : Draft) (owner : Declaration) (span : Span) :
    (d.withBody owner span).2.package = d.package := by
  unfold withBody
  cases d.bodies.find? owner.id <;> dsimp only <;> split <;> rfl

/-- Adding a declaration changes neither the package nor a label that is
there. -/
theorem placedLabel?_insert {owner o : Declaration} {anchor : NodeId}
    {spec : DeclSpec} (hd : d.WellFormed) (ho : d.decl? owner.id = some o)
    (h : d.insert owner anchor spec = .ok e) : e.package = d.package ∧
    ∃ node tree, ∀ id, e.placedLabel? id = if id = d.nextId then
        some ((d.newDecl owner node tree spec).label, tree.isLocal node)
      else d.placedLabel? id := by
  unfold Draft.insert at h
  split at h
  · cases h
  · next node tree _ =>
    have hid : o.id = owner.id := (hd ⟨0⟩).numbered owner.id o ho
    cases h
    refine ⟨rfl, node, tree, fun id => ?_⟩
    exact CompilationUnit.WellFormed.map_decl?_append (u := d.finish ⟨0⟩)
      (o := o) (f := fun x => (x.label, x.isLocal)) (fun _ _ => rfl)
      (by rw [hid]; exact ho) (by rw [hid]; rfl) id

/-- A new declaration has the name that its owner gives it. -/
theorem namedExactly_insert {owner o : Declaration} {anchor : NodeId}
    {spec : DeclSpec} (hd : d.WellFormed) (ho : d.decl? owner.id = some o)
    (hkind : o.kind = owner.kind)
    (hname : o.qualifiedName = owner.qualifiedName)
    (hnamed : NamedExactly d.package d.placedLabel?)
    (h : d.insert owner anchor spec = .ok e) :
    NamedExactly e.package e.placedLabel? := by
  obtain ⟨hpackage, node, tree, hplaced⟩ := placedLabel?_insert hd ho h
  -- what is there stays as it was, and what is around it is there
  have hkept : ∀ {p x}, d.decl? p = some x →
      e.placedLabel? p = d.placedLabel? p := by
    intro p x hx
    rw [hplaced, if_neg ?_]
    rintro rfl
    exact Nat.lt_irrefl _ (CompilationUnit.index_lt_size (u := d.finish ⟨0⟩) hx)
  rw [hpackage]
  intro id x l hx
  rw [hplaced] at hx
  by_cases hnew : id = d.nextId
  · rw [if_pos hnew] at hx
    cases hx
    have howner : e.placedLabel? owner.id = some (o.label, o.isLocal) :=
      (hkept ho).trans (Option.map_eq_some_iff.mpr ⟨o, ho, rfl⟩)
    show d.qualifiedNameFor owner spec (tree.isLocal node) =
      ((some owner.id).bind e.placedLabel?).bind _
    rw [Option.bind_some, howner, Option.bind_some]
    unfold qualifiedNameFor Label.nameIn Declaration.isFile
    rw [← hkind, ← hname]
    rfl
  · rw [if_neg hnew] at hx
    rw [hnamed id x l hx]
    cases hp : x.parent with
    | none => rfl
    | some p =>
        obtain ⟨y, hy, hyx⟩ := Option.map_eq_some_iff.mp hx
        have hparent : (d.finish ⟨0⟩).parent? id = some p := by
          rw [CompilationUnit.parent?, hy, Option.bind_some, ← hp]
          exact congrArg (fun z => z.1.parent) hyx
        have hup := (hd ⟨0⟩).earlier id p hparent
        have hlt := CompilationUnit.index_lt_size hy
        obtain ⟨z, hz⟩ : ∃ z, d.decl? p = some z :=
          ⟨_, List.getElem?_eq_getElem (Nat.lt_trans hup hlt)⟩
        rw [Option.bind_some, Option.bind_some, hkept hz]

end Draft

/-- The declarations of a described unit have the names that what they are in
gives them. -/
theorem UnitSpec.namedExactly {s : UnitSpec} {d : Draft}
    (h : s.draft = .ok d) (id : UnitId) :
    NamedExactly (d.finish id).package (d.finish id).placedLabel? := by
  have hkept : Draft.Kept fun d => NamedExactly d.package d.placedLabel? := by
    refine ⟨fun d o span hnamed => ?_, fun d e owner o anchor spec hd ho hkind
      hname hnamed h => Draft.namedExactly_insert hd ho hkind hname hnamed h⟩
    rw [d.package_withBody, d.placedLabel?_withBody]
    exact hnamed
  refine hkept.draft ?_ h
  rintro ⟨i⟩ x l hx
  cases i with
  | zero =>
      cases hx
      rfl
  | succ i => cases hx

/-- So they are named after their places. -/
theorem UnitSpec.namedByPlace {s : UnitSpec} {d : Draft}
    (h : s.draft = .ok d) (id : UnitId) :
    NamedByPlace (d.finish id).package (d.finish id).label? := by
  intro e x n hx hn
  obtain ⟨y, hy, rfl⟩ := Option.map_eq_some_iff.mp hx
  have hexact := UnitSpec.namedExactly h id e y.label y.isLocal
    (Option.map_eq_some_iff.mpr ⟨y, hy, rfl⟩)
  obtain ⟨o, ho, hname⟩ := Option.bind_eq_some_iff.mp (hexact.symm.trans hn)
  obtain ⟨p, hp, hplaced⟩ := Option.bind_eq_some_iff.mp ho
  obtain ⟨z, hz, rfl⟩ := Option.map_eq_some_iff.mp hplaced
  obtain ⟨-, hkind, name, hown, hplace⟩ := Label.nameIn_eq_some_iff.mp hname
  exact ⟨p, z.label, name, hp, Option.map_eq_some_iff.mpr ⟨z, hz, rfl⟩, hkind,
    hown, hplace.imp_right And.right⟩

namespace CompilationUnit

/-- Only what owns a supertype clause or an expansion can be found from
everywhere. -/
def Titled (u : CompilationUnit) : Prop :=
  ∀ d x n, u.decl? d = some x → x.qualifiedName = some n →
    x.kind.isClassLike = true

end CompilationUnit

/-- So it is in every described unit. -/
theorem UnitSpec.titled {s : UnitSpec} {d : Draft} (h : s.draft = .ok d)
    (id : UnitId) : (d.finish id).Titled := by
  intro e x n hx hn
  have hlabel : (d.finish id).label? e = some x.label := by
    rw [CompilationUnit.label?, hx]
    rfl
  obtain ⟨-, -, -, -, -, hkind, -⟩ := UnitSpec.namedByPlace h id e _ n hlabel hn
  exact DeclKind.isClassLike_of_isNamedClassifier hkind

end StagedResolve
