/-
Forms: what units look like that were grown from named forms.

# Growing both trees

A draft grows a declaration and its syntax node together, so the two trees
agree: a node of its own hangs on the node of the owner, directly or in
its body, and any other node is borrowed from a declaration that was there
(`Planted`). A new node changes nothing about this (`Planted.push`), and
neither does a new declaration (`Planted.add`); so it holds of every
description whose entries are of named forms (`UnitSpec.OfForms.planted`).
A named form settles what kind of node goes with which kind of
declaration, so where the syntax tree says that something is a class, its
declaration is one.

# Borrowing from the owner

Nothing is said about the node of a declaration that borrows, unless it
always borrows that of its owner. Whether it does is a parameter, since
some facts need it and some do not.
-/
import StagedResolve.Proofs.SyntaxTrees

namespace StagedResolve

-- ============================================================ placements

/-- Where a declaration stands: what it is, what it belongs to, and which
node it has. -/
structure Placement where
  kind : DeclKind
  owner : Option DeclId
  node : NodeId
  isBorrowed : Bool
  isLocal : Bool

/-- The placement of a declaration. -/
def Declaration.placement (x : Declaration) : Placement :=
  ⟨x.kind, x.parent, x.node, x.isBorrowed, x.isLocal⟩

/-- The placements of the declarations of a unit. -/
def CompilationUnit.placement? (u : CompilationUnit) (d : DeclId) :
    Option Placement :=
  (u.decl? d).map Declaration.placement

/-- The placement of a declaration that is there. -/
theorem CompilationUnit.placement?_of_decl? (u : CompilationUnit) {d : DeclId}
    {x : Declaration} (h : u.decl? d = some x) :
    u.placement? d = some x.placement := by
  rw [placement?, h]
  rfl

/-- The declarations are those of a draft that was grown from named forms.
If what borrows a node borrows that of its owner, it has that. -/
structure Planted (own : Prop) (t : SourceTree)
    (place : DeclId → Option Placement) : Prop where
  earlier : t.Earlier
  file : ∀ n, t.kind? n = some .file ↔ n = .root
  root : ∃ p, place .root = some p ∧ p.owner = none ∧ p.node = .root ∧
    p.isBorrowed = false
  placed : ∀ d p, place d = some p → d ≠ .root → ∃ o q, p.owner = some o ∧
    place o = some q ∧ (own → p.isBorrowed = true → p.node = q.node) ∧
    (p.isBorrowed = false → t.HangsOn p.node q.node ∧
      ∃ form : DeclForm, p.kind = form.kind ∧ t.kind? p.node = some form.node)
  isLocal : ∀ d p, place d = some p → p.isLocal = t.isLocal p.node
  known : ∀ d p, place d = some p → p.node.index < t.size
  distinct : ∀ d e p q, place d = some p → place e = some q →
    p.isBorrowed = false → q.isBorrowed = false → p.node = q.node → d = e

namespace Planted

variable {own : Prop} {t : SourceTree} {place : DeclId → Option Placement}

/-- A new node, other than a file. -/
theorem push (h : Planted own t place) {kind : NodeKind}
    {anchor : NodeId} (hanchor : anchor.index < t.size) (hkind : kind ≠ .file)
    (span : Span) : Planted own (t.push kind anchor span) place where
  earlier := h.earlier.push hanchor
  file := fun n => by
    by_cases hn : n = t.nextId
    · subst hn
      have hne : t.nextId ≠ .root := fun heq => by
        have hlt := SourceTree.index_lt_of_kind? ((h.file .root).mpr rfl)
        rw [← heq] at hlt
        exact Nat.lt_irrefl _ hlt
      rw [SourceTree.kind?_push_nextId]
      exact ⟨fun hk => absurd (Option.some.inj hk) hkind,
        fun hroot => absurd hroot hne⟩
    · rw [SourceTree.kind?, SourceTree.node?_push, if_neg hn]
      exact h.file n
  root := h.root
  placed := fun d p hd hne => by
    obtain ⟨o, q, ho, hq, hborrows, hhangs⟩ := h.placed d p hd hne
    refine ⟨o, q, ho, hq, hborrows, fun hb => ?_⟩
    obtain ⟨hhangs, form, hform, hnode⟩ := hhangs hb
    refine ⟨hhangs.push, form, hform, ?_⟩
    rwa [SourceTree.kind?_push_of_lt (h.known d p hd)]
  isLocal := fun d p hd => by
    rw [h.earlier.isLocal_push (h.known d p hd)]
    exact h.isLocal d p hd
  known := fun d p hd => by
    have hsize : (t.push kind anchor span).size = t.size + 1 :=
      List.length_append
    have hlt := h.known d p hd
    omega
  distinct := h.distinct

/-- A new declaration. -/
theorem add (h : Planted own t place) {d o : DeclId} {p q : Placement}
    (hd : place d = none) (howner : p.owner = some o) (ho : place o = some q)
    (hlocal : p.isLocal = t.isLocal p.node)
    (hborrows : p.isBorrowed = true → (own → p.node = q.node) ∧
      ∃ e r, place e = some r ∧ p.node = r.node)
    (hhangs : p.isBorrowed = false → t.HangsOn p.node q.node ∧
      (∃ form : DeclForm, p.kind = form.kind ∧
        t.kind? p.node = some form.node) ∧
      ∀ e r, place e = some r → r.node ≠ p.node) :
    Planted own t fun e => if e = d then some p else place e := by
  have hroot : (.root : DeclId) ≠ d := by
    rintro rfl
    obtain ⟨r, hr, -⟩ := h.root
    rw [hd] at hr
    cases hr
  have hne : o ≠ d := by
    rintro rfl
    rw [hd] at ho
    cases ho
  have hcases : ∀ e r, (if e = d then some p else place e) = some r →
      (e = d ∧ r = p) ∨ (e ≠ d ∧ place e = some r) := by
    intro e r he
    by_cases hed : e = d
    · rw [if_pos hed] at he
      exact Or.inl ⟨hed, (Option.some.inj he).symm⟩
    · rw [if_neg hed] at he
      exact Or.inr ⟨hed, he⟩
  constructor
  case earlier => exact h.earlier
  case file => exact h.file
  case root =>
    rw [if_neg hroot]
    exact h.root
  case placed =>
    intro e r he hne'
    rcases hcases e r he with ⟨rfl, rfl⟩ | ⟨-, he⟩
    · refine ⟨o, q, howner, ?_, fun ho hb => (hborrows hb).1 ho, fun hb => ?_⟩
      · rw [if_neg hne]
        exact ho
      · exact ⟨(hhangs hb).1, (hhangs hb).2.1⟩
    · obtain ⟨o', q', ho', hq', hrest⟩ := h.placed e r he hne'
      refine ⟨o', q', ho', ?_, hrest⟩
      rw [if_neg]
      · exact hq'
      · rintro rfl
        rw [hd] at hq'
        cases hq'
  case isLocal =>
    intro e r he
    rcases hcases e r he with ⟨-, rfl⟩ | ⟨-, he⟩
    · exact hlocal
    · exact h.isLocal e r he
  case known =>
    intro e r he
    rcases hcases e r he with ⟨-, rfl⟩ | ⟨-, he⟩
    · cases hb : r.isBorrowed with
      | true =>
          obtain ⟨f, s, hf, hnode⟩ := (hborrows hb).2
          rw [hnode]
          exact h.known f s hf
      | false =>
          obtain ⟨form, -, hnode⟩ := (hhangs hb).2.1
          exact SourceTree.index_lt_of_kind? hnode
    · exact h.known e r he
  case distinct =>
    intro e f r s he hf hr hs hnode
    rcases hcases e r he with ⟨hed, hrp⟩ | ⟨-, he'⟩
    · rcases hcases f s hf with ⟨hfd, -⟩ | ⟨-, hf'⟩
      · rw [hed, hfd]
      · rw [hrp] at hr hnode
        exact absurd hnode.symm ((hhangs hr).2.2 f s hf')
    · rcases hcases f s hf with ⟨-, hsp⟩ | ⟨-, hf'⟩
      · rw [hsp] at hs hnode
        exact absurd hnode ((hhangs hs).2.2 e r he')
      · exact h.distinct e f r s he' hf' hr hs hnode

end Planted

-- ================================================================== units

namespace Planted

variable {own : Prop} {u : CompilationUnit} {d : DeclId} {x : Declaration}

/-- A declaration of such a unit other than the file. -/
theorem placed_decl (h : Planted own u.tree u.placement?)
    (hd : u.decl? d = some x) (hne : d ≠ .root) :
    ∃ o y, u.parent? d = some o ∧ u.decl? o = some y ∧
      (own → x.isBorrowed = true → x.node = y.node) ∧
      (x.isBorrowed = false → u.tree.HangsOn x.node y.node ∧
        ∃ form : DeclForm, x.kind = form.kind ∧
          u.tree.kind? x.node = some form.node) := by
  obtain ⟨o, q, ho, hq, hrest⟩ := h.placed d _ (u.placement?_of_decl? hd) hne
  obtain ⟨y, hy, rfl⟩ := Option.map_eq_some_iff.mp hq
  refine ⟨o, y, ?_, hy, hrest⟩
  rw [CompilationUnit.parent?, hd]
  exact ho

/-- Whether a declaration is local is told by its node. -/
theorem isLocal_eq (h : Planted own u.tree u.placement?)
    (hd : u.decl? d = some x) : u.isLocal d = u.tree.isLocal x.node := by
  rw [CompilationUnit.isLocal, hd]
  exact h.isLocal d _ (u.placement?_of_decl? hd)

/-- The file has the first node. -/
theorem root_decl (h : Planted own u.tree u.placement?) :
    ∃ z, u.decl? .root = some z ∧ z.parent = none ∧ z.isBorrowed = false ∧
      z.node = .root := by
  obtain ⟨q, hq, hnone, hnode, hown⟩ := h.root
  obtain ⟨z, hz, rfl⟩ := Option.map_eq_some_iff.mp hq
  exact ⟨z, hz, hnone, hown, hnode⟩

/-- A node of its own tells which declaration it is. -/
theorem eq_of_node (h : Planted own u.tree u.placement?)
    {e : DeclId} {y : Declaration} (hd : u.decl? d = some x)
    (he : u.decl? e = some y) (hx : x.isBorrowed = false)
    (hy : y.isBorrowed = false) (hnode : x.node = y.node) : d = e :=
  h.distinct d e _ _ (u.placement?_of_decl? hd) (u.placement?_of_decl? he) hx
    hy hnode

/-- What has the first node for its own is the file. -/
theorem eq_root_of_node (h : Planted own u.tree u.placement?)
    (hd : u.decl? d = some x) (hown : x.isBorrowed = false)
    (hnode : x.node = .root) : d = .root := by
  obtain ⟨z, hz, -, hzown, hznode⟩ := h.root_decl
  exact h.eq_of_node hd hz hown hzown (hnode.trans hznode.symm)

/-- The kind of a declaration is that of a form, if its node is its
own. -/
theorem form (h : Planted own u.tree u.placement?) {k : NodeKind}
    (hd : u.decl? d = some x) (hne : d ≠ .root) (hown : x.isBorrowed = false)
    (hk : u.tree.kind? x.node = some k) :
    ∃ form : DeclForm, u.kind? d = some form.kind ∧ form.node = k := by
  obtain ⟨_, _, _, _, _, hhangs⟩ := h.placed_decl hd hne
  obtain ⟨form, hform, hnode⟩ := (hhangs hown).2
  refine ⟨form, ?_, Option.some.inj (hnode.symm.trans hk)⟩
  rw [CompilationUnit.kind?, hd, Option.map_some, hform]

/-- There is nothing around the node of the file. -/
theorem parent_root (h : Planted own u.tree u.placement?) :
    u.tree.parent? .root = none := by
  cases hp : u.tree.parent? .root with
  | none => rfl
  | some m => exact absurd (h.earlier _ m hp) (Nat.not_lt_zero _)

/-- The file is not in executable code. -/
theorem isLocal_root (h : Planted own u.tree u.placement?) :
    u.isLocal .root = false := by
  obtain ⟨z, hz, -, -, hnode⟩ := h.root_decl
  rw [h.isLocal_eq hz, hnode]
  exact SourceTree.isLocal_of_no_parent h.parent_root

end Planted

-- ================================================================= drafts

/-- The kind of node of a form is not that of a file. -/
theorem DeclForm.node_ne_file (form : DeclForm) : form.node ≠ .file := by
  cases form <;> decide

/-- No form makes a file. -/
theorem DeclForm.kind_ne_file (form : DeclForm) : form.kind ≠ .file := by
  cases form <;> decide

/-- What is a type parameter has the node of one. -/
theorem DeclForm.node_of_typeParameter (form : DeclForm)
    (h : form.kind = .typeParameter) : form.node = .typeParameter := by
  cases form <;> first | rfl | cases h

/-- What has the node of a class is one. -/
theorem DeclForm.kind_of_node (form : DeclForm) (h : form.node = .classDecl) :
    form.kind = .classDecl := by
  cases form <;> first | rfl | cases h

/-- What has the node of a primary constructor is a constructor. -/
theorem DeclForm.kind_of_constructor (form : DeclForm)
    (h : form.node = .primaryConstructor) : form.kind = .constructor := by
  cases form <;> first | rfl | cases h

namespace Draft

variable {own : Prop} {entries : List UnitEntry} {d e : Draft}

/-- The placements of the declarations of a draft. -/
def placement? (d : Draft) : DeclId → Option Placement :=
  (d.finish ⟨0⟩).placement?

/-- What is there has its placement. -/
theorem placement?_of_decl? {id : DeclId} {o : Declaration}
    (h : d.decl? id = some o) : d.placement? id = some o.placement :=
  (d.finish ⟨0⟩).placement?_of_decl? h

/-- A draft that was grown from named forms, by the first entries of a
description, and the blocks of its bodies. -/
structure Grown (own : Prop) (entries : List UnitEntry) (d : Draft) : Prop where
  planted : Planted own d.tree d.placement?
  bodies : ∀ id b, d.bodies.find? id = some b → ∃ p, d.placement? id = some p ∧
    d.tree.kind? b = some .block ∧ d.tree.parent? b = some p.node
  listed : ∀ i p, d.placement? ⟨i + 1⟩ = some p → ∃ e, entries[i]? = some e ∧
    p.owner = some e.owner ∧ p.isBorrowed = e.spec.borrows.isSome ∧
    p.kind = e.spec.kind

/-- An empty file. -/
theorem Grown.start (own : Prop) (entries : List UnitEntry)
    (path package : String) (imports : List ImportDirective)
    (annotations : List WrittenType) :
    (Draft.start path package imports annotations).Grown own entries := by
  have hplace : ∀ id p, (Draft.start path package imports
      annotations).placement? id = some p → id = .root ∧
        p = (fileDecl path annotations).placement := by
    rintro ⟨i⟩ p h
    cases i with
    | zero => exact ⟨rfl, (Option.some.inj h).symm⟩
    | succ i => cases h
  have hnodes : ∀ n, (SourceTree.empty.node? n = some ⟨.file, none, .nowhere⟩ ∧
      n = .root) ∨ (SourceTree.empty.node? n = none ∧ n ≠ .root) := by
    rintro ⟨i⟩
    cases i with
    | zero => exact Or.inl ⟨rfl, rfl⟩
    | succ i => exact Or.inr ⟨rfl, fun h => by cases h⟩
  refine ⟨{
    earlier := fun n p hp => ?_
    file := fun n => ?_
    root := ⟨_, rfl, rfl, rfl, rfl⟩
    placed := fun id p hp hne => absurd (hplace id p hp).1 hne
    isLocal := fun id p hp => ?_
    known := fun id p hp => ?_
    distinct := fun a b p q hp hq _ _ _ => ?_ }, fun id b h => (by cases h),
    fun i p hp => (by cases hp)⟩
  · rcases hnodes n with ⟨hn, -⟩ | ⟨hn, -⟩
    · rw [SourceTree.parent?, Draft.start, hn] at hp
      cases hp
    · rw [SourceTree.parent?, Draft.start, hn] at hp
      cases hp
  · rcases hnodes n with ⟨hn, hroot⟩ | ⟨hn, hroot⟩
    · rw [SourceTree.kind?, Draft.start, hn]
      exact ⟨fun _ => hroot, fun _ => rfl⟩
    · rw [SourceTree.kind?, Draft.start, hn]
      exact ⟨fun h => (by cases h), fun h => absurd h hroot⟩
  · rw [(hplace id p hp).2]
    rfl
  · rw [(hplace id p hp).2]
    exact Nat.zero_lt_one
  · rw [(hplace a p hp).1, (hplace b q hq).1]

/-- The block of a body is there already, or it is made now. -/
theorem withBody_cases (d : Draft) (owner : Declaration) (span : Span) :
    (d.bodies.find? owner.id = some (d.withBody owner span).1 ∧
      (d.withBody owner span).2.tree = d.tree ∧
      (d.withBody owner span).2.bodies = d.bodies) ∨
    ((d.withBody owner span).1 = d.tree.nextId ∧
      (d.withBody owner span).2.tree = d.tree.push .block owner.node span ∧
      (d.withBody owner span).2.bodies =
        d.bodies.insert owner.id d.tree.nextId) := by
  unfold withBody
  cases hfind : d.bodies.find? owner.id <;> dsimp only <;> split
  · exact Or.inr ⟨rfl, rfl, rfl⟩
  · exact Or.inr ⟨rfl, rfl, rfl⟩
  · exact Or.inl ⟨rfl, rfl, rfl⟩
  · exact Or.inl ⟨rfl, rfl, rfl⟩

/-- A block for a body hangs on the owner of the body. -/
theorem Grown.withBody (hd : d.Grown own entries) {owner : Declaration}
    {span : Span} (howner : d.decl? owner.id = some owner) :
    (d.withBody owner span).2.Grown own entries ∧
      (d.withBody owner span).2.placement? = d.placement? ∧
      (d.withBody owner span).2.tree.kind? (d.withBody owner span).1 =
        some .block ∧
      (d.withBody owner span).2.tree.parent? (d.withBody owner span).1 =
        some owner.node := by
  have hplace : (d.withBody owner span).2.placement? = d.placement? :=
    funext (d.map_decl?_withBody (fun _ _ => rfl) owner span ⟨0⟩)
  have hown := placement?_of_decl? howner
  have hlisted := hd.listed
  rw [← hplace] at hlisted
  rcases d.withBody_cases owner span with ⟨hblock, htree, hbodies⟩ |
    ⟨hblock, htree, hbodies⟩
  · obtain ⟨p, hp, hkind, hparent⟩ := hd.bodies owner.id _ hblock
    obtain rfl : owner.placement = p := Option.some.inj (hown.symm.trans hp)
    rw [htree]
    refine ⟨⟨?_, ?_, hlisted⟩, hplace, hkind, hparent⟩
    · rw [htree, hplace]
      exact hd.planted
    · rw [htree, hplace, hbodies]
      exact hd.bodies
  · rw [htree, hblock]
    refine ⟨⟨?_, fun id b hb => ?_, hlisted⟩, hplace,
      SourceTree.kind?_push_nextId, SourceTree.parent?_push_nextId⟩
    · rw [htree, hplace]
      exact hd.planted.push (hd.planted.known _ _ hown) (by decide) span
    · rw [htree, hplace]
      rw [hbodies, Table.find?_insert] at hb
      split at hb
      · next heq =>
        cases hb
        rw [← heq]
        exact ⟨_, hown, SourceTree.kind?_push_nextId,
          SourceTree.parent?_push_nextId⟩
      · obtain ⟨p, hp, hkind, hparent⟩ := hd.bodies id b hb
        refine ⟨p, hp, ?_, ?_⟩
        · rwa [SourceTree.kind?_push_of_lt
            (SourceTree.index_lt_of_kind? hkind)]
        · rwa [SourceTree.parent?_push_of_lt
            (SourceTree.index_lt_of_parent? hparent)]

/-- The new declaration has the next number; the others stand where they
stood. -/
theorem placement?_insert {d' : Draft} {o : Declaration} {node : NodeId}
    {tree : SourceTree} {spec : DeclSpec} {owner : Declaration}
    (ho : d.decl? owner.id = some o) (hid : o.id = owner.id)
    (hdecls : d'.decls = (d.decls ++ [d.newDecl owner node tree spec]).modify
      owner.id.index fun o => { o with children := o.children ++ [d.nextId] }) :
    d'.placement? = fun id => if id = d.nextId then
      some (d.newDecl owner node tree spec).placement
    else d.placement? id := by
  funext id
  exact CompilationUnit.WellFormed.map_decl?_append (u := d.finish ⟨0⟩)
    (v := d'.finish ⟨0⟩) (o := o) (f := Declaration.placement)
    (fun _ _ => rfl) (by rw [hid]; exact ho) (by rw [hid]; exact hdecls) id

/-- The next declaration of a draft can be of this description: it is the
next entry, and of a named form; and if what borrows a node borrows that of
its owner, it does. -/
structure Fits (own : Prop) (entries : List UnitEntry) (d : Draft)
    (owner : DeclId) (spec : DeclSpec) : Prop where
  form : ∃ form : DeclForm, spec.kind = form.kind ∧ spec.node = form.node
  lender : own → ∀ l, spec.borrows = some l → l = owner
  entry : ∃ i e, d.nextId = ⟨i + 1⟩ ∧ entries[i]? = some e ∧
    e.owner = owner ∧ e.spec = spec

section insertion

variable {owner o : Declaration} {anchor : NodeId} {spec : DeclSpec}

/-- Once its node is placed, only the declaration is left to add. -/
theorem Grown.insert_placed (hd : d.Grown own entries) {n : NodeId}
    {t : SourceTree} (ho : d.decl? owner.id = some o) (hid : o.id = owner.id)
    (hfits : d.Fits own entries owner.id spec)
    (hnode : d.placeNode anchor spec = .ok (n, t))
    (hplanted : Planted own t d.placement?)
    (hkinds : ∀ m k, d.tree.kind? m = some k → t.kind? m = some k)
    (hparents : ∀ m p, d.tree.parent? m = some p → t.parent? m = some p)
    (hborrows : spec.borrows.isSome = true → (own → n = o.node) ∧
      ∃ f r, d.placement? f = some r ∧ n = r.node)
    (hhangs : spec.borrows.isSome = false → t.HangsOn n o.node ∧
      t.kind? n = some spec.node ∧ ∀ f r, d.placement? f = some r → r.node ≠ n)
    (h : d.insert owner anchor spec = .ok e) : e.Grown own entries := by
  have hplace := placement?_of_decl? ho
  have hnone : d.placement? d.nextId = none := by
    show (d.decls[d.decls.length]?).map _ = none
    rw [List.getElem?_eq_none (Nat.le_refl _)]
    rfl
  unfold Draft.insert at h
  rw [hnode] at h
  cases h
  refine ⟨?_, fun id b hb => ?_, fun i p hp => ?_⟩
  · rw [placement?_insert ho hid rfl]
    refine hplanted.add hnone rfl hplace rfl hborrows fun hb => ?_
    obtain ⟨hhang, hkind, hnew⟩ := hhangs hb
    obtain ⟨form, hk, hn⟩ := hfits.form
    exact ⟨hhang, ⟨form, hk, hn ▸ hkind⟩, hnew⟩
  · obtain ⟨p, hp, hkind, hparent⟩ := hd.bodies id b hb
    refine ⟨p, ?_, hkinds b _ hkind, hparents b _ hparent⟩
    rw [placement?_insert ho hid rfl]
    refine (if_neg ?_).trans hp
    rintro rfl
    rw [hnone] at hp
    cases hp
  · rw [placement?_insert ho hid rfl] at hp
    dsimp only at hp
    by_cases hnext : (⟨i + 1⟩ : DeclId) = d.nextId
    · obtain ⟨j, entry, hj, hentry, howner, hspec⟩ := hfits.entry
      obtain rfl : i = j := by
        have := congrArg DeclId.index (hnext.trans hj)
        simpa using this
      rw [if_pos hnext] at hp
      cases hp
      exact ⟨entry, hentry, by rw [howner]; rfl, by rw [hspec]; rfl,
        by rw [hspec]; rfl⟩
    · rw [if_neg hnext] at hp
      exact hd.listed i p hp

/-- A new declaration of a named form keeps a draft grown. -/
theorem Grown.insert (hd : d.Grown own entries)
    (ho : d.decl? owner.id = some o) (hid : o.id = owner.id)
    (hanchor : anchor = o.node ∨ (d.tree.kind? anchor = some .block ∧
      d.tree.parent? anchor = some o.node))
    (hfits : d.Fits own entries owner.id spec)
    (h : d.insert owner anchor spec = .ok e) : e.Grown own entries := by
  cases hb : spec.borrows with
  | none =>
      have hlt : anchor.index < d.tree.size := by
        rcases hanchor with rfl | ⟨hkind, -⟩
        · exact hd.planted.known _ _ (placement?_of_decl? ho)
        · exact SourceTree.index_lt_of_kind? hkind
      obtain ⟨form, -, hn⟩ := hfits.form
      have hfile : spec.node ≠ .file := hn ▸ form.node_ne_file
      have hnode : d.placeNode anchor spec =
          .ok (d.tree.nextId, d.tree.push spec.node anchor spec.span) := by
        unfold placeNode
        rw [hb]
      refine hd.insert_placed ho hid hfits hnode
        (hd.planted.push hlt hfile spec.span) (fun m k hk => ?_)
        (fun m p hp => ?_) (fun h => by rw [hb] at h; cases h) (fun _ =>
          ⟨?_, SourceTree.kind?_push_nextId, fun f r hr heq => ?_⟩) h
      · rwa [SourceTree.kind?_push_of_lt (SourceTree.index_lt_of_kind? hk)]
      · rwa [SourceTree.parent?_push_of_lt
          (SourceTree.index_lt_of_parent? hp)]
      · rcases hanchor with rfl | ⟨hkind, hparent⟩
        · exact Or.inl SourceTree.parent?_push_nextId
        · refine Or.inr ⟨anchor, SourceTree.parent?_push_nextId, ?_, ?_⟩
          · rwa [SourceTree.kind?_push_of_lt hlt]
          · rwa [SourceTree.parent?_push_of_lt hlt]
      · have hknown := hd.planted.known f r hr
        rw [heq] at hknown
        exact Nat.lt_irrefl _ hknown
  | some l =>
      cases hl : d.decl? l with
      | none =>
          have hnode : d.placeNode anchor spec = .error .indexOutOfBounds := by
            unfold placeNode
            simp only [hb, hl]
          unfold Draft.insert at h
          rw [hnode] at h
          cases h
      | some x =>
          have hnode : d.placeNode anchor spec = .ok (x.node, d.tree) := by
            unfold placeNode
            simp only [hb, hl]
          refine hd.insert_placed ho hid hfits hnode hd.planted
            (fun _ _ => id) (fun _ _ => id) (fun _ => ⟨fun hown => ?_, l, _,
              placement?_of_decl? hl, rfl⟩) (fun h => ?_) h
          · obtain rfl := hfits.lender hown l hb
            obtain rfl := Option.some.inj (hl.symm.trans ho)
            rfl
          · rw [hb] at h
            cases h

end insertion

-- ============================================================ one entry

section entry

variable {owner : DeclId} {spec : DeclSpec}

/-- Adding a declaration of a named form. -/
theorem Grown.add (hd : d.Grown own entries) (hwf : d.WellFormed)
    (hfits : d.Fits own entries owner spec) (h : d.add owner spec = .ok e) :
    e.Grown own entries := by
  unfold Draft.add at h
  split at h
  · cases h
  · next o ho =>
    have hid := (hwf ⟨0⟩).numbered owner o ho
    exact hd.insert (by rw [hid]; exact ho) rfl (Or.inl rfl) (hid ▸ hfits) h

/-- The same in the body of the owner. -/
theorem Grown.addLocal (hd : d.Grown own entries) (hwf : d.WellFormed)
    (hfits : d.Fits own entries owner spec)
    (h : d.addLocal owner spec = .ok e) : e.Grown own entries := by
  unfold Draft.addLocal at h
  split at h
  · cases h
  · next o ho =>
    obtain rfl : o.id = owner := (hwf ⟨0⟩).numbered owner o ho
    obtain ⟨hbody, hsame, hkind, hparent⟩ :
        (d.withBody o spec.span).2.Grown own entries ∧ _ := hd.withBody ho
    obtain ⟨hbodywf, o', ho'⟩ : (d.withBody o spec.span).2.WellFormed ∧ _ :=
      Draft.withBody_wellFormed hwf ho
    have hnext : (d.withBody o spec.span).2.nextId = d.nextId := by
      rw [nextId, nextId, d.length_withBody]
    -- noting the body has not moved the owner
    have hmoved : o'.placement = o.placement := by
      have hplace := placement?_of_decl? ho'
      rw [hsame, placement?_of_decl? ho] at hplace
      exact (Option.some.inj hplace).symm
    have hnode : o'.node = o.node := congrArg Placement.node hmoved
    exact hbody.insert ho' ((hbodywf ⟨0⟩).numbered o.id o' ho')
      (Or.inr ⟨hkind, hnode ▸ hparent⟩)
      ⟨hfits.form, hfits.lender, hnext ▸ hfits.entry⟩ h

end entry

end Draft

-- ========================================================== descriptions

namespace UnitSpec

/-- Every entry is of a named form. -/
def OfForms (s : UnitSpec) : Prop :=
  ∀ e ∈ s.entries, ∃ form : DeclForm,
    e.spec.kind = form.kind ∧ e.spec.node = form.node

/-- What borrows the node of another declaration borrows that of its
owner. -/
def BorrowsFromOwner (s : UnitSpec) : Prop :=
  ∀ e ∈ s.entries, ∀ l ∈ e.spec.borrows, l = e.owner

variable {own : Prop} {s : UnitSpec}

/-- Adding the entries of a description of named forms, the first of which
were added before. -/
theorem OfForms.extend_grown (hs : s.OfForms) (hown : own → s.BorrowsFromOwner)
    {rest : List UnitEntry} {d e : Draft} (hd : d.Grown own s.entries)
    (hwf : d.WellFormed) (done : List UnitEntry)
    (hsplit : s.entries = done ++ rest)
    (hlength : d.decls.length = done.length + 1)
    (h : extend rest d = .ok e) : e.Grown own s.entries := by
  induction rest generalizing done d with
  | nil =>
      cases h
      exact hd
  | cons entry rest ih =>
      have hmem : entry ∈ s.entries := by
        rw [hsplit]
        simp
      have hplace : s.entries[done.length]? = some entry := by
        rw [hsplit]
        simp
      have hfits : d.Fits own s.entries entry.owner entry.spec := by
        refine ⟨hs entry hmem, fun ho => hown ho entry hmem,
          done.length, entry, ?_, hplace, rfl, rfl⟩
        rw [Draft.nextId, hlength]
      rw [extend] at h
      split at h
      · next d' hd' =>
        have hadd : entry.addTo d = .ok d' := hd'
        have hgrown : d'.Grown own s.entries := by
          split at hd'
          · exact hd.addLocal hwf hfits hd'
          · exact hd.add hwf hfits hd'
        have hone : extend [entry] d = .ok d' := by
          rw [extend, hd']
          rfl
        refine ih hgrown (extend_wellFormed hwf hone) (done ++ [entry])
          (by simp [hsplit]) ?_ h
        rw [UnitEntry.length_addTo hadd, hlength, List.length_append]
        rfl
      · cases h

/-- A unit that is described by named forms is grown from them. -/
theorem OfForms.grown (hs : s.OfForms) (hown : own → s.BorrowsFromOwner)
    {d : Draft} (h : s.draft = .ok d) : d.Grown own s.entries :=
  hs.extend_grown hown (.start _ _ _ _ _ _) (Draft.start_wellFormed _ _ _ _)
    [] rfl rfl h

/-- So its declarations and their nodes stand as they should. -/
theorem OfForms.planted (hs : s.OfForms) (hown : own → s.BorrowsFromOwner)
    {d : Draft} (h : s.draft = .ok d) (id : UnitId) :
    Planted own (d.finish id).tree (d.finish id).placement? :=
  (hs.grown hown h).planted

/-- In a unit that is described by named forms there is one file, whatever
borrows a node. -/
theorem OfForms.kind_ne_file (hs : s.OfForms) {draft : Draft}
    (h : s.draft = .ok draft) (id : UnitId) {d : DeclId} (hd : d ≠ .root) :
    (draft.finish id).kind? d ≠ some .file := by
  have hgrown : draft.Grown False s.entries := hs.grown False.elim h
  intro hk
  obtain ⟨x, hx, hkind⟩ := Option.map_eq_some_iff.mp hk
  obtain ⟨_ | i⟩ := d
  · exact hd rfl
  · obtain ⟨e, he, -, -, hkind'⟩ :=
      hgrown.listed i x.placement (Draft.placement?_of_decl? hx)
    obtain ⟨form, hform, -⟩ := hs e (List.mem_of_getElem? he)
    exact form.kind_ne_file (hform.symm.trans (hkind'.symm.trans hkind))

end UnitSpec

end StagedResolve
