/-
Declaration trees: what drafts promise about the links between declarations.

# The promise

Parent links and lists of children are stored apart, and the library
follows whichever is at hand. They agree (`WellFormed.child_iff`): a
declaration is listed by its parent and by nothing else. Parents have
smaller numbers than their children, so climbing never runs out of its
bound before it reaches the file (`WellFormed.ancestors_of_parent`), and
what was written is not resolved yet.

A draft only grows by appending a declaration and listing it with its
owner (`WellFormed.append`), and by noting that something has a body,
which the links do not depend on (`WellFormed.congr`). So every
described unit is well formed (`UnitSpec.draft_wellFormed`).
-/
import StagedResolve.Draft

namespace StagedResolve

-- ============================================================= climbing

/-- Where every link leads to a smaller number, a climb with enough fuel
does not depend on how much it has, nor on links further up. -/
theorem climb_eq {α : Type} {parent? parent?' : α → Option α}
    (index : α → Nat)
    (hparent : ∀ c p, parent? c = some p → index p < index c)
    {fuel fuel' : Nat} {a : α}
    (hsame : ∀ c, index c ≤ index a → parent?' c = parent? c)
    (h : index a ≤ fuel) (h' : index a ≤ fuel') :
    climb parent? fuel a = climb parent?' fuel' a := by
  have ha := hsame a (Nat.le_refl _)
  induction fuel generalizing fuel' a with
  | zero =>
      cases fuel' with
      | zero => rfl
      | succ fuel' =>
          cases hp : parent? a with
          | none => simp only [climb, ha, hp]
          | some p =>
              have := hparent a p hp
              omega
  | succ fuel ih =>
      cases hp : parent? a with
      | none => cases fuel' <;> simp only [climb, ha, hp]
      | some p =>
          have hlt := hparent a p hp
          cases fuel' with
          | zero => omega
          | succ fuel' =>
              simp only [climb, ha, hp]
              have hup : ∀ c, index c ≤ index p → parent?' c = parent? c :=
                fun c hc => hsame c (by omega)
              rw [ih hup (by omega) (by omega : index p ≤ fuel')
                (hup p (Nat.le_refl _))]

-- ========================================================== the promise

namespace Slots

/-- The slots that carry types, apart from that of the declaration's own
type. -/
def others (s : Slots) : List Slot :=
  s.supertypes ++ (s.expansion.toList ++ (s.receiver.toList ++
    (s.bounds ++ s.annotations)))

/-- All slots that carry types. -/
def all (s : Slots) : List Slot := s.returnType :: s.others

/-- Nothing in the slots is resolved. -/
structure Unresolved (s : Slots) : Prop where
  types : Slot.types s.all = []
  imports : s.imports = none

variable {s : Slots}

/-- No slot holds a resolved type. -/
theorem Unresolved.type? (h : s.Unresolved) : ∀ slot ∈ s.all,
    slot.type? = none :=
  List.filterMap_eq_nil_iff.mp h.types

/-- So the supertypes are not resolved. -/
theorem Unresolved.supertypes (h : s.Unresolved) :
    Slot.types s.supertypes = [] :=
  List.filterMap_eq_nil_iff.mpr fun slot hslot =>
    h.type? slot (by simp [all, others, hslot])

/-- Nor is the expansion. -/
theorem Unresolved.expansion (h : s.Unresolved) :
    Slot.types s.expansion.toList = [] :=
  List.filterMap_eq_nil_iff.mpr fun slot hslot => h.type? slot <| by
    rw [Option.mem_toList] at hslot
    simp [all, others, Option.mem_def.mp hslot]

end Slots

/-- A named classifier is a class or an alias. -/
theorem DeclKind.isClassLike_of_isNamedClassifier {k : DeclKind}
    (h : k.isNamedClassifier = true) : k.isClassLike = true := by
  cases k <;> first | rfl | cases h

namespace CompilationUnit

/-- The links of a declaration tree agree and lead to the file. -/
structure WellFormed (u : CompilationUnit) : Prop where
  numbered : ∀ d x, u.decl? d = some x → x.id = d
  child_iff : ∀ p c, c ∈ u.children p ↔ u.parent? c = some p
  earlier : ∀ c p, u.parent? c = some p → p.index < c.index
  file : ∀ x, u.decl? .root = some x → x.kind = .file
  unresolved : ∀ d x, u.decl? d = some x → x.written.Unresolved

/-- A declaration that is there has a number below the size. -/
theorem index_lt_size {u : CompilationUnit} {d : DeclId} {x : Declaration}
    (h : u.decl? d = some x) : d.index < u.size :=
  (List.getElem?_eq_some_iff.mp h).1

/-- So it is listed. -/
theorem mem_declIds {u : CompilationUnit} {d : DeclId} {x : Declaration}
    (h : u.decl? d = some x) : d ∈ u.declIds :=
  List.mem_map.mpr ⟨d.index, List.mem_range.mpr (index_lt_size h), rfl⟩

/-- A classifier that is found is a class or an alias. -/
theorem exists_of_nested? {u : CompilationUnit} {owner d : DeclId}
    {name : String} (h : u.nested? owner name = some d) :
    ∃ x, u.decl? d = some x ∧ x.kind.isClassLike = true := by
  have hd : u.declaresClassifier name d = true := List.find?_some h
  unfold declaresClassifier at hd
  split at hd
  · next x hx =>
    rw [Bool.and_eq_true] at hd
    exact ⟨x, hx, DeclKind.isClassLike_of_isNamedClassifier hd.1⟩
  · cases hd

/-- What has a parent is there. -/
theorem index_lt_size_of_parent {u : CompilationUnit} {c p : DeclId}
    (h : u.parent? c = some p) : c.index < u.size := by
  rw [parent?, Option.bind_eq_some_iff] at h
  obtain ⟨x, hx, -⟩ := h
  exact index_lt_size hx

/-- Lists of children depend on nothing but the links. -/
theorem children_congr {u v : CompilationUnit}
    (h : ∀ d, (v.decl? d).map
        (fun x => (x.id, x.parent, x.children, x.kind, x.written)) =
      (u.decl? d).map
        fun x => (x.id, x.parent, x.children, x.kind, x.written))
    (d : DeclId) : v.children d = u.children d := by
  have hd := congrArg (fun o => (o.map fun t => t.2.2.1).getD []) (h d)
  unfold children
  cases hv : v.decl? d <;> cases hu : u.decl? d <;>
    simp [hv, hu] at hd ⊢ <;> exact hd

namespace WellFormed

variable {u : CompilationUnit} {a b c d p : DeclId}

/-- A declaration with a parent has it above it, and what is above
it. -/
theorem ancestors_of_parent (hu : u.WellFormed) (h : u.parent? d = some p) :
    u.ancestors d = p :: u.ancestors p := by
  have hd := index_lt_size_of_parent h
  have hp := hu.earlier d p h
  obtain ⟨n, hn⟩ : ∃ n, u.size = n + 1 := ⟨u.size - 1, by omega⟩
  have hclimb : u.ancestors d = p :: climb u.parent? n p := by
    rw [ancestors, hn]
    simp only [climb, h]
  have hfuel : climb u.parent? n p = u.ancestors p :=
    climb_eq DeclId.index hu.earlier (fun _ _ => rfl) (by omega) (by omega)
  rw [hclimb, hfuel]

/-- A declaration without a parent has nothing above it. -/
theorem ancestors_of_no_parent (h : u.parent? d = none) :
    u.ancestors d = [] := by
  unfold ancestors
  cases u.size <;> simp only [climb, h]

/-- What holds of the file and passes from parents to children holds of
every declaration. -/
theorem parent_induction (hu : u.WellFormed) {motive : DeclId → Prop}
    (top : ∀ d, u.parent? d = none → motive d)
    (step : ∀ d p, u.parent? d = some p → motive p → motive d)
    (d : DeclId) : motive d := by
  obtain ⟨n, hn⟩ : ∃ n, d.index = n := ⟨d.index, rfl⟩
  induction n using Nat.strongRecOn generalizing d with
  | ind n ih =>
      cases hp : u.parent? d with
      | none => exact top d hp
      | some p =>
          have hlt := hu.earlier d p hp
          exact step d p hp (ih p.index (by omega) p rfl)

/-- The parent is the nearest of what is above a declaration. -/
theorem mem_ancestors_iff (hu : u.WellFormed) :
    a ∈ u.ancestors d ↔
      ∃ p, u.parent? d = some p ∧ (a = p ∨ a ∈ u.ancestors p) := by
  cases hp : u.parent? d with
  | none => simp [ancestors_of_no_parent hp]
  | some p => simp [hu.ancestors_of_parent hp]

/-- What passes from parents to children on the way down to a declaration
holds of it if it holds of something above it. -/
theorem descend (hu : u.WellFormed) {P : DeclId → Prop}
    (hstep : ∀ e ∈ d :: u.ancestors d, ∀ q ∈ u.ancestors d,
      u.parent? e = some q → P q → P e)
    (ha : P a) (had : a ∈ u.ancestors d) : P d := by
  induction d using hu.parent_induction with
  | top d hd =>
      rw [ancestors_of_no_parent hd] at had
      cases had
  | step d q hq ih =>
      rw [hu.ancestors_of_parent hq] at had hstep
      have hup : P q := by
        rcases List.mem_cons.mp had with rfl | had
        · exact ha
        · exact ih (fun e he r hr => hstep e (List.mem_cons_of_mem _ he) r
            (List.mem_cons_of_mem _ hr)) had
      exact hstep d (List.mem_cons_self ..) q (List.mem_cons_self ..) hq hup

/-- What is above a declaration is the parent of it or of something else
above it. -/
theorem exists_child_of_mem_ancestors (hu : u.WellFormed)
    (h : a ∈ u.ancestors d) :
    ∃ m, u.parent? m = some a ∧ (m = d ∨ m ∈ u.ancestors d) := by
  induction d using hu.parent_induction with
  | top d hp =>
      rw [ancestors_of_no_parent hp] at h
      cases h
  | step d p hp ih =>
      rw [hu.ancestors_of_parent hp] at h ⊢
      rcases List.mem_cons.mp h with rfl | h
      · exact ⟨d, hp, Or.inl rfl⟩
      · obtain ⟨m, hm, hmem⟩ := ih h
        exact ⟨m, hm, Or.inr (List.mem_cons.mpr hmem)⟩

/-- What is above something above a declaration is above it. -/
theorem ancestors_trans (hu : u.WellFormed) (hab : a ∈ u.ancestors b)
    (hbd : b ∈ u.ancestors d) : a ∈ u.ancestors d := by
  induction d using hu.parent_induction with
  | top d hd =>
      rw [ancestors_of_no_parent hd] at hbd
      cases hbd
  | step d p hp ih =>
      rw [hu.ancestors_of_parent hp] at hbd ⊢
      rcases List.mem_cons.mp hbd with rfl | hbd
      · exact List.mem_cons_of_mem _ hab
      · exact List.mem_cons_of_mem _ (ih hbd)

/-- What is above a declaration has a smaller number. -/
theorem index_lt_of_mem_ancestors (hu : u.WellFormed)
    (h : a ∈ u.ancestors d) : a.index < d.index := by
  induction d using hu.parent_induction with
  | top d hd =>
      rw [ancestors_of_no_parent hd] at h
      cases h
  | step d p hp ih =>
      have hlt := hu.earlier d p hp
      rw [hu.ancestors_of_parent hp] at h
      rcases List.mem_cons.mp h with rfl | h
      · exact hlt
      · exact Nat.lt_trans (ih h) hlt

/-- Going down from a declaration comes by it and declarations below it. -/
theorem mem_preorder (hu : u.WellFormed) {fuel : Nat}
    (h : d ∈ preorder u.children fuel a) : d = a ∨ a ∈ u.ancestors d := by
  induction fuel generalizing a with
  | zero => exact Or.inl (List.mem_singleton.mp h)
  | succ fuel ih =>
      rcases List.mem_cons.mp h with h | h
      · exact Or.inl h
      · obtain ⟨c, hc, hd⟩ := List.mem_flatMap.mp h
        have hparent := (hu.child_iff a c).mp hc
        have hac : a ∈ u.ancestors c :=
          hu.mem_ancestors_iff.mpr ⟨a, hparent, Or.inl rfl⟩
        rcases ih hd with rfl | hcd
        · exact Or.inr hac
        · exact Or.inr (hu.ancestors_trans hac hcd)

/-- A subtree holds its root and declarations below it. -/
theorem mem_subtree (hu : u.WellFormed) (h : d ∈ u.subtree a) :
    d = a ∨ a ∈ u.ancestors d :=
  hu.mem_preorder h

/-- On the way up from a declaration there is one child of a parent at the
most. -/
theorem eq_of_parent (hu : u.WellFormed) (ha : a = d ∨ a ∈ u.ancestors d)
    (hb : b = d ∨ b ∈ u.ancestors d) (hap : u.parent? a = some p)
    (hbp : u.parent? b = some p) : a = b := by
  have hlt := hu.earlier a p hap
  have hlt' := hu.earlier b p hbp
  -- the parent of something is not above it
  have hdown : ∀ {c e : DeclId}, u.parent? c = some p → p.index < e.index →
      e ∉ u.ancestors c := by
    intro c e hc hle he
    rw [hu.ancestors_of_parent hc] at he
    rcases List.mem_cons.mp he with rfl | he
    · exact Nat.lt_irrefl _ hle
    · exact absurd (Nat.lt_trans (hu.index_lt_of_mem_ancestors he) hle)
        (Nat.lt_irrefl _)
  induction d using hu.parent_induction with
  | top d hd =>
      rw [ancestors_of_no_parent hd] at ha hb
      rcases ha with rfl | ha
      · rcases hb with rfl | hb
        · rfl
        · cases hb
      · cases ha
  | step d q hq ih =>
      rcases ha with rfl | ha
      · rcases hb with rfl | hb
        · rfl
        · exact absurd hb (hdown hap hlt')
      · rcases hb with rfl | hb
        · exact absurd ha (hdown hbp hlt)
        · rw [hu.ancestors_of_parent hq] at ha hb
          exact ih (List.mem_cons.mp ha) (List.mem_cons.mp hb)

/-- What is inside of something in a subtree is in the subtree. -/
theorem child_mem_subtree (hu : u.WellFormed) {c : DeclId}
    (h : d ∈ u.subtree a) (hc : c ∈ u.children d) : c ∈ u.subtree a := by
  have hparent := (hu.child_iff d c).mp hc
  have hlt := hu.earlier c d hparent
  have hsize := CompilationUnit.index_lt_size_of_parent hparent
  -- numbers rise on the way down, so the fuel never runs out above a child
  have hpre : ∀ fuel a, u.size ≤ fuel + a.index →
      d ∈ preorder u.children fuel a → c ∈ preorder u.children fuel a := by
    intro fuel
    induction fuel with
    | zero =>
        intro a hfuel h
        rw [List.mem_singleton.mp h] at hlt
        omega
    | succ fuel ih =>
        intro a hfuel h
        refine List.mem_cons_of_mem _ (List.mem_flatMap.mpr ?_)
        rcases List.mem_cons.mp h with rfl | h
        · refine ⟨c, hc, ?_⟩
          cases fuel with
          | zero => exact List.mem_singleton.mpr rfl
          | succ fuel => exact List.mem_cons_self ..
        · obtain ⟨b, hb, hd⟩ := List.mem_flatMap.mp h
          have hab := hu.earlier b a ((hu.child_iff a b).mp hb)
          exact ⟨b, hb, ih b (by omega) hd⟩
  exact hpre u.size a (Nat.le_add_right ..) h

/-- What a node is said to be made for is there, and has the node for its
own. -/
theorem decl?_of_declarationFor? (hu : u.WellFormed) {n : NodeId}
    (h : u.declarationFor? n = some d) :
    ∃ x, u.decl? d = some x ∧ x.isBorrowed = false ∧ x.node = n := by
  obtain ⟨x, hx, rfl⟩ := Option.map_eq_some_iff.mp h
  have hown := List.find?_some hx
  rw [Bool.and_eq_true, Bool.not_eq_true', beq_iff_eq] at hown
  obtain ⟨i, hi, hget⟩ := List.mem_iff_getElem.mp (List.mem_of_find?_eq_some hx)
  have hdecl : u.decl? ⟨i⟩ = some x := by
    rw [decl?, List.getElem?_eq_getElem hi, hget]
  exact ⟨x, by rw [hu.numbered ⟨i⟩ x hdecl, hdecl], hown⟩

-- =============================================================== growing

/-- Only the kinds, the numbers, the links and what was written count. -/
theorem congr {v : CompilationUnit} (hu : u.WellFormed)
    (h : ∀ d, (v.decl? d).map
        (fun x => (x.id, x.parent, x.children, x.kind, x.written)) =
      (u.decl? d).map
        fun x => (x.id, x.parent, x.children, x.kind, x.written)) :
    v.WellFormed := by
  have hparent : ∀ d, v.parent? d = u.parent? d := by
    intro d
    have hd := congrArg (fun o => o.bind fun t => t.2.1) (h d)
    simpa [Option.bind_map, Function.comp_def, parent?] using hd
  have hchildren := children_congr h
  have hback : ∀ d x, v.decl? d = some x →
      ∃ y, u.decl? d = some y ∧ y.id = x.id ∧ y.kind = x.kind ∧
        y.written = x.written := by
    intro d x hx
    have hd := h d
    rw [hx] at hd
    cases hy : u.decl? d with
    | none => simp [hy] at hd
    | some y =>
        simp only [hy, Option.map_some, Option.some.injEq, Prod.mk.injEq] at hd
        exact ⟨y, rfl, hd.1.symm, hd.2.2.2.1.symm, hd.2.2.2.2.symm⟩
  constructor
  · intro d x hx
    obtain ⟨y, hy, hid, -, -⟩ := hback d x hx
    rw [← hid]
    exact hu.numbered d y hy
  · intro p c
    rw [hchildren, hparent]
    exact hu.child_iff p c
  · intro c p hp
    rw [hparent] at hp
    exact hu.earlier c p hp
  · intro x hx
    obtain ⟨y, hy, -, hkind, -⟩ := hback .root x hx
    rw [← hkind]
    exact hu.file y hy
  · intro d x hx
    obtain ⟨y, hy, -, -, hwritten⟩ := hback d x hx
    rw [← hwritten]
    exact hu.unresolved d y hy

section Append

variable {v : CompilationUnit} {o x : Declaration}

/-- The declarations once one was appended and listed with its owner. -/
theorem decl?_append (ho : u.decl? o.id = some o)
    (hv : v.decls = (u.decls ++ [x]).modify o.id.index fun o =>
      { o with children := o.children ++ [⟨u.size⟩] }) (d : DeclId) :
    v.decl? d =
      if d = ⟨u.size⟩ then some x
      else if d = o.id then
        some { o with children := o.children ++ [⟨u.size⟩] }
      else u.decl? d := by
  have hsize := index_lt_size ho
  have hindex : ∀ a b : DeclId, a.index = b.index → a = b := by
    rintro ⟨a⟩ ⟨b⟩ h
    exact congrArg DeclId.mk h
  by_cases hd : d = ⟨u.size⟩
  · have hne : o.id.index ≠ u.size := by omega
    rw [if_pos hd, hd, decl?, hv, List.getElem?_modify_ne _ _ hne, size,
      List.getElem?_concat_length]
  · rw [if_neg hd]
    by_cases hdo : d = o.id
    · have ho' : u.decls[o.id.index]? = some o := ho
      rw [if_pos hdo, hdo, decl?, hv, List.getElem?_modify_eq,
        List.getElem?_append_left hsize, ho']
      rfl
    · have hne : o.id.index ≠ d.index := fun h => hdo (hindex d o.id h.symm)
      rw [if_neg hdo, decl?, hv, List.getElem?_modify_ne _ _ hne, decl?]
      rcases Nat.lt_trichotomy d.index u.size with hlt | heq | hgt
      · exact List.getElem?_append_left hlt
      · exact absurd (hindex d ⟨u.size⟩ heq) hd
      · rw [List.getElem?_eq_none, List.getElem?_eq_none]
        · exact Nat.le_of_lt hgt
        · rw [List.length_append]
          exact hgt

/-- So whatever does not depend on lists of children is as it was, apart
from the new declaration. -/
theorem map_decl?_append {α : Type} {f : Declaration → α}
    (hf : ∀ y children, f { y with children := children } = f y)
    (ho : u.decl? o.id = some o)
    (hv : v.decls = (u.decls ++ [x]).modify o.id.index fun o =>
      { o with children := o.children ++ [⟨u.size⟩] }) (d : DeclId) :
    (v.decl? d).map f =
      if d = ⟨u.size⟩ then some (f x) else (u.decl? d).map f := by
  rw [decl?_append ho hv]
  by_cases hd : d = ⟨u.size⟩
  · rw [if_pos hd, if_pos hd]
    rfl
  · rw [if_neg hd, if_neg hd]
    by_cases hdo : d = o.id
    · rw [if_pos hdo, hdo, ho]
      exact congrArg some (hf o _)
    · rw [if_neg hdo]

/-- The lists of children then: the owner has one more. -/
theorem children_append (ho : u.decl? o.id = some o)
    (hchildren : x.children = [])
    (hv : v.decls = (u.decls ++ [x]).modify o.id.index fun o =>
      { o with children := o.children ++ [⟨u.size⟩] }) (d : DeclId) :
    v.children d =
      if d = o.id then u.children d ++ [⟨u.size⟩] else u.children d := by
  have hdecl := decl?_append ho hv
  have hnone : u.decl? ⟨u.size⟩ = none :=
    List.getElem?_eq_none (Nat.le_refl _)
  have hne : (⟨u.size⟩ : DeclId) ≠ o.id := fun h => by
    rw [h, ho] at hnone
    cases hnone
  by_cases hd : d = ⟨u.size⟩
  · subst hd
    rw [if_neg hne, children, children, hdecl, if_pos rfl, hnone]
    exact hchildren
  · by_cases hdo : d = o.id
    · subst hdo
      rw [if_pos rfl, children, children, hdecl, if_neg hd, if_pos rfl, ho]
    · rw [if_neg hdo, children, children, hdecl, if_neg hd, if_neg hdo]

/-- A declaration may be appended and listed with its owner. -/
theorem append (hu : u.WellFormed) (ho : u.decl? o.id = some o)
    (hid : x.id = ⟨u.size⟩) (hparent : x.parent = some o.id)
    (hchildren : x.children = []) (hwritten : x.written.Unresolved)
    (hv : v.decls = (u.decls ++ [x]).modify o.id.index fun o =>
      { o with children := o.children ++ [⟨u.size⟩] }) :
    v.WellFormed := by
  have hdecl := decl?_append ho hv
  have hsize := index_lt_size ho
  have hnone : u.decl? ⟨u.size⟩ = none :=
    List.getElem?_eq_none (Nat.le_refl _)
  have hv_parent : ∀ d, v.parent? d =
      if d = ⟨u.size⟩ then some o.id else u.parent? d := by
    intro d
    rw [parent?, hdecl d]
    split
    · exact hparent
    · split
      · next h => rw [parent?, h, ho]; rfl
      · rfl
  have hv_children := children_append ho hchildren hv
  constructor
  case numbered =>
    intro d y hy
    rw [hdecl d] at hy
    split at hy
    · next h =>
      cases hy
      rw [h, hid]
    · split at hy
      · next h =>
        cases hy
        rw [h]
      · exact hu.numbered d y hy
  case child_iff =>
    intro p c
    rw [hv_children, hv_parent]
    by_cases hc : c = ⟨u.size⟩
    · have hp : ¬ c ∈ u.children p := by
        rw [hu.child_iff, hc, parent?, hnone]
        intro h
        cases h
      rw [if_pos hc]
      split
      · next h => simp [hc, h]
      · next h => simp [hp, Ne.symm h]
    · rw [if_neg hc, ← hu.child_iff]
      split
      · simp [hc]
      · rfl
  case earlier =>
    intro c p hcp
    rw [hv_parent] at hcp
    split at hcp
    · next h =>
      cases hcp
      rw [h]
      exact hsize
    · exact hu.earlier c p hcp
  case file =>
    intro y hy
    rw [hdecl .root] at hy
    split at hy
    · next h =>
      have hindex : 0 = u.size := congrArg DeclId.index h
      omega
    · split at hy
      · next h =>
        cases hy
        rw [← h] at ho
        exact hu.file o ho
      · exact hu.file y hy
  case unresolved =>
    intro d y hy
    rw [hdecl d] at hy
    split at hy
    · cases hy
      exact hwritten
    · split at hy
      · cases hy
        exact hu.unresolved o.id o ho
      · exact hu.unresolved d y hy

end Append

end WellFormed

end CompilationUnit

-- =============================================================== drafts

/-- Slots are not resolved if each one that carries a type is written or
implicit. -/
theorem Slots.Unresolved.of_written {s : Slots} {types : List WrittenType}
    (h : s.returnType.type? = none) (hothers : s.others = types.map .written)
    (himports : s.imports = none) : s.Unresolved := by
  refine ⟨List.filterMap_eq_nil_iff.mpr fun slot hslot => ?_, himports⟩
  rcases List.mem_cons.mp hslot with rfl | hslot
  · exact h
  · rw [hothers] at hslot
    obtain ⟨t, -, rfl⟩ := List.mem_map.mp hslot
    rfl

/-- A described declaration is not resolved. -/
theorem DeclSpec.slots_unresolved (s : DeclSpec) : s.slots.Unresolved := by
  have htoList : ∀ t : Option WrittenType,
      (t.map Slot.written).toList = t.toList.map .written := by
    rintro ⟨⟩ <;> rfl
  have hothers : s.slots.others = (s.supertypes ++ (s.expansion.toList ++
      (s.receiver.toList ++ (s.bounds ++ s.annotations)))).map .written := by
    simp only [DeclSpec.slots, Slots.others, htoList, List.map_append]
  refine .of_written ?_ hothers rfl
  show (Slot.ofWritten? s.declaredType).type? = none
  cases s.declaredType <;> rfl

namespace Draft

/-- The declarations of a draft form a tree, whatever unit it becomes. -/
def WellFormed (d : Draft) : Prop := ∀ id, (d.finish id).WellFormed

/-- The draft of an empty file is well formed. -/
theorem start_wellFormed (path package : String)
    (imports : List ImportDirective) (annotations : List WrittenType) :
    (start path package imports annotations).WellFormed := by
  intro id
  have hdecl : ∀ d x, ((start path package imports annotations).finish id).decl? d =
      some x → d = .root ∧ x = fileDecl path annotations := by
    intro d x h
    obtain ⟨i⟩ := d
    cases i with
    | zero =>
        cases h
        exact ⟨rfl, rfl⟩
    | succ i => cases h
  have hnone : ∀ d, ((start path package imports annotations).finish id).parent? d =
      none := by
    intro d
    rw [CompilationUnit.parent?, Option.bind_eq_none_iff]
    intro x hx
    rw [(hdecl d x hx).2]
    rfl
  constructor
  · intro d x h
    obtain ⟨rfl, rfl⟩ := hdecl d x h
    rfl
  · intro p c
    rw [hnone c]
    constructor
    · intro h
      rw [CompilationUnit.children] at h
      split at h
      case h_1 x hx =>
        rw [(hdecl p x hx).2] at h
        cases h
      case h_2 => cases h
    · intro h
      cases h
  · intro c p h
    rw [hnone c] at h
    cases h
  · intro x h
    obtain ⟨-, rfl⟩ := hdecl .root x h
    rfl
  · intro d x h
    obtain ⟨rfl, rfl⟩ := hdecl d x h
    exact .of_written rfl rfl rfl

/-- Adding a declaration keeps a draft well formed. -/
theorem insert_wellFormed {d e : Draft} {owner o : Declaration}
    {anchor : NodeId} {spec : DeclSpec} (hd : d.WellFormed)
    (howner : d.decl? owner.id = some o)
    (h : d.insert owner anchor spec = .ok e) : e.WellFormed := by
  intro id
  have ho : o.id = owner.id := (hd id).numbered owner.id o howner
  unfold insert at h
  split at h
  · cases h
  · next node tree _ =>
    cases h
    refine (hd id).append (o := o) (x := d.newDecl owner node tree spec) ?_
      rfl ?_ rfl spec.slots_unresolved ?_
    · rw [ho]
      exact howner
    · rw [ho]
      rfl
    · rw [ho]
      rfl

/-- Adding a declaration makes one more. -/
theorem length_insert {d e : Draft} {owner : Declaration} {anchor : NodeId}
    {spec : DeclSpec} (h : d.insert owner anchor spec = .ok e) :
    e.decls.length = d.decls.length + 1 := by
  unfold insert at h
  split at h
  · cases h
  · cases h
    simp

/-- Noting a body changes nothing about declarations but modifiers. -/
theorem withBody_decls (d : Draft) (owner : Declaration) (span : Span) :
    ∃ more, (d.withBody owner span).2.decls =
      d.decls.modify owner.id.index fun o =>
        { o with modifiers := o.modifiers ++ more } := by
  have hnil : d.decls = d.decls.modify owner.id.index fun o =>
      { o with modifiers := o.modifiers ++ [] } := by
    simp only [List.append_nil]
    exact (List.modify_id ..).symm
  unfold withBody
  cases d.bodies.find? owner.id <;> dsimp only <;> split
  · exact ⟨[], hnil⟩
  · exact ⟨[.hasBody], rfl⟩
  · exact ⟨[], hnil⟩
  · exact ⟨[.hasBody], rfl⟩

/-- Noting a body adds no declaration. -/
theorem length_withBody (d : Draft) (owner : Declaration) (span : Span) :
    (d.withBody owner span).2.decls.length = d.decls.length := by
  obtain ⟨more, hmore⟩ := d.withBody_decls owner span
  rw [hmore, List.length_modify]

/-- So whatever does not depend on modifiers is as it was. -/
theorem map_decl?_withBody {α : Type} {f : Declaration → α}
    (hf : ∀ y modifiers, f { y with modifiers := modifiers } = f y)
    (d : Draft) (owner : Declaration) (span : Span) (id : UnitId) (x : DeclId) :
    (((d.withBody owner span).2.finish id).decl? x).map f =
      ((d.finish id).decl? x).map f := by
  obtain ⟨more, hmore⟩ := d.withBody_decls owner span
  show ((d.withBody owner span).2.decls[x.index]?).map f =
    (d.decls[x.index]?).map f
  rw [hmore, List.getElem?_modify]
  cases d.decls[x.index]? with
  | none => rfl
  | some y =>
      simp only [Option.map_some, Option.map_eq_map, Option.some.injEq]
      split
      · exact hf y _
      · rfl

/-- The links do not depend on whether something has a body. -/
theorem withBody_decl? (d : Draft) (owner : Declaration) (span : Span)
    (id : UnitId) (x : DeclId) :
    (((d.withBody owner span).2.finish id).decl? x).map
        (fun x => (x.id, x.parent, x.children, x.kind, x.written)) =
      ((d.finish id).decl? x).map
        fun x => (x.id, x.parent, x.children, x.kind, x.written) :=
  d.map_decl?_withBody (fun _ _ => rfl) owner span id x

/-- Noting a body keeps a draft well formed, with its declarations in
place. -/
theorem withBody_wellFormed {d : Draft} {owner : Declaration} {span : Span}
    (hd : d.WellFormed) (howner : d.decl? owner.id = some owner) :
    (d.withBody owner span).2.WellFormed ∧
      ∃ o, (d.withBody owner span).2.decl? owner.id = some o := by
  obtain ⟨more, hmore⟩ := d.withBody_decls owner span
  constructor
  · exact fun id => (hd id).congr (d.withBody_decl? owner span id)
  · have howner' : d.decls[owner.id.index]? = some owner := howner
    refine ⟨{ owner with modifiers := owner.modifiers ++ more }, ?_⟩
    rw [decl?, hmore, List.getElem?_modify_eq, howner']
    rfl

end Draft

-- ================================================== descriptions of units

/-- The draft with one more entry. -/
def UnitEntry.addTo (e : UnitEntry) (d : Draft) : Except Fault Draft :=
  if e.inBody then d.addLocal e.owner e.spec else d.add e.owner e.spec

namespace UnitEntry

/-- An entry is one more declaration of an owner that is there. -/
theorem addTo_eq (e : UnitEntry) (d : Draft) :
    (d.decl? e.owner = none ∧ e.addTo d = .error .indexOutOfBounds) ∨
      ∃ (o : Declaration) (anchor : NodeId) (v : Draft),
        d.decl? e.owner = some o ∧ v.decls.length = d.decls.length ∧
        e.addTo d = v.insert o anchor e.spec := by
  unfold addTo Draft.addLocal Draft.add
  cases ho : d.decl? e.owner with
  | none => exact Or.inl ⟨rfl, by split <;> rfl⟩
  | some o =>
      refine Or.inr ?_
      split
      · exact ⟨o, _, _, rfl, d.length_withBody o e.spec.span, rfl⟩
      · exact ⟨o, _, d, rfl, rfl, rfl⟩

/-- It makes one declaration more. -/
theorem length_addTo {e : UnitEntry} {d d' : Draft} (h : e.addTo d = .ok d') :
    d'.decls.length = d.decls.length + 1 := by
  rcases e.addTo_eq d with ⟨-, hadd⟩ | ⟨o, anchor, v, -, hlength, hadd⟩
  · cases hadd.symm.trans h
  · rw [Draft.length_insert (hadd.symm.trans h), hlength]

end UnitEntry

namespace UnitSpec

/-- Adding entries keeps a draft well formed. -/
theorem extend_wellFormed {entries : List UnitEntry} {d e : Draft}
    (hd : d.WellFormed) (h : extend entries d = .ok e) : e.WellFormed := by
  induction entries generalizing d with
  | nil =>
      cases h
      exact hd
  | cons entry rest ih =>
      rw [extend] at h
      split at h
      · next d' hd' =>
        refine ih ?_ h
        split at hd'
        · unfold Draft.addLocal at hd'
          split at hd'
          · cases hd'
          · next o ho =>
            have hid := (hd ⟨0⟩).numbered entry.owner o ho
            rw [← hid] at ho
            obtain ⟨hbody, o', ho'⟩ :
                (d.withBody o entry.spec.span).2.WellFormed ∧ _ :=
              Draft.withBody_wellFormed hd ho
            exact Draft.insert_wellFormed hbody ho' hd'
        · unfold Draft.add at hd'
          split at hd'
          · cases hd'
          · next o ho =>
            have hid := (hd ⟨0⟩).numbered entry.owner o ho
            exact Draft.insert_wellFormed hd (by rw [hid]; exact ho) hd'
      · cases h

/-- Every described unit is well formed. -/
theorem draft_wellFormed {s : UnitSpec} {d : Draft} (h : s.draft = .ok d) :
    d.WellFormed :=
  extend_wellFormed (Draft.start_wellFormed _ _ _ _) h

end UnitSpec

end StagedResolve
