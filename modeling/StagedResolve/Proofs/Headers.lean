/-
Headers: what a supertype clause sees of its own class.

# The stand-in

The clause of a class is to be resolved without what the class declares
or inherits, since that is what the clause is only deciding about. To say
what this means the class gets a stand-in: a function in its place, with
its type parameters (`beside`). A function has no classifiers, and it
inherits none; but it is surrounded by what surrounds the class, and its
own type parameters come first as those of the class do. The class
itself stays where it is, so everything around it still finds it.

# What holds

A name in the position of a header means what it means inside of the
stand-in, whatever supertypes are asked for (`lookup_header`): the level
of the class is the only one that is left out, and the levels around it
are searched in the same order. A class around it that inherits from the
class itself brings its nested classifiers back, in both places alike.

So the outermost name of a supertype is resolved as it should be. The
arguments of the type are not: they are resolved inside of the class
(`resolve_header`), so that a class is found there that is nested in the
one whose clause it is (`not_resolve_header`).
-/
import Mathlib.Data.List.Find
import StagedResolve.Proofs.Histories

namespace StagedResolve

open StagedResolve.Action

-- =============================================================== the stand-in

namespace CompilationUnit

variable {u : CompilationUnit} {x : Declaration} {c d p : DeclId}

/-- Whether a declaration is a type parameter. -/
def isTypeParameter (u : CompilationUnit) (d : DeclId) : Bool :=
  u.kind? d == some .typeParameter

/-- The unit with one more declaration: a function in the place of another
declaration, with its type parameters. -/
def beside (u : CompilationUnit) (x : Declaration) : CompilationUnit :=
  { u with decls := u.decls ++ [{ x with
      id := ⟨u.size⟩
      kind := .function
      children := x.children.filter u.isTypeParameter }] }

/-- The number of that function. -/
def next (u : CompilationUnit) : DeclId := ⟨u.size⟩

/-- What was there is still there. -/
theorem decl?_beside (h : d ≠ u.next) : (u.beside x).decl? d = u.decl? d := by
  have hne : d.index ≠ u.size := by
    intro hindex
    exact h (congrArg DeclId.mk hindex)
  unfold decl? beside
  rcases Nat.lt_or_gt_of_ne hne with hlt | hgt
  · exact List.getElem?_append_left hlt
  · rw [List.getElem?_eq_none, List.getElem?_eq_none]
    · exact Nat.le_of_lt hgt
    · rw [List.length_append]
      exact hgt

/-- The stand-in. -/
theorem decl?_beside_next : (u.beside x).decl? u.next = some { x with
    id := u.next
    kind := .function
    children := x.children.filter u.isTypeParameter } := by
  unfold decl? beside next size
  simp

/-- What is there is not the stand-in. -/
theorem ne_next_of_decl? (hx : u.decl? d = some x) : d ≠ u.next := by
  intro h
  have hlt := index_lt_size hx
  rw [h] at hlt
  exact absurd hlt (Nat.lt_irrefl _)

/-- Nor is a parent. -/
theorem ne_next_of_parent (hu : u.WellFormed) (h : u.parent? d = some p) :
    p ≠ u.next := by
  have hlt := hu.earlier d p h
  have hd := index_lt_size_of_parent h
  intro hp
  rw [hp] at hlt
  exact absurd (Nat.lt_trans hlt hd) (Nat.lt_irrefl _)

/-- The parents of what was there. -/
theorem parent?_beside (h : d ≠ u.next) :
    (u.beside x).parent? d = u.parent? d := by
  unfold parent?
  rw [decl?_beside h]

/-- What surrounds the stand-in is what surrounds the declaration. -/
theorem ancestors_beside (hu : u.WellFormed) (hx : u.decl? c = some x) :
    (u.beside x).ancestors u.next = u.ancestors c := by
  have hsize : (u.beside x).size = u.size + 1 := by
    simp [beside, size]
  have hparent : (u.beside x).parent? u.next = u.parent? c := by
    unfold parent?
    rw [decl?_beside_next, hx]
    rfl
  unfold ancestors
  rw [hsize]
  cases hp : u.parent? c with
  | none =>
      rw [hp] at hparent
      simp only [climb, hparent]
      cases u.size <;> simp only [climb, hp]
  | some p =>
      rw [hp] at hparent
      have hlt := hu.earlier c p hp
      have hc := index_lt_size hx
      have habove : climb (u.beside x).parent? u.size p = u.ancestors p := by
        refine (climb_eq DeclId.index hu.earlier (fun d hd => ?_) (by omega)
          (by omega)).symm
        apply parent?_beside
        intro h
        rw [h] at hd
        unfold next at hd
        simp only at hd
        omega
      simp only [climb, hparent]
      rw [habove]
      exact (hu.ancestors_of_parent hp).symm

/-- What surrounds a declaration is not the stand-in. -/
theorem ne_next_of_mem_ancestors (hu : u.WellFormed)
    (h : d ∈ u.ancestors c) : d ≠ u.next := by
  obtain ⟨e, he, -⟩ := hu.exists_child_of_mem_ancestors h
  exact ne_next_of_parent hu he

/-- What is directly inside of what was there. -/
theorem children_beside (h : d ≠ u.next) :
    (u.beside x).children d = u.children d := by
  unfold children
  rw [decl?_beside h]

/-- What is inside of a declaration is not the stand-in. -/
theorem ne_next_of_mem_children (hu : u.WellFormed) (h : d ∈ u.children p) :
    d ≠ u.next := by
  have hlt := index_lt_size_of_parent ((hu.child_iff p d).mp h)
  intro hd
  rw [hd] at hlt
  exact absurd hlt (Nat.lt_irrefl _)

/-- What was there declares the classifiers that it declared. -/
theorem nested?_beside (hu : u.WellFormed) (h : d ≠ u.next) (name : String) :
    (u.beside x).nested? d name = u.nested? d name := by
  unfold nested?
  rw [children_beside h]
  refine List.find?_congr fun e he => ?_
  unfold declaresClassifier
  rw [decl?_beside (ne_next_of_mem_children hu he)]

/-- The stand-in declares none. -/
theorem nested?_beside_next (name : String) :
    (u.beside x).nested? u.next name = none := by
  have hchildren : (u.beside x).children u.next =
      x.children.filter u.isTypeParameter := by
    unfold children
    rw [decl?_beside_next]
  unfold nested?
  rw [hchildren]
  refine List.find?_eq_none.mpr fun d hd => ?_
  have hkind := (List.mem_filter.mp hd).2
  unfold isTypeParameter kind? at hkind
  unfold declaresClassifier
  cases hy : u.decl? d with
  | none => simp [hy] at hkind
  | some y =>
      rw [decl?_beside (ne_next_of_decl? hy), hy]
      simp only [hy, Option.map_some, beq_iff_eq, Option.some.injEq] at hkind
      simp [hkind, DeclKind.isNamedClassifier]

/-- What was there has the type parameters that it had. -/
theorem typeParameter?_beside (hu : u.WellFormed) (h : d ≠ u.next)
    (name : String) :
    (u.beside x).typeParameter? d name = u.typeParameter? d name := by
  unfold typeParameter?
  rw [children_beside h]
  refine List.find?_congr fun e he => ?_
  unfold declaresTypeParameter
  rw [decl?_beside (ne_next_of_mem_children hu he)]

/-- The stand-in has those of the declaration. -/
theorem typeParameter?_beside_next (hu : u.WellFormed)
    (hx : u.decl? c = some x) (name : String) :
    (u.beside x).typeParameter? u.next name = u.typeParameter? c name := by
  have hchildren : u.children c = x.children := by
    unfold children
    rw [hx]
  unfold typeParameter?
  rw [children, decl?_beside_next, hchildren, List.find?_filter]
  refine List.find?_congr fun e he => ?_
  have hne := ne_next_of_mem_children hu (hchildren ▸ he)
  unfold declaresTypeParameter isTypeParameter kind?
  rw [decl?_beside hne]
  cases u.decl? e with
  | none => rfl
  | some y => by_cases hk : y.kind = .typeParameter <;> simp [hk, beq_eq_decide]

end CompilationUnit

-- ================================================================= look-ups

namespace Scope

variable {sc : Scope} {c d : DeclId} {x : Declaration}

/-- The first member that gives an answer gives the same one if all do. -/
theorem findSome?_congr {α β : Type} {f g : α → Option β} {as : List α}
    (h : ∀ a ∈ as, f a = g a) : as.findSome? f = as.findSome? g := by
  induction as with
  | nil => rfl
  | cons a rest ih =>
      rw [List.findSome?_cons, List.findSome?_cons,
        h a (List.mem_cons_self ..),
        ih fun b hb => h b (List.mem_cons_of_mem _ hb)]

/-- The scope of the unit with a stand-in for a declaration. -/
def beside (sc : Scope) (x : Declaration) : Scope :=
  { sc with unit := sc.unit.beside x }

/-- The type parameters that are visible inside of the stand-in are those
that are visible at the declaration. -/
theorem typeParameter?_beside (hu : sc.unit.WellFormed)
    (hx : sc.unit.decl? c = some x) (name : String) :
    (sc.beside x).typeParameter? sc.unit.next name =
      sc.typeParameter? c name := by
  have habove : (sc.unit.ancestors c).findSome?
        (fun d => (sc.unit.beside x).typeParameter? d name) =
      (sc.unit.ancestors c).findSome?
        fun d => sc.unit.typeParameter? d name := by
    refine findSome?_congr fun d hd => ?_
    exact CompilationUnit.typeParameter?_beside hu
      (CompilationUnit.ne_next_of_mem_ancestors hu hd) name
  unfold typeParameter? beside
  dsimp only
  rw [CompilationUnit.ancestors_beside hu hx, List.findSome?_cons,
    List.findSome?_cons, CompilationUnit.typeParameter?_beside_next hu hx,
    habove]
  rfl

/-- Inside of the stand-in the levels are those of the header, and before
them that of the stand-in where executable code counts. -/
theorem owners_beside (hu : sc.unit.WellFormed)
    (hx : sc.unit.decl? c = some x) :
    (sc.beside x).owners sc.unit.next .body =
      if x.isLocal then sc.unit.next :: sc.owners c .header
      else sc.owners c .header := by
  have hlocal : (sc.unit.beside x).isLocal sc.unit.next = x.isLocal := by
    simp [CompilationUnit.isLocal, CompilationUnit.decl?_beside_next]
  have hlocal' : sc.unit.isLocal c = x.isLocal := by
    simp [CompilationUnit.isLocal, hx]
  have hclass : (sc.unit.beside x).isClassLike sc.unit.next = false := by
    simp [CompilationUnit.isClassLike, CompilationUnit.kind?,
      CompilationUnit.decl?_beside_next, DeclKind.isClassLike]
  have hroot : sc.unit.next.isRoot = false := by
    have := CompilationUnit.index_lt_size hx
    simp only [CompilationUnit.next, DeclId.isRoot, beq_eq_false_iff_ne]
    omega
  have habove : ∀ d ∈ sc.unit.ancestors c,
      ((sc.unit.beside x).isClassLike d || d.isRoot || x.isLocal) =
        (sc.unit.isClassLike d || d.isRoot || x.isLocal) := by
    intro d hd
    unfold CompilationUnit.isClassLike CompilationUnit.kind?
    rw [CompilationUnit.decl?_beside
      (CompilationUnit.ne_next_of_mem_ancestors hu hd)]
  unfold owners beside
  dsimp only
  rw [if_neg (by decide), if_pos rfl,
    CompilationUnit.ancestors_beside hu hx, hlocal, hlocal', List.filter_cons,
    hclass, hroot, List.filter_congr habove]
  cases x.isLocal <;> rfl

/-- A level around the declaration is searched as it was. -/
theorem declaredOrInherited?_beside (hu : sc.unit.WellFormed)
    (source : SupertypeSource) (name : String) (h : d ≠ sc.unit.next) :
    (sc.beside x).declaredOrInherited? source name d =
      sc.declaredOrInherited? source name d := by
  have hclass : (sc.unit.beside x).isClassLike d = sc.unit.isClassLike d := by
    unfold CompilationUnit.isClassLike CompilationUnit.kind?
    rw [CompilationUnit.decl?_beside h]
  unfold declaredOrInherited? beside
  dsimp only
  rw [CompilationUnit.nested?_beside hu h, hclass]
  rfl

/-- The stand-in declares and inherits nothing. -/
theorem declaredOrInherited?_beside_next (source : SupertypeSource)
    (name : String) :
    (sc.beside x).declaredOrInherited? source name sc.unit.next =
      pure none := by
  have hclass : (sc.unit.beside x).isClassLike sc.unit.next = false := by
    simp [CompilationUnit.isClassLike, CompilationUnit.kind?,
      CompilationUnit.decl?_beside_next, DeclKind.isClassLike]
  unfold declaredOrInherited? beside
  dsimp only
  rw [CompilationUnit.nested?_beside_next, hclass]
  rfl

/-- The first answer comes to the same if every answer does. -/
theorem firstSome_congr {α β : Type} {f g : α → Action (Option β)}
    {as : List α} (h : ∀ a ∈ as, f a = g a) :
    Action.firstSome f as = Action.firstSome g as := by
  induction as with
  | nil => rfl
  | cons a rest ih =>
      unfold Action.firstSome
      rw [h a (List.mem_cons_self ..),
        ih fun b hb => h b (List.mem_cons_of_mem _ hb)]

/-- So the levels inside of the stand-in come to what the levels of the
header come to. -/
theorem firstSome_owners_beside (hu : sc.unit.WellFormed)
    (hx : sc.unit.decl? c = some x) (source : SupertypeSource)
    (name : String) :
    Action.firstSome ((sc.beside x).declaredOrInherited? source name)
        ((sc.beside x).owners sc.unit.next .body) =
      Action.firstSome (sc.declaredOrInherited? source name)
        (sc.owners c .header) := by
  have habove : Action.firstSome
        ((sc.beside x).declaredOrInherited? source name)
        (sc.owners c .header) =
      Action.firstSome (sc.declaredOrInherited? source name)
        (sc.owners c .header) := by
    refine firstSome_congr fun d hd => ?_
    have hd : d ∈ sc.unit.ancestors c := (List.mem_filter.mp hd).1
    exact declaredOrInherited?_beside hu source name
      (CompilationUnit.ne_next_of_mem_ancestors hu hd)
  rw [owners_beside hu hx]
  cases x.isLocal with
  | false => exact habove
  | true =>
      rw [if_pos rfl, Action.firstSome, declaredOrInherited?_beside_next]
      exact habove

/-- On the header of a declaration a name means what it means inside of the
stand-in. -/
theorem lookup_header (hu : sc.unit.WellFormed)
    (hx : sc.unit.decl? c = some x) (source : SupertypeSource)
    (name : String) :
    sc.lookup source c name .header =
      (sc.beside x).lookup source sc.unit.next name .body := by
  have hsimple : ∀ name, sc.lookupSimple source c name .header =
      (sc.beside x).lookupSimple source sc.unit.next name .body := by
    intro name
    unfold lookupSimple
    rw [typeParameter?_beside hu hx, firstSome_owners_beside hu hx]
    rfl
  unfold lookup
  simp only [hsimple]

end Scope

-- ==================================================================== types

/-- A type with other arguments, if it has any. -/
def ResolvedType.withArguments (args : List ResolvedType) :
    ResolvedType → ResolvedType
  | .classType s _ nullable => .classType s args nullable
  | t => t

namespace Scope

variable {sc : Scope} {c : DeclId} {x : Declaration}

/-- A type without arguments is resolved by its name alone. -/
theorem resolve_bare (source : SupertypeSource) (place : DeclId)
    (position : Position) (name : String) (nullable : Bool) (span : Span) :
    sc.resolve source place position ⟨name, [], nullable, span⟩ = (do
      match ← sc.lookup source place name position with
      | some (.classLike s) => return (.classType s [] nullable, [])
      | some (.parameter s) => return (.parameter s nullable, [])
      | none => return (.error name, [.unresolved name span])) := by
  rw [resolve, resolveArgs]
  rfl

/-- On the header of a declaration the outermost name of a type is resolved
as it would be if the declaration had neither declared nor inherited any
classifiers: as it is inside of the stand-in. The arguments are resolved
inside of the declaration itself. -/
theorem resolve_header (hu : sc.unit.WellFormed)
    (hx : sc.unit.decl? c = some x) (source : SupertypeSource)
    (t : WrittenType) :
    sc.resolve source c .header t = (do
      let (args, errors) ← sc.resolveArgs source c t.args
      let (head, more) ← (sc.beside x).resolve source sc.unit.next .body
        { t with args := [] }
      return (head.withArguments args, errors ++ more)) := by
  obtain ⟨name, args, nullable, span⟩ := t
  rw [resolve, resolve_bare, lookup_header hu hx]
  funext w
  rcases hargs : sc.resolveArgs source c args w with ⟨e | ⟨types, errors⟩, v⟩
  · rw [bind_run_error hargs, bind_run_error hargs]
  · rw [bind_run_ok hargs, bind_run_ok hargs]
    dsimp only
    rw [bind_assoc]
    rcases hname : (sc.beside x).lookup source sc.unit.next name .body v with
      ⟨e | m, v'⟩
    · rw [bind_run_error hname, bind_run_error hname]
    · rw [bind_run_ok hname, bind_run_ok hname]
      -- a name that is found adds no errors to those of the arguments
      have hsame : errors ++ [] = errors := List.append_nil errors
      rcases m with - | s | s
      · rfl
      · show (Except.ok (_, errors), v') = (Except.ok (_, errors ++ []), v')
        rw [hsame]
        rfl
      · show (Except.ok (_, errors), v') = (Except.ok (_, errors ++ []), v')
        rw [hsame]
        rfl

end Scope

-- =============================================================== arguments

/-- A class extends another one with a class of its own for an argument. -/
def UnitSpec.nestedArgument : UnitSpec :=
  .ofEntries "a.kt" [.member 0 { DeclSpec.classNamed "A" [] with
      supertypes := [⟨"Base", [.named "Nested"], false, .nowhere⟩] },
    .member 1 (.classNamed "Nested" []), .member 0 (.classNamed "Base" [])]

/-- The class nested in it does not stand for the supertype. -/
theorem resolve_header_nestedArgument :
    let w := World.after (.plain .default) [.addUnit .nestedArgument]
    let u := (w.registry.unit? ⟨0⟩).getD default
    let x := (u.decl? ⟨1⟩).getD default
    let sc : Scope := ⟨u, .empty, []⟩
    u.WellFormed ∧ u.decl? ⟨1⟩ = some x ∧ u.nested? ⟨1⟩ "Nested" = some ⟨2⟩ ∧
      (sc.resolve committedSource ⟨1⟩ .header (.named "Nested") w).1 =
        .ok (.error "Nested", [.unresolved "Nested" .nowhere]) ∧
      sc.resolve committedSource ⟨1⟩ .header (.named "Nested") = (do
        let (args, errors) ← sc.resolveArgs committedSource ⟨1⟩ []
        let (head, more) ← (sc.beside x).resolve committedSource u.next .body
          (.named "Nested")
        return (head.withArguments args, errors ++ more)) := by
  intro w u x sc
  have hw : w.Coherent :=
    (Reaches.after _ _).coherent (Setup.quiet_plain .default)
  have hreg : w.Registered u := by
    rw [World.Registered]
    decide +kernel
  have hx : u.decl? ⟨1⟩ = some x := by decide +kernel
  exact ⟨hw.wellFormed hreg, hx, by decide +kernel, by decide +kernel,
    @Scope.resolve_header sc ⟨1⟩ x (hw.wellFormed hreg) hx committedSource
      (.named "Nested")⟩

/-- But it stands for the argument of the supertype, where the stand-in finds
nothing. -/
theorem not_resolve_header :
    let w := World.after (.plain .default) [.addUnit .nestedArgument]
    let u := (w.registry.unit? ⟨0⟩).getD default
    let x := (u.decl? ⟨1⟩).getD default
    let sc : Scope := ⟨u, .empty, []⟩
    let t : WrittenType := ⟨"Base", [.named "Nested"], false, .nowhere⟩
    x.kind = .classDecl ∧ x.written.supertypes = [.written t] ∧
      u.nested? ⟨1⟩ "Nested" = some ⟨2⟩ ∧
      (sc.resolve committedSource ⟨1⟩ .header t w).1 =
        .ok (.classType ⟨⟨0⟩, ⟨3⟩⟩ [.ofClass ⟨⟨0⟩, ⟨2⟩⟩] false, []) ∧
      ((sc.beside x).resolve committedSource u.next .body t w).1 =
        .ok (.classType ⟨⟨0⟩, ⟨3⟩⟩ [.error "Nested"] false,
          [.unresolved "Nested" .nowhere]) := by
  decide +kernel

end StagedResolve
