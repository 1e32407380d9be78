/-
Inherited names: the search along committed supertypes is sound and
complete.

# The search as a worklist

The search takes one class at a time off a stack. A class that was
searched before is dropped; any other one is looked into, and if it does
not declare the name its supertypes go on the stack and it counts as
searched from then on. The class that inherits counts as searched from
the start: its own classifiers are not inherited, and its supertypes are
what the stack begins with.

So four facts hold at every step (`Searching`): the class that inherits
was searched; what a searched class extends was searched or is on the
stack; no other searched class declares the name; and whatever is on the
stack is inherited from. A class whose unit has gone declares nothing,
but it is searched like the others.

# Both directions

When the stack is empty the searched classes are closed under
inheritance, so everything that is inherited from was searched in vain.
When the search stops early it stops at a class on the stack that was not
searched yet, so at one that is inherited from and is not the class
itself.

That the search comes to its end, circles or not, is a matter of the
budget: a class refers to fewer classes than it weighs
(`Roomy.affords`), so it pays for what it puts on the stack.
-/
import StagedResolve.Proofs.Endings
import StagedResolve.Proofs.Hierarchies
import StagedResolve.Proofs.Naming

namespace StagedResolve

open Relation StagedResolve.Action World

-- ===================================================== what a class declares

namespace World

variable {w : World} {a b c s : Symbol} {name : String}

/-- A class or alias of a name stands directly inside of a declaration of a
registered unit. -/
def Declares (w : World) (a : Symbol) (name : String) (s : Symbol) : Prop :=
  ∃ u x, w.Registered u ∧ u.id = a.unit ∧ s.unit = u.id ∧
    s.decl ∈ u.children a.decl ∧ u.decl? s.decl = some x ∧
    (x.kind = .classDecl ∨ x.kind = .typeAlias) ∧ x.name = some name

/-- The classifier of a name that the registered unit of a symbol has
directly inside of its declaration. -/
def declared? (w : World) (a : Symbol) (name : String) : Option Symbol :=
  (w.registry.unit? a.unit).bind fun u => (u.nested? a.decl name).map u.symbol

/-- The kinds of classifiers that have a name. -/
theorem isNamedClassifier_iff {k : DeclKind} :
    k.isNamedClassifier = true ↔ k = .classDecl ∨ k = .typeAlias := by
  cases k <;> simp [DeclKind.isNamedClassifier]

/-- What is looked up inside of a declaration is declared there. -/
theorem declares_of_declared? (hw : w.Coherent)
    (h : w.declared? a name = some s) : w.Declares a name s := by
  obtain ⟨u, hu, hs⟩ := Option.bind_eq_some_iff.mp h
  obtain ⟨d, hd, rfl⟩ := Option.map_eq_some_iff.mp hs
  obtain ⟨hreg, hid⟩ := hw.registered hu
  obtain ⟨x, hx, hkind, hname⟩ :=
    CompilationUnit.declaresClassifier_iff.mp (List.find?_some hd)
  exact ⟨u, x, hreg, hid, rfl, List.mem_of_find?_eq_some hd, hx,
    isNamedClassifier_iff.mp hkind, hname⟩

/-- If nothing is found there, nothing is declared. -/
theorem not_declares_of_declared? (h : w.declared? a name = none) :
    ¬ w.Declares a name s := by
  intro hdeclares
  obtain ⟨u, x, hreg, hid, -, hmem, hx, hkind, hname⟩ := hdeclares
  rw [Registered, hid] at hreg
  have hnested : u.nested? a.decl name = none := by
    simpa [declared?, hreg] using h
  have hfound : u.declaresClassifier name s.decl = true :=
    CompilationUnit.declaresClassifier_iff.mpr
      ⟨x, hx, isNamedClassifier_iff.mpr hkind, hname⟩
  exact List.find?_eq_none.mp hnested s.decl hmem hfound

-- ============================================================== the worklist

/-- How far the search for a classifier that a class inherits has come. -/
structure Searching (w : World) (c : Symbol) (name : String)
    (seen stack : List Symbol) : Prop where
  start : c ∈ seen
  edges : ∀ a ∈ seen, ∀ b, w.Inherits a b → b ∈ seen ∨ b ∈ stack
  barren : ∀ a ∈ seen, a ≠ c → ∀ s, ¬ w.Declares a name s
  stack : ∀ a ∈ stack, TransGen w.Inherits c a

/-- What a search may come to: the classifier of a class that is inherited
from, or nothing if none of them has one. -/
def Settles (w : World) (c : Symbol) (name : String) : Option Symbol → Prop
  | some s => ∃ a, a ≠ c ∧ TransGen w.Inherits c a ∧ w.Declares a name s
  | none => ∀ a s, a ≠ c → TransGen w.Inherits c a → ¬ w.Declares a name s

namespace Searching

variable {seen stack : List Symbol}

/-- At first nothing but the class itself was searched. -/
theorem init (w : World) (c : Symbol) (name : String) :
    w.Searching c name [c] (w.committedClasses c).reverse where
  start := List.mem_singleton_self c
  edges := by
    intro a ha b hb
    rw [List.mem_singleton.mp ha] at hb
    exact Or.inr (List.mem_reverse.mpr hb)
  barren := fun a ha hne => absurd (List.mem_singleton.mp ha) hne
  stack := fun a ha => .single (List.mem_reverse.mp ha)

/-- A class that was searched is dropped. -/
theorem skip (h : w.Searching c name seen (a :: stack)) (ha : a ∈ seen) :
    w.Searching c name seen stack where
  start := h.start
  edges := by
    intro d hd b hb
    rcases h.edges d hd b hb with hseen | hstack
    · exact Or.inl hseen
    · rcases List.mem_cons.mp hstack with rfl | hstack
      · exact Or.inl ha
      · exact Or.inr hstack
  barren := h.barren
  stack := fun b hb => h.stack b (List.mem_cons_of_mem a hb)

/-- A class that does not declare the name is searched, and what it extends
goes on the stack. -/
theorem expand (h : w.Searching c name seen (a :: stack))
    (hnone : w.declared? a name = none) :
    w.Searching c name (a :: seen)
      ((w.committedClasses a).reverse ++ stack) where
  start := List.mem_cons_of_mem a h.start
  edges := by
    intro d hd b hb
    rcases List.mem_cons.mp hd with rfl | hd
    · exact Or.inr (List.mem_append_left stack (List.mem_reverse.mpr hb))
    · rcases h.edges d hd b hb with hseen | hstack
      · exact Or.inl (List.mem_cons_of_mem a hseen)
      · rcases List.mem_cons.mp hstack with rfl | hstack
        · exact Or.inl (List.mem_cons_self ..)
        · exact Or.inr (List.mem_append_right _ hstack)
  barren := by
    intro d hd hne s
    rcases List.mem_cons.mp hd with rfl | hd
    · exact not_declares_of_declared? hnone
    · exact h.barren d hd hne s
  stack := by
    intro b hb
    rcases List.mem_append.mp hb with hb | hb
    · exact (h.stack a (List.mem_cons_self ..)).tail (List.mem_reverse.mp hb)
    · exact h.stack b (List.mem_cons_of_mem a hb)

/-- A class on the stack that declares the name settles it, if it was not
searched before. -/
theorem found (h : w.Searching c name seen (a :: stack)) (hw : w.Coherent)
    (ha : a ∉ seen) (hsome : w.declared? a name = some s) :
    w.Settles c name (some s) := by
  have hne : a ≠ c := by
    intro hac
    exact ha (hac ▸ h.start)
  exact ⟨a, hne, h.stack a (List.mem_cons_self ..),
    declares_of_declared? hw hsome⟩

/-- An empty stack settles it, too: what was searched is closed under
inheritance. -/
theorem finish (h : w.Searching c name seen []) : w.Settles c name none := by
  have hclosed : ∀ a, TransGen w.Inherits c a → a ∈ seen := by
    intro a ha
    induction ha with
    | single hab =>
        exact (h.edges c h.start _ hab).resolve_right List.not_mem_nil
    | tail _ hab ih => exact (h.edges _ ih _ hab).resolve_right List.not_mem_nil
  intro a s hne ha
  exact h.barren a (hclosed a ha) hne s

end Searching

/-- A clause that has room refers to no more classes than its class can. -/
theorem Roomy.affords (hw : w.Roomy) (c : Symbol) :
    w.Affords c (w.committedClasses c).length := by
  unfold committedClasses
  split
  · next u x hx =>
    obtain ⟨hu, hx⟩ := Registry.declaration_eq_ok_iff.mp hx
    obtain ⟨hreg, hid⟩ := hw.coherent.registered hu
    rw [(hw.coherent.wellFormed hreg).numbered c.decl x hx]
    refine Or.inr ⟨u, x, hreg, hid, hx, ?_⟩
    exact Nat.lt_of_le_of_lt (Slot.length_classes_le_arms _)
      (hw.width u c.decl x hreg hx)
  · exact Or.inl rfl

end World

-- ================================================================= the search

namespace Action

variable {w : World} {c : Symbol} {name : String}

/-- Committed supertypes can be paid for. -/
theorem affordable_committedSource : Affordable World.Roomy committedSource where
  static := Roomy.structural.idle.toStatic
  source := fun c => .read fun _ hw => hw.affords c

/-- A search that answers has settled the matter, and has changed nothing.
The induction is on the steps it may take: one of them drops, expands or
answers with the top of the stack. -/
theorem searchInherited_settles (hw : w.Coherent) (fuel : Nat)
    (seen stack : List Symbol) (h : w.Searching c name seen stack) :
    Triple (fun v => v = w)
      (Scope.searchInherited committedSource name fuel seen stack)
      (fun r v => v = w ∧ w.Settles c name r) fun _ => True := by
  induction fuel generalizing seen stack with
  | zero => exact .stop fun _ _ => trivial
  | succ fuel ih =>
      cases stack with
      | nil => exact .pure fun v hv => ⟨hv, h.finish⟩
      | cons a stack =>
          unfold Scope.searchInherited
          by_cases ha : a ∈ seen
          · rw [if_pos (List.contains_iff_mem.mpr ha)]
            exact ih seen stack (h.skip ha)
          · rw [if_neg fun hseen => ha (List.contains_iff_mem.mp hseen)]
            refine .bind (Q := fun found v => v = w ∧
              found = w.declared? a name) (.read fun v hv => ?_) fun found => ?_
            · rw [hv]
              exact ⟨rfl, rfl⟩
            · refine .assume fun hfound => ?_
              cases found with
              | some s => exact .pure fun v hv => ⟨hv, h.found hw ha hfound.symm⟩
              | none =>
                  refine .bind (Q := fun above v => v = w ∧
                    above = w.committedClasses a) (.read fun v hv => ?_)
                    fun above => ?_
                  · rw [hv]
                    exact ⟨rfl, rfl⟩
                  · refine .assume fun habove => ?_
                    rw [habove]
                    exact ih _ _ (h.expand hfound.symm)

/-- Looking for an inherited classifier comes to its end, leaves everything
as it was, and settles the matter. -/
theorem inherited?_settles (hw : w.Roomy) (c : Symbol) (name : String) :
    ∃ r, Scope.inherited? committedSource c name w = (.ok r, w) ∧
      w.Settles c name r := by
  have hends := (affordable_committedSource.inherited? c name).triple w hw
  have hrun : Triple (fun v => v = w) (Scope.inherited? committedSource c name)
      (fun r v => v = w ∧ w.Settles c name r) fun _ => True := by
    refine .bind (Q := fun above v => v = w ∧ above = w.committedClasses c)
      (.read fun v hv => ?_) fun above => .assume fun habove => ?_
    · rw [hv]
      exact ⟨rfl, rfl⟩
    · refine .read_then fun bound => ?_
      rw [habove]
      exact searchInherited_settles hw.coherent bound _ _ (.init w c name)
  rcases hr : Scope.inherited? committedSource c name w with ⟨e | r, v⟩
  · rw [hr] at hends
    exact hends.elim
  · obtain ⟨rfl, hsettles⟩ := hrun.ok rfl hr
    exact ⟨r, rfl, hsettles⟩

end Action

-- ============================================================ reachable worlds

/-- In every world that is reached, whatever its hierarchy is like, the search
for a classifier that a class inherits comes to an end and changes nothing.
It finds one if and only if some other class that is inherited from, in a
registered unit, declares a class or an alias of that name; and what it finds
is one of these. -/
theorem inherited?_iff_of_reaches {setup : Setup}
    {allowed : World → Call → Prop} (hquiet : setup.Quiet) {w : World}
    (hw : Reaches setup allowed w) (c : Symbol) (name : String) :
    ∃ r, Scope.inherited? committedSource c name w = (.ok r, w) ∧
      (r.isSome = true ↔ ∃ a s, a ≠ c ∧ TransGen w.Inherits c a ∧
        w.Declares a name s) ∧
      ∀ s, r = some s → ∃ a, a ≠ c ∧ TransGen w.Inherits c a ∧
        w.Declares a name s := by
  obtain ⟨r, hrun, hsettles⟩ := inherited?_settles (hw.roomy hquiet) c name
  refine ⟨r, hrun, ?_, ?_⟩
  · cases r with
    | some s =>
        obtain ⟨a, ha⟩ := hsettles
        simpa using ⟨a, ha.1, ha.2.1, s, ha.2.2⟩
    | none =>
        refine ⟨nofun, fun h => ?_⟩
        obtain ⟨a, s, hne, ha, hs⟩ := h
        exact absurd hs (hsettles a s hne ha)
  · intro s hs
    rw [hs] at hsettles
    exact hsettles

/-- A class with a class inside, which will come to stand in a circle. -/
def UnitSpec.circleAround : UnitSpec :=
  .ofEntries "d.kt" [.member 0 (.classNamed "D" ["B"]),
    .member 1 (.classNamed "N" [])]

/-- In a circle that was committed each of the other two classes inherits
what is nested in the first one. The first one leads back to itself, but what
it declares itself it does not inherit. -/
theorem inherited?_iff_of_reaches_circle :
    let w := World.after (.plain .default) [.addUnit .circleAround,
      .addUnit (.circle "a.kt" "A" "D"), .otherTakes (.ofUnit ⟨0⟩),
      .resolve false ⟨⟨1⟩, ⟨1⟩⟩ .supertypes false, .otherReleases (.ofUnit ⟨0⟩),
      .addUnit (.circle "b.kt" "B" "A"),
      .resolve false ⟨⟨2⟩, ⟨1⟩⟩ .supertypes false,
      .resolve false ⟨⟨0⟩, ⟨1⟩⟩ .supertypes false]
    let d : Symbol := ⟨⟨0⟩, ⟨1⟩⟩
    let n : Symbol := ⟨⟨0⟩, ⟨2⟩⟩
    let b : Symbol := ⟨⟨2⟩, ⟨1⟩⟩
    TransGen w.Inherits d d ∧
      Scope.inherited? committedSource b "N" w = (.ok (some n), w) ∧
      (∃ a, a ≠ b ∧ TransGen w.Inherits b a ∧ w.Declares a "N" n) ∧
      Scope.inherited? committedSource d "N" w = (.ok none, w) ∧
      ¬ ∃ a s, a ≠ d ∧ TransGen w.Inherits d a ∧ w.Declares a "N" s := by
  intro w d n b
  have hw : Reaches (.plain .default) anyCall w := Reaches.after _ _
  have hb : (Scope.inherited? committedSource b "N" w).1 = .ok (some n) := by
    decide +kernel
  have hd : (Scope.inherited? committedSource d "N" w).1 = .ok none := by
    decide +kernel
  obtain ⟨r, hrun, -, hfound⟩ :=
    inherited?_iff_of_reaches (Setup.quiet_plain .default) hw b "N"
  obtain ⟨r', hrun', hiff, -⟩ :=
    inherited?_iff_of_reaches (Setup.quiet_plain .default) hw d "N"
  rw [hrun] at hb
  rw [hrun'] at hd
  obtain rfl : r = some n := Except.ok.inj hb
  obtain rfl : r' = none := Except.ok.inj hd
  refine ⟨?_, hrun, hfound n rfl, hrun', fun h => ?_⟩
  · refine .head (b := b) (by decide +kernel) ?_
    refine .head (b := ⟨⟨1⟩, ⟨1⟩⟩) (by decide +kernel) ?_
    exact .single (by decide +kernel)
  · exact absurd (hiff.mpr h) nofun

end StagedResolve
