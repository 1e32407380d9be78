/-
Liveness: that names mean what is there.

# Old tables

A look-up reads tables of different ages. What the registry answers with
is declared now, and so is what is found inside of a declaration, which
is read off the registered unit on the spot. The supertypes that were
committed may have gone since, but nothing is answered with that is not
found inside of one, and what has gone has nothing inside. That leaves
the import table that was stored when the imports of the file were
resolved: its entries are answered with as they are. They were declared
when they were stored, and as ids are not given out twice they stand for
nothing else ever after (`Registry.Genuine`); but a unit that was
replaced is not declared any more.

So the answer is declared, unless the name stands for itself in a stored
table and its unit was replaced (`declared_of_meaningAt`); and that can
happen (`not_declared_of_meaningAt`). It cannot happen to a name with
dots: these are looked up in the registry, or inside of a declaration.
-/
import StagedResolve.Proofs.Vouching

namespace StagedResolve

open StagedResolve.Action World

-- ================================================================ look-ups

/-- What a name means at a place of a unit, with the committed
supertypes. -/
def Action.meaningAt (u : CompilationUnit) (defaults : List String)
    (place : DeclId) (name : String) (position : Position) :
    Action (Option Meaning) := do
  let sc ← Scope.ofUnit u defaults
  sc.lookup committedSource place name position

namespace World

/-- A unit is registered, and this import table or none is stored for
it. -/
structure Stores (w : World) (u : CompilationUnit)
    (stored : Option ImportTable) : Prop where
  coherent : w.Coherent
  registered : w.Registered u
  imports : (w.slots u .root).imports = stored

/-- Looking names up and counting leave it so. -/
theorem Stores.static (u : CompilationUnit) (stored : Option ImportTable) :
    Static fun w => w.Stores u stored where
  coherent := fun _ hw => hw.coherent
  classifier := fun _ k hw => ⟨hw.coherent.classifier k,
    (later_classifier hw.coherent k).registered hw.registered, hw.imports⟩
  counters := fun w c hc hw =>
    ⟨(Steady.coherent_self .bodies).counters w c hc hw.coherent,
      hw.registered, hw.imports⟩

end World

/-- With committed supertypes, look-ups come upon live classes, whatever
they ask the supertypes of. -/
theorem Action.yields_committed {I E : World → Prop} (hI : Static I)
    (hE : ∀ w, I w → E w) :
    Yields (fun c w => w.registry.LiveClass c) (fun _ _ => True) I E
      committedSource :=
  Searches.yields
    { coherent := hI.coherent
      stop := hE
      lasting_fine := lasting_liveClass
      lasting_asked := fun _ => lasting_const True
      live := fun _ _ _ hc => hc
      source := fun _ => .read fun _ _ _ _ => trivial }
    (classifier_advances hI)

/-- A name means what is declared, or what the stored import table has
under it. -/
theorem Action.meaningAt_advances {u : CompilationUnit}
    {stored : Option ImportTable} (defaults : List String) (place : DeclId)
    (name : String) (position : Position) :
    Advances (fun w => w.Stores u stored)
      (meaningAt u defaults place name position)
      (fun m w => ∀ c, m = some (.classLike c) → w.registry.LiveClass c ∨
        (segments name).length ≤ 1 ∧
          ∃ table ∈ stored, table.explicit.find? name = some c)
      (fun w => w.Stores u stored) := by
  have hI := Stores.static u stored
  -- the table of the scope is the stored one, or one whose entries are live
  have hlasting : ∀ table, Lasting fun w =>
      table.Live w ∨ some table = stored := fun table v w hvw hv =>
    hv.imp_left (table.lasting_live v w hvw)
  refine .bind (Q := fun sc w => sc.unit = u ∧
    (sc.imports.Live w ∨ some sc.imports = stored)) ?_ fun sc => ?_
  · refine .bind (storedOrFreshImports_advances hI hlasting
      (fun w t hw ht => Or.inr (ht.symm.trans hw.imports))
      fun w t _ ht => Or.inl ht) fun table => ?_
    exact .pure fun w hw => ⟨rfl, hw.2⟩
  · have hsc := hI.and_lasting (S := Onward)
      ((lasting_const (sc.unit = u)).and (hlasting sc.imports))
    have hmeans := (yields_committed hsc fun _ hw => hw.1).lookup
      (fun w hw => hw.2.1.symm ▸ hw.1.registered) (fun _ _ _ => trivial)
      place name position
    refine hmeans.post fun m w hw hm c hc => ?_
    rcases hm c hc with hlive | ⟨hsimple, hfound⟩
    · exact Or.inl hlive
    · rcases hw.2.2 with htable | hstored
      · exact Or.inl (htable name c hfound)
      · exact Or.inr ⟨hsimple, sc.imports, hstored.symm, hfound⟩

-- =============================================================== histories

/-- A class that a name means, in any world that is reached, at any place of
a registered unit, is declared, whatever was registered, replaced and asked
for before. The one exception is a name without dots that the import table
which was stored for the file has an entry for: it may be a class that was
declared once and whose unit is not registered any more. -/
theorem declared_of_meaningAt {setup : Setup} (hquiet : setup.Quiet)
    {v w : World} (hv : Reaches setup anyCall v) {u : CompilationUnit}
    (hu : v.Registered u) {defaults : List String} {place : DeclId}
    {name : String} {position : Position} {c : Symbol}
    (hrun : meaningAt u defaults place name position v =
      (.ok (some (.classLike c)), w)) :
    (∃ owner x, w.registry.declaration c = .ok (owner, x)) ∨
      (segments name).length ≤ 1 ∧
        (∃ table ∈ (v.slots u .root).imports,
          table.explicit.find? name = some c) ∧
        v.registry.Known c ∧ w.registry.unit? c.unit = none := by
  have hgrounded := (hv.backed hquiet).grounded
  have hgenuine : ∀ table ∈ (v.slots u .root).imports, table.Genuine v :=
    fun table ht => hgrounded.referring.imports u table hu ht
  -- what is genuine stays so while the name is looked up
  have hlasting : Lasting fun w => ∀ table ∈ (v.slots u .root).imports,
      table.Genuine w := .all fun table => .all fun _ => table.lasting_genuine
  have hadvances := (meaningAt_advances defaults place name position _
    hlasting) v ⟨⟨hgrounded.coherent, hu, rfl⟩, hgenuine⟩
  rw [hrun] at hadvances
  obtain ⟨⟨-, hlater⟩, hanswer⟩ := hadvances
  have hdeclared : w.registry.Live c → ∃ owner x,
      w.registry.declaration c = .ok (owner, x) := by
    rintro ⟨owner, x, hlive⟩
    exact ⟨owner, x, Registry.declaration_eq_ok_iff.mpr hlive⟩
  rcases hanswer c rfl with hlive | ⟨hsimple, table, ht, hfound⟩
  · exact Or.inl (hdeclared hlive.live)
  · by_cases hgone : w.registry.unit? c.unit = none
    · exact Or.inr ⟨hsimple, ⟨table, ht, hfound⟩,
        (hgenuine table ht name c hfound).known, hgone⟩
    · exact Or.inl (hdeclared ((hlater table ht name c hfound).live hgone))

/-- A file with a class. -/
def UnitSpec.declaringUser : UnitSpec :=
  { UnitSpec.ofEntries "user.kt" [.member 0 (.classNamed "User" [])] with
    package := "lib" }

/-- A file that imports the class. -/
def UnitSpec.importingUser : UnitSpec :=
  { UnitSpec.ofEntries "main.kt" [.member 0 (.functionNamed "f" none)] with
    imports := [⟨"lib.User", none, false, .point 1 1⟩] }

/-- The class by its full name, after its file was replaced by one that
reads the same. -/
theorem declared_of_meaningAt_importingUser :
    let v := World.after (.plain .default) [.addUnit .declaringUser,
      .addUnit .importingUser, .resolveFile ⟨1⟩,
      .replaceUnit ⟨0⟩ .declaringUser]
    ∃ u ∈ v.registry.unit? ⟨1⟩,
      let run := meaningAt u [] ⟨1⟩ "lib.User" .body v
      run.1 = .ok (some (.classLike ⟨⟨2⟩, ⟨1⟩⟩)) ∧
        ∃ owner x, run.2.registry.declaration ⟨⟨2⟩, ⟨1⟩⟩ = .ok (owner, x) := by
  intro v
  obtain ⟨u, hu, hid, hanswer⟩ : ∃ u ∈ v.registry.unit? ⟨1⟩, u.id = ⟨1⟩ ∧
      (meaningAt u [] ⟨1⟩ "lib.User" .body v).1 =
        .ok (some (.classLike ⟨⟨2⟩, ⟨1⟩⟩)) := by
    decide +kernel
  have hdotted : ¬ (segments "lib.User").length ≤ 1 := by decide +kernel
  refine ⟨u, hu, hanswer, (declared_of_meaningAt
    (Setup.quiet_plain .default) (Reaches.after (.plain .default)
      [.addUnit .declaringUser, .addUnit .importingUser, .resolveFile ⟨1⟩,
        .replaceUnit ⟨0⟩ .declaringUser]) ?_
    (Prod.ext hanswer rfl)).resolve_right fun h => hdotted h.1⟩
  rw [World.Registered, hid]
  exact hu

/-- By the name that it was imported under, the class is still the one whose
file was replaced and which is declared nowhere, although the registry has
one by its full name. -/
theorem not_declared_of_meaningAt :
    let v := World.after (.plain .default) [.addUnit .declaringUser,
      .addUnit .importingUser, .resolveFile ⟨1⟩,
      .replaceUnit ⟨0⟩ .declaringUser]
    ∃ u ∈ v.registry.unit? ⟨1⟩,
      let run := meaningAt u [] ⟨1⟩ "User" .body v
      run.1 = .ok (some (.classLike ⟨⟨0⟩, ⟨1⟩⟩)) ∧
        run.2.registry.declaration ⟨⟨0⟩, ⟨1⟩⟩ =
          .error (.containingUnitNotFound ⟨⟨0⟩, ⟨1⟩⟩) ∧
        (run.2.registry.classifier (.classifier "lib.User")).answer =
          some ⟨⟨2⟩, ⟨1⟩⟩ := by
  decide +kernel

end StagedResolve
