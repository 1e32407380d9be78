/-
Upward closure: what a final clause refers to is final.

# Where references stand

A declaration refers to supertypes in one of two places: an alias in its
expansion, anything else in its list of supertypes. The other place stays
as it was written (`World.Referring`), so that all references of a
declaration are those of its clause.

# Why they lead to final classes

Only a session resolves clauses, and it writes back all that it has
computed, which with every class are those that the class refers to. What
it does not compute was final before. So a clause that refers to a class
that is not final is one that was written back while the class was put
off, and that was counted (`World.Arranged`). Where nothing was counted,
every reference leads upwards to a class or an alias that has reached the
supertype phase, unless its unit has gone.
-/
import StagedResolve.Proofs.Hierarchies

namespace StagedResolve

open StagedResolve.Action World

namespace World

variable {w : World} {u v : CompilationUnit} {b : Symbol} {d : DeclId}

/-- The classes that a declaration refers to in its supertypes and its
expansion. -/
def referred (w : World) (u : CompilationUnit) (d : DeclId) : List Symbol :=
  ResolvedType.classes (Slot.types
    ((w.slots u d).supertypes ++ (w.slots u d).expansion.toList))

/-- A class or an alias that has reached the supertype phase. -/
def MarkedClass (w : World) (u : CompilationUnit) (d : DeclId) : Prop :=
  ∃ x, u.decl? d = some x ∧ x.kind.isClassLike = true ∧
    .supertypes ≤ w.own u d

/-- All references of a declaration are those of its clause. -/
theorem Referring.mem_clause (hw : w.Referring) (hu : w.Registered u)
    (hb : b ∈ w.referred u d) :
    b ∈ ResolvedType.classes (Slot.types (w.clause u d)) := by
  have hspare := hw.spare u d hu
  unfold referred Slot.types ResolvedType.classes at hb
  rw [List.filterMap_append, List.filterMap_append, List.mem_append] at hb
  unfold World.spare at hspare
  unfold World.clause
  dsimp only at hspare ⊢
  split
  · next halias =>
    rw [if_pos halias] at hspare
    refine hb.resolve_left fun h => ?_
    rw [← Slot.types, hspare] at h
    cases h
  · next halias =>
    rw [if_neg halias] at hspare
    refine hb.resolve_right fun h => ?_
    rw [← Slot.types, hspare] at h
    cases h

/-- A class with a clause that will not change any more is marked: by a
session, or from the start if it does not go through the phases. -/
theorem Done.markedClass (h : w.Done b) (hw : w.Coherent)
    (hup : w.registry.Upright) (hb : w.registry.Genuine b)
    (hv : w.Registered v) (hid : v.id = b.unit) : w.MarkedClass v b.decl := by
  obtain ⟨x, hx, hk⟩ := hb.declared v (by rw [← hid]; exact hv)
  refine ⟨x, hx, hk hup, ?_⟩
  cases he : x.isEligible with
  | true => exact h.marked v x hv hid hx (hk hup) he
  | false =>
      have hbodies := (hw.bodies_le hv hx (by
        rw [CompilationUnit.isEligible, hx]
        exact he)).1
      exact Phase.le_trans (by decide) hbodies

/-- While nothing was put off, what is inherited from is final. -/
theorem Arranged.done_of_inherits (hw : w.Arranged)
    (hzero : w.counters.deferred = 0) {a : Symbol} (h : w.Inherits a b) :
    w.Done b := by
  by_contra hopen
  have hpos := hw.putOff b ⟨⟨a, h⟩, hopen⟩
  omega

end World

/-- As long as nothing was put off, whatever a declaration refers to in its
supertypes or its expansion is a class or an alias that has reached the
supertype phase, unless its unit was replaced: in every world that is
reached, by calls that were cancelled or failed in between as well. -/
theorem markedClass_of_referred {setup : Setup} (hquiet : setup.Quiet)
    {w : World} (hw : Reaches setup anyCall w)
    (hzero : w.counters.deferred = 0) {u : CompilationUnit} {d : DeclId}
    (hu : w.Registered u) {b : Symbol} (hb : b ∈ w.referred u d)
    {v : CompilationUnit} (hv : w.Registered v) (hid : v.id = b.unit) :
    w.MarkedClass v b.decl := by
  have harranged := (hw.careful hquiet hzero).arranged hquiet
  have hcoherent := harranged.grounded.coherent
  have hclause := harranged.grounded.referring.mem_clause hu hb
  have hgenuine := harranged.grounded.referring.clause u d hu b hclause
  have hinherits : w.Inherits (u.symbol d) b := by
    obtain ⟨x, hx, -⟩ := harranged.grounded.marked u d hu b hclause
    exact (World.inherits_iff hcoherent).mpr
      ⟨u, hu, rfl, by rw [CompilationUnit.symbol, hx]; rfl, hclause⟩
  exact (harranged.done_of_inherits hzero hinherits).markedClass hcoherent
    (hw.upright hquiet) hgenuine hv hid

/-- A class was asked for that extends one of another unit, and then a call
for something else was cancelled. -/
theorem markedClass_of_referred_base :
    let w := World.after (.plain .default) [.addUnit .base, .addUnit .derived,
      .resolve false ⟨⟨1⟩, ⟨1⟩⟩ .supertypes false, .addUnit .plainClass,
      .setToken ⟨true, false⟩, .resolve false ⟨⟨2⟩, ⟨1⟩⟩ .bodies true]
    ∃ u v, w.Registered u ∧ w.Registered v ∧ u.id = ⟨1⟩ ∧ v.id = ⟨0⟩ ∧
      w.counters.deferred = 0 ∧ w.referred u ⟨1⟩ = [⟨⟨0⟩, ⟨1⟩⟩] ∧
      w.MarkedClass v ⟨1⟩ := by
  intro w
  have hw : Reaches (.plain .default) anyCall w := .after _ _
  obtain ⟨u, hu, v, hv, hrest⟩ : ∃ u ∈ w.registry.unit? ⟨1⟩,
      ∃ v ∈ w.registry.unit? ⟨0⟩, u.id = ⟨1⟩ ∧ v.id = ⟨0⟩ ∧
        w.counters.deferred = 0 ∧ w.referred u ⟨1⟩ = [⟨⟨0⟩, ⟨1⟩⟩] := by
    decide +kernel
  obtain ⟨huid, hvid, hzero, hreferred⟩ := hrest
  have hu : w.Registered u := by rw [World.Registered, huid]; exact hu
  have hv : w.Registered v := by rw [World.Registered, hvid]; exact hv
  refine ⟨u, v, hu, hv, huid, hvid, hzero, hreferred, ?_⟩
  exact markedClass_of_referred (Setup.quiet_plain .default) hw hzero hu
    (b := ⟨⟨0⟩, ⟨1⟩⟩) (by rw [hreferred]; exact List.mem_singleton.mpr rfl) hv
    hvid

end StagedResolve
