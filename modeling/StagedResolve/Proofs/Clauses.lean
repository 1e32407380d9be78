/-
Clauses: whether a marked class has had its clause resolved.

# Two ways to a marker

A session sets the marker of a class when it resolves its clause. But
markers also rise when a walk is committed, and for everything that the
walk came by. A walk of the supertype phase has run a session for each of
these classes. Walks of later phases run none; they count on the supertype
phase, which their request has run before, unless the markers of the
target told it that there was no need to.

The markers of the target may tell so while those of a class around it do
not: a session marks the members of a class that it reached, and nothing
around the class. A request for such a member then carries the classes
around it past the supertype phase (`Trusting` says when it does not).
What stands at the supertype phase and not beyond it was put there by a
session in any case.

# Out of place

A session marks members without looking at what they are, and all that is
below them. So a class is only safe where a class belongs: in executable
code, or inside of nothing but classes (`CompilationUnit.InClasses`).
-/
import StagedResolve.Proofs.Guarantee
import StagedResolve.Proofs.Hierarchies

namespace StagedResolve

open StagedResolve.Action World

-- ============================================================ where classes are

namespace CompilationUnit

variable {u : CompilationUnit} {d m : DeclId}

/-- The declaration sits in executable code, or inside of nothing but
classes outside of it. -/
def InClasses (u : CompilationUnit) (d : DeclId) : Prop :=
  u.isLocal d = true ∨ ∀ a ∈ u.ancestors d, a.isRoot = false →
    u.isClassLike a = true ∧ u.isLocal a = false

instance (u : CompilationUnit) (d : DeclId) : Decidable (u.InClasses d) :=
  inferInstanceAs (Decidable (_ ∨ _))

/-- A class or an alias, where one belongs, that goes through the
phases. -/
structure HasClause (u : CompilationUnit) (d : DeclId) : Prop where
  classLike : u.isClassLike d = true
  eligible : u.isEligible d = true
  place : u.InClasses d

instance (u : CompilationUnit) (d : DeclId) : Decidable (u.HasClause d) :=
  decidable_of_iff (u.isClassLike d = true ∧ u.isEligible d = true ∧
    u.InClasses d) ⟨fun h => ⟨h.1, h.2.1, h.2.2⟩,
      fun h => ⟨h.classLike, h.eligible, h.place⟩⟩

/-- What is marked in passing is no class in its place. -/
theorem HasClause.not_passed (hu : u.WellFormed) (h : u.HasClause d) :
    ¬ u.Passed d := by
  rintro ⟨owner, m, hm, hclass, -, hsub, hlocal, -⟩
  have hparent := hu.earlier m owner ((hu.child_iff owner m).mp hm)
  rcases hu.mem_subtree hsub with rfl | hanc
  · rw [h.classLike] at hclass
    cases hclass
  · rcases h.place with hl | hplace
    · rw [hl] at hlocal
      cases hlocal
    · have hroot : m.isRoot = false :=
        beq_eq_false_iff_ne.mpr (Nat.ne_of_gt (Nat.zero_lt_of_lt hparent))
      rw [(hplace m hanc hroot).1] at hclass
      cases hclass

/-- What is around a class outside of executable code is such a class
again. -/
theorem HasClause.parent (hu : u.WellFormed) (h : u.HasClause m)
    (hlocal : u.isLocal m = false) (hp : u.parent? m = some d)
    (hd : d.isRoot = false) (he : u.isEligible d = true) :
    u.HasClause d ∧ u.isLocal d = false := by
  have hplace := h.place.resolve_left (by rw [hlocal]; exact nofun)
  rw [hu.ancestors_of_parent hp] at hplace
  obtain ⟨hk, hl⟩ := hplace d (List.mem_cons_self ..) hd
  exact ⟨⟨hk, he, Or.inr fun a ha => hplace a (List.mem_cons_of_mem _ ha)⟩, hl⟩

/-- A class is no type parameter. -/
theorem HasClause.ne_typeParameter (h : u.HasClause d) :
    u.kind? d ≠ some .typeParameter := fun hk => by
  have hclass := h.classLike
  rw [isClassLike, hk] at hclass
  cases hclass

end CompilationUnit

namespace World

variable {v w : World} {u : CompilationUnit} {goal : Designation}

/-- Every entry of the supertype clause of a class, or the expansion of an
alias, is resolved. -/
def ResolvedClause (w : World) (u : CompilationUnit) (d : DeclId) : Prop :=
  ∀ s ∈ w.clause u d, s.isResolved = true

instance (w : World) (u : CompilationUnit) (d : DeclId) :
    Decidable (w.ResolvedClause u d) :=
  inferInstanceAs (Decidable (∀ s ∈ _, _))

/-- A result that was filled in is resolved. -/
theorem resolvedClause_filled {x : Declaration} {c : Symbol} {r : Computed}
    (hx : u.decl? c.decl = some x) (hr : r.isAlias = true ↔ x.kind = .typeAlias) :
    (w.filled u c.decl r).ResolvedClause u c.decl := by
  intro s hs
  have hkind : u.kind? c.decl = some x.kind := by
    rw [CompilationUnit.kind?, hx]
    rfl
  unfold clause at hs
  dsimp only at hs
  rw [hkind, slots, filled, state_setState_self] at hs
  dsimp only at hs
  rw [Computed.supertypes_fill, Computed.expansion_fill] at hs
  have hall : ∀ t ∈ r.types.map Slot.resolved, t.isResolved = true := by
    intro t ht
    obtain ⟨type, -, rfl⟩ := List.mem_map.mp ht
    rfl
  cases ha : r.isAlias with
  | true =>
      rw [if_pos (by rw [hr.mp ha]), ha, if_pos rfl] at hs
      exact hall s (List.mem_of_mem_head? (Option.mem_toList.mp hs))
  | false =>
      have hne : ¬ some x.kind = some .typeAlias := fun h => by
        rw [hr.mpr (Option.some.inj h)] at ha
        cases ha
      rw [if_neg hne, ha, if_neg Bool.false_ne_true] at hs
      exact hall s hs

/-- The clause of a class of a registered unit is final if its marker is
set. -/
theorem Done.marked_self {d : DeclId} (h : w.Done (u.symbol d))
    (hu : w.Registered u) (hd : u.HasClause d) : .supertypes ≤ w.own u d := by
  have he := hd.eligible
  rw [CompilationUnit.isEligible, Option.any_eq_true] at he
  obtain ⟨x, hx, he⟩ := he
  have hk := hd.classLike
  rw [CompilationUnit.isClassLike, CompilationUnit.kind?, hx] at hk
  exact h.marked u x hu rfl hx hk he

-- =============================================================== the invariant

/-- What markers say about clauses. Where requests may carry classes past
the supertype phase, a clause is known to be resolved only of a class
that stands there (`strict` fails); otherwise of each that has been
there. What is marked as a whole has marked classes inside, all the way
down. -/
structure Resolving (strict : Prop) (w : World) : Prop where
  grounded : w.Grounded
  clause : ∀ u d, w.Registered u → u.HasClause d → .supertypes ≤ w.own u d →
    (strict ∨ w.own u d = .supertypes) → w.ResolvedClause u d
  whole : ∀ u d, w.Registered u → u.HasClause d →
    .supertypes ≤ w.below u d → .supertypes ≤ w.own u d
  inside : ∀ u d m, w.Registered u → u.HasClause d → u.parent? m = some d →
    u.isEligible m = true → u.isLocal m = false →
    .supertypes ≤ w.below u d → .supertypes ≤ w.below u m
  file : ∀ u, w.Registered u → u.isEligible .root = true →
    ¬ .supertypes ≤ w.below u .root

namespace Resolving

variable {strict : Prop}

/-- What is known about units that were there before, and what nobody has
touched in those that are new, decides. -/
theorem of_kept (hv : v.Resolving strict) (hw : w.Grounded)
    (hold : ∀ u, w.Registered u → v.Registered u →
      (∀ d, w.clause u d = v.clause u d) ∧
      (∀ d, u.HasClause d → w.own u d = v.own u d ∧
        w.below u d = v.below u d) ∧
      (∀ m, v.below u m ≤ w.below u m) ∧
      (u.isEligible .root = true → w.below u .root = v.below u .root))
    (hfresh : ∀ u d, w.Registered u → ¬ v.Registered u →
      w.states.find? (u.symbol d) = none) : w.Resolving strict := by
  have hnew : ∀ u d, w.Registered u → ¬ v.Registered u →
      u.isEligible d = true →
      ¬ .supertypes ≤ w.own u d ∧ ¬ .supertypes ≤ w.below u d := by
    intro u d hu hnew he
    obtain ⟨hown, hbelow⟩ := raw_of_fresh (hfresh u d hu hnew) he
    rw [hown, hbelow]
    exact ⟨by decide, by decide⟩
  constructor
  case grounded => exact hw
  case clause =>
    intro u d hu hd hle hcase
    by_cases hreg : v.Registered u
    · obtain ⟨hclause, hmarks, -⟩ := hold u hu hreg
      rw [(hmarks d hd).1] at hle hcase
      unfold ResolvedClause
      rw [hclause]
      exact hv.clause u d hreg hd hle hcase
    · exact absurd hle (hnew u d hu hreg hd.eligible).1
  case whole =>
    intro u d hu hd hle
    by_cases hreg : v.Registered u
    · obtain ⟨-, hmarks, -⟩ := hold u hu hreg
      rw [(hmarks d hd).2] at hle
      rw [(hmarks d hd).1]
      exact hv.whole u d hreg hd hle
    · exact absurd hle (hnew u d hu hreg hd.eligible).2
  case inside =>
    intro u d m hu hd hm he hl hle
    by_cases hreg : v.Registered u
    · obtain ⟨-, hmarks, hbelow, -⟩ := hold u hu hreg
      rw [(hmarks d hd).2] at hle
      exact Phase.le_trans (hv.inside u d m hreg hd hm he hl hle) (hbelow m)
    · exact absurd hle (hnew u d hu hreg hd.eligible).2
  case file =>
    intro u hu he
    by_cases hreg : v.Registered u
    · obtain ⟨-, -, -, hroot⟩ := hold u hu hreg
      rw [hroot he]
      exact hv.file u hreg he
    · exact (hnew u .root hu hreg he).2

/-- Where no clause moves and no class or file is marked. -/
theorem unmoved (hv : v.Resolving strict) (h : v.Unmoved w) (hw : w.Coherent)
    (hmarks : ∀ u d, v.Registered u → u.HasClause d →
      w.own u d = v.own u d ∧ w.below u d = v.below u d)
    (hroot : ∀ u, v.Registered u → w.below u .root = v.below u .root) :
    w.Resolving strict :=
  hv.of_kept (hv.grounded.unmoved h hw)
    (fun u _ hu => ⟨h.clause hu, fun d => hmarks u d hu,
      fun m => h.later.below u m hu, fun _ => hroot u hu⟩) h.fresh

/-- Where no clause moves and nothing is marked. -/
theorem unmarked (hv : v.Resolving strict) (h : v.Unmoved w) (hw : w.Coherent)
    (hown : ∀ u d, v.Registered u → w.own u d = v.own u d)
    (hbelow : ∀ u d, v.Registered u → w.below u d = v.below u d) :
    w.Resolving strict :=
  hv.unmoved h hw (fun u d hu _ => ⟨hown u d hu, hbelow u d hu⟩)
    fun u hu => hbelow u .root hu

/-- A state is set of which only what does not count has changed. -/
theorem setState {goal : Phase} {d : DeclId} {s : DeclState}
    (hw : w.Resolving strict) (hu : w.Registered u)
    (hs : (w.state u d).Raised goal s)
    (hunmoved : w.Unmoved (w.setState u d s))
    (hclass : u.HasClause d → s.own = w.own u d ∧ s.below = w.below u d)
    (hroot : d = .root → s.below = w.below u d) :
    (w.setState u d s).Resolving strict := by
  refine hw.unmoved hunmoved (hw.grounded.coherent.setState hu hs)
    (fun c e hc he => ?_) fun c hc => ?_
  · rw [own, below, state_setState hu hc]
    split
    · next h =>
      obtain ⟨rfl, rfl⟩ := h
      exact hclass he
    · exact ⟨rfl, rfl⟩
  · rw [below, state_setState hu hc]
    split
    · next h =>
      obtain ⟨rfl, rfl⟩ := h
      exact hroot rfl
    · rfl

/-- Steps that mark nothing leave it. -/
theorem idle (strict : Prop) : Idle (Resolving strict) where
  coherent := fun _ hw => hw.grounded.coherent
  classifier := fun _ k hw =>
    have hc := hw.grounded.coherent
    hw.unmarked (unmoved_classifier hc k) (hc.classifier k)
      (fun _ _ _ => rfl) fun _ _ _ => rfl
  counters := fun w c hc hw => hw.unmarked (unmoved_of_eq rfl rfl hc)
    ((Steady.coherent_self .bodies).counters w c hc hw.grounded.coherent)
    (fun _ _ _ => rfl) fun _ _ _ => rfl
  touches := fun _ _ hv h => hv.unmarked h.unmoved
    (hv.grounded.coherent.touches h) h.own h.below
  slots := fun _ _ _ s hw hu _ hs => hw.setState hu (.of_slots .raw _ s)
    (unmoved_setState hu (.of_slots .raw _ s) hs.supertypes hs.expansion
      fun _ ht => Or.inl (hs.imports ▸ ht))
    (fun _ => ⟨rfl, rfl⟩) fun _ => rfl
  session := fun w s hw => hw.unmarked (unmoved_of_eq rfl rfl (Nat.le_refl _))
    ((Steady.coherent_self .bodies).session w s hw.grounded.coherent)
    (fun _ _ _ => rfl) fun _ _ _ => rfl
  thread := fun w t hw => hw.unmarked (unmoved_of_eq rfl rfl (Nat.le_refl _))
    ((Steady.coherent_self .bodies).thread w t hw.grounded.coherent)
    (fun _ _ _ => rfl) fun _ _ _ => rfl

/-- A result that is written back resolves the clause of the class that it
marks. -/
theorem filled {x : Declaration} {c : Symbol} {r : Computed}
    (hw : w.Resolving strict) (hu : w.Registered u)
    (hx : u.decl? c.decl = some x) (hk : x.kind.isClassLike = true)
    (he : x.isEligible = true) (hfits : w.Fits x r) :
    (w.filled u c.decl r).Resolving strict := by
  have hlater := later_setState hu (raised_filled w u c.decl r)
  have hother : ∀ v d, w.Registered v → ¬ (u = v ∧ c.decl = d) →
      (w.filled u c.decl r).own v d = w.own v d := by
    intro v d hv hne
    rw [own, World.filled, state_setState hu hv, if_neg hne]
    rfl
  have hbelow : ∀ v d, w.Registered v →
      (w.filled u c.decl r).below v d = w.below v d := by
    intro v d hv
    rw [below, World.filled, state_setState hu hv]
    split
    · next h =>
      obtain ⟨rfl, rfl⟩ := h
      rfl
    · rfl
  constructor
  case grounded => exact hw.grounded.filled hu hx hk he hfits
  case clause =>
    intro v d hv hd hle hcase
    by_cases h : u = v ∧ c.decl = d
    · obtain ⟨rfl, rfl⟩ := h
      exact resolvedClause_filled hx hfits.isAlias
    · rw [hother v d hv h] at hle hcase
      unfold ResolvedClause
      rw [clause_filled hu c.decl hv d h]
      exact hw.clause v d hv hd hle hcase
  case whole =>
    intro v d hv hd hle
    rw [hbelow v d hv] at hle
    exact Phase.le_trans (hw.whole v d hv hd hle) (hlater.own v d hv)
  case inside =>
    intro v d m hv hd hm he hl hle
    rw [hbelow v d hv] at hle
    rw [hbelow v m hv]
    exact hw.inside v d m hv hd hm he hl hle
  case file =>
    intro v hv he
    rw [hbelow v .root hv]
    exact hw.file v hv he

/-- It survives results being written back. -/
theorem tended (strict : Prop) : Tended (Resolving strict) fun _ _ => True :=
  { idle strict with
    referring := fun _ hw => hw.grounded.referring
    fill := fun _ _ _ _ _ hw hu _ hx hk he _ hfits _ =>
      hw.filled hu hx hk he hfits
    members := members_triple <| by
      intro w u d s hw hu hd hs hslots
      have hwf := hw.grounded.coherent.wellFormed hu
      refine hw.setState hu hs (unmoved_setState hu hs (by rw [hslots])
        (by rw [hslots]) fun t ht => Or.inl (hslots ▸ ht))
        (fun hclass => absurd hd (hclass.not_passed hwf)) ?_
      exact fun hroot => absurd hroot (hd.ne_root hwf) }

/-- It survives what is written to a file. -/
theorem keepsFile (u : CompilationUnit) :
    KeepsFile (fun w => w.Resolving strict ∧ w.Registered u) u where
  imports := by
    rintro w table errors ⟨hw, hu⟩ hd ht
    obtain ⟨ds, hds⟩ := Slots.report_eq .imports errors
      { w.slots u .root with imports := some table }
    rw [hds]
    refine ⟨hw.setState hu (.of_slots .raw _ _) (unmoved_setState hu
      (.of_slots .raw _ _) rfl rfl fun t h => Or.inr ?_)
      (fun _ => ⟨rfl, rfl⟩) fun _ => rfl, hu⟩
    cases h
    exact ht
  raise := by
    rintro w p ⟨hw, hu⟩ hd
    have hwf := hw.grounded.coherent.wellFormed hu
    refine ⟨hw.setState hu (.of_own _ (Phase.le_refl p)) (unmoved_setState hu
      (.of_own _ (Phase.le_refl p)) rfl rfl fun t h => Or.inl h)
      (fun hclass => ?_) fun _ => rfl, hu⟩
    -- the file is no class
    obtain ⟨x, hx⟩ := Option.isSome_iff_exists.mp hd
    have hk := hclass.classLike
    rw [CompilationUnit.isClassLike, CompilationUnit.kind?, hx, Option.map_some,
      hwf.file x hx] at hk
    cases hk

-- ============================================================= committing

/-- What a walk of a phase beyond the supertypes counts on: the classes of
the chain are marked, and so is the target as a whole, unless there is
nothing below it to visit. -/
structure Ready (goal : Designation) (w : World) : Prop where
  registered : w.Registered goal.unit
  chain : ∀ d ∈ goal.path ++ [goal.target], goal.unit.HasClause d →
    .supertypes ≤ w.own goal.unit d
  whole : goal.unit.HasClause goal.target →
    goal.unit.isLocal goal.target = false →
    .supertypes ≤ w.below goal.unit goal.target ∨
      goal.unit.hasMembers goal.target = false

/-- That lasts. -/
theorem lasting_ready (goal : Designation) : Lasting (Ready goal) := by
  intro v w h hv
  have hu := hv.registered
  exact ⟨h.registered hu,
    fun d hd hc => Phase.le_trans (hv.chain d hd hc) (h.own _ d hu),
    fun hc hl => (hv.whole hc hl).imp_left fun hle =>
      Phase.le_trans hle (h.below _ _ hu)⟩

variable {rule : PhaseRule} {c : Context} {visits : Visits}

/-- Classes outside of executable code that a walk came by as members have
been marked by the supertype phase: the target was, as a whole, and what
is inside of what was marked as a whole was too. -/
theorem marked_of_member (hw : w.Resolving strict) (hu : w.Registered c.unit)
    (hroute : Walk.Route rule c (Walk.SessionDone rule c.unit goal) goal .root
      visits w) (hunit : c.unit = goal.unit) (hready : Ready goal w)
    (htarget : c.unit.isEligible goal.target = true) {d : DeclId}
    (hd : d ∈ visits.members) (hclass : c.unit.HasClause d)
    (hlocal : c.unit.isLocal d = false) :
    .supertypes ≤ w.own c.unit d ∧
      (d = goal.target ∨ .supertypes ≤ w.below c.unit d) := by
  have hwf := hw.grounded.coherent.wellFormed hu
  have htop : ∀ {d}, d = goal.target → c.unit.HasClause d →
      .supertypes ≤ w.own c.unit d := by
    rintro _ rfl hclass
    rw [hunit] at hclass ⊢
    exact hready.chain _ (by simp) hclass
  induction d using hwf.parent_induction with
  | top d hp =>
      obtain ⟨q, hq⟩ := hroute.parent_isSome (Or.inr hd)
      rw [hp] at hq
      cases hq
  | step d q hq ih =>
      rcases hroute.member d hd with ⟨rfl, -⟩ | ⟨hk, -⟩ | ⟨-, p, hp, hparent⟩
      · exact ⟨htop rfl hclass, Or.inl rfl⟩
      · exact absurd hk hclass.ne_typeParameter
      · obtain rfl : p = q := Option.some.inj (hparent.symm.trans hq)
        -- the parent is a member too, so it is neither the file nor left out
        have hroot : p.isRoot = false := by
          obtain ⟨b, hb⟩ := hroute.parent_isSome (Or.inr hp)
          exact beq_eq_false_iff_ne.mpr
            (Nat.ne_of_gt (Nat.zero_lt_of_lt (hwf.earlier p b hb)))
        have hplace := hclass.place.resolve_left (by rw [hlocal]; exact nofun)
        have hpk := (hplace p (hwf.mem_ancestors_iff.mpr
          ⟨p, hq, Or.inl rfl⟩) hroot).1
        have hpe : c.unit.isEligible p = true := by
          rcases hroute.member p hp with ⟨rfl, -⟩ | ⟨hk, -⟩ | ⟨he, -⟩
          · exact htarget
          · rw [CompilationUnit.isClassLike, hk] at hpk
            cases hpk
          · exact he.1
        obtain ⟨hpclass, hplocal⟩ := hclass.parent hwf hlocal hq hroot hpe
        have hbelow : .supertypes ≤ w.below c.unit p := by
          refine (ih hp hpclass hplocal).2.elim ?_ id
          rintro rfl
          have hwhole := hready.whole
          rw [← hunit] at hwhole
          refine (hwhole hpclass hplocal).resolve_right fun hnone => ?_
          have hmember : c.unit.hasMembers goal.target = true :=
            List.any_eq_true.mpr ⟨d, (hwf.child_iff _ d).mpr hq, by
              rw [hlocal, hclass.eligible]; rfl⟩
          rw [hnone] at hmember
          cases hmember
        have hbelow := hw.inside c.unit p d hu hpclass hq hclass.eligible hlocal
          hbelow
        exact ⟨hw.whole c.unit d hu hclass hbelow, Or.inr hbelow⟩

/-- A walk beyond the supertype phase comes by no class that the phase has
left out. -/
theorem marked_of_visited (hw : w.Resolving strict) (hu : w.Registered c.unit)
    (hroute : Walk.Route rule c (Walk.SessionDone rule c.unit goal) goal .root
      visits w) (hunit : c.unit = goal.unit) (hready : Ready goal w)
    (htarget : c.unit.isEligible goal.target = true) {d : DeclId}
    (hd : d ∈ visits.headers ∨ d ∈ visits.members)
    (hclass : c.unit.HasClause d) : .supertypes ≤ w.own c.unit d := by
  have hchain : ∀ {d}, d ∈ goal.path ++ [goal.target] → c.unit.HasClause d →
      .supertypes ≤ w.own c.unit d := by
    rw [hunit]
    exact hready.chain _
  have hpath : ∀ {d}, goal.onPath d = true → d ∈ goal.path ++ [goal.target] :=
    fun h => List.mem_append_left _ (List.contains_iff_mem.mp h)
  rcases hd with hd | hd
  · exact hchain (hpath (hroute.header d hd).1) hclass
  · by_cases honpath : goal.onPath d = true
    · exact hchain (hpath honpath) hclass
    · cases hlocal : c.unit.isLocal d with
      | false =>
          exact (hw.marked_of_member hu hroute hunit hready htarget hd hclass
            hlocal).1
      | true =>
          -- a class in executable code had a session of its own
          rcases hroute.member d hd with ⟨rfl, -⟩ | ⟨hk, -⟩ | ⟨he, -⟩
          · exact hchain (by simp) hclass
          · exact absurd hk hclass.ne_typeParameter
          · have hdone := hroute.done d (Or.inr hd) hclass.classLike (Or.inr
              ⟨hlocal, he.2 hlocal, Bool.eq_false_iff.mpr honpath⟩)
            exact hdone.marked_self hu hclass

/-- What a walk has visited may be marked: classes had their clause
resolved before. -/
theorem commit (hw : w.Resolving strict) (hu : w.Registered c.unit)
    (hroute : Walk.Route rule c (Walk.SessionDone rule c.unit goal) goal .root
      visits w) (hunit : c.unit = goal.unit)
    (hphase : .supertypes ≤ rule.phase)
    (hready : strict → rule.phase = .supertypes ∨ Ready goal w)
    (htarget : c.unit.isEligible goal.target = true)
    (h : Rewrites c.unit (visits.committed rule.phase) w v) :
    v.Resolving strict := by
  have hlater := h.later
  have hunmoved := h.unmoved
  have hwf := hw.grounded.coherent.wellFormed hu
  have hsame : ∀ u, u ≠ c.unit → w.Registered u → ∀ d,
      v.state u d = w.state u d := fun u hne hreg d => by
    rw [h.state u d hreg, if_neg hne]
  constructor
  case grounded => exact hw.grounded.unmoved hunmoved (h.coherent hw.grounded.coherent hu)
  case clause =>
    intro u d hv hd hle hcase
    have hreg := h.registered_iff.mp hv
    unfold ResolvedClause
    rw [hunmoved.clause hreg]
    by_cases hcu : u = c.unit
    · subst hcu
      -- the class was marked before
      have hbefore : .supertypes ≤ w.own c.unit d := by
        rcases (h.le_own_iff hu).mp hle with hle | ⟨hvisit, -⟩
        · exact hle
        · have hcase' : strict ∨ rule.phase = .supertypes := by
            refine hcase.imp_right fun hown => ?_
            have hle' := (h.le_own_iff hu).mpr (Or.inr ⟨hvisit, Phase.le_refl _⟩)
            rw [hown] at hle'
            exact Phase.position_inj (Nat.le_antisymm hle' hphase)
          have hsession : rule.phase = .supertypes →
              .supertypes ≤ w.own c.unit d := fun hp =>
            (hroute.done d hvisit hd.classLike (Or.inl hp)).marked_self hu hd
          rcases hcase' with hstrict | hp
          · exact (hready hstrict).elim hsession fun hready =>
              hw.marked_of_visited hu hroute hunit hready htarget hvisit hd
          · exact hsession hp
      refine hw.clause c.unit d hu hd hbefore (hcase.imp_right fun hown => ?_)
      have hle' := hlater.own c.unit d hu
      rw [hown] at hle'
      exact Phase.position_inj (Nat.le_antisymm hle' hbefore)
    · have hown : v.own u d = w.own u d := by rw [own, own, hsame u hcu hreg]
      rw [hown] at hle hcase
      exact hw.clause u d hreg hd hle hcase
  case whole =>
    intro u d hv hd hle
    have hreg := h.registered_iff.mp hv
    by_cases hcu : u = c.unit
    · subst hcu
      refine (h.le_own_iff hu).mpr ?_
      rcases (h.le_below_iff hu).mp hle with hle | ⟨hmem, hle⟩
      · exact Or.inl (hw.whole c.unit d hu hd hle)
      · exact Or.inr ⟨Or.inr hmem, hle⟩
    · rw [below, hsame u hcu hreg] at hle
      rw [own, hsame u hcu hreg]
      exact hw.whole u d hreg hd hle
  case inside =>
    intro u d m hv hd hm he hl hle
    have hreg := h.registered_iff.mp hv
    by_cases hcu : u = c.unit
    · subst hcu
      refine (h.le_below_iff hu).mpr ?_
      rcases (h.le_below_iff hu).mp hle with hle | ⟨hmem, hle⟩
      · exact Or.inl (hw.inside c.unit d m hu hd hm he hl hle)
      · rcases hroute.full d hmem hd.ne_typeParameter m
          ((hwf.child_iff d m).mpr hm) with hvisit | ⟨-, hleft⟩
        · exact Or.inr ⟨hvisit, hle⟩
        · rcases hleft with hleft | ⟨hleft, -⟩ | hleft
          · rw [he] at hleft
            cases hleft
          · rw [hl] at hleft
            cases hleft
          · exact Or.inl (Phase.le_trans hle hleft)
    · rw [below, hsame u hcu hreg] at hle ⊢
      exact hw.inside u d m hreg hd hm he hl hle
  case file =>
    intro u hv he hle
    have hreg := h.registered_iff.mp hv
    by_cases hcu : u = c.unit
    · subst hcu
      rcases (h.le_below_iff hu).mp hle with hle | ⟨hmem, -⟩
      · exact hw.file c.unit hu he hle
      · obtain ⟨q, hq⟩ := hroute.parent_isSome (Or.inr hmem)
        exact Nat.not_lt_zero _ (hwf.earlier .root q hq)
    · rw [below, hsame u hcu hreg] at hle
      exact hw.file u hreg he hle

-- ========================================================== one request

variable {setup : Setup} {g : Guard} {t : Thread} {phase : Phase}
  {cancellable : Bool}

/-- A world in the middle of a request. -/
def Underway (strict : Prop) (goal : Designation) (w : World) : Prop :=
  w.Resolving strict ∧ w.Registered goal.unit

/-- A phase that is the supertype phase, or may count on it. The target is
ready for what comes next. -/
theorem runPhase {Q : World → Prop} (hquiet : setup.Quiet)
    (hg : g.lock = .ofUnit goal.unit.id)
    (hpath : ∀ a, a ∈ goal.path ↔
      a ∈ goal.unit.ancestors goal.target ∧ a.isRoot = false)
    (htarget : goal.unit.isEligible goal.target = true) (hQ : Lasting Q)
    (hready : ∀ w, Q w → strict → phase = .supertypes ∨ Ready goal w) :
    Advances (fun w => (Underway strict goal w ∧ Q w) ∧ t.Alike w.thread)
      (Action.runPhase setup goal g cancellable phase)
      (fun _ w => phase = .supertypes → Ready goal w)
      fun w => Underway strict goal w ∧ Q w := by
  have hlasting := (lasting_registered goal.unit).and hQ
  have hassoc : (fun w => Underway strict goal w ∧ Q w) =
      fun w => w.Resolving strict ∧ w.Registered goal.unit ∧ Q w :=
    funext fun w => propext and_assoc
  have hI : WritesBack (fun w => Underway strict goal w ∧ Q w)
      goal.unit.id t :=
    hassoc ▸ ((tended strict).writesBack goal.unit.id t).and_lasting hlasting
  have hidle : Idle fun w => Underway strict goal w ∧ Q w :=
    hassoc ▸ (idle strict).and_lasting hlasting
  refine hI.runPhase hidle (fun w hw => hw.1.2) hg hquiet
    (.all fun _ => lasting_ready goal) (fun hrule w _ hp => ?_) ?_
  · rw [hp] at hrule
    cases hrule
  rintro rule c v w w' hrule hunit ⟨⟨hw, hu⟩, hQw⟩ hroute hmem h
  obtain rfl := Phase.phase_of_rule? hrule
  have hwf := hw.grounded.coherent.wellFormed hu
  have hlater := h.later
  have hreg := hlater.registered hu
  rw [← hunit] at hu hroute h htarget
  refine ⟨⟨⟨hw.commit hu hroute hunit (Phase.supertypes_le_of_rule? hrule)
    (hready w hQw) htarget h, hreg⟩, hQ w w' hlater hQw⟩, fun hp => ?_⟩
  rw [hunit] at h hu
  have hle : .supertypes ≤ rule.phase := Phase.supertypes_le_of_rule? hrule
  refine ⟨hreg, fun d hd _ => (h.le_own_iff hu).mpr (Or.inr ⟨?_, hle⟩),
    fun _ _ => Or.inl ((h.le_below_iff hu).mpr (Or.inr ⟨hmem, hle⟩))⟩
  rcases List.mem_append.mp hd with hd | hd
  · obtain ⟨ha, hne⟩ := (hpath d).mp hd
    rw [← hunit] at ha hwf
    refine (hroute.ancestors hwf (Or.inr hmem) ha).resolve_left ?_
    rw [hne]
    exact Bool.false_ne_true
  · rw [List.mem_singleton.mp hd]
    exact Or.inr hmem

/-- The phases of a request that may count on the supertype phase. -/
theorem runPhases_ready {phases : List Phase} {Q : World → Prop}
    (hquiet : setup.Quiet) (hg : g.lock = .ofUnit goal.unit.id)
    (hpath : ∀ a, a ∈ goal.path ↔
      a ∈ goal.unit.ancestors goal.target ∧ a.isRoot = false)
    (htarget : goal.unit.isEligible goal.target = true) (hQ : Lasting Q)
    (hready : ∀ w, Q w → strict → Ready goal w) :
    Triple (fun w => (Underway strict goal w ∧ Q w) ∧ t.Alike w.thread)
      (Action.runPhases setup goal g cancellable phases)
      (fun _ w => (Underway strict goal w ∧ Q w) ∧ t.Alike w.thread)
      fun w => Underway strict goal w ∧ Q w :=
  AdvancesBy.keeps (runPhases_advances (S := Onward) (T := fun _ _ => True)
    (fun _ hw => hw.1) (fun _ => lasting_const True) fun _ _ =>
      (runPhase hquiet hg hpath htarget hQ fun w hw hstrict =>
        Or.inr (hready w hw hstrict)).post fun _ _ _ _ => trivial)

/-- The phases of a request that begin with the supertype phase. -/
theorem runPhases_first {phases : List Phase} (hquiet : setup.Quiet)
    (hg : g.lock = .ofUnit goal.unit.id)
    (hpath : ∀ a, a ∈ goal.path ↔
      a ∈ goal.unit.ancestors goal.target ∧ a.isRoot = false)
    (htarget : goal.unit.isEligible goal.target = true)
    (hfirst : phases = [] ∨ ∃ rest, phases = .supertypes :: rest) :
    Triple (fun w => Underway strict goal w ∧ t.Alike w.thread)
      (Action.runPhases setup goal g cancellable phases)
      (fun _ w => Underway strict goal w ∧ t.Alike w.thread)
      (Underway strict goal) := by
  rcases hfirst with rfl | ⟨rest, rfl⟩
  · exact .pure fun _ hw => hw
  have hfirst : Triple (fun w => (Underway strict goal w ∧ True) ∧
      t.Alike w.thread) (Action.runPhase setup goal g cancellable .supertypes)
      (fun _ w => ((Underway strict goal w ∧ True) ∧ t.Alike w.thread) ∧
        _) _ :=
    (runPhase hquiet hg hpath htarget (lasting_const True) fun _ _ _ =>
      Or.inl rfl).triple
  have hcheck : Triple (fun w => (Underway strict goal w ∧ True) ∧
      t.Alike w.thread) (checkCancelled cancellable .supertypes)
      (fun _ w => (Underway strict goal w ∧ True) ∧ t.Alike w.thread)
      (Underway strict goal) := .checkCancelled fun _ hw => hw.1.1
  refine .bind (.bind (hcheck.pre fun _ hw => ⟨⟨hw.1, trivial⟩, hw.2⟩)
    fun _ => hfirst.conseq (fun _ hw => hw) (fun _ _ hw => hw) fun _ hw => hw.1)
    fun _ => ?_
  exact (runPhases_ready hquiet hg hpath htarget (lasting_ready goal)
    fun _ hw _ => hw).conseq (fun _ hw => ⟨⟨hw.1.1.1, hw.2 rfl⟩, hw.1.2⟩)
      (fun _ _ hw => ⟨hw.1.1, hw.2⟩) fun _ hw => hw.1

/-- What is marked as a whole has marked the classes inside of classes. -/
theorem below_of_around (hw : w.Resolving strict) (hu : w.Registered u)
    {a d : DeclId} (hd : u.HasClause d) (hlocal : u.isLocal d = false)
    (heligible : ∀ e ∈ u.ancestors d, u.isEligible e = true)
    (ha : .supertypes ≤ w.below u a) (hroot : a.isRoot = false)
    (had : a ∈ u.ancestors d) : .supertypes ≤ w.below u d := by
  have hwf := hw.grounded.coherent.wellFormed hu
  induction d using hwf.parent_induction with
  | top d hp =>
      rw [CompilationUnit.WellFormed.ancestors_of_no_parent hp] at had
      cases had
  | step d q hq ih =>
      rw [hwf.ancestors_of_parent hq] at had heligible
      have hqroot : q.isRoot = false := by
        rcases List.mem_cons.mp had with rfl | had
        · exact hroot
        · exact Bool.eq_false_iff.mpr fun h =>
            not_mem_ancestors_root hwf h a had
      obtain ⟨hqclass, hqlocal⟩ := hd.parent hwf hlocal hq hqroot
        (heligible q (List.mem_cons_self ..))
      refine hw.inside u q d hu hqclass hq hd.eligible hlocal ?_
      rcases List.mem_cons.mp had with rfl | had
      · exact ha
      · exact ih hqclass hqlocal
          (fun e he => heligible e (List.mem_cons_of_mem _ he)) had

end Resolving

/-- Whatever is at or around the target of a request that the markers do
not answer goes through the phases. -/
theorem eligible_of_unanswered {phase : Phase} (hw : w.Coherent)
    (hu : w.Registered goal.unit) (hfile : goal.isFile = false)
    (htarget : (goal.unit.decl? goal.target).isSome)
    (h : ¬ phase ≤ w.current goal) {a : DeclId}
    (ha : a ∈ goal.target :: goal.unit.ancestors goal.target) :
    goal.unit.isEligible a = true := by
  have hwf := hw.wellFormed hu
  have hindex : a.index < goal.unit.size := by
    obtain ⟨x, hx⟩ := Option.isSome_iff_exists.mp htarget
    have hsize := CompilationUnit.index_lt_size hx
    rcases List.mem_cons.mp ha with rfl | ha
    · exact hsize
    · exact Nat.lt_trans (hwf.index_lt_of_mem_ancestors ha) hsize
  have hx : goal.unit.decl? a = some goal.unit.decls[a.index] :=
    List.getElem?_eq_getElem hindex
  refine Bool.of_not_eq_false fun hne => h ?_
  have hbelow := (hw.bodies_le hu hx hne).2
  have hreached := (le_reached_iff (p := .bodies) hfile (by decide)).mpr
    (Or.inl ⟨a, ha, hbelow⟩)
  exact Phase.le_trans (by cases phase <;> decide) hreached

-- ================================================================ requests

/-- The markers answer the supertype phase for a designation, but not for
all classes of its chain. -/
def Misleads (w : World) (goal : Designation) : Prop :=
  .supertypes ≤ w.current goal ∧ ∃ d ∈ goal.path ++ [goal.target],
    goal.unit.HasClause d ∧ ¬ .supertypes ≤ w.own goal.unit d

instance (w : World) (goal : Designation) : Decidable (w.Misleads goal) :=
  inferInstanceAs (Decidable (_ ∧ _))

namespace Resolving

variable {strict : Prop} {setup : Setup} {g : Guard} {t : Thread}
  {phase : Phase} {cancellable : Bool}

/-- Where markers do not mislead, later phases may count on the supertype
phase that they answer. -/
theorem ready (hw : w.Resolving strict) (hu : w.Registered goal.unit)
    (hfile : goal.isFile = false)
    (heligible : ∀ a ∈ goal.target :: goal.unit.ancestors goal.target,
      goal.unit.isEligible a = true)
    (htrust : ¬ w.Misleads goal) (hcurrent : .supertypes ≤ w.current goal) :
    Ready goal w where
  registered := hu
  chain := fun d hd hclass => Classical.not_not.mp fun hlt =>
    htrust ⟨hcurrent, d, hd, hclass, hlt⟩
  whole := by
    intro hclass hlocal
    rcases (le_reached_iff hfile (by decide)).mp hcurrent with
      ⟨a, ha, hbelow⟩ | ⟨hleaf, -⟩
    · refine Or.inl ?_
      rcases List.mem_cons.mp ha with rfl | hanc
      · exact hbelow
      · have hroot : a.isRoot = false := by
          refine Bool.eq_false_iff.mpr fun hroot => ?_
          rw [DeclId.eq_root hroot] at hbelow ha
          exact hw.file goal.unit hu (heligible _ ha) hbelow
        exact hw.below_of_around hu hclass hlocal
          (fun e he => heligible e (List.mem_cons_of_mem _ he)) hbelow hroot hanc
    · exact Or.inr hleaf

/-- What is done under the lock of the unit, if there are no phases to run
or they may count on the supertype phase. -/
theorem resolveLocked_ready {Q : World → Prop} (hquiet : setup.Quiet)
    (hg : g.lock = .ofUnit goal.unit.id)
    (hpath : ∀ a, a ∈ goal.path ↔
      a ∈ goal.unit.ancestors goal.target ∧ a.isRoot = false)
    (hQ : Lasting Q) (hready : goal.isFile = false →
      goal.unit.isEligible goal.target = true ∧
        ∀ w, Q w → strict → Ready goal w) :
    Triple (fun w => (Underway strict goal w ∧ Q w) ∧ t.Alike w.thread)
      (Action.resolveLocked setup goal phase cancellable g)
      (fun _ w => (Underway strict goal w ∧ Q w) ∧ t.Alike w.thread)
      (Underway strict goal) := by
  have hI := (((idle strict).and_registered goal.unit).and_lasting hQ).alike t
  refine hI.resolveLocked (fun _ hw => hw.1.1)
    (hI.fileWork fun _ hw => hw.1.1.2)
    (((keepsFile goal.unit).and_lasting (fun _ hw => hw.2) hQ).alike t)
    fun hfile current => ?_
  obtain ⟨htarget, hready⟩ := hready hfile
  exact (runPhases_ready hquiet hg hpath htarget hQ hready).conseq
    (fun _ hw => hw.1.1) (fun _ _ hw => hw) fun _ hw => hw.1

/-- What is done under the lock of the unit, if the supertype phase is
still to be run. -/
theorem resolveLocked_first (hquiet : setup.Quiet)
    (hg : g.lock = .ofUnit goal.unit.id)
    (hpath : ∀ a, a ∈ goal.path ↔
      a ∈ goal.unit.ancestors goal.target ∧ a.isRoot = false)
    (hfile : goal.isFile = false)
    (htarget : goal.unit.isEligible goal.target = true) :
    Triple (fun w => (Underway strict goal w ∧
        ¬ .supertypes ≤ w.current goal) ∧ t.Alike w.thread)
      (Action.resolveLocked setup goal phase cancellable g)
      (fun _ => Underway strict goal) (Underway strict goal) := by
  have hI := (((idle strict).and_registered goal.unit).and_unanswered
    (fun _ hw => hw.2) hfile (by decide : _ < Phase.supertypes)).alike t
  have hpart : KeepsFile (Underway strict goal) goal.unit :=
    keepsFile goal.unit
  have hkeeps := (hpart.and_unanswered (fun _ hw => hw.2) hfile
    (by decide : _ < Phase.supertypes)).alike t
  have hnot : goal.isFile ≠ true := Bool.eq_false_iff.mp hfile
  refine resolveLocked_triple (J := fun w => (Underway strict goal w ∧
    ¬ .supertypes ≤ w.current goal) ∧ t.Alike w.thread) ?_
    (fun _ hw => hw.1.1) (fun h => absurd h hnot) (fun h => absurd h hnot)
    (fun _ w hw _ => (hI.counters w w.counters.countAlreadyResolved
      (Nat.le_refl _) hw).1.1) ?_
  · exact (hI.resolveImports hkeeps).conseq (fun _ hw => hw)
      (fun _ _ hw => hw.1) fun _ hw => hw.1.1
  · intro _ current w hw
    obtain ⟨q, hq⟩ := exists_reached_eq w goal.unit goal.target
    have hlt : current < .supertypes := by
      rw [← hw.2.2]
      exact Phase.lt_of_not_le hw.1.1.2
    exact ((runPhases_first hquiet hg hpath htarget
      (Phase.stepsTo_eq_nil_or_cons hlt)).post fun _ _ hw => hw.1) w
        ⟨hw.1.1.1, hw.1.2⟩

/-- A request that markers do not mislead. -/
theorem request {allowLocal : Bool} {s : Symbol} (hquiet : setup.Quiet)
    {w : World} (hw : w.Resolving strict)
    (htrust : strict → ∀ u x goal, w.registry.declaration s = .ok (u, x) →
      u.designateWith allowLocal s.decl = .ok goal →
      w.current goal < phase → ¬ w.Misleads goal) :
    (Action.request setup allowLocal s phase cancellable w).2.Resolving
      strict := by
  have hcoherent := hw.grounded.coherent
  have hcounted := (idle strict).counters w w.counters.countRequest
    (Nat.le_refl _) hw
  rcases request_cases setup allowLocal s phase w.registry with
    ⟨r, hrun⟩ | ⟨u, x, goal, hs, -, hgoal, hrun⟩
  · rw [hrun w cancellable rfl]
    exact hcounted
  rw [hrun w cancellable rfl]
  have htrust := fun hstrict => htrust hstrict u x goal hs hgoal
  have hpath := fun a => CompilationUnit.mem_path_iff hgoal (a := a)
  have hu := (hcoherent.registered (Registry.declaration_eq_ok_iff.mp hs).1).1
  have hsome := CompilationUnit.target_isSome_of_designateWith
    (hcoherent.wellFormed hu) hgoal
  obtain rfl := CompilationUnit.unit_of_designateWith hgoal
  have hI := (idle strict).and_registered goal.unit
  -- what has to hold when the lock is taken
  suffices hunder : Triple (fun v => v =
      { w with counters := w.counters.countRequest } ∧ ¬ phase ≤ v.current goal)
      (Action.resolveUnderLock setup goal phase cancellable)
      (fun _ => Underway strict goal) (Underway strict goal) by
    refine (Triple.world (I := Resolving strict) ((hI.resolveDesignation
      (P := fun v => v = { w with counters := w.counters.countRequest })
      (Q := Underway strict goal) (fun v hv _ => ?_) hunder).conseq
      (fun _ hv => hv) (fun _ _ hv => hv.1) fun _ hv => hv.1) rfl)
    exact hI.counters v _ (Nat.le_refl _) (hv ▸ ⟨hcounted, hu⟩)
  have hunanswered : ∀ v : World,
      (v = { w with counters := w.counters.countRequest } ∧
        ¬ phase ≤ v.current goal) → ¬ phase ≤ w.current goal := by
    rintro v ⟨rfl, h⟩
    exact h
  have heligible : ∀ v : World,
      (v = { w with counters := w.counters.countRequest } ∧
        ¬ phase ≤ v.current goal) → goal.isFile = false →
      ∀ a ∈ goal.target :: goal.unit.ancestors goal.target,
        goal.unit.isEligible a = true := fun v hv hfile a ha =>
    eligible_of_unanswered hcoherent hu hfile (hsome hfile) (hunanswered v hv) ha
  rintro v hv
  by_cases hfirst : goal.isFile = false ∧ ¬ .supertypes ≤ w.current goal
  · obtain ⟨hfile, hcurrent⟩ := hfirst
    have htarget := heligible v hv hfile goal.target (List.mem_cons_self ..)
    have hI' := hI.and_unanswered (fun _ hw => hw.2) hfile
      (by decide : _ < Phase.supertypes)
    refine (resolveUnderLock_triple (P := fun w => Underway strict goal w ∧
      ¬ .supertypes ≤ w.current goal) hI'.thread hI.thread hI.thread
      (fun _ hw => hw.1) fun g hg w hw => ?_) v (hv.1 ▸ ⟨⟨hcounted, hu⟩, hcurrent⟩)
    exact resolveLocked_first (t := w.thread) hquiet hg hpath hfile htarget w
      ⟨hw, .refl _⟩
  · have hready : strict → goal.isFile = false → Ready goal w :=
      fun hstrict hfile => hw.ready hu hfile (heligible v hv hfile)
        (htrust hstrict (Phase.lt_of_not_le (hunanswered v hv)))
        (Classical.not_not.mp fun hlt => hfirst ⟨hfile, hlt⟩)
    have hQ : Lasting fun w => strict → goal.isFile = false → Ready goal w :=
      .all fun _ => .all fun _ => lasting_ready goal
    have hI' := hI.and_lasting hQ
    refine (resolveUnderLock_triple (P := fun w => Underway strict goal w ∧
      (strict → goal.isFile = false → Ready goal w)) hI'.thread hI.thread
      hI.thread (fun _ hw => hw.1) fun g hg w hw => ?_) v (hv.1 ▸
        ⟨⟨hcounted, hu⟩, fun hstrict hfile => lasting_ready goal w _
          (.of_eq rfl rfl (Nat.le_refl _)) (hready hstrict hfile)⟩)
    refine ((resolveLocked_ready (t := w.thread) hquiet hg hpath hQ ?_).post
      fun _ _ hw => hw.1.1) w ⟨hw, .refl _⟩
    exact fun hfile => ⟨heligible v hv hfile goal.target
      (List.mem_cons_self ..), fun _ hQ hstrict => hQ hstrict hfile⟩

end Resolving

end World

-- ============================================================== histories

/-- The call is not a request that markers mislead: if the supertype phase
is answered for what it designates, the classes of the chain are marked. -/
def Trusting (w : World) : Call → Prop
  | .resolve allowLocal s phase _ =>
    match w.registry.declaration s with
    | .error _ => True
    | .ok (u, _) =>
      match u.designateWith allowLocal s.decl with
      | .error _ => True
      | .ok goal => w.current goal < phase → ¬ w.Misleads goal
  | _ => True

instance (w : World) : (call : Call) → Decidable (Trusting w call)
  | .resolve allowLocal s phase _ =>
    match hs : w.registry.declaration s with
    | .error _ => .isTrue (by simp only [Trusting, hs])
    | .ok (u, _) =>
      match hgoal : u.designateWith allowLocal s.decl with
      | .error _ => .isTrue (by simp only [Trusting, hs, hgoal])
      | .ok goal =>
        decidable_of_iff (w.current goal < phase → ¬ w.Misleads goal)
          (by simp only [Trusting, hs, hgoal])
  | .addUnit _ | .replaceUnit _ _ | .addSource _ _ _ | .lookUp _
  | .resolveFile _ | .otherTakes _ | .otherReleases _ | .setToken _ =>
    .isTrue trivial

/-- Markers say about clauses what they should in every world that is
reached, and more where no request was misled. -/
theorem Reaches.resolving {setup : Setup} {allowed : World → Call → Prop}
    {strict : Prop} (hquiet : setup.Quiet)
    (htrust : strict → ∀ w call, allowed w call → Trusting w call) {w : World}
    (h : Reaches setup allowed w) : w.Resolving strict := by
  have hI := World.Resolving.idle strict
  refine (h.invariant hquiet (fun r hr => ?_) (fun v w hc hv h => ?_) hI.thread
    (fun w allowLocal s phase cancellable _ hw hcall => ?_)
    fun w id _ hw => ?_).2
  · have hraw : ∀ u d, u.isEligible d = true →
        (World.start r).own u d = .raw ∧ (World.start r).below u d = .raw :=
      fun u d he => raw_of_fresh rfl he
    refine ⟨.start hr, fun u d _ hd hle => ?_, fun u d _ hd hle => ?_,
      fun u d m _ hd _ _ _ hle => ?_, fun u _ he hle => ?_⟩
    · rw [(hraw u d hd.eligible).1] at hle
      exact absurd hle (by decide)
    · rw [(hraw u d hd.eligible).2] at hle
      exact absurd hle (by decide)
    · rw [(hraw u d hd.eligible).2] at hle
      exact absurd hle (by decide)
    · rw [(hraw u .root he).2] at hle
      exact absurd hle (by decide)
  · refine hv.of_kept (hv.grounded.reregisters h) (fun u _ _ => ⟨fun d => ?_,
      fun d _ => ?_, fun m => ?_, fun _ => ?_⟩) fun u d hu hnew =>
        h.fresh hc hu hnew d
    · rw [clause, clause, slots, slots, h.state_eq]
    · rw [World.own, World.own, World.below, World.below, h.state_eq]
      exact ⟨rfl, rfl⟩
    · rw [World.below, World.below, h.state_eq]
      exact Phase.le_refl _
    · rw [World.below, World.below, h.state_eq]
  · refine hw.request hquiet fun hstrict u x goal hs hgoal => ?_
    have htrusting := htrust hstrict w _ hcall
    unfold Trusting at htrusting
    simpa only [hs, hgoal] using htrusting
  · exact (hI.resolveFile World.Resolving.keepsFile).world hw

/-- A class or an alias that stands at the supertype phase has its clause
resolved, whatever was registered, replaced, looked up and asked for. One
that stands further has it resolved too, if no request was misled by
markers that answer for a target but not for the classes around it. -/
theorem resolvedClause_of_marked {setup : Setup} (hquiet : setup.Quiet) :
    (∀ w, Reaches setup anyCall w → ∀ u d, w.Registered u → u.HasClause d →
      w.own u d = .supertypes → w.ResolvedClause u d) ∧
    ∀ w, Reaches setup Trusting w → ∀ u d, w.Registered u → u.HasClause d →
      .supertypes ≤ w.own u d → w.ResolvedClause u d := by
  refine ⟨fun w hw u d hu hd hown => ?_, fun w hw u d hu hd hle => ?_⟩
  · have hI : w.Resolving False := hw.resolving hquiet nofun
    exact hI.clause u d hu hd (hown ▸ Phase.le_refl _) (Or.inr hown)
  · have hI : w.Resolving True := hw.resolving hquiet fun _ _ _ h => h
    exact hI.clause u d hu hd hle (Or.inl trivial)

/-- A function in a nested class is asked for before the class is reached:
the class around it stands beyond the supertype phase, with its clause
resolved. -/
theorem resolvedClause_of_marked_nestedBase :
    let w := World.after (.plain .default) [.addUnit .nestedBase,
      .resolve false ⟨⟨0⟩, ⟨4⟩⟩ .types false]
    ∃ u ∈ w.registry.unit? ⟨0⟩, u.HasClause ⟨2⟩ ∧ w.own u ⟨2⟩ = .types ∧
      w.ResolvedClause u ⟨2⟩ := by
  intro w
  have hquiet := Setup.quiet_plain .default
  have hw : Reaches (.plain .default) Trusting w :=
    .step _ (.resolve false ⟨⟨0⟩, ⟨4⟩⟩ .types false)
      (.step _ (.addUnit .nestedBase) (.start .empty (Or.inl rfl)) trivial)
      (by decide +kernel)
  obtain ⟨u, hu, hd, hown⟩ : ∃ u ∈ w.registry.unit? ⟨0⟩, u.HasClause ⟨2⟩ ∧
      w.own u ⟨2⟩ = .types := by decide +kernel
  refine ⟨u, hu, hd, hown, (resolvedClause_of_marked hquiet).2 w hw u ⟨2⟩ ?_ hd
    (by rw [hown]; decide)⟩
  exact ((hw.coherent hquiet).registered hu).1

/-- A class that extends an enum one of whose entries has a body. -/
def UnitSpec.enumBody : UnitSpec :=
  .ofEntries "a.kt" [.member 0 (.classNamed "A" ["E"]),
    .member 0 (.ofForm .enumClass "E"), .member 2 (.ofForm .enumEntry "X"),
    .member 3 { DeclSpec.ofForm .anonymousObject "" with
      supertypes := [.named "Base"] }, .member 0 (.classNamed "Base" [])]

/-- A class is marked with its clause as it was written: one that is around
a class that a session reached, when a member of the latter is asked for;
and one that is out of place, in the body of an enum entry that a session
passed. -/
theorem not_resolvedClause :
    let reached := World.after (.plain .default) [.addUnit .nestedBase,
      .resolve false ⟨⟨0⟩, ⟨1⟩⟩ .supertypes false,
      .resolve false ⟨⟨0⟩, ⟨4⟩⟩ .types false]
    let passed := World.after (.plain .default) [.addUnit .enumBody,
      .resolve false ⟨⟨0⟩, ⟨1⟩⟩ .supertypes false]
    (∃ u ∈ reached.registry.unit? ⟨0⟩, u.HasClause ⟨2⟩ ∧
      reached.own u ⟨2⟩ = .types ∧ ¬ reached.ResolvedClause u ⟨2⟩) ∧
    ∃ u ∈ passed.registry.unit? ⟨0⟩, u.isClassLike ⟨4⟩ = true ∧
      u.isEligible ⟨4⟩ = true ∧ passed.own u ⟨4⟩ = .supertypes ∧
      ¬ passed.ResolvedClause u ⟨4⟩ := by
  decide +kernel

end StagedResolve
