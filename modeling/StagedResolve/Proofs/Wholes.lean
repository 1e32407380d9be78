/-
Wholes: how far the marker of a whole reaches down.

# Every phase, every declaration

What a marker of a whole stands for is backed one step down
(`World.BackedIn`): by the own marker, and by the wholes directly inside.
That was told of phases that run on demand, because the others concern
files. No whole is ever marked with one of the others: a walk is
committed for a phase that it ran, a session marks for the supertype
phase, and what does not go through the phases stands at the end from the
start (`World.Deep`). So the restriction can be dropped, and so can the
one to declarations that go through the phases.

# All the way down

Type parameters are marked as wholes by walks that do not look inside.
Where they have nothing inside, the steps can be put together: a phase
that a whole has reached is reached by everything that is found from it
through members that go through the phases, executable code apart until
the bodies are resolved (`CompilationUnit.Inside`).
-/
import StagedResolve.Proofs.Itineraries
import StagedResolve.Proofs.Vouching

namespace StagedResolve

open StagedResolve.Action World

namespace World

variable {v w : World} {u : CompilationUnit}

/-- A whole that was marked has reached the first phase that runs on
demand. -/
def DeepIn (w : World) (u : CompilationUnit) : Prop :=
  ∀ d, .raw < w.below u d → .supertypes ≤ w.below u d

/-- Where the markers of wholes have not moved. -/
theorem DeepIn.of_below (hv : v.DeepIn u)
    (hbelow : ∀ d, w.below u d = v.below u d) : w.DeepIn u := by
  intro d hd
  rw [hbelow] at hd ⊢
  exact hv d hd

/-- Where nobody has touched a unit. -/
theorem DeepIn.of_fresh (h : ∀ d, w.states.find? (u.symbol d) = none) :
    w.DeepIn u := by
  intro d hd
  have hstate : w.below u d = ((u.decl? d).map Declaration.startPhase).getD
      .raw := by
    unfold below state
    rw [h d]
    cases u.decl? d <;> rfl
  rw [hstate] at hd ⊢
  cases hx : u.decl? d with
  | none =>
      rw [hx] at hd
      exact absurd hd (by decide)
  | some x =>
      rw [hx] at hd
      simp only [Option.map_some, Option.getD_some, Declaration.startPhase]
        at hd ⊢
      split at hd
      · exact absurd hd (by decide)
      · next he =>
        rw [if_neg he]
        decide

/-- Marking wholes with a phase that runs on demand. -/
theorem DeepIn.rewrites {visits : Visits} {phase : Phase} (hw : w.DeepIn u)
    (hu : w.Registered u) (hphase : .supertypes ≤ phase)
    (h : Rewrites u (visits.committed phase) w v) : v.DeepIn u := by
  intro d hd
  -- the least phase above the first one was reached before or just now
  have himports : .imports ≤ v.below u d := hd
  rcases (h.le_below_iff hu).mp himports with hbefore | ⟨hmem, -⟩
  · exact Phase.le_trans (hw d hbefore) (h.later.below u d hu)
  · exact (h.le_below_iff hu).mpr (Or.inr ⟨hmem, hphase⟩)

/-- The markers of wholes are backed, and have all reached the first phase
that runs on demand if they have reached any. -/
structure Deep (w : World) : Prop where
  backed : w.Backed
  unit : ∀ u, w.Registered u → w.DeepIn u

namespace Deep

/-- It does not look at more than the markers of wholes. -/
theorem of_below (hv : v.Deep) (hw : w.Backed)
    (hbelow : ∀ u d, v.Registered u → w.below u d = v.below u d)
    (hfresh : ∀ u d, w.Registered u → ¬ v.Registered u →
      w.states.find? (u.symbol d) = none) : w.Deep := by
  refine ⟨hw, fun u hu => ?_⟩
  by_cases hreg : v.Registered u
  · exact (hv.unit u hreg).of_below fun d => hbelow u d hreg
  · exact .of_fresh fun d => hfresh u d hu hreg

/-- Where nothing that it looks at has moved. -/
theorem unmoved (hv : v.Deep) (h : v.Unmoved w) (hw : w.Backed)
    (hbelow : ∀ u d, v.Registered u → w.below u d = v.below u d) : w.Deep :=
  hv.of_below hw hbelow h.fresh

/-- A state is set that leaves the marker of the whole. -/
theorem setState {d : DeclId} {s : DeclState} (hw : w.Deep)
    (hu : w.Registered u) (hb : (w.setState u d s).Backed)
    (hbelow : s.below = w.below u d) : (w.setState u d s).Deep := by
  refine hw.of_below hb (fun v e hv => ?_) fun v e hv hnew => absurd hv hnew
  rw [below, state_setState hu hv]
  split
  · next h =>
    obtain ⟨rfl, rfl⟩ := h
    exact hbelow
  · rfl

/-- Wholes of one unit are marked. -/
theorem rewrites {visits : Visits} {phase : Phase} (hw : w.Deep)
    (hu : w.Registered u) (hphase : .supertypes ≤ phase)
    (h : Rewrites u (visits.committed phase) w v) (hb : v.Backed) :
    v.Deep := by
  refine ⟨hb, fun c hc => ?_⟩
  have hreg := h.registered_iff.mp hc
  by_cases hcu : c = u
  · exact hcu ▸ (hw.unit u hu).rewrites hu hphase h
  · refine (hw.unit c hreg).of_below fun d => ?_
    rw [below, below, h.state c d hreg, if_neg hcu]

/-- Steps that mark nothing leave it. -/
theorem idle : Idle Deep where
  coherent := fun _ hw => hw.backed.grounded.coherent
  classifier := fun _ k hw =>
    hw.unmoved (unmoved_classifier hw.backed.grounded.coherent k)
      (Backed.idle.classifier _ k hw.backed) fun _ _ _ => rfl
  counters := fun _ c hc hw => hw.unmoved (unmoved_of_eq rfl rfl hc)
    (Backed.idle.counters _ c hc hw.backed) fun _ _ _ => rfl
  touches := fun _ _ hv h => hv.unmoved h.unmoved
    (Backed.idle.touches _ _ hv.backed h) h.below
  slots := fun w u d s hw hu hd hclause => hw.setState hu
    (Backed.idle.slots w u d s hw.backed hu hd hclause) rfl
  session := fun _ s hw => hw.unmoved (unmoved_of_eq rfl rfl (Nat.le_refl _))
    (Backed.idle.session _ s hw.backed) fun _ _ _ => rfl
  thread := fun _ t hw => hw.unmoved (unmoved_of_eq rfl rfl (Nat.le_refl _))
    (Backed.idle.thread _ t hw.backed) fun _ _ _ => rfl

/-- What a session marks, it marks for the supertype phase. -/
theorem members (g : Guard) (u : CompilationUnit) (owner : DeclId)
    (hg : g.lock = .ofUnit u.id) :
    Triple (fun w => w.Deep ∧ w.Registered u) (markMembers g u owner)
      (fun _ w => w.Deep ∧ w.Registered u) fun _ => False := by
  rintro w ⟨hw, hu⟩
  have hbacked := Backed.members g u owner hg w ⟨hw.backed, hu⟩
  obtain ⟨w', hrun, h⟩ := Visits.commit_run (v := u.passedBy owner)
    (p := .supertypes) hg hu fun d hd =>
      (CompilationUnit.passed_of_mem (hd.resolve_left List.not_mem_nil)).isSome
  rw [markMembers_eq, hrun] at hbacked ⊢
  exact ⟨hw.rewrites hu (Phase.le_refl _) h hbacked.1, hbacked.2⟩

/-- It survives results being written back. -/
theorem tended : Tended Deep fun _ _ => True :=
  { idle with
    referring := fun _ hw => hw.backed.grounded.referring
    fill := fun w u x c r hw hu hid hx hk he hX hfits hlt =>
      hw.setState hu (Backed.tended.fill w u x c r hw.backed hu hid hx hk he hX
        hfits hlt) rfl
    members := members }

/-- It survives walks being committed. -/
theorem committed : Committed Deep :=
  fun _ _ _ _ _ _ _ hrule hw hu hroute h => hw.rewrites hu
    (Phase.supertypes_le_of_rule? hrule) h (hw.backed.commit hu hrule hroute h)

/-- It survives what is written to a file. -/
theorem keepsFile (u : CompilationUnit) :
    KeepsFile (fun w => w.Deep ∧ w.Registered u) u where
  imports := fun w table errors hw hd ht =>
    have hb := (Backed.keepsFile u).imports w table errors
      ⟨hw.1.backed, hw.2⟩ hd ht
    ⟨hw.1.setState hw.2 hb.1 rfl, hb.2⟩
  raise := fun w p hw hd =>
    have hb := (Backed.keepsFile u).raise w p ⟨hw.1.backed, hw.2⟩ hd
    ⟨hw.1.setState hw.2 hb.1 rfl, hb.2⟩

/-- The marker of a whole is no further than the own marker, the file
apart. -/
theorem below_le_own (hw : w.Deep) (hu : w.Registered u) {d : DeclId}
    {x : Declaration} (hx : u.decl? d = some x) : w.below u d ≤ w.own u d := by
  have hcoherent := hw.backed.grounded.coherent
  by_cases he : u.isEligible d = true
  · by_cases hraw : .raw < w.below u d
    · exact (hw.backed.unit u hu).own d _ he (hw.unit u hu d hraw)
        (Phase.le_refl _)
    · exact Phase.le_trans (Phase.le_of_not_lt hraw) (Phase.raw_le _)
  · have hbodies := hcoherent.bodies_le hu hx (Bool.eq_false_iff.mpr he)
    exact Phase.le_trans (Phase.le_bodies _) hbodies.1

end Deep

end World

-- =============================================================== histories

/-- Markers of wholes are backed and deep in every world that is reached. -/
theorem Reaches.deep {setup : Setup} {allowed : World → Call → Prop}
    (hquiet : setup.Quiet) {w : World} (h : Reaches setup allowed w) :
    w.Deep := by
  have hI := World.Deep.idle
  have hbacked := World.Backed.idle
  refine (h.invariant (P := World.Deep) hquiet (fun r hr => ?_)
    (fun v w hc hv h => ?_) hI.thread
    (fun w allowLocal s phase cancellable _ hw _ => ?_)
    fun w id _ hw => (hI.resolveFile World.Deep.keepsFile).world hw).2
  · exact ⟨⟨.start hr, fun u _ => .of_raw fun d he => raw_of_fresh rfl he⟩,
      fun u _ => .of_fresh fun _ => rfl⟩
  · have hstate : ∀ u d, w.below u d = v.below u d := fun u d => by
      rw [World.below, World.below, h.state_eq]
    refine hv.of_below (hv.backed.of_below (hv.backed.grounded.reregisters h)
      (fun u d _ => ?_) (fun u d _ => hstate u d) fun u d hu hnew =>
        h.fresh hc hu hnew d) (fun u d _ => hstate u d)
      fun u d hu hnew => h.fresh hc hu hnew d
    rw [World.own, World.own, h.state_eq]
    exact Phase.le_refl _
  · exact (World.Deep.tended.request hI World.Deep.committed
      World.Deep.keepsFile hquiet).world hw

namespace CompilationUnit

/-- A member that goes through the phases, and is not in executable code
unless the bodies are meant. -/
structure HoldsFor (u : CompilationUnit) (p : Phase) (d m : DeclId) :
    Prop where
  child : m ∈ u.children d
  eligible : u.isEligible m = true
  place : u.isLocal m = false ∨ p = .bodies

/-- What is found from a declaration through such members. -/
abbrev Inside (u : CompilationUnit) (p : Phase) : DeclId → DeclId → Prop :=
  Relation.ReflTransGen (u.HoldsFor p)

/-- Type parameters have nothing inside. -/
def BareParameters (u : CompilationUnit) : Prop :=
  ∀ d, u.kind? d = some .typeParameter → u.children d = []

end CompilationUnit

/-- It is enough to look at the declarations. -/
theorem CompilationUnit.BareParameters.of_decls {u : CompilationUnit}
    (h : ∀ x ∈ u.decls, x.kind = .typeParameter → x.children = []) :
    u.BareParameters := by
  intro d hd
  cases hx : u.decl? d with
  | none => simp [CompilationUnit.kind?, hx] at hd
  | some x =>
      rw [CompilationUnit.kind?, hx] at hd
      rw [CompilationUnit.children, hx]
      exact h x (List.mem_of_getElem? hx) (Option.some.inj hd)

/-- A whole that has reached a phase has taken everything inside with it. -/
theorem World.Deep.le_below_of_inside {w : World} (hw : w.Deep)
    {u : CompilationUnit} (hu : w.Registered u) (hbare : u.BareParameters)
    {p : Phase} {d m : DeclId} (hd : u.isEligible d = true)
    (hp : p ≤ w.below u d) (h : u.Inside p d m) :
    u.isEligible m = true ∧ p ≤ w.below u m := by
  have hwf := hw.backed.grounded.coherent.wellFormed hu
  induction h with
  | refl => exact ⟨hd, hp⟩
  | @tail e m _ hstep ih =>
      obtain ⟨he, hle⟩ := ih
      refine ⟨hstep.eligible, ?_⟩
      have hkind : u.kind? e ≠ some .typeParameter := by
        intro hk
        have hmem := hstep.child
        rw [hbare e hk] at hmem
        cases hmem
      have hparent := (hwf.child_iff e m).mp hstep.child
      by_cases hraw : .raw < w.below u e
      · -- the whole is deep enough for the step, whatever the phase
        have hdeep := hw.unit u hu e hraw
        by_cases hlow : .supertypes ≤ p
        · exact (hw.backed.unit u hu).inside e m p hparent hkind he
            hstep.eligible hstep.place hlow hle
        · have hplace : u.isLocal m = false := hstep.place.resolve_right
            fun h => hlow (h ▸ by decide)
          exact Phase.le_trans (Nat.le_of_lt (Phase.lt_of_not_le hlow))
            ((hw.backed.unit u hu).inside e m .supertypes hparent hkind he
              hstep.eligible (Or.inl hplace) (Phase.le_refl _) hdeep)
      · exact Phase.le_trans hle (Phase.le_trans (Phase.le_of_not_lt hraw)
          (Phase.raw_le _))

/-- In every world that is reached, the marker of a whole is no further than
the own marker of the declaration, the file apart. And what the marker of a
whole has reached, so have both markers of everything that is found from the
declaration through members that go through the phases, executable code being
left out until the bodies are resolved. The unit has nothing inside of its
type parameters. -/
theorem markers_of_inside {setup : Setup} (hquiet : setup.Quiet) {w : World}
    (hw : Reaches setup anyCall w) {u : CompilationUnit} (hu : w.Registered u)
    (hbare : u.BareParameters) :
    (∀ d, (u.decl? d).isSome → d.isRoot = false →
      w.below u d ≤ w.own u d) ∧
    ∀ d p m, u.isEligible d = true → d.isRoot = false → p ≤ w.below u d →
      u.Inside p d m → p ≤ w.own u m ∧ p ≤ w.below u m := by
  have hdeep := hw.deep hquiet
  have hle : ∀ d, (u.decl? d).isSome → w.below u d ≤ w.own u d := by
    intro d hd
    obtain ⟨x, hx⟩ := Option.isSome_iff_exists.mp hd
    exact hdeep.below_le_own hu hx
  refine ⟨fun d hd _ => hle d hd, fun d p m hd _ hp hm => ?_⟩
  obtain ⟨he, hbelow⟩ := hdeep.le_below_of_inside hu hbare hd hp hm
  have hsome : (u.decl? m).isSome := by
    rw [CompilationUnit.isEligible, Option.any_eq_true] at he
    obtain ⟨x, hx, -⟩ := he
    rw [hx]
    rfl
  exact ⟨Phase.le_trans hbelow (hle m hsome), hbelow⟩

/-- A class whose bodies are resolved, with a local variable two steps down,
and its type parameter. -/
theorem markers_of_inside_genericClass :
    let w := World.after (.plain .default)
      [.addUnit .genericClass, .resolve false ⟨⟨0⟩, ⟨3⟩⟩ .bodies false]
    ∃ u ∈ w.registry.unit? ⟨0⟩, u.BareParameters ∧
      .bodies ≤ w.below u ⟨3⟩ ∧ u.Inside .bodies ⟨3⟩ ⟨5⟩ ∧
      .bodies ≤ w.own u ⟨5⟩ ∧ .bodies ≤ w.below u ⟨5⟩ ∧
      w.below u ⟨2⟩ ≤ w.own u ⟨2⟩ := by
  intro w
  obtain ⟨u, hu, hreg, hbelow, he, hparameter, hsteps⟩ :
      ∃ u ∈ w.registry.unit? ⟨0⟩, w.registry.unit? u.id = some u ∧
        .bodies ≤ w.below u ⟨3⟩ ∧ u.isEligible ⟨3⟩ = true ∧
        (u.decl? ⟨2⟩).isSome ∧
        (⟨4⟩ ∈ u.children ⟨3⟩ ∧ u.isEligible ⟨4⟩ = true) ∧
        ⟨5⟩ ∈ u.children ⟨4⟩ ∧ u.isEligible ⟨5⟩ = true := by
    decide +kernel
  have hkinds : ∀ u ∈ w.registry.unit? ⟨0⟩, ∀ x ∈ u.decls,
      x.kind = .typeParameter → x.children = [] := by
    decide +kernel
  have hbare : u.BareParameters := .of_decls (hkinds u hu)
  have hinside : u.Inside .bodies ⟨3⟩ ⟨5⟩ :=
    .tail (.single ⟨hsteps.1.1, hsteps.1.2, Or.inr rfl⟩)
      ⟨hsteps.2.1, hsteps.2.2, Or.inr rfl⟩
  obtain ⟨hown, hwhole⟩ := markers_of_inside (Setup.quiet_plain .default)
    (Reaches.after _ [.addUnit .genericClass,
      .resolve false ⟨⟨0⟩, ⟨3⟩⟩ .bodies false]) hreg hbare
  obtain ⟨hlocal, hlocal'⟩ := hwhole ⟨3⟩ .bodies ⟨5⟩ he rfl hbelow hinside
  exact ⟨u, hu, hbare, hbelow, hinside, hlocal, hlocal',
    hown ⟨2⟩ hparameter rfl⟩

end StagedResolve
