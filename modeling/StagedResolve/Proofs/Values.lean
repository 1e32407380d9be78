/-
Values: what markers say about signatures and types.

# What a marker stands for

A declaration that holds a value is one with a type of its own: a
function, a property, a parameter and the like. If everything around it
goes through the phases, and no type parameter is around it, then its own
marker tells how far it is (`World.InferredIn`): from the phase of types
on its signature is resolved, and from the phase of implicit types on it
has its type. Members of type parameters are left out because a walk that
passes a class marks its type parameters as wholes without looking at
their members.

# What is below

The marker of a whole speaks for declarations in executable code as well
once the bodies are resolved. And no walk passes a declaration that has no
members outside of executable code, so there its own marker speaks for what
is below it too, which is what makes an answer from the markers of such a
declaration as good as a walk.
-/
import StagedResolve.Proofs.Regularity
import StagedResolve.Proofs.Signatures

namespace StagedResolve

open StagedResolve.Action World

-- ============================================================ the carriers

namespace CompilationUnit

/-- A declaration that holds a value, in a regular unit: everything around
it goes through the phases, and none of that is a type parameter. -/
structure HoldsValue (u : CompilationUnit) (d : DeclId) : Prop where
  regular : u.Regular
  kind : (u.kind? d).any DeclKind.hasValueType = true
  below : d.isRoot = false
  eligible : ∀ a ∈ d :: u.ancestors d, u.isEligible a = true
  parameter : ∀ a ∈ u.ancestors d, u.kind? a ≠ some .typeParameter

variable {u : CompilationUnit} {d : DeclId}

/-- A declaration that holds a value is of none of the other kinds. -/
theorem HoldsValue.kind_ne (h : u.HoldsValue d) {k : DeclKind}
    (hk : k.hasValueType = false) : u.kind? d ≠ some k := by
  intro heq
  have hkind := h.kind
  rw [heq] at hkind
  exact absurd (hkind.symm.trans hk) (by decide)

/-- What is around a declaration outside of executable code is outside of
it as well. -/
theorem Regular.nonlocal_around (h : u.Regular) (hwf : u.WellFormed)
    (hd : u.isLocal d = false) :
    ∀ a ∈ d :: u.ancestors d, u.isLocal a = false := by
  induction d using hwf.parent_induction with
  | top d hp =>
      intro a ha
      rw [WellFormed.ancestors_of_no_parent hp] at ha
      rwa [List.mem_singleton.mp ha]
  | step d p hp ih =>
      intro a ha
      rcases List.mem_cons.mp ha with rfl | ha
      · exact hd
      · rw [hwf.ancestors_of_parent hp] at ha
        refine ih (Bool.eq_false_iff.mpr fun hlocal => ?_) a ha
        exact absurd ((h.inherits d p hp hlocal).symm.trans hd) (by decide)

end CompilationUnit

namespace World

variable {v w : World} {u : CompilationUnit}

-- =========================================================== what marks say

/-- What markers say about signatures and types, and about what is below a
declaration once the bodies are resolved. -/
structure InferredIn (w : World) (u : CompilationUnit) : Prop where
  signed : ∀ d, u.HoldsValue d → .types ≤ w.own u d → (w.slots u d).Signed
  typed : ∀ d, u.HoldsValue d → .implicitTypes ≤ w.own u d →
    (w.slots u d).Typed
  inside : ∀ d m, u.parent? m = some d → u.kind? d ≠ some .typeParameter →
    u.isEligible d = true → u.isEligible m = true →
    .bodies ≤ w.below u d → .bodies ≤ w.below u m
  leaf : ∀ d, u.Regular → d.isRoot = false → u.isEligible d = true →
    u.hasMembers d = false → .bodies ≤ w.own u d → .bodies ≤ w.below u d

/-- Every marker of a registered unit says what it should. -/
def Inferred (w : World) : Prop := ∀ u, w.Registered u → w.InferredIn u

/-- Only marks beyond the supertype phase count, not those of the file
itself, and slots may ripen. -/
theorem InferredIn.of_marks (hv : v.InferredIn u)
    (hown : ∀ d p, d.isRoot = false → .supertypes < p →
      (p ≤ w.own u d ↔ p ≤ v.own u d))
    (hbelow : ∀ d p, .supertypes < p → (p ≤ w.below u d ↔ p ≤ v.below u d))
    (hslots : ∀ d, d.isRoot = false →
      (v.slots u d).Ripens (w.slots u d)) : w.InferredIn u := by
  constructor
  case signed =>
    intro d hd hle
    rw [hown d _ hd.below (by decide)] at hle
    exact (hslots d hd.below).signed (hv.signed d hd hle)
  case typed =>
    intro d hd hle
    rw [hown d _ hd.below (by decide)] at hle
    exact (hslots d hd.below).typed (hv.typed d hd hle)
  case inside =>
    intro d m hm hk hd he hle
    rw [hbelow _ _ (by decide)] at hle ⊢
    exact hv.inside d m hm hk hd he hle
  case leaf =>
    intro d hr hd he hm hle
    rw [hown d _ hd (by decide)] at hle
    rw [hbelow _ _ (by decide)]
    exact hv.leaf d hr hd he hm hle

/-- Where nothing is marked there is nothing to show. -/
theorem InferredIn.of_raw
    (h : ∀ d, u.isEligible d = true → w.own u d = .raw ∧ w.below u d = .raw) :
    w.InferredIn u := by
  constructor
  case signed =>
    intro d hd hle
    rw [(h d (hd.eligible d (List.mem_cons_self ..))).1] at hle
    exact absurd hle (by decide)
  case typed =>
    intro d hd hle
    rw [(h d (hd.eligible d (List.mem_cons_self ..))).1] at hle
    exact absurd hle (by decide)
  case inside =>
    intro d m _ _ hd _ hle
    rw [(h d hd).2] at hle
    exact absurd hle (by decide)
  case leaf =>
    intro d _ _ he _ hle
    rw [(h d he).1] at hle
    exact absurd hle (by decide)

/-- New units are at their beginning. -/
theorem Inferred.of_evolves (hv : v.Inferred) (hc : v.Coherent)
    (hr : v.registry.Evolves w.registry) (hs : w.states = v.states) :
    w.Inferred := by
  have hstate : ∀ u d, w.state u d = v.state u d := fun u d => by
    rw [state, state, hs]
  intro u hreg
  rcases hr.known u.id u hreg with hreg | hid
  · refine (hv u hreg).of_marks (fun d p _ _ => by rw [own, own, hstate])
      (fun d p _ => by rw [below, below, hstate]) fun d _ => ?_
    rw [slots, slots, hstate]
    exact .refl _
  · refine .of_raw fun d he => raw_of_fresh ?_ he
    rw [hs]
    exact hc.fresh (u.symbol d) hid

/-- Raising a marker to the supertype phase, and writing riper slots. -/
theorem Inferred.setState {d : DeclId} {s : DeclState} (hw : w.Inferred)
    (hu : w.Registered u) (hs : (w.state u d).Raised .supertypes s)
    (hslots : (w.slots u d).Ripens s.slots) :
    (w.setState u d s).Inferred := by
  intro v hv
  have hstate : ∀ e, (w.setState u d s).state v e = w.state v e ∨
      (w.state v e).Raised .supertypes ((w.setState u d s).state v e) := by
    intro e
    rw [state_setState hu hv]
    split
    · next h =>
      obtain ⟨rfl, rfl⟩ := h
      exact Or.inr hs
    · exact Or.inl rfl
  refine (hw v hv).of_marks (fun e p _ hp => ?_) (fun e p hp => ?_)
    fun e _ => (ripens_setState hu hs hslots).slots v e hv
  · rcases hstate e with h | h
    · rw [own, own, h]
    · exact h.own_iff hp
  · rcases hstate e with h | h
    · rw [below, below, h]
    · exact h.below_iff hp

/-- What is done for a file. -/
theorem Inferred.setFile {s : DeclState} (hw : w.Inferred)
    (hu : w.Registered u) (hbelow : s.below = w.below u .root) :
    (w.setState u .root s).Inferred := by
  intro v hv
  have hstate : ∀ e, e.isRoot = false →
      (w.setState u .root s).state v e = w.state v e := by
    intro e he
    rw [state_setState hu hv, if_neg]
    rintro ⟨-, rfl⟩
    cases he
  refine (hw v hv).of_marks (fun e p he _ => ?_) (fun e p _ => ?_)
    fun e he => ?_
  · rw [own, own, hstate e he]
  · rw [below, state_setState hu hv]
    split
    · next h =>
      obtain ⟨rfl, rfl⟩ := h
      rw [hbelow]
    · rfl
  · rw [slots, slots, hstate e he]
    exact .refl _

/-- Once the bodies are resolved, a marker of a whole speaks for all that
is below it, type parameters apart. -/
theorem InferredIn.inside_chain (hw : w.InferredIn u) (hwf : u.WellFormed)
    {a d : DeclId} (heligible : ∀ e ∈ d :: u.ancestors d, u.isEligible e = true)
    (hparameter : ∀ e ∈ u.ancestors d, u.kind? e ≠ some .typeParameter)
    (ha : .bodies ≤ w.below u a) (had : a ∈ u.ancestors d) :
    .bodies ≤ w.below u d :=
  hwf.descend (fun e he q hq hup hbelow => hw.inside q e hup (hparameter q hq)
    (heligible q (List.mem_cons_of_mem _ hq)) (heligible e he) hbelow) ha had

/-- The marker of a whole speaks for whatever holds a value below it, for
what is in executable code once the bodies are resolved. -/
theorem InferredIn.le_own (hi : w.InferredIn u) (hc : w.ChainedIn u)
    (hwf : u.WellFormed) {a d : DeclId} {q : Phase} (hd : u.HoldsValue d)
    (ha : a ∈ d :: u.ancestors d) (hq : .supertypes < q)
    (hplace : u.isLocal d = false ∨ q = .bodies) (hle : q ≤ w.below u a) :
    q ≤ w.own u d := by
  have heligible := hd.eligible d (List.mem_cons_self ..)
  refine hc.whole d q hd.below heligible hq ?_
  rcases List.mem_cons.mp ha with rfl | ha
  · exact hle
  · rcases hplace with hlocal | rfl
    · exact hc.inside_chain hwf hd.eligible
        (hd.regular.nonlocal_around hwf hlocal) hd.parameter hq hle ha
    · exact hi.inside_chain hwf hd.eligible hd.parameter hle ha

-- ============================================================ together

/-- What holds of clauses and markers in every world that is reached. -/
structure Inferring (w : World) : Prop where
  grounded : w.Grounded
  chained : w.Chained
  inferred : w.Inferred

namespace Inferring

/-- New units are at their beginning. -/
theorem of_evolves (hv : v.Inferring) (hw : w.Grounded)
    (hr : v.registry.Evolves w.registry) (hs : w.states = v.states) :
    w.Inferring :=
  ⟨hw, hv.chained.of_evolves hv.grounded.coherent hr hs,
    hv.inferred.of_evolves hv.grounded.coherent hr hs⟩

/-- Raising a marker to the supertype phase, and writing riper slots. -/
theorem setState {d : DeclId} {s : DeclState} (hw : w.Inferring)
    (hg : (w.setState u d s).Grounded) (hu : w.Registered u)
    (hs : (w.state u d).Raised .supertypes s)
    (hslots : (w.slots u d).Ripens s.slots) : (w.setState u d s).Inferring :=
  ⟨hg, hw.chained.setState hu hs, hw.inferred.setState hu hs hslots⟩

/-- Looking up changes nothing that counts. -/
theorem detached : Detached Inferring where
  coherent := fun _ hw => hw.grounded.coherent
  classifier := fun w k hw => hw.of_evolves
    (Grounded.structural.idle.classifier w k hw.grounded)
    (hw.grounded.coherent.registry.classifier k).2.1.toEvolves rfl
  counters := fun w c hc hw => hw.of_evolves
    (Grounded.structural.idle.counters w c hc hw.grounded)
    (Registry.Grows.refl _).toEvolves rfl
  session := fun w s hw => hw.of_evolves
    (Grounded.structural.idle.session w s hw.grounded)
    (Registry.Grows.refl _).toEvolves rfl
  thread := fun w t hw => hw.of_evolves
    (Grounded.structural.idle.thread w t hw.grounded)
    (Registry.Grows.refl _).toEvolves rfl

/-- Neither do hooks that write nothing, nor riper slots. -/
theorem ripening : Ripening Inferring :=
  { detached with
    silent := fun v w hv h hs => hv.of_evolves
      (Grounded.structural.idle.touches v w hv.grounded h)
      (by rw [h.registry]; exact (Registry.Grows.refl _).toEvolves) hs
    slots := fun w u d s hw hu hd hclause hs => hw.setState
      (Grounded.structural.idle.slots w u d s hw.grounded hu hd hclause) hu
      (.of_slots _ _ s) hs }

/-- Nor do sessions. -/
theorem tended : Tended Inferring fun _ _ => True :=
  { detached with
    referring := fun w hw => hw.grounded.referring
    fill := fun w u x c r hw hu _ hx hk he _ hfits _ => hw.setState
      (hw.grounded.filled hu hx hk he hfits) hu (raised_filled w u c.decl r)
      (Slots.ripens_fill r _)
    members := members_triple fun w u d s hw hu _ hs hslots => hw.setState
      (Grounded.structural.raise hw.grounded hu hs hslots) hu hs
      (by rw [hslots]; exact .refl _) }

/-- What is done for a file. -/
theorem keepsFile (u : CompilationUnit) :
    KeepsFile (fun w => w.Inferring ∧ w.Registered u) u := by
  have hkeep := (Grounded.structural.and_lasting
    (lasting_registered u)).keepsFile (u := u) fun w hw => hw.2
  have hset : ∀ (w : World) (s : DeclState), w.Inferring ∧ w.Registered u →
      (w.setState u .root s).Grounded ∧ (w.setState u .root s).Registered u →
      (w.state u .root).Raised .bodies s → s.below = w.below u .root →
      (w.setState u .root s).Inferring ∧ (w.setState u .root s).Registered u :=
    fun w s hw hg hs hbelow => ⟨⟨hg.1, hw.1.chained.setFile hw.2 hs hbelow,
      hw.1.inferred.setFile hw.2 hbelow⟩, hg.2⟩
  exact {
    imports := fun w table errors hw hd ht => hset w _ hw
      (hkeep.imports w table errors ⟨hw.1.grounded, hw.2⟩ hd ht)
      (.of_slots _ _ _) rfl
    raise := fun w p hw hd => hset w _ hw
      (hkeep.raise w p ⟨hw.1.grounded, hw.2⟩ hd)
      (.of_own _ p.le_bodies) rfl }

/-- Writing to a file changes no signature that counts. -/
theorem fileWork (u : CompilationUnit) :
    AnnotatesFile (fun w => w.Inferring ∧ w.Registered u) u := by
  rintro c rfl phase
  refine (((detached.and_registered c.unit).work (P := (· = .root)) ?_)
    |>.resolveAnnotations rfl phase).triple
  rintro w d s hw rfl hd hs
  exact ⟨⟨Grounded.structural.idle.slots w _ _ s hw.1.grounded hw.2 hd hs,
    hw.1.chained.setState hw.2 (.of_slots _ _ s),
    hw.1.inferred.setFile hw.2 rfl⟩, hw.2⟩

end Inferring

end World

-- ========================================================= designations

namespace Designation

/-- The declaration holds a value, and it is the target or below it. -/
def Holds (goal : Designation) (d : DeclId) : Prop :=
  goal.unit.HoldsValue d ∧
    (d = goal.target ∨ goal.target ∈ goal.unit.ancestors d)

/-- Such a declaration that bringing the target to a phase brings to the
phase as well: one outside of executable code, and for the last phase
any. -/
def Promises (goal : Designation) (q : Phase) (d : DeclId) : Prop :=
  goal.Holds d ∧ (goal.unit.isLocal d = false ∨ q = .bodies)

/-- What is around the target is around what is below it. -/
theorem Holds.around {goal : Designation} (hwf : goal.unit.WellFormed)
    {a d : DeclId} (hd : goal.Holds d)
    (ha : a ∈ goal.target :: goal.unit.ancestors goal.target) :
    a ∈ d :: goal.unit.ancestors d := by
  rcases hd.2 with rfl | habove
  · exact ha
  · rcases List.mem_cons.mp ha with rfl | ha
    · exact List.mem_cons_of_mem _ habove
    · exact List.mem_cons_of_mem _ (hwf.ancestors_trans ha habove)

end Designation

namespace World

variable {v w : World} {goal : Designation} {q : Phase}

/-- What a designation promises for a phase has reached it. -/
def Attained (goal : Designation) (q : Phase) (w : World) : Prop :=
  w.Registered goal.unit ∧ ∀ d, goal.Promises q d → q ≤ w.own goal.unit d

/-- That lasts. -/
theorem lasting_attained (goal : Designation) (q : Phase) :
    Lasting (Attained goal q) := fun _ _ h hw =>
  ⟨h.registered hw.1, fun d hd =>
    Phase.le_trans (hw.2 d hd) (h.own goal.unit d hw.1)⟩

/-- A target that is marked as a whole has what its designation
promises. -/
theorem Inferring.attained_of_below (hw : w.Inferring)
    (hu : w.Registered goal.unit) (hq : .supertypes < q)
    (hle : q ≤ w.below goal.unit goal.target) : Attained goal q w := by
  have hwf := hw.grounded.coherent.wellFormed hu
  refine ⟨hu, fun d hd => ?_⟩
  exact (hw.inferred _ hu).le_own (hw.chained _ hu) hwf hd.1.1
    (hd.1.around hwf (List.mem_cons_self ..)) hq hd.2 hle

/-- So has one for which the markers answer. -/
theorem Inferring.attained_of_current (hw : w.Inferring)
    (hu : w.Registered goal.unit) (hq : .supertypes < q)
    (hrun : q.isExtension = false) (hfile : goal.isFile = false)
    (hle : q ≤ w.current goal) : Attained goal q w := by
  have hwf := hw.grounded.coherent.wellFormed hu
  have hcore : q ≤ q.core := (Phase.le_core_iff hrun).mpr (Phase.le_refl q)
  have hext : Phase.extensionAnnotations < q :=
    Nat.lt_trans (by decide : Phase.extensionAnnotations < .supertypes) hq
  rcases (le_reached_iff hfile hext).mp hle with
    ⟨a, ha, hbelow⟩ | ⟨hleaf, hown⟩
  · exact ⟨hu, fun d hd => (hw.inferred _ hu).le_own (hw.chained _ hu) hwf
      hd.1.1 (hd.1.around hwf ha) hq hd.2 (Phase.le_trans hcore hbelow)⟩
  · have hown := Phase.le_trans hcore hown
    refine ⟨hu, fun d hd => ?_⟩
    obtain ⟨⟨hvalue, hwhere⟩, hplace⟩ := hd
    rcases hwhere with rfl | habove
    · exact hown
    have htarget := List.mem_cons_of_mem d habove
    rcases hplace with hlocal | rfl
    · -- the next one on the way down is a member
      obtain ⟨m, hm, hmem⟩ := hwf.exists_child_of_mem_ancestors habove
      have hmem : m ∈ d :: goal.unit.ancestors d := by
        rcases hmem with rfl | hmem
        · exact List.mem_cons_self ..
        · exact List.mem_cons_of_mem _ hmem
      have hnot := List.any_eq_false.mp hleaf m
        ((hwf.child_iff goal.target m).mpr hm)
      rw [hvalue.regular.nonlocal_around hwf hlocal m hmem,
        hvalue.eligible m hmem] at hnot
      exact absurd rfl hnot
    · exact (hw.inferred _ hu).le_own (hw.chained _ hu) hwf hvalue htarget hq
        (Or.inr rfl) ((hw.inferred _ hu).leaf _ hvalue.regular hfile
          (hvalue.eligible _ htarget) hleaf hown)

end World

end StagedResolve
