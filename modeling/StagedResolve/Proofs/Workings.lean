/-
Workings: the phases do what a blueprint says.

# Governed worlds

In a settled registry names mean what they mean, and no work of a phase
beyond the supertypes changes that, since none of it touches the registry
or what the hierarchy is read from. A blueprint that is right about
look-ups in such a world (`Blueprint.Governs`) is right about them for as
long as only such work is done (`Blueprint.Governs.revises`), and for every
world that is reached there is one (`Reaches.exists_governs`).

# Runs

In a governed world the work of a phase on a declaration does not fail,
if contracts stand on callables only and no class is in executable code
that has to catch up, and it changes the slots of the declaration as the
blueprint says and nothing else (`Blueprint.Runs`).
-/
import StagedResolve.Proofs.Blueprints
import StagedResolve.Proofs.Commits

namespace StagedResolve

open StagedResolve.Action World

-- ===================================================== changes of slots

/-- Only slots of declarations of one unit have changed, each as told. -/
def World.Revises (u : CompilationUnit) (f : DeclId → Slots → Slots)
    (w w' : World) : Prop :=
  Rewrites u (fun d s => { s with slots := f d s.slots }) w w'

/-- The change of one declaration. -/
def Slots.only (d : DeclId) (f : Slots → Slots) : DeclId → Slots → Slots :=
  fun e s => if e = d then f s else s

/-- It leaves what the hierarchy is read from if the change does. -/
theorem Slots.sameClause_only {d : DeclId} {f : Slots → Slots}
    (hf : ∀ s : Slots, s.SameClause (f s)) (e : DeclId) (s : Slots) :
    s.SameClause (Slots.only d f e s) := by
  unfold Slots.only
  split
  · exact hf s
  · exact ⟨rfl, rfl, rfl⟩

namespace World.Revises

variable {u : CompilationUnit} {f g : DeclId → Slots → Slots}
  {w w' w'' : World} {d : DeclId}

/-- The state of a declaration of the unit. -/
theorem state_eq (h : Revises u f w w') (hu : w.Registered u) (d : DeclId) :
    w'.state u d = { w.state u d with slots := f d (w.slots u d) } :=
  h.state_self hu d

/-- Its slots. -/
theorem slots_eq (h : Revises u f w w') (hu : w.Registered u) (d : DeclId) :
    w'.slots u d = f d (w.slots u d) :=
  congrArg DeclState.slots (h.state_eq hu d)

/-- Markers are where they were. -/
theorem own_eq (h : Revises u f w w') (hu : w.Registered u) (d : DeclId) :
    w'.own u d = w.own u d := by
  rw [World.own, h.state_eq hu d, World.own]

/-- All of them. -/
theorem below_eq (h : Revises u f w w') (hu : w.Registered u) (d : DeclId) :
    w'.below u d = w.below u d := by
  rw [World.below, h.state_eq hu d, World.below]

/-- Nothing changes if no slots do. -/
theorem refl (h : ∀ d, f d (w.slots u d) = w.slots u d) : Revises u f w w := by
  refine ⟨rfl, fun v e _ => ?_, fun _ _ => rfl⟩
  split
  · next heq =>
    rw [heq]
    exact congrArg (fun s => { w.state u e with slots := s }) (h e).symm
  · rfl

/-- What becomes of the slots that are there decides. -/
theorem congr (h : Revises u f w w')
    (hfg : ∀ d, f d (w.slots u d) = g d (w.slots u d)) : Revises u g w w' := by
  refine ⟨h.rest, fun v e hv => ?_, h.others⟩
  rw [Rewrites.state h v e hv]
  split
  · exact congrArg (fun s => { w.state u e with slots := s }) (hfg e)
  · rfl

/-- One change after another. -/
theorem trans (hu : w.Registered u) (h : Revises u f w w')
    (h' : Revises u g w' w'') : Revises u (fun d s => g d (f d s)) w w'' :=
  Rewrites.trans hu h h'

/-- One change after another of the same declaration. -/
theorem trans_only {f g : Slots → Slots} (hu : w.Registered u)
    (h : Revises u (Slots.only d f) w w')
    (h' : Revises u (Slots.only d g) w' w'') :
    Revises u (Slots.only d fun s => g (f s)) w w'' := by
  refine (h.trans hu h').congr fun e => ?_
  unfold Slots.only
  split <;> rfl

/-- Writing to the slots of a declaration under the guard of its unit. -/
theorem of_writeSlots {g : Guard} (hg : g.lock = .ofUnit u.id)
    (hu : w.Registered u) (hd : (u.decl? d).isSome) (f : Slots → Slots) :
    ∃ w', Action.writeSlots g u d f w = (.ok (), w') ∧
      Revises u (Slots.only d f) w w' := by
  obtain ⟨w', hrun, h⟩ := writeState_run hg hu hd fun s =>
    { s with slots := f s.slots }
  refine ⟨w', hrun, Rewrites.congr h fun e s => ?_⟩
  unfold Slots.only
  split <;> rfl

/-- A world stays coherent. -/
theorem coherent (h : Revises u f w w') (hw : w.Coherent)
    (hu : w.Registered u) : w'.Coherent := by
  have hmarkers : ∀ v d, w'.Registered v →
      w'.own v d = w.own v d ∧ w'.below v d = w.below v d := by
    intro v d hv
    have hstate := Rewrites.state h v d ((Rewrites.registered_iff h).mp hv)
    unfold World.own World.below
    rw [hstate]
    split
    · next heq => exact heq ▸ ⟨rfl, rfl⟩
    · exact ⟨rfl, rfl⟩
  refine ⟨(Rewrites.registry h).symm ▸ hw.registry, fun s hs => ?_, fun v d x hv hx => ?_,
    fun v d x hv hx => ?_⟩
  · rw [(Rewrites.registry h)] at hs
    rw [h.others s fun heq => ?_]
    · exact hw.fresh s hs
    · have hissued := hw.registry.issued u.id u hu
      rw [heq] at hs
      omega
  · rw [(hmarkers v d hv).1]
    exact hw.startOwn v d x ((Rewrites.registered_iff h).mp hv) hx
  · rw [(hmarkers v d hv).2]
    exact hw.startBelow v d x ((Rewrites.registered_iff h).mp hv) hx

end World.Revises

/-- The type above a declaration is read from what it belongs to. -/
theorem World.typeAbove_congr {w w' : World} {u : CompilationUnit} {d : DeclId}
    {x : Declaration} (hx : u.decl? d = some x)
    (h : ∀ m, u.parent? d = some m → w'.slots u m = w.slots u m) :
    w'.typeAbove u x = w.typeAbove u x := by
  unfold World.typeAbove
  cases hm : x.parent with
  | none => rfl
  | some m =>
      have hparent : u.parent? d = some m :=
        (CompilationUnit.parent?_of_decl? hx).trans hm
      show (w'.slots u m).returnType.type? = (w.slots u m).returnType.type?
      rw [h m hparent]

-- ============================================================ governed worlds

namespace Blueprint

variable {b : Blueprint} {x : Declaration} {d : DeclId} {q : Phase}

/-- A blueprint governs a world if everything it says about look-ups is the
case. -/
structure Governs (b : Blueprint) (w : World) : Prop where
  coherent : w.Coherent
  settled : w.registry.Settled
  registered : w.Registered b.unit
  means : ∀ place position name,
    b.scope.lookup committedSource place name position w =
      (.ok (b.means place position name), w)
  unitType : b.scope.builtin "Unit" w = (.ok b.unitType, w)
  scope : Scope.ofUnit b.unit b.scope.defaults w = (.ok b.scope, w)

/-- A context is set up as a blueprint says. -/
structure Directs (b : Blueprint) (c : Context) : Prop where
  scope : c.scope = b.scope
  unit : c.unit = b.unit
  guard : c.guard.lock = .ofUnit b.unit.id
  inference : c.setup.inference = b.inference
  hooks : c.setup.hooks = []

/-- A run of some work on a declaration: it does not fail, and changes the
slots of the declaration as told. -/
def Runs (b : Blueprint) (d : DeclId) (f : Slots → Slots) (w : World)
    (act : Action Unit) : Prop :=
  ∃ w', act w = (.ok (), w') ∧ Revises b.unit (Slots.only d f) w w'

namespace Governs

variable {w w' : World}

/-- A registered unit is a tree. -/
theorem wellFormed (h : b.Governs w) : b.unit.WellFormed :=
  h.coherent.wellFormed h.registered

/-- A blueprint goes on to govern as long as nobody touches the registry or
what the hierarchy is read from. -/
theorem of_sameClause (h : b.Governs w) (hw' : w'.Coherent)
    (hr : w'.registry = w.registry)
    (hslots : ∀ v d, w.Registered v →
      (w.slots v d).SameClause (w'.slots v d)) : b.Governs w' := by
  have hclasses : ∀ s, w.committedClasses s = w'.committedClasses s := by
    intro s
    unfold World.committedClasses
    rw [hr]
    cases hs : w.registry.declaration s with
    | error e => rfl
    | ok found =>
        obtain ⟨v, x⟩ := found
        have hv := (Registry.declaration_eq_ok_iff.mp hs).1
        have hsame := hslots v x.id (h.coherent.registered hv).1
        show ResolvedType.classes (Slot.types (w.clause v x.id)) =
          ResolvedType.classes (Slot.types (w'.clause v x.id))
        rw [World.clause, World.clause, hsame.supertypes, hsame.expansion]
  have hlookups := SideBySide.still_lookups hr.symm (hr.symm ▸ h.settled)
  have hsource : ∀ s, Keeps (.still w w') (committedSource s) := fun s =>
    .read fun _ _ hvw => by rw [hvw.1, hvw.2, hclasses]
  refine ⟨hw', hr.symm ▸ h.settled, ?_, fun place position name => ?_, ?_, ?_⟩
  · rw [World.Registered, hr]
    exact h.registered
  · rw [(hlookups.lookup (fun _ _ h => h) hsource b.scope place name
      position).run_still, h.means]
  · rw [(hlookups.builtin b.scope "Unit").run_still, h.unitType]
  · rw [(hlookups.ofUnit b.scope.defaults fun _ _ hvw => ?_).run_still, h.scope]
    rw [hvw.1, hvw.2, (hslots b.unit .root h.registered).imports]

/-- Changes of slots that leave what the hierarchy is read from do not matter
to it. -/
theorem revises {f : DeclId → Slots → Slots} (h : b.Governs w)
    (hw' : Revises b.unit f w w') (hf : ∀ (d : DeclId) (s : Slots), s.SameClause (f d s)) :
    b.Governs w' := by
  refine h.of_sameClause (hw'.coherent h.coherent h.registered)
    (Rewrites.registry hw') fun v d hv => ?_
  unfold World.slots
  rw [Rewrites.state hw' v d hv]
  split
  · next heq => exact heq ▸ hf d (w.slots v d)
  · exact ⟨rfl, rfl, rfl⟩

-- ---------------------------------------------------- reading what is written

variable {c : Context}

/-- A written type comes to what its names mean. -/
theorem resolveType_run (h : b.Governs w) (hc : b.Directs c) (d : DeclId)
    (t : WrittenType) : c.resolveType d t w =
      (.ok (t.reading (b.means d) .body, t.failures (b.means d) .body), w) := by
  rw [Context.resolveType, hc.scope]
  exact Scope.resolve_eq_reading (fun position name => h.means d position name)
    .body t

/-- So does a slot. -/
theorem resolveSlot_run (h : b.Governs w) (hc : b.Directs c) (d : DeclId)
    (slot : Slot) : c.resolveSlot d slot w =
      (.ok (slot.settle (b.means d), slot.failures (b.means d)), w) := by
  cases slot with
  | written t =>
      rw [Context.resolveSlot, bind_run_ok (h.resolveType_run hc d t)]
      rfl
  | implicit => rfl
  | resolved t => rfl

/-- So do several. -/
theorem resolveSlots_run (h : b.Governs w) (hc : b.Directs c) (d : DeclId)
    (slots : List Slot) : c.resolveSlots d slots w =
      (.ok (slots.map (Slot.settle (b.means d)),
        slots.flatMap (Slot.failures (b.means d))), w) := by
  induction slots with
  | nil => rfl
  | cons slot rest ih =>
      rw [Context.resolveSlots, bind_run_ok (h.resolveSlot_run hc d slot)]
      dsimp only
      rw [bind_run_ok ih]
      rfl

/-- And one that may be absent. -/
theorem resolveSlot?_run (h : b.Governs w) (hc : b.Directs c) (d : DeclId)
    (slot : Option Slot) : c.resolveSlot? d slot w =
      (.ok (slot.map (Slot.settle (b.means d)),
        slot.toList.flatMap (Slot.failures (b.means d))), w) := by
  cases slot with
  | none => rfl
  | some slot =>
      rw [Context.resolveSlot?, bind_run_ok (h.resolveSlot_run hc d slot)]
      simp

-- ------------------------------------------------------ the work, piece by piece

variable {phase : Phase}

/-- Nothing to be done. -/
theorem runs_answer {f : Slots → Slots}
    (hf : f (w.slots b.unit d) = w.slots b.unit d) :
    b.Runs d f w (Action.answer ()) := by
  refine ⟨w, rfl, .refl fun e => ?_⟩
  unfold Slots.only
  split
  · next heq => rw [heq, hf]
  · rfl

/-- Writing. -/
theorem runs_writeSlots (h : b.Governs w) (hc : b.Directs c)
    (hx : b.unit.decl? d = some x) {f g : Slots → Slots}
    (hfg : g (w.slots b.unit d) = f (w.slots b.unit d)) :
    b.Runs d f w (Action.writeSlots c.guard b.unit d g) := by
  obtain ⟨w', hrun, hw'⟩ := Revises.of_writeSlots hc.guard h.registered
    (by rw [hx]; rfl) g
  refine ⟨w', hrun, hw'.congr fun e => ?_⟩
  unfold Slots.only
  split
  · next heq => rw [heq, hfg]
  · rfl

/-- One piece of work after another. -/
theorem runs_bind {f g : Slots → Slots} {act : Action Unit}
    {rest : Unit → Action Unit} (h : b.Governs w) (hact : b.Runs d f w act)
    (hf : ∀ s : Slots, s.SameClause (f s))
    (hrest : ∀ w', b.Governs w' → Revises b.unit (Slots.only d f) w w' →
      b.Runs d g w' (rest ())) :
    b.Runs d (fun s => g (f s)) w (act >>= rest) := by
  obtain ⟨w₁, hrun, hw₁⟩ := hact
  have hgoverns : b.Governs w₁ := h.revises hw₁ (Slots.sameClause_only hf)
  obtain ⟨w₂, hrun', hw₂⟩ := hrest w₁ hgoverns hw₁
  exact ⟨w₂, (bind_run_ok hrun rest).trans hrun',
    hw₁.trans_only h.registered hw₂⟩

/-- Annotations are read. -/
theorem runs_resolveAnnotations (h : b.Governs w) (hc : b.Directs c)
    (hx : b.unit.decl? d = some x) : b.Runs d
      (Slots.readAnnotations (b.means d) phase) w
      (c.resolveAnnotations d phase) := by
  unfold Context.resolveAnnotations
  rw [hc.unit]
  have hread : (Action.read fun w => (w.slots b.unit d).annotations) w =
      (.ok (w.slots b.unit d).annotations, w) := rfl
  unfold Runs
  rw [bind_run_ok hread]
  split
  · next hsettled =>
    exact runs_answer (Slots.readAnnotations_of_settled hsettled)
  · rw [bind_run_ok (h.resolveSlots_run hc d _)]
    exact h.runs_writeSlots hc hx rfl

/-- Signatures are read. -/
theorem runs_resolveSignature (h : b.Governs w) (hc : b.Directs c)
    (hx : b.unit.decl? d = some x) : b.Runs d
      (Slots.readSignature (b.means d) (b.unit.impliedType? d) phase) w
      (c.resolveSignature d phase) := by
  unfold Context.resolveSignature
  rw [hc.unit]
  have hread : (Action.read fun w => w.slots b.unit d) w =
      (.ok (w.slots b.unit d), w) := rfl
  unfold Runs
  rw [bind_run_ok hread, bind_run_ok (h.resolveSlot_run hc d _)]
  dsimp only
  rw [bind_run_ok (h.resolveSlot?_run hc d _)]
  dsimp only
  rw [bind_run_ok (h.resolveSlots_run hc d _)]
  dsimp only
  rw [bind_run_ok (h.resolveSlots_run hc d _)]
  refine h.runs_writeSlots hc hx ?_
  rw [Slots.readSignature]
  congr 2
  cases (w.slots b.unit d).returnType.settle (b.means d) <;>
    cases b.unit.impliedType? d <;> rfl

/-- Statuses are stored. -/
theorem runs_storeStatus (h : b.Governs w) (hc : b.Directs c)
    (hx : b.unit.decl? d = some x) :
    b.Runs d (b.withStatus x) w (c.storeStatus d) := by
  unfold Context.storeStatus
  rw [hc.unit, hx]
  exact h.runs_writeSlots hc hx rfl

/-- Contracts are stored. -/
theorem runs_storeContract (h : b.Governs w) (hc : b.Directs c)
    (hx : b.unit.decl? d = some x)
    (hbare : x.kind.isCallable = false → x.contract = []) :
    b.Runs d (Slots.withContract b.unit x phase) w
      (c.storeContract d phase) := by
  unfold Context.storeContract
  rw [hc.unit, hx]
  dsimp only
  unfold Slots.withContract
  cases hcallable : x.kind.isCallable with
  | true =>
      simp only [if_true]
      exact h.runs_writeSlots hc hx rfl
  | false =>
      rw [hbare hcallable]
      exact runs_answer rfl

/-- What inference may look at is what a blueprint tells. -/
theorem inferenceRequest_run (h : b.Governs w) (hc : b.Directs c)
    (x : Declaration) : c.inferenceRequest x w =
      (.ok (b.request x (w.typeAbove b.unit x), b.initializerErrors x), w) := by
  have hread : (Action.read fun w => if x.kind = DeclKind.accessor then
      x.parent.bind fun p => (w.slots c.unit p).returnType.type? else none) w =
      (.ok (if x.kind = DeclKind.accessor then w.typeAbove b.unit x
        else none), w) := by
    rw [hc.unit]
    rfl
  have hunit : c.scope.builtin "Unit" w = (.ok b.unitType, w) := by
    rw [hc.scope]
    exact h.unitType
  have hrest : ∀ (initializer : Option ResolvedType)
      (errors : List ResolveError), (do
        let propertyType ← Action.read fun w =>
          if x.kind = DeclKind.accessor then
            x.parent.bind fun p => (w.slots c.unit p).returnType.type?
          else none
        let unitType ← c.scope.builtin "Unit"
        Pure.pure
          ((⟨c.unit, x, initializer, propertyType, unitType⟩ :
            InferenceRequest), errors)) w =
        (.ok (⟨b.unit, x, initializer,
          if x.kind = DeclKind.accessor then w.typeAbove b.unit x else none,
          b.unitType⟩, errors), w) := by
    intro initializer errors
    rw [bind_run_ok hread, bind_run_ok hunit, hc.unit]
    rfl
  unfold Context.inferenceRequest request initializerErrors
  cases x.initializer with
  | none => exact hrest none []
  | some t =>
      refine (bind_run_ok (h.resolveType_run hc x.id t) _).trans ?_
      exact hrest _ _

/-- Types are inferred. -/
theorem runs_inferType (h : b.Governs w) (hc : b.Directs c)
    (hx : b.unit.decl? d = some x) :
    b.Runs d (b.infer x (w.typeAbove b.unit x) phase) w
      (c.inferType d phase) := by
  unfold Context.inferType
  rw [hc.unit, hx]
  dsimp only
  have hread : (Action.read fun w => (w.slots b.unit d).returnType.isImplicit) w =
      (.ok (w.slots b.unit d).returnType.isImplicit, w) := rfl
  unfold Runs
  rw [bind_run_ok hread]
  split
  · next hskip =>
    refine runs_answer (if_neg ?_)
    simpa [imp_iff_not_or] using hskip
  · next hwork =>
    rw [bind_run_ok (h.inferenceRequest_run hc x)]
    have hif : (x.kind.hasValueType &&
        (w.slots b.unit d).returnType.isImplicit) = true := by
      simpa using hwork
    refine h.runs_writeSlots hc hx ?_
    rw [infer, if_pos hif, hc.inference]
    unfold inferred
    cases b.inference (b.request x (w.typeAbove b.unit x)) <;> rfl

/-- Changing a declaration changes nothing about what it belongs to. -/
theorem typeAbove_eq (h : b.Governs w) (hx : b.unit.decl? d = some x)
    {f : Slots → Slots} (hw' : Revises b.unit (Slots.only d f) w w') :
    w'.typeAbove b.unit x = w.typeAbove b.unit x := by
  refine World.typeAbove_congr hx fun m hm => ?_
  have hne : m ≠ d := by
    rintro rfl
    exact Nat.lt_irrefl _ (h.wellFormed.earlier m m hm)
  rw [hw'.slots_eq h.registered, Slots.only, if_neg hne]

-- ---------------------------------------------------- the work of a phase

/-- What is in executable code catches up. -/
theorem runs_catchUp (h : b.Governs w) (hc : b.Directs c)
    (hx : b.unit.decl? d = some x)
    (hbare : x.kind.isCallable = false → x.contract = [])
    (hplain : b.unit.isClassLike d = false) :
    b.Runs d (b.catchUp x (w.typeAbove b.unit x)) w
      (PhaseRule.catchUp c d) := by
  obtain rfl : x.id = d := h.wellFormed.numbered d x hx
  have hclass : PhaseRule.classSupertypes c x.id = Action.answer () := by
    rw [PhaseRule.classSupertypes, hc.unit, hplain]
    rfl
  unfold PhaseRule.catchUp
  rw [hclass]
  show b.Runs x.id (b.catchUp x (w.typeAbove b.unit x)) w (do
    c.resolveSignature x.id .bodies
    c.storeStatus x.id
    c.storeContract x.id .bodies
    c.inferType x.id .bodies)
  let last := b.infer x (w.typeAbove b.unit x) .bodies
  let contract := Slots.withContract b.unit x .bodies
  refine h.runs_bind (g := fun s => last (contract (b.withStatus x s)))
    (h.runs_resolveSignature hc hx)
    (fun s => s.sameClause_readSignature _ _ _) fun w₁ h₁ hw₁ => ?_
  refine h₁.runs_bind (g := fun s => last (contract s))
    (h₁.runs_storeStatus hc hx) (fun _ => ⟨rfl, rfl, rfl⟩)
    fun w₂ h₂ hw₂ => ?_
  refine h₂.runs_bind (g := last) (h₂.runs_storeContract hc hx hbare)
    (fun s => s.sameClause_withContract _ _ _) fun w₃ h₃ hw₃ => ?_
  show b.Runs x.id (b.infer x (w.typeAbove b.unit x) .bodies) w₃ _
  rw [← h.typeAbove_eq hx hw₁, ← h₁.typeAbove_eq hx hw₂,
    ← h₂.typeAbove_eq hx hw₃]
  exact h₃.runs_inferType hc hx

/-- Bodies are resolved. -/
theorem runs_resolveBody (h : b.Governs w) (hc : b.Directs c)
    (hx : b.unit.decl? d = some x)
    (hbare : x.kind.isCallable = false → x.contract = [])
    (hplain : x.isLocal = true → b.unit.isClassLike d = false) :
    b.Runs d (b.step x (w.typeAbove b.unit x) .bodies) w
      (PhaseRule.resolveBody c d) := by
  have hcode : ∀ w', b.Governs w' → b.Runs d (withBody x) w'
      (if x.hasCode = true then Action.writeSlots c.guard b.unit d fun s =>
        { s with bodyResolved := true } else pure ()) := by
    intro w' h'
    cases hhas : x.hasCode with
    | true =>
        simp only [if_true]
        refine h'.runs_writeSlots hc hx ?_
        rw [withBody, hhas]
        rfl
    | false =>
        refine runs_answer ?_
        rw [withBody, hhas]
        rfl
  unfold PhaseRule.resolveBody
  rw [hc.unit, hx]
  dsimp only
  cases hlocal : x.isLocal with
  | true =>
      have hstep : b.step x (w.typeAbove b.unit x) .bodies = fun s =>
          withBody x (b.catchUp x (w.typeAbove b.unit x) s) := by
        funext s
        rw [step, hlocal, if_pos rfl]
      rw [hstep, if_pos rfl]
      exact h.runs_bind (h.runs_catchUp hc hx hbare (hplain hlocal))
        (b.sameClause_catchUp x _) fun w' h' _ => hcode w' h'
  | false =>
      have hstep : b.step x (w.typeAbove b.unit x) .bodies = withBody x := by
        funext s
        rw [step, hlocal]
        rfl
      rw [hstep]
      exact hcode w h

/-- The work of any phase but that of the supertypes. -/
theorem runs_onMember (h : b.Governs w) (hc : b.Directs c)
    (hx : b.unit.decl? d = some x) {rule : PhaseRule}
    (hrule : q.rule? = some rule) (hq : .supertypes < q)
    (hbare : x.kind.isCallable = false → x.contract = [])
    (hplain : q = .bodies → x.isLocal = true → b.unit.isClassLike d = false) :
    b.Runs d (b.step x (w.typeAbove b.unit x) q) w (rule.onMember c d) := by
  obtain rfl : x.id = d := h.wellFormed.numbered d x hx
  cases q <;> cases hrule
  · exact absurd hq (by decide)
  · exact runs_answer rfl
  · exact h.runs_resolveSignature hc hx
  · exact h.runs_storeStatus hc hx
  · exact h.runs_storeContract hc hx hbare
  · exact h.runs_inferType hc hx
  · exact h.runs_resolveBody hc hx hbare (hplain rfl)

/-- And what is done in passing. -/
theorem runs_onHeader (h : b.Governs w) (hc : b.Directs c)
    (hx : b.unit.decl? d = some x) {rule : PhaseRule}
    (hrule : q.rule? = some rule) (hq : .supertypes < q) :
    b.Runs d (b.pass x q) w (rule.onHeader c d) := by
  obtain rfl : x.id = d := h.wellFormed.numbered d x hx
  cases q <;> cases hrule
  · exact absurd hq (by decide)
  · exact runs_answer rfl
  · exact h.runs_resolveAnnotations hc hx
  · exact h.runs_storeStatus hc hx
  · exact runs_answer rfl
  · exact runs_answer rfl
  · exact runs_answer rfl

end Governs

/-- The context for work on the unit is set up as a blueprint says. -/
theorem Governs.enter {w : World} (h : b.Governs w) {setup : Setup}
    (hinference : setup.inference = b.inference) (hhooks : setup.hooks = [])
    (hdefaults : setup.config.defaultImports = b.scope.defaults) {g : Guard}
    (hg : g.lock = .ofUnit b.unit.id) (cancellable : Bool) :
    ∃ c, Context.enter setup b.unit g cancellable w = (.ok c, w) ∧
      b.Directs c ∧ c.setup = setup := by
  refine ⟨⟨setup, b.unit, g, b.scope, cancellable⟩, ?_,
    ⟨rfl, rfl, hg, hinference, hhooks⟩, rfl⟩
  unfold Context.enter
  rw [hdefaults, bind_run_ok h.scope]
  rfl

end Blueprint

-- ======================================================= reachable worlds

/-- What leaves a settled registry as it is and never fails answers. -/
theorem Action.Keeps.answers {α : Type} {I : World → Prop} {w : World}
    {x : Action α} {Q : α → World → Prop} (hstill : Keeps (.still w w) x)
    (hends : Triple I x Q fun _ => False) (hw : I w) :
    ∃ a, x w = (.ok a, w) := by
  have hrun := hstill.run_still
  rcases hx : x w with ⟨e | a, v⟩
  · exact (hends.error hw hx).elim
  · rw [hx] at hrun
    exact ⟨a, hrun⟩

/-- For every world that is reached in which no source is waiting to be built
there is a blueprint of any registered unit. -/
theorem Reaches.exists_governs {setup : Setup} (hquiet : setup.Quiet)
    {w : World} (hw : Reaches setup anyCall w)
    (hnone : w.registry.pending = .empty) {u : CompilationUnit}
    (hu : w.Registered u) (base : Phase) : ∃ b : Blueprint, b.unit = u ∧
      b.scope.defaults = setup.config.defaultImports ∧
      b.inference = setup.inference ∧ b.base = base ∧ b.start = w.slots u ∧
      b.Governs w := by
  have hsettled := (hw.indexed hquiet).settled hnone
  have hcoherent := hw.coherent hquiet
  have hstatic : Static World.Coherent :=
    (Steady.coherent_self .bodies).idle.toStatic
  have hlookups := SideBySide.still_lookups (v := w) rfl hsettled
  have hstored : Advances World.Coherent (storedOrFreshImports u)
      (fun _ _ => True) fun _ => False :=
    storedOrFreshImports_advances hstatic (fun _ => lasting_const True)
      (fun _ _ _ _ => trivial) fun _ _ _ _ => trivial
  obtain ⟨imports, himports⟩ := (hlookups.storedOrFreshImports
    fun _ _ h => by rw [h.1, h.2]).answers hstored.triple hcoherent
  let sc : Scope := ⟨u, imports, setup.config.defaultImports⟩
  have hfirst : Advances World.Coherent (Action.firstSome
      (fun package => Action.classInPackage package "Unit") sc.defaults)
      (fun r w => ∀ c, r = some c → w.registry.LiveClass c) fun _ => False :=
    .firstSome (fun package _ => classifier_advances hstatic _)
      World.lasting_liveClass
  have hunit : Advances World.Coherent (sc.builtin "Unit")
      (fun _ _ => True) fun _ => False := by
    refine .andThen hfirst fun found => ?_
    cases found <;> exact .pure fun _ _ => trivial
  obtain ⟨unitType, hunitType⟩ := (hlookups.builtin sc "Unit").answers
    hunit.triple hcoherent
  have hscope : w.Registered sc.unit := hu
  choose means hmeans using fun place => World.lookup_answers
    (hw.roomy hquiet) hsettled hscope place
  exact ⟨⟨sc, setup.inference, means, unitType, base, w.slots u⟩, rfl, rfl, rfl,
    rfl, rfl, hcoherent, hsettled, hu, hmeans, hunitType,
    by rw [Scope.ofUnit, bind_run_ok himports]; rfl⟩

end StagedResolve
