/-
What the work of a phase does to two runs side by side.

# The steps

Apart from the supertype phase, the work of a phase on a declaration
looks names up with the committed supertypes, reads the slots of the
unit at hand, and writes to them. None of these writes touches what the
hierarchy is read from: the supertype clause, the expansion of an alias
and the import table stay (`Slots.SameClause`). A relation between two
runs that survives these steps (`SideBySide.Work`) survives what every
such phase does to a declaration (`SideBySide.Tasks`), and so the work of
the last phase, in which what is in executable code catches up on all of
that.

The supertype phase writes nothing but the hierarchy; its session is
treated apart, and enters here only as a hypothesis on
`Action.resolveSupertypes`.
-/
import StagedResolve.Proofs.Lookups
import StagedResolve.Rules

namespace StagedResolve

-- ================================================== what reports leave

namespace Slots

/-- What the hierarchy is read from is the same. -/
structure SameClause (s t : Slots) : Prop where
  supertypes : t.supertypes = s.supertypes
  expansion : t.expansion = s.expansion
  imports : t.imports = s.imports

/-- Recording a diagnostic changes nothing but the diagnostics. -/
theorem addDiagnostic_eq (s : Slots) (d : Diagnostic) :
    ∃ ds, s.addDiagnostic d = { s with diagnostics := ds } := by
  unfold addDiagnostic
  split
  · exact ⟨s.diagnostics, rfl⟩
  · exact ⟨_, rfl⟩

/-- Reporting errors changes nothing but the diagnostics. -/
theorem report_eq (phase : Phase) (errors : List ResolveError) (s : Slots) :
    ∃ ds, s.report phase errors = { s with diagnostics := ds } := by
  induction errors generalizing s with
  | nil => exact ⟨s.diagnostics, rfl⟩
  | cons e rest ih =>
      obtain ⟨ds, hds⟩ := addDiagnostic_eq s ⟨phase, e⟩
      obtain ⟨ds', hds'⟩ := ih { s with diagnostics := ds }
      refine ⟨ds', ?_⟩
      rw [report, hds, hds']

/-- Reporting errors leaves what the hierarchy is read from. -/
theorem SameClause.report {s t : Slots} (h : s.SameClause t)
    (phase : Phase) (errors : List ResolveError) :
    s.SameClause (t.report phase errors) := by
  obtain ⟨ds, hds⟩ := report_eq phase errors t
  rw [hds]
  exact ⟨h.supertypes, h.expansion, h.imports⟩

end Slots

-- ============================================================ the steps

/-- The relation survives the steps that the work of a phase in a
context is made of, the supertype phase apart, where the work is done on
declarations in `P`. -/
structure SideBySide.Work (p : SideBySide) (c : Context)
    (P : DeclId → Prop) : Prop extends p.Lookups where
  stop : ∀ v w, p.along v w → p.failed v w
  slots : ∀ v w d, p.along v w → v.slots c.unit d = w.slots c.unit d
  source : ∀ s, Action.Keeps p (Action.committedSource s)
  write : ∀ d f, P d → (∀ s : Slots, s.SameClause (f s)) →
    Action.Keeps p (Action.writeSlots c.guard c.unit d f)

namespace SideBySide.Work

open StagedResolve.Action

variable {p : SideBySide} {c : Context} {P : DeclId → Prop} {d : DeclId}

/-- What is read off the slots of a declaration of the unit at hand is
the same in both runs. -/
theorem readSlots {α : Type} (hp : p.Work c P) (d : DeclId) (f : Slots → α) :
    Keeps p (Action.read fun w => f (w.slots c.unit d)) :=
  .read fun v w hvw => by rw [hp.slots v w d hvw]

-- =========================================================== signatures

/-- A written type, with the committed supertypes. -/
theorem resolveType (hp : p.Work c P) (d : DeclId) (t : WrittenType) :
    Keeps p (c.resolveType d t) :=
  hp.toLookups.resolve hp.stop hp.source c.scope d .body t

/-- One slot. -/
theorem resolveSlot (hp : p.Work c P) (d : DeclId) (slot : Slot) :
    Keeps p (c.resolveSlot d slot) := by
  cases slot with
  | written t => exact .bind (hp.resolveType d t) fun _ => .pure
  | implicit => exact .pure
  | resolved t => exact .pure

/-- A list of slots. -/
theorem resolveSlots (hp : p.Work c P) (d : DeclId) (slots : List Slot) :
    Keeps p (c.resolveSlots d slots) := by
  induction slots with
  | nil => exact .pure
  | cons slot rest ih =>
      exact .bind (hp.resolveSlot d slot) fun _ => .bind ih fun _ => .pure

/-- A slot that may be absent. -/
theorem resolveSlot? (hp : p.Work c P) (d : DeclId) (slot : Option Slot) :
    Keeps p (c.resolveSlot? d slot) := by
  cases slot with
  | none => exact .pure
  | some slot => exact .bind (hp.resolveSlot d slot) fun _ => .pure

/-- The annotations of a declaration. -/
theorem resolveAnnotations (hp : p.Work c P) (hd : P d) (phase : Phase) :
    Keeps p (c.resolveAnnotations d phase) := by
  refine .bind (hp.readSlots d Slots.annotations) fun annotations => ?_
  split
  · exact .pure
  · refine .bind (hp.resolveSlots d annotations) fun r => ?_
    refine hp.write d _ hd fun s => .report ?_ phase r.2
    exact ⟨rfl, rfl, rfl⟩

/-- The signature of a declaration. -/
theorem resolveSignature (hp : p.Work c P) (hd : P d) (phase : Phase) :
    Keeps p (c.resolveSignature d phase) := by
  refine .bind (hp.readSlots d id) fun slots => ?_
  refine .bind (hp.resolveSlot d _) fun r₁ => ?_
  refine .bind (hp.resolveSlot? d _) fun r₂ => ?_
  refine .bind (hp.resolveSlots d _) fun r₃ => ?_
  refine .bind (hp.resolveSlots d _) fun r₄ => ?_
  refine hp.write d _ hd fun s => .report ?_ phase _
  exact ⟨rfl, rfl, rfl⟩

-- ================================================== statuses, contracts

/-- The status of a declaration. -/
theorem storeStatus (hp : p.Work c P) (hd : P d) :
    Keeps p (c.storeStatus d) := by
  unfold Context.storeStatus
  split
  · exact hp.write d _ hd fun s => ⟨rfl, rfl, rfl⟩
  · exact .stop hp.stop

/-- The contract of a declaration. -/
theorem storeContract (hp : p.Work c P) (hd : P d) (phase : Phase) :
    Keeps p (c.storeContract d phase) := by
  unfold Context.storeContract
  split
  · exact .stop hp.stop
  · split
    · refine hp.write d _ hd fun s => .report ?_ phase _
      exact ⟨rfl, rfl, rfl⟩
    · split
      · exact .pure
      · exact .stop hp.stop

-- ======================================================= inferred types

/-- What inference may look at. -/
theorem inferenceRequest (hp : p.Work c P) (x : Declaration) :
    Keeps p (c.inferenceRequest x) := by
  have hrest : ∀ (initializer : Option ResolvedType)
      (errors : List ResolveError), Keeps p (do
        let propertyType ← Action.read fun w =>
          if x.kind = .accessor then
            x.parent.bind fun p => (w.slots c.unit p).returnType.type?
          else none
        let unitType ← c.scope.builtin "Unit"
        Pure.pure
          ((⟨c.unit, x, initializer, propertyType, unitType⟩ :
            InferenceRequest), errors)) := by
    intro initializer errors
    refine .bind (.read fun v w hvw => ?_) fun propertyType => ?_
    · simp only [fun q => hp.slots v w q hvw]
    · exact .bind (hp.toLookups.builtin c.scope "Unit") fun _ => .pure
  unfold Context.inferenceRequest
  cases x.initializer with
  | some t =>
      refine .bind (hp.resolveType x.id t) fun r => ?_
      exact hrest (some r.1) r.2
  | none => exact hrest none []

/-- The type of a declaration that has none written. -/
theorem inferType (hp : p.Work c P) (hd : P d) (phase : Phase) :
    Keeps p (c.inferType d phase) := by
  unfold Context.inferType
  split
  · exact .stop hp.stop
  · next x _ =>
    refine .bind (hp.readSlots d fun s => s.returnType.isImplicit)
      fun implicit => ?_
    split
    · exact .pure
    · refine .bind (hp.inferenceRequest x) fun r => ?_
      refine hp.write d _ hd fun s => .report ?_ phase _
      exact ⟨rfl, rfl, rfl⟩

end SideBySide.Work

-- ============================================================ the tasks

/-- The relation survives what the phases do to one declaration, the
supertype phase apart, if the declaration is in `P`. -/
structure SideBySide.Tasks (p : SideBySide) (c : Context)
    (P : DeclId → Prop) : Prop where
  stop : ∀ v w, p.along v w → p.failed v w
  annotations : ∀ d phase, P d → Action.Keeps p (c.resolveAnnotations d phase)
  signature : ∀ d phase, P d → Action.Keeps p (c.resolveSignature d phase)
  status : ∀ d, P d → Action.Keeps p (c.storeStatus d)
  contract : ∀ d phase, P d → Action.Keeps p (c.storeContract d phase)
  inferred : ∀ d phase, P d → Action.Keeps p (c.inferType d phase)
  body : ∀ d, P d → Action.Keeps p (Action.writeSlots c.guard c.unit d
    fun s => { s with bodyResolved := true })

/-- What survives the steps survives what is made of them. -/
theorem SideBySide.Work.tasks {p : SideBySide} {c : Context}
    {P : DeclId → Prop} (hp : p.Work c P) : p.Tasks c P where
  stop := hp.stop
  annotations := fun _ phase hd => hp.resolveAnnotations hd phase
  signature := fun _ phase hd => hp.resolveSignature hd phase
  status := fun _ hd => hp.storeStatus hd
  contract := fun _ phase hd => hp.storeContract hd phase
  inferred := fun _ phase hd => hp.inferType hd phase
  body := fun d hd => hp.write d _ hd fun _ => ⟨rfl, rfl, rfl⟩

namespace SideBySide.Tasks

open StagedResolve.Action

variable {p : SideBySide} {c : Context} {P : DeclId → Prop} {d : DeclId}

/-- A declaration in executable code catches up on all phases. -/
theorem catchUp (hp : p.Tasks c P) (hd : P d)
    (hclass : Keeps p (PhaseRule.classSupertypes c d)) :
    Keeps p (PhaseRule.catchUp c d) :=
  .bind hclass fun _ =>
    .bind (hp.signature d .bodies hd) fun _ =>
      .bind (hp.status d hd) fun _ =>
        .bind (hp.contract d .bodies hd) fun _ => hp.inferred d .bodies hd

/-- The work of the last phase. -/
theorem resolveBody (hp : p.Tasks c P) (hd : P d)
    (hclass : c.unit.isLocal d = true →
      Keeps p (PhaseRule.classSupertypes c d)) :
    Keeps p (PhaseRule.resolveBody c d) := by
  unfold PhaseRule.resolveBody
  split
  · exact .stop hp.stop
  · next x hx =>
    have hcode : Keeps p (if x.hasCode = true then
        Action.writeSlots c.guard c.unit d fun s =>
          { s with bodyResolved := true }
      else Pure.pure ()) := by
      split
      · exact hp.body d hd
      · exact .pure
    by_cases hlocal : x.isLocal = true
    · rw [if_pos hlocal]
      refine .bind (hp.catchUp hd (hclass ?_)) fun _ => hcode
      rw [CompilationUnit.isLocal, hx]
      exact hlocal
    · rw [if_neg hlocal]
      exact hcode

end SideBySide.Tasks

end StagedResolve
