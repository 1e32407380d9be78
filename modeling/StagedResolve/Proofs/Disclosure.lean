/-
Disclosure: error types that somebody was told of.

# What is disclosed

An error type stands where a name meant nothing. Who writes one into a
slot reports the name on the same declaration in the same step, and
reports are never taken back; so whatever a slot holds is disclosed there
(`Slots.Discloses`). The slot of a declaration's own type is different in
two ways. An accessor takes over the type of what it belongs to, with the
report staying where it is, around the accessor. And a function that
returns nothing takes the unit type whether or not there is a class of
that name: where there is none, its slot says so and nobody is told
(`World.Explains`, `CompilationUnit.TakesUnit`).

# How it is kept

Resolving never loses a name (`Told`), and what was read off the slots of
a unit is still there when the answer is written, since looking names up
changes no state. So each task of a phase writes slots that account for
what is in them (`World.Accounts`), and a condition that survives such
writes survives the tasks (`Candid`). A session does the same with the
clauses that it fills in, because its results tell what is wrong in them
(`Computed.Tells`). Everything else that happens changes no slot.

# What is not promised

The unit type of a function without a body of one expression, of a
setter, and of what is an accessor of one of these
(`not_reportedAround_of_error`).
-/
import StagedResolve.Proofs.Reports
import StagedResolve.Proofs.Values

namespace StagedResolve

open StagedResolve.Action World

-- ======================================================== one declaration

/-- A slot that is not resolved holds no error type. -/
theorem Slot.errorNames_of_type? {slot : Slot} (h : slot.type? = none) :
    slot.errorNames = [] := by
  rw [errorNames, h]
  rfl

/-- A slot with a type is resolved to it. -/
theorem Slot.eq_resolved_of_type? {slot : Slot} {t : ResolvedType}
    (h : slot.type? = some t) : slot = .resolved t := by
  cases slot with
  | resolved t' => exact congrArg _ (Option.some.inj h)
  | written _ | implicit => cases h

namespace Slots

variable {s t : Slots} {n : String} {slot : Slot}

/-- What is reported stays so when there are more diagnostics. -/
theorem Reports.mono (h : s.Reports n)
    (hst : ∀ x ∈ s.diagnostics, x ∈ t.diagnostics) : t.Reports n := by
  obtain ⟨x, hx, he⟩ := h
  exact ⟨x, hst x hx, he⟩

/-- Every error type in a slot is reported along with it. -/
def Discloses (s : Slots) (slot : Slot) : Prop :=
  ∀ n ∈ slot.errorNames, s.Reports n

/-- The slots apart from that of the declaration's own type. -/
theorem mem_others : slot ∈ s.others ↔ slot ∈ s.supertypes ∨
    slot ∈ s.expansion ∨ slot ∈ s.receiver ∨ slot ∈ s.bounds ∨
      slot ∈ s.annotations := by
  simp [others]

/-- Reporting leaves them. -/
theorem others_report (s : Slots) (phase : Phase)
    (errors : List ResolveError) : (s.report phase errors).others = s.others := by
  obtain ⟨ds, hds⟩ := report_eq phase errors s
  rw [hds]
  rfl

/-- It leaves the declaration's own type as well. -/
theorem returnType_report (s : Slots) (phase : Phase)
    (errors : List ResolveError) :
    (s.report phase errors).returnType = s.returnType := by
  obtain ⟨ds, hds⟩ := report_eq phase errors s
  rw [hds]

end Slots

-- ========================================================== the unit type

/-- Inference gives the declaration the unit type: it is a function whose
body is not one expression, or a setter. -/
def Declaration.returnsUnit (x : Declaration) : Bool :=
  x.initializer.isNone &&
    match x.kind with
    | .function | .anonymousFunction => !x.has .expressionBody
    | .accessor => x.name == some "<set>"
    | _ => false

/-- The declaration takes the unit type, of itself or as an accessor of one
that does. -/
inductive CompilationUnit.TakesUnit (u : CompilationUnit) : DeclId → Prop
  | self {d : DeclId} {x : Declaration} (hx : u.decl? d = some x)
      (hunit : x.returnsUnit = true) : u.TakesUnit d
  | accessor {d p : DeclId} {x : Declaration} (hx : u.decl? d = some x)
      (hk : x.kind = .accessor) (hp : x.parent = some p)
      (h : u.TakesUnit p) : u.TakesUnit d

-- ============================================================ all of them

namespace World

variable {v w : World} {u : CompilationUnit} {d p : DeclId} {slot : Slot}
  {s : Slots}

/-- A name is reported on a declaration or around it. -/
def ReportedAround (w : World) (u : CompilationUnit) (d : DeclId)
    (n : String) : Prop :=
  ∃ a ∈ d :: u.ancestors d, (w.slots u a).Reports n

instance (w : World) (u : CompilationUnit) (d : DeclId) (n : String) :
    Decidable (w.ReportedAround u d n) :=
  inferInstanceAs (Decidable (∃ a ∈ d :: u.ancestors d, _))

/-- Why a slot may be that of the declaration's own type: error types in it
are reported on the declaration or around it, or it is the unit type,
which does not exist. -/
def Explains (w : World) (u : CompilationUnit) (d : DeclId) (slot : Slot) :
    Prop :=
  (∀ n ∈ slot.errorNames, w.ReportedAround u d n) ∨
    (slot = .resolved (.error "Unit") ∧ u.TakesUnit d)

/-- Every error type in the slots of registered units has an
explanation. -/
structure Disclosing (w : World) : Prop where
  grounded : w.Grounded
  others : ∀ u d, w.Registered u → ∀ slot ∈ (w.slots u d).others,
    (w.slots u d).Discloses slot
  returned : ∀ u d, w.Registered u → w.Explains u d (w.slots u d).returnType

/-- What explains the type of a declaration explains that of an accessor
of it. -/
theorem Explains.accessor {x : Declaration} (hu : u.WellFormed)
    (hx : u.decl? d = some x) (hk : x.kind = .accessor)
    (hp : x.parent = some p) (h : w.Explains u p slot) :
    w.Explains u d slot := by
  have hparent : u.parent? d = some p := by
    rw [CompilationUnit.parent?, hx]
    exact hp
  refine h.imp (fun h n hn => ?_) fun h => ⟨h.1, .accessor hx hk hp h.2⟩
  obtain ⟨a, ha, hreports⟩ := h n hn
  refine ⟨a, List.mem_cons_of_mem _ ?_, hreports⟩
  rwa [hu.ancestors_of_parent hparent]

/-- An explanation stands while reports do. -/
theorem Explains.later (h : v.Explains u d slot)
    (hreports : ∀ a n, (v.slots u a).Reports n → (w.slots u a).Reports n) :
    w.Explains u d slot :=
  h.imp_left fun h n hn =>
    have ⟨a, ha, hr⟩ := h n hn
    ⟨a, ha, hreports a n hr⟩

/-- A declaration that nobody has touched holds no error types. -/
theorem errorNames_of_fresh (hu : u.WellFormed)
    (hfresh : w.states.find? (u.symbol d) = none) :
    ∀ slot ∈ (w.slots u d).all, slot.errorNames = [] := fun slot hslot =>
  Slot.errorNames_of_type? ((unresolved_of_fresh hu hfresh).type? slot hslot)

-- =============================================================== accounts

/-- Slots that may be written to a declaration: what was reported still is,
and what they hold has an explanation. -/
structure Accounts (w : World) (u : CompilationUnit) (d : DeclId) (s : Slots) :
    Prop where
  diagnostics : ∀ x ∈ (w.slots u d).diagnostics, x ∈ s.diagnostics
  others : ∀ slot ∈ s.others, s.Discloses slot
  returnType : w.Explains u d s.returnType ∨ s.Discloses s.returnType

namespace Disclosing

/-- Slots whose types were there before, or are told of in the errors that
are reported with them. -/
theorem accounts (hw : w.Disclosing) (hu : w.Registered u)
    {errors : List ResolveError} (phase : Phase)
    (hdiagnostics : s.diagnostics = (w.slots u d).diagnostics)
    (hothers : ∀ slot ∈ s.others, slot ∈ (w.slots u d).others ∨
      Told errors slot.errorNames)
    (hreturn : w.Explains u d s.returnType ∨
      Told errors s.returnType.errorNames) :
    w.Accounts u d (s.report phase errors) := by
  have hkept : ∀ x ∈ (w.slots u d).diagnostics,
      x ∈ (s.report phase errors).diagnostics := fun x hx =>
    Slots.mem_diagnostics_report.mpr (Or.inl (hdiagnostics ▸ hx))
  refine ⟨hkept, fun slot hslot n hn => ?_, ?_⟩
  · rw [Slots.others_report] at hslot
    rcases hothers slot hslot with hold | htold
    · exact (hw.others u d hu slot hold n hn).mono hkept
    · exact Slots.reports_of_told htold s phase n hn
  · rw [Slots.returnType_report]
    exact hreturn.imp_right fun h => Slots.reports_of_told h s phase

/-- Slots that hold the types that were there before. -/
theorem accounts_same (hw : w.Disclosing) (hu : w.Registered u)
    (hdiagnostics : s.diagnostics = (w.slots u d).diagnostics)
    (hothers : s.others = (w.slots u d).others)
    (hreturn : s.returnType = (w.slots u d).returnType) :
    w.Accounts u d s := by
  have haccounts : w.Accounts u d (s.report .raw []) :=
    hw.accounts hu .raw hdiagnostics
      (fun _ hslot => Or.inl (hothers ▸ hslot))
      (Or.inl (hreturn ▸ hw.returned u d hu))
  exact haccounts

/-- Writing slots that account for what is in them. -/
theorem setState {t : DeclState} (hw : w.Disclosing) (hu : w.Registered u)
    (hg : (w.setState u d t).Grounded) (ht : w.Accounts u d t.slots) :
    (w.setState u d t).Disclosing := by
  have hslots : ∀ v e, w.Registered v → (w.setState u d t).slots v e =
      if u = v ∧ d = e then t.slots else w.slots v e := by
    intro v e hv
    rw [slots, state_setState hu hv]
    split
    · rfl
    · rfl
  have hreports : ∀ v, w.Registered v → ∀ e n, (w.slots v e).Reports n →
      ((w.setState u d t).slots v e).Reports n := by
    intro v hv e n hn
    rw [hslots v e hv]
    split
    · next h =>
      obtain ⟨rfl, rfl⟩ := h
      exact hn.mono ht.diagnostics
    · exact hn
  refine ⟨hg, fun v e hv slot hslot => ?_, fun v e hv => ?_⟩
  · rw [hslots v e hv] at hslot ⊢
    split at hslot
    · next h =>
      rw [if_pos h]
      exact ht.others slot hslot
    · next h =>
      rw [if_neg h]
      exact hw.others v e hv slot hslot
  · by_cases h : u = v ∧ d = e
    · obtain ⟨rfl, rfl⟩ := h
      have hself := hslots u d hu
      rw [if_pos ⟨rfl, rfl⟩] at hself
      rw [hself]
      rcases ht.returnType with hold | hnew
      · exact hold.later (hreports u hu)
      · refine Or.inl fun n hn => ⟨d, List.mem_cons_self .., ?_⟩
        rw [hself]
        exact hnew n hn
    · rw [hslots v e hv, if_neg h]
      exact (hw.returned v e hv).later (hreports v hv)

/-- Units that nobody has touched hold no error types. -/
theorem of_states (hv : v.Disclosing) (hg : w.Grounded)
    (hs : w.states = v.states)
    (hunits : ∀ u d, w.Registered u → ¬ v.Registered u →
      w.states.find? (u.symbol d) = none) : w.Disclosing := by
  have hslots : ∀ u d, w.slots u d = v.slots u d := fun u d => by
    rw [slots, slots, state, state, hs]
  have hfresh : ∀ u d, w.Registered u → ¬ v.Registered u →
      ∀ slot ∈ (w.slots u d).all, slot.errorNames = [] := fun u d hu hnew =>
    errorNames_of_fresh (hg.coherent.wellFormed hu) (hunits u d hu hnew)
  refine ⟨hg, fun u d hu slot hslot => ?_, fun u d hu => ?_⟩
  · by_cases hreg : v.Registered u
    · rw [hslots] at hslot ⊢
      exact hv.others u d hreg slot hslot
    · intro n hn
      rw [hfresh u d hu hreg slot (List.mem_cons_of_mem _ hslot)] at hn
      cases hn
  · by_cases hreg : v.Registered u
    · rw [hslots]
      exact (hv.returned u d hreg).later fun a n h => hslots u a ▸ h
    · refine Or.inl fun n hn => ?_
      rw [hfresh u d hu hreg _ (List.mem_cons_self ..)] at hn
      cases hn

/-- Nothing is resolved in a fresh world. -/
theorem start {r : Registry} (hr : (World.start r).Coherent) :
    (World.start r).Disclosing := by
  have hempty : ∀ u d, (World.start r).Registered u →
      ∀ slot ∈ ((World.start r).slots u d).all, slot.errorNames = [] :=
    fun u d hu => errorNames_of_fresh (hr.wellFormed hu) rfl
  refine ⟨.start hr, fun u d hu slot hslot n hn => ?_,
    fun u d hu => Or.inl fun n hn => ?_⟩
  · rw [hempty u d hu slot (List.mem_cons_of_mem _ hslot)] at hn
    cases hn
  · rw [hempty u d hu _ (List.mem_cons_self ..)] at hn
    cases hn

/-- Looking up changes nothing that counts. -/
theorem detached : Detached Disclosing := by
  have hsame : ∀ {v w : World}, v.Disclosing → w.Grounded →
      w.registry = v.registry → w.states = v.states → w.Disclosing :=
    fun hv hg hr hs => hv.of_states hg hs fun u _ hu hnew =>
      absurd (by rwa [Registered, hr] at hu) hnew
  have hidle := Grounded.structural.idle
  exact {
    coherent := fun _ hw => hw.grounded.coherent
    classifier := fun w k hw => hw.of_states
      (hidle.classifier w k hw.grounded) rfl
      (unmoved_classifier hw.grounded.coherent k).fresh
    counters := fun w c hc hw => hsame hw (hidle.counters w c hc hw.grounded)
      rfl rfl
    session := fun w s hw => hsame hw (hidle.session w s hw.grounded) rfl rfl
    thread := fun w t hw => hsame hw (hidle.thread w t hw.grounded) rfl rfl }

end Disclosing

end World

-- ================================================================ the tasks

/-- A condition that survives the slots of declarations in `P` being written
where they account for what is in them. -/
structure Candid (J : World → Prop) (c : Context) (P : DeclId → Prop) :
    Prop extends Static J where
  disclosing : ∀ w, J w → w.Disclosing
  registered : ∀ w, J w → w.Registered c.unit
  write : ∀ w d s, J w → P d → (c.unit.decl? d).isSome →
    (w.slots c.unit d).SameClause s → w.Accounts c.unit d s →
    J (w.setState c.unit d { w.state c.unit d with slots := s })

/-- What inference looks at comes from the syntax, with what is wrong in it
told, from the property of an accessor, or is the unit type. -/
structure InferenceRequest.Sourced (σ : DeclId → Slots) (x : Declaration)
    (r : InferenceRequest) (errors : List ResolveError) : Prop where
  decl : r.decl = x
  written : r.initializer.isNone = x.initializer.isNone
  initializer : ∀ t, r.initializer = some t → Told errors t.errorNames
  propertyType : ∀ t, r.propertyType = some t → x.kind = .accessor ∧
    ∃ p, x.parent = some p ∧ (σ p).returnType = .resolved t
  unitType : r.unitType.errorNames = [] ∨ r.unitType = .error "Unit"

/-- Inference from the syntax answers with the type of the initializer, with
the unit type or with the type of the property. -/
theorem Inference.fromSyntax_cases {r : InferenceRequest} {t : ResolvedType}
    (h : fromSyntax r = some t) :
    r.initializer = some t ∨
      (t = r.unitType ∧
        (r.initializer.isNone = r.decl.initializer.isNone →
          r.decl.returnsUnit = true)) ∨
      r.propertyType = some t := by
  unfold fromSyntax at h
  cases hi : r.initializer with
  | some t' =>
      rw [hi] at h
      exact Or.inl h
  | none =>
      rw [hi] at h
      dsimp only at h
      split at h
      · next hk =>
        split at h
        · cases h
        · next hbody =>
          exact Or.inr (Or.inl ⟨(Option.some.inj h).symm, fun hnone => by
            simp [Declaration.returnsUnit, ← hnone, hk, hbody]⟩)
      · next hk =>
        split at h
        · cases h
        · next hbody =>
          exact Or.inr (Or.inl ⟨(Option.some.inj h).symm, fun hnone => by
            simp [Declaration.returnsUnit, ← hnone, hk, hbody]⟩)
      · next hk =>
        split at h
        · next hname =>
          exact Or.inr (Or.inl ⟨(Option.some.inj h).symm, fun hnone => by
            simp [Declaration.returnsUnit, ← hnone, hk, hname]⟩)
        · exact Or.inr (Or.inr h)
      · cases h

/-- So what it answers is told of, or is the unit type, or was taken over
from what an accessor belongs to. -/
theorem InferenceRequest.Sourced.answer {σ : DeclId → Slots} {x : Declaration}
    {r : InferenceRequest} {errors : List ResolveError} {t : ResolvedType}
    (h : r.Sourced σ x errors) (ht : Inference.fromSyntax r = some t) :
    Told errors t.errorNames ∨ (t = .error "Unit" ∧ x.returnsUnit = true) ∨
      (x.kind = .accessor ∧
        ∃ p, x.parent = some p ∧ (σ p).returnType = .resolved t) := by
  obtain ⟨rfl, hwritten, hinitializer, hproperty, hunit⟩ := h
  rcases Inference.fromSyntax_cases ht with ht | ⟨rfl, hreturns⟩ | ht
  · exact Or.inl (hinitializer t ht)
  · rcases hunit with hclass | herror
    · refine Or.inl fun n hn => ?_
      rw [hclass] at hn
      cases hn
    · exact Or.inr (Or.inl ⟨herror, hreturns hwritten⟩)
  · exact Or.inr (Or.inr (hproperty t ht))

/-- A type that is implied by what encloses the declaration is that of a
class. -/
theorem CompilationUnit.errorNames_impliedType {u : CompilationUnit}
    {d : DeclId} {t : ResolvedType} (h : u.impliedType? d = some t) :
    t.errorNames = [] := by
  have hclass : ∀ owner : Option DeclId,
      owner.map (fun o => ResolvedType.ofClass (u.symbol o)) = some t →
      t.errorNames = [] := by
    intro owner howner
    obtain ⟨o, -, rfl⟩ := Option.map_eq_some_iff.mp howner
    rfl
  unfold impliedType? at h
  split at h
  · exact hclass _ h
  · exact hclass _ h
  · cases h

namespace Candid

variable {J : World → Prop} {c : Context} {P : DeclId → Prop} {d : DeclId}

/-- Looking names up changes no slots of the unit, and what it answers may
be used. -/
theorem looking {α : Type} {x : Action α} {A : α → Prop}
    (hJ : Candid J c P) (T : (DeclId → Slots) → Prop)
    (hx : ∀ {I : World → Prop}, Static I → Keeps (.solo I I) x)
    (hA : Answers x A) :
    Triple (fun w => J w ∧ T (w.slots c.unit)) x
      (fun a w => (J w ∧ T (w.slots c.unit)) ∧ A a) J :=
  (hA.both (hx (hJ.toStatic.and_slots c.unit T)).triple).conseq
    (fun _ hw => hw) (fun _ _ hw => hw) fun _ hw => hw.1

/-- Writing slots that account for what is in them. -/
theorem writeSlots {R : World → Prop} {f : Slots → Slots}
    (hJ : Candid J c P) (hd : P d) (hR : ∀ w, R w → J w)
    (hclause : ∀ s : Slots, s.SameClause (f s))
    (hf : ∀ w, R w → w.Disclosing → w.Registered c.unit →
      w.Accounts c.unit d (f (w.slots c.unit d))) :
    Triple R (Action.writeSlots c.guard c.unit d f) (fun _ => J) J :=
  writeState_triple hR fun w hw hsome =>
    have hw' := hR w hw
    hJ.write w d _ hw' hd hsome (hclause _)
      (hf w hw (hJ.disclosing w hw') (hJ.registered w hw'))

/-- Resolving annotations. -/
theorem resolveAnnotations (hJ : Candid J c P) (hd : P d) (phase : Phase) :
    Triple J (c.resolveAnnotations d phase) (fun _ => J) J := by
  refine .read_bind fun annotations => ?_
  split
  · exact .pure fun _ hw => hw.1
  · refine .bind (hJ.looking (fun σ => (σ d).annotations = annotations)
      (fun hI => (hI.lookingUp c).resolveSlots d annotations)
      (c.resolveSlots_told d annotations)) fun r => .assume fun hr => ?_
    refine hJ.writeSlots hd (fun _ hw => hw.1)
      (fun s => .report ?_ phase _) ?_
    · exact ⟨rfl, rfl, rfl⟩
    rintro w ⟨hw, rfl⟩ hdisclosing hu
    refine hdisclosing.accounts hu phase rfl (fun slot hslot => ?_)
      (Or.inl (hdisclosing.returned _ _ hu))
    rw [Slots.mem_others] at hslot ⊢
    rcases hslot with h | h | h | h | h
    · exact Or.inl (Or.inl h)
    · exact Or.inl (Or.inr (Or.inl h))
    · exact Or.inl (Or.inr (Or.inr (Or.inl h)))
    · exact Or.inl (Or.inr (Or.inr (Or.inr (Or.inl h))))
    · exact (hr slot h).imp_left fun h => Or.inr (Or.inr (Or.inr (Or.inr h)))

/-- Resolving a signature. -/
theorem resolveSignature (hJ : Candid J c P) (hd : P d) (phase : Phase) :
    Triple J (c.resolveSignature d phase) (fun _ => J) J := by
  refine .read_bind fun slots => ?_
  refine .bind (hJ.looking (fun σ => σ d = slots)
    (fun hI => (hI.lookingUp c).resolveSlot d slots.returnType)
    (c.resolveSlot_told d slots.returnType)) fun r₁ => .assume fun h₁ => ?_
  refine .bind (hJ.looking (fun σ => σ d = slots)
    (fun hI => (hI.lookingUp c).resolveSlot? d slots.receiver)
    (c.resolveSlot?_told d slots.receiver)) fun r₂ => .assume fun h₂ => ?_
  refine .bind (hJ.looking (fun σ => σ d = slots)
    (fun hI => (hI.lookingUp c).resolveSlots d slots.bounds)
    (c.resolveSlots_told d slots.bounds)) fun r₃ => .assume fun h₃ => ?_
  refine .bind (hJ.looking (fun σ => σ d = slots)
    (fun hI => (hI.lookingUp c).resolveSlots d slots.annotations)
    (c.resolveSlots_told d slots.annotations)) fun r₄ => .assume fun h₄ => ?_
  refine hJ.writeSlots hd (fun _ hw => hw.1) (fun s => .report ?_ phase _) ?_
  · exact ⟨rfl, rfl, rfl⟩
  rintro w ⟨hw, rfl⟩ hdisclosing hu
  refine hdisclosing.accounts hu phase rfl (fun slot hslot => ?_) ?_
  · rw [Slots.mem_others] at hslot ⊢
    rcases hslot with h | h | h | h | h
    · exact Or.inl (Or.inl h)
    · exact Or.inl (Or.inr (Or.inl h))
    · exact (h₂ slot h).imp (fun h => Or.inr (Or.inr (Or.inl h))) fun h =>
        ((h.append_right _).append_left _).append_left _
    · exact (h₃ slot h).imp (fun h => Or.inr (Or.inr (Or.inr (Or.inl h))))
        fun h => (h.append_right _).append_left _
    · exact (h₄ slot h).imp (fun h => Or.inr (Or.inr (Or.inr (Or.inr h))))
        fun h => h.append_right _
  · have hreturn : w.Explains c.unit d r₁.1 ∨
        Told (r₁.2 ++ r₂.2 ++ r₃.2 ++ r₄.2) r₁.1.errorNames := by
      refine h₁.imp (fun h => ?_) fun h =>
        ((h.append_left _).append_left _).append_left _
      rw [h]
      exact hdisclosing.returned _ _ hu
    -- a type that is implied is that of a class
    show w.Explains c.unit d (if r₁.1.isImplicit = true then _ else _ : Slot) ∨
      Told _ (if r₁.1.isImplicit = true then _ else _ : Slot).errorNames
    split
    · split
      · next t ht =>
        refine Or.inr fun n hn => ?_
        rw [show (Slot.resolved t).errorNames = [] from
          CompilationUnit.errorNames_impliedType ht] at hn
        cases hn
      · exact hreturn
    · exact hreturn

/-- The status of a declaration is no type. -/
theorem storeStatus (hJ : Candid J c P) (hd : P d) :
    Triple J (c.storeStatus d) (fun _ => J) J := by
  unfold Context.storeStatus
  split
  · exact hJ.writeSlots hd (fun _ hw => hw) (fun _ => ⟨rfl, rfl, rfl⟩)
      fun _ _ hw hu => hw.accounts_same hu rfl rfl rfl
  · exact .stop fun _ hw => hw

/-- Neither is its contract, and what is wrong there is reported. -/
theorem storeContract (hJ : Candid J c P) (hd : P d) (phase : Phase) :
    Triple J (c.storeContract d phase) (fun _ => J) J := by
  unfold Context.storeContract
  split
  · exact .stop fun _ hw => hw
  · split
    · refine hJ.writeSlots hd (fun _ hw => hw) (fun s => .report ?_ phase _)
        fun w _ hw hu => hw.accounts hu phase rfl (fun _ => Or.inl)
          (Or.inl (hw.returned _ _ hu))
      exact ⟨rfl, rfl, rfl⟩
    · split
      · exact .pure fun _ hw => hw
      · exact .stop fun _ hw => hw

/-- What inference looks at, while the slots of the unit stay as they
are. -/
theorem inferenceRequest (hJ : Candid J c P) (σ : DeclId → Slots)
    (x : Declaration) :
    Triple (fun w => J w ∧ w.slots c.unit = σ) (c.inferenceRequest x)
      (fun r w => (J w ∧ w.slots c.unit = σ) ∧ r.1.Sourced σ x r.2) J := by
  have hrest : ∀ (initializer : Option ResolvedType)
      (errors : List ResolveError),
      initializer.isNone = x.initializer.isNone →
      (∀ t, initializer = some t → Told errors t.errorNames) →
      Triple (fun w => J w ∧ w.slots c.unit = σ) (do
        let propertyType ← Action.read fun w =>
          if x.kind = .accessor then
            x.parent.bind fun p => (w.slots c.unit p).returnType.type?
          else none
        let unitType ← c.scope.builtin "Unit"
        Pure.pure
          ((⟨c.unit, x, initializer, propertyType, unitType⟩ :
            InferenceRequest), errors))
        (fun r w => (J w ∧ w.slots c.unit = σ) ∧ r.1.Sourced σ x r.2) J := by
    intro initializer errors hwritten htold
    refine .bind (Q := fun t w => (J w ∧ w.slots c.unit = σ) ∧
      ∀ t', t = some t' → x.kind = .accessor ∧
        ∃ p, x.parent = some p ∧ (σ p).returnType = .resolved t')
      (.read fun w hw => ⟨hw, fun t' ht => ?_⟩) fun property =>
        .assume fun hproperty => ?_
    · obtain ⟨-, rfl⟩ := hw
      split at ht
      · next hk =>
        obtain ⟨p, hp, ht⟩ := Option.bind_eq_some_iff.mp ht
        exact ⟨hk, p, hp, Slot.eq_resolved_of_type? ht⟩
      · cases ht
    · refine .bind (hJ.looking (· = σ)
        (fun hI => hI.lookups.builtin c.scope "Unit")
        (c.scope.builtin_answers "Unit")) fun unit => ?_
      exact .pure fun w hw =>
        ⟨hw.1, rfl, hwritten, htold, hproperty, hw.2⟩
  unfold Context.inferenceRequest
  cases hx : x.initializer with
  | some t =>
      refine .bind (hJ.looking (· = σ)
        (fun hI => (hI.lookingUp c).resolveType x.id t)
        (c.scope.resolve_told _ x.id .body t)) fun r => .assume fun hr => ?_
      refine hrest (some r.1) r.2 (by rw [hx]; rfl) fun t' ht => ?_
      cases ht
      exact hr
  | none => exact hrest none [] (by rw [hx]; rfl) nofun

/-- Inferring the type of a declaration. -/
theorem inferType (hJ : Candid J c P) (hd : P d)
    (hinference : c.setup.inference = .fromSyntax) (phase : Phase) :
    Triple J (c.inferType d phase) (fun _ => J) J := by
  unfold Context.inferType
  split
  · exact .stop fun _ hw => hw
  · next x hx =>
    refine .read_then fun implicit => ?_
    split
    · exact .pure fun _ hw => hw
    · intro w hw
      refine Triple.bind (hJ.inferenceRequest (w.slots c.unit) x) (fun r =>
        .assume fun hr => ?_) w ⟨hw, rfl⟩
      refine hJ.writeSlots hd (fun _ hw => hw.1)
        (fun s => .report ?_ phase _) ?_
      · exact ⟨rfl, rfl, rfl⟩
      rintro v ⟨hv, hσ⟩ hdisclosing hu
      refine hdisclosing.accounts hu phase rfl (fun _ => Or.inl) ?_
      rw [hinference]
      cases ht : Inference.fromSyntax r.1 with
      | none => exact Or.inr (told_last _ _ _)
      | some t =>
          rcases hr.answer ht with htold | ⟨rfl, hunit⟩ | ⟨hk, p, hp, heq⟩
          · exact Or.inr htold
          · exact Or.inl (Or.inr ⟨rfl, .self hx hunit⟩)
          · have hparent := hdisclosing.returned c.unit p hu
            rw [congrFun hσ p, heq] at hparent
            exact Or.inl (hparent.accessor
              (hdisclosing.grounded.coherent.wellFormed hu) hx hk hp)

/-- All tasks of the phases, if inference goes by the syntax. -/
theorem tasks (hJ : Candid J c P)
    (hinference : c.setup.inference = .fromSyntax) :
    (SideBySide.solo J J).Tasks c P where
  stop := fun _ _ => id
  annotations := fun _ phase hd => .of_triple (hJ.resolveAnnotations hd phase)
  signature := fun _ phase hd => .of_triple (hJ.resolveSignature hd phase)
  status := fun _ hd => .of_triple (hJ.storeStatus hd)
  contract := fun _ phase hd => .of_triple (hJ.storeContract hd phase)
  inferred := fun _ phase hd =>
    .of_triple (hJ.inferType hd hinference phase)
  body := fun _ hd => .of_triple (hJ.writeSlots hd (fun _ hw => hw)
    (fun _ => ⟨rfl, rfl, rfl⟩) fun _ _ hw hu => hw.accounts_same hu rfl rfl rfl)

end Candid

-- ============================================================= sessions

namespace World.Disclosing

variable {w : World} {u : CompilationUnit} {d : DeclId} {r : Computed}

/-- Markers are no types. -/
theorem raise {goal : Phase} {s : DeclState} (hw : w.Disclosing)
    (hu : w.Registered u) (hs : (w.state u d).Raised goal s)
    (hslots : s.slots = w.slots u d) : (w.setState u d s).Disclosing := by
  refine hw.setState hu (Grounded.structural.raise hw.grounded hu hs hslots) ?_
  rw [hslots]
  exact hw.accounts_same hu rfl rfl rfl

/-- A clause that a session fills in has its errors reported with it. -/
theorem accounts_fill (hw : w.Disclosing) (hu : w.Registered u)
    (hr : r.Tells) : w.Accounts u d (r.fill (w.slots u d)) := by
  have htold : ∀ slot ∈ r.types.map Slot.resolved,
      Told r.errors slot.errorNames := by
    intro slot hslot
    obtain ⟨t, ht, rfl⟩ := List.mem_map.mp hslot
    obtain ⟨x, hx, rfl⟩ := List.mem_map.mp ht
    exact hr x hx
  have hreturn := Or.inl (b := Told r.errors (w.slots u d).returnType.errorNames)
    (hw.returned u d hu)
  unfold Computed.fill
  dsimp only
  split
  · refine hw.accounts hu .supertypes rfl (fun slot hslot => ?_) hreturn
    rw [Slots.mem_others] at hslot ⊢
    rcases hslot with h | h | h
    · exact Or.inl (Or.inl h)
    · exact Or.inr (htold slot (List.mem_of_mem_head? h))
    · exact Or.inl (Or.inr (Or.inr h))
  · refine hw.accounts hu .supertypes rfl (fun slot hslot => ?_) hreturn
    rw [Slots.mem_others] at hslot ⊢
    rcases hslot with h | h
    · exact Or.inr (htold slot h)
    · exact Or.inl (Or.inr h)

/-- Sessions disclose what they write. -/
theorem tended : Tended Disclosing fun _ r => r.Tells :=
  { detached with
    referring := fun _ hw => hw.grounded.referring
    fill := fun _ _ _ _ _ hw hu _ hx hk he htells hfits _ => hw.setState hu
      (hw.grounded.filled hu hx hk he hfits) (hw.accounts_fill hu htells)
    members := members_triple fun _ _ _ _ hw hu _ hs hslots =>
      hw.raise hu hs hslots }

-- ============================================================== requests

/-- Writing to a declaration of a registered unit. -/
theorem write {s : Slots} (hw : w.Disclosing) (hu : w.Registered u)
    (hsome : (u.decl? d).isSome) (hclause : (w.slots u d).SameClause s)
    (hs : w.Accounts u d s) :
    (w.setState u d { w.state u d with slots := s }).Disclosing :=
  hw.setState hu
    (Grounded.structural.idle.slots w u d s hw.grounded hu hsome hclause) hs

/-- The tasks for a file. -/
theorem candid (c : Context) :
    Candid (fun w => w.Disclosing ∧ w.Registered c.unit) c fun _ => True :=
  { (detached.and_registered c.unit).toStatic with
    disclosing := fun _ hw => hw.1
    registered := fun _ hw => hw.2
    write := fun _ _ _ hw _ hsome hclause hs =>
      ⟨hw.1.write hw.2 hsome hclause hs, hw.2⟩ }

/-- The tasks of a phase leave the session at rest. -/
theorem candid_rested (c : Context) (t : Thread) :
    Candid (fun w => (w.Disclosing ∧ w.Registered c.unit) ∧
      Rested c.unit.id t w) c fun _ => True :=
  { static_rested (detached.and_registered c.unit) with
    disclosing := fun _ hw => hw.1.1
    registered := fun _ hw => hw.1.2
    write := fun _ _ _ hw _ hsome hclause hs =>
      ⟨⟨hw.1.1.write hw.1.2 hsome hclause hs, hw.1.2⟩, hw.2.later
        (later_setState hw.1.2 (.of_slots .raw _ _)) hw.2.alike rfl⟩ }

/-- Silent hooks write nothing. -/
theorem runHooks {c : Context} {t : Thread} {phase : Phase}
    (hsilent : c.setup.Silent) :
    Triple (fun w => (w.Disclosing ∧ w.Registered c.unit) ∧
        Rested c.unit.id t w) (c.runHooks phase d)
      (fun _ w => (w.Disclosing ∧ w.Registered c.unit) ∧
        Rested c.unit.id t w)
      fun w => (w.Disclosing ∧ w.Registered c.unit) ∧
        Rested c.unit.id t w := by
  refine hsilent.runHooks (fun _ hw => hw.1.1.grounded.coherent)
    (fun _ hw => hw.1.2) ?_
  rintro v w ⟨⟨hv, hu⟩, hrest⟩ htouch hs
  have hmoved := htouch.unmoved
  exact ⟨⟨hv.of_states (Grounded.structural.idle.touches v w hv.grounded htouch)
    hs hmoved.fresh, hmoved.later.registered hu⟩, hrest.later hmoved.later
      (hrest.alike.trans (.of_eq htouch.mutexes htouch.held)) htouch.session⟩

variable {setup : Setup} {goal : Designation} {g : Guard}
  {cancellable : Bool} {phase : Phase}

/-- A phase for a designation. -/
theorem runPhase (hsilent : setup.Silent)
    (hinference : setup.inference = .fromSyntax)
    (hg : g.lock = .ofUnit goal.unit.id) :
    Triple (fun w => w.Disclosing ∧ w.Registered goal.unit)
      (Action.runPhase setup goal g cancellable phase)
      (fun _ w => w.Disclosing ∧ w.Registered goal.unit)
      fun w => w.Disclosing ∧ w.Registered goal.unit := by
  refine (detached.and_registered goal.unit).runPhase (.anywhere _ goal) ?_
    fun _ _ _ hw _ hs hslots => ⟨hw.1.raise hw.2 hs hslots, hw.2⟩
  rintro c t rule hrule rfl hunit rfl
  rw [← hunit] at hg ⊢
  have hwrites := (tended.writesBack_of_tells c.unit.id t).and_lasting
    (lasting_registered c.unit)
  exact .of_rule hrule
    (((candid_rested c t).tasks hinference).weaken fun _ hw => hw.1)
    (fun _ _ _ h => by rw [h.1]) (fun _ _ _ h => by rw [h.1])
    (fun _ _ _ => (Keeps.of_triple (runHooks hsilent)).weaken
      fun _ hw => hw.1)
    fun d _ => .of_triple
      (hwrites.classSupertypes_advances (fun _ hw => hw.2) hg d).keeps

/-- The annotations of a file. -/
theorem annotatesFile (u : CompilationUnit) :
    AnnotatesFile (fun w => w.Disclosing ∧ w.Registered u) u := by
  rintro c rfl phase
  exact (candid c).resolveAnnotations trivial phase

/-- Its imports, and its marker. -/
theorem keepsFile (u : CompilationUnit) :
    KeepsFile (fun w => w.Disclosing ∧ w.Registered u) u := by
  have hkeep := (Grounded.structural.and_lasting
    (lasting_registered u)).keepsFile (u := u) fun _ hw => hw.2
  exact {
    imports := fun w table errors hw hd ht => by
      have hg := hkeep.imports w table errors ⟨hw.1.grounded, hw.2⟩ hd ht
      exact ⟨hw.1.setState hw.2 hg.1 (hw.1.accounts hw.2 .imports rfl
        (fun _ => Or.inl) (Or.inl (hw.1.returned _ _ hw.2))), hg.2⟩
    raise := fun w p hw _ =>
      ⟨hw.1.raise hw.2 (.of_own _ (Phase.le_refl p)) rfl, hw.2⟩ }

end World.Disclosing

-- ============================================================== histories

/-- Every world that is reached is disclosing, if hooks write nothing and
inference goes by the syntax. -/
theorem Reaches.disclosing {setup : Setup} {allowed : World → Call → Prop}
    (hsilent : setup.Silent) (hinference : setup.inference = .fromSyntax)
    {w : World} (h : Reaches setup allowed w) : w.Disclosing := by
  have hI := World.Disclosing.detached
  refine (h.invariant (P := World.Disclosing) hsilent.quiet (fun _ => .start)
    (fun v w hc hv h => ?_) hI.thread
    (fun w allowLocal s phase cancellable _ hw _ => ?_)
    fun w id _ hw => (hI.resolveFile World.Disclosing.annotatesFile
      World.Disclosing.keepsFile).world hw).2
  · exact hv.of_states (hv.grounded.reregisters h) h.states
      fun u d hu hnew => h.fresh hc hu hnew d
  · exact (hI.request_of_phases World.Disclosing.annotatesFile
      World.Disclosing.keepsFile fun _ _ _ hg =>
        World.Disclosing.runPhase hsilent hinference hg).world hw

/-- No error type is silent, but for the unit type: in every world that is
reached, whatever was registered and asked for, if a slot of a declaration
holds an error type, at any depth, then its name is reported on the
declaration or around it. The one exception is the slot of the own type of
a declaration that takes the unit type, which may be an error type of that
name and nothing else. -/
theorem reportedAround_of_error {setup : Setup} (hsilent : setup.Silent)
    (hinference : setup.inference = .fromSyntax) {w : World}
    (hw : Reaches setup anyCall w) {u : CompilationUnit} (hu : w.Registered u)
    {d : DeclId} {slot : Slot} (hslot : slot ∈ (w.slots u d).all) {n : String}
    (hn : n ∈ slot.errorNames) :
    w.ReportedAround u d n ∨ (slot = (w.slots u d).returnType ∧
      slot = .resolved (.error "Unit") ∧ u.TakesUnit d) := by
  have hdisclosing := hw.disclosing hsilent hinference
  rcases List.mem_cons.mp hslot with rfl | hslot
  · exact (hdisclosing.returned u d hu).imp (fun h => h n hn)
      fun h => ⟨rfl, h⟩
  · exact Or.inl ⟨d, List.mem_cons_self ..,
      hdisclosing.others u d hu slot hslot n hn⟩

/-- A property of a type that does not exist, with its accessor. -/
def UnitSpec.missingProperty : UnitSpec :=
  .ofEntries "a.kt" [.member 0 { DeclSpec.ofForm .property "p" with
    declaredType := some (.named "Missing") }, .member 1 (.ofForm .getter "")]

/-- The accessor takes over the error type, and the report is on the
property. -/
theorem reportedAround_of_error_getter :
    let w := World.after (.plain .default) [.addUnit .missingProperty,
      .resolve false ⟨⟨0⟩, ⟨1⟩⟩ .implicitTypes false]
    ∃ u ∈ w.registry.unit? ⟨0⟩,
      "Missing" ∈ (w.slots u ⟨2⟩).returnType.errorNames ∧
      w.ReportedAround u ⟨2⟩ "Missing" := by
  intro w
  obtain ⟨u, hu, hid, hn, hne⟩ : ∃ u ∈ w.registry.unit? ⟨0⟩, u.id = ⟨0⟩ ∧
      "Missing" ∈ (w.slots u ⟨2⟩).returnType.errorNames ∧
      (w.slots u ⟨2⟩).returnType ≠ .resolved (.error "Unit") := by
    decide +kernel
  have hreg : w.Registered u := by
    rw [Registered, hid]
    exact hu
  have hreported := reportedAround_of_error (Setup.silent_plain .default) rfl
    (Reaches.after _ _) hreg (List.mem_cons_self ..) hn
  exact ⟨u, hu, hn, hreported.resolve_right fun h => hne h.2.1⟩

/-- Where there is no unit type, a function that takes it holds an error type
of which nothing is reported. -/
theorem not_reportedAround_of_error :
    let w := World.after (.plain .default)
      [.addUnit (.ofEntries "a.kt" [.member 0 (.functionNamed "f" none)]),
        .resolve false ⟨⟨0⟩, ⟨1⟩⟩ .implicitTypes false]
    ∃ u ∈ w.registry.unit? ⟨0⟩,
      "Unit" ∈ (w.slots u ⟨1⟩).returnType.errorNames ∧
      ¬ w.ReportedAround u ⟨1⟩ "Unit" := by
  decide +kernel

end StagedResolve
