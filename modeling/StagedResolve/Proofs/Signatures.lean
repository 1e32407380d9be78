/-
Signatures: what the phases leave in the slots of a declaration.

# Ripening

What was written in a signature is resolved once, and stays resolved. So
in the course of a request a slot that is settled stays settled, and a
type that is there stays there, if the hooks write nothing: slots ripen
(`Slots.Ripens`). That is kept by every step of a request
(`World.Ripens`), and a condition that survives ripening (`Ripening`)
survives the work of all phases.

# What the work establishes

Resolving a signature settles the type, the receiver and the annotations
(`Slots.Signed`). Where that was done, inference gives a declaration that
holds a value its type (`Slots.Typed`). A declaration in executable code
has both when it has caught up.
-/
import StagedResolve.Proofs.Frames

namespace StagedResolve

open StagedResolve.Action World

-- =============================================================== ripening

/-- A resolved slot is not implicit. -/
theorem Slot.isImplicit_of_isResolved {s : Slot} (h : s.isResolved = true) :
    s.isImplicit = false := by
  cases s with
  | written t => rfl
  | implicit => cases h
  | resolved t => rfl

/-- A slot that is neither written nor implicit is resolved. -/
theorem Slot.isResolved_of_isSettled {s : Slot} (h : s.isSettled = true)
    (himplicit : s.isImplicit = false) : s.isResolved = true := by
  cases s with
  | written t => cases h
  | implicit => cases himplicit
  | resolved t => rfl

namespace Slots

/-- No written type is left in the signature. -/
structure Signed (s : Slots) : Prop where
  returnType : s.returnType.isSettled = true
  receiver : s.receiver.all Slot.isSettled = true
  annotations : s.annotations.all Slot.isSettled = true

/-- The type of the value is there. -/
def Typed (s : Slots) : Prop := s.returnType.isResolved = true

/-- What was resolved is still resolved. -/
structure Ripens (s t : Slots) : Prop where
  signed : s.Signed → t.Signed
  typed : s.Typed → t.Typed

/-- Nothing may change. -/
theorem Ripens.refl (s : Slots) : s.Ripens s := ⟨id, id⟩

/-- Only what is no signature has changed. -/
theorem Ripens.of_eq {s t : Slots} (hreturn : t.returnType = s.returnType)
    (hreceiver : t.receiver = s.receiver)
    (hannotations : t.annotations = s.annotations) : s.Ripens t := by
  refine ⟨fun h => ⟨?_, ?_, ?_⟩, fun h => ?_⟩
  · rw [hreturn]
    exact h.returnType
  · rw [hreceiver]
    exact h.receiver
  · rw [hannotations]
    exact h.annotations
  · rw [Typed, hreturn]
    exact h

/-- Reporting errors changes no signature. -/
theorem ripens_report {s t : Slots} (phase : Phase)
    (errors : List ResolveError) (h : s.Ripens t) :
    s.Ripens (t.report phase errors) := by
  obtain ⟨ds, hds⟩ := report_eq phase errors t
  rw [hds]
  exact ⟨fun hs => ⟨(h.signed hs).1, (h.signed hs).2, (h.signed hs).3⟩,
    h.typed⟩

/-- Nor does filling a clause in. -/
theorem ripens_fill (r : Computed) (s : Slots) : s.Ripens (r.fill s) := by
  obtain ⟨ds, hds⟩ := r.fill_eq s
  rw [hds]
  exact .of_eq rfl rfl rfl

end Slots

namespace World

/-- Time has passed, and the slots of all declarations have ripened. -/
structure Ripens (v w : World) : Prop where
  later : v.Onward w
  slots : ∀ u d, v.Registered u → (v.slots u d).Ripens (w.slots u d)

instance : Course Ripens where
  later := fun _ _ h => h.later
  of_slots := fun _ _ h hslots => ⟨h, fun u d hu => by
    rw [hslots u d hu]
    exact .refl _⟩

/-- Writing riper slots. -/
theorem ripens_setState {goal : Phase} {w : World} {u : CompilationUnit}
    {d : DeclId} {s : DeclState} (hu : w.Registered u)
    (hs : (w.state u d).Raised goal s)
    (hslots : (w.slots u d).Ripens s.slots) :
    w.Ripens (w.setState u d s) := by
  refine ⟨later_setState hu hs, fun v e hv => ?_⟩
  rw [slots, slots, state_setState hu hv]
  split
  · next h =>
    obtain ⟨rfl, rfl⟩ := h
    exact hslots
  · exact .refl _

/-- A signature that is resolved stays resolved. -/
theorem kept_signed (u : CompilationUnit) (d : DeclId) :
    KeptBy Ripens fun w => w.Registered u ∧ (w.slots u d).Signed :=
  fun _ _ h hw => ⟨h.later.registered hw.1, (h.slots u d hw.1).signed hw.2⟩

/-- The signature of a declaration is resolved, and its type is there if it
holds a value. -/
def CaughtUp (u : CompilationUnit) (d : DeclId) (w : World) : Prop :=
  w.Registered u ∧ (w.slots u d).Signed ∧
    ((u.kind? d).any DeclKind.hasValueType = true → (w.slots u d).Typed)

/-- It has caught up for good. -/
theorem kept_caughtUp (u : CompilationUnit) (d : DeclId) :
    KeptBy Ripens (CaughtUp u d) := fun _ _ h hw =>
  ⟨h.later.registered hw.1, (h.slots u d hw.1).signed hw.2.1,
    fun hkind => (h.slots u d hw.1).typed (hw.2.2 hkind)⟩

end World

/-- A condition that survives slots ripening, whoever ripens them, and
hooks that write nothing. -/
structure Ripening (I : World → Prop) : Prop extends Static I where
  silent : ∀ v w, I v → v.Touches w → w.states = v.states → I w
  slots : ∀ w u d s, I w → w.Registered u → (u.decl? d).isSome →
    (w.slots u d).SameClause s → (w.slots u d).Ripens s →
    I (w.setState u d { w.state u d with slots := s })

namespace Ripening

variable {I E : World → Prop} {c : Context} {d : DeclId} {phase : Phase}

/-- What is kept may be added. -/
theorem and_kept (hI : Ripening I) {Q : World → Prop}
    (hQ : KeptBy World.Ripens Q) : Ripening fun w => I w ∧ Q w :=
  { hI.toStatic.and_lasting hQ with
    silent := fun v w hv h hs => ⟨hI.silent v w hv.1 h hs,
      hQ v w (Course.of_slots v w h.later fun u d _ => by
        rw [World.slots, World.slots, World.state, World.state, hs]) hv.2⟩
    slots := fun w u d s hw hu hd hclause hs =>
      ⟨hI.slots w u d s hw.1 hu hd hclause hs,
        hQ w _ (ripens_setState hu (.of_slots .raw _ s) hs) hw.2⟩ }

/-- What is kept whatever riper slots are written is kept together with
whatever else survives that. -/
theorem advances {x : Action Unit} {Q : World → Prop} (hI : Ripening I)
    (hIE : ∀ w, I w → E w)
    (h : ∀ J, Ripening J → (∀ w, J w → I w) →
      Triple J x (fun _ w => J w ∧ Q w) J) :
    AdvancesBy World.Ripens I x (fun _ => Q) E := fun _ hR =>
  (h _ (hI.and_kept hR) fun _ hw => hw.1).conseq (fun _ hw => hw)
    (fun _ _ hw => hw) fun w hw => hIE w hw.1

/-- A session at rest stays at rest. -/
theorem rested (hI : Ripening I) (hdetached : Detached I) (own : UnitId)
    (t : Thread) : Ripening fun w => I w ∧ Rested own t w :=
  { static_rested hdetached with
    silent := fun v w ⟨hv, hr⟩ h hs => ⟨hI.silent v w hv h hs,
      hr.later h.later (hr.alike.trans (.of_eq h.mutexes h.held)) h.session⟩
    slots := fun w u d s ⟨hw, hr⟩ hu hd hclause hs =>
      ⟨hI.slots w u d s hw hu hd hclause hs,
        hr.later (later_setState hu (.of_slots .raw _ s)) hr.alike rfl⟩ }

end Ripening

/-- What survives results being written back does so together with what is
kept while slots ripen. -/
theorem Tended.and_kept {J : World → Prop} {X : Symbol → Computed → Prop}
    (hJ : Tended J X) {R : World → Prop} (hR : KeptBy World.Ripens R) :
    Tended (fun w => J w ∧ R w) X :=
  { hJ.toDetached.and_lasting hR with
    referring := fun w hw => hJ.referring w hw.1
    fill := fun w u x c r hw hu hid hx hk he hX hfits hopen =>
      ⟨hJ.fill w u x c r hw.1 hu hid hx hk he hX hfits hopen,
        hR w _ (ripens_setState hu (raised_filled w u c.decl r)
          (Slots.ripens_fill r _)) hw.2⟩
    members := fun g u owner hg => members_triple_and (hJ.members g u owner hg)
      (fun w _ _ _ hw hu _ hs hslots => hR w _
        (ripens_setState hu hs (by rw [hslots]; exact .refl _)) hw) hg }

namespace Ripening

variable {I E : World → Prop} {c : Context} {d : DeclId} {phase : Phase}

-- ================================================================= hooks

/-- The hooks for a declaration. -/
theorem runHooks (hI : Ripening I) (hu : ∀ w, I w → w.Registered c.unit)
    (hsilent : c.setup.Silent) :
    Triple I (c.runHooks phase d) (fun _ => I) I :=
  hsilent.runHooks hI.coherent hu hI.silent

-- =============================================================== writing

/-- Writing slots that are riper than what is there. -/
theorem writeSlots (hI : Ripening I) (hu : ∀ w, I w → w.Registered c.unit)
    {f : Slots → Slots}
    (hf : ∀ s : Slots, s.SameClause (f s) ∧ s.Ripens (f s)) :
    Triple I (Action.writeSlots c.guard c.unit d f) (fun _ => I) I :=
  writeState_triple (fun _ => id) fun w hw hd =>
    hI.slots w c.unit d _ hw (hu w hw) hd (hf _).1 (hf _).2

/-- The status of a declaration is no part of its signature. -/
theorem storeStatus (hI : Ripening I) (hu : ∀ w, I w → w.Registered c.unit) :
    Triple I (c.storeStatus d) (fun _ => I) I := by
  unfold Context.storeStatus
  split
  · exact hI.writeSlots hu fun s => ⟨⟨rfl, rfl, rfl⟩, .of_eq rfl rfl rfl⟩
  · exact .stop fun _ => id

/-- Neither is its contract. -/
theorem storeContract (hI : Ripening I)
    (hu : ∀ w, I w → w.Registered c.unit) :
    Triple I (c.storeContract d phase) (fun _ => I) I := by
  unfold Context.storeContract
  split
  · exact .stop fun _ => id
  · split
    · refine hI.writeSlots hu fun s => ⟨.report ?_ phase _, ?_⟩
      · exact ⟨rfl, rfl, rfl⟩
      · exact Slots.ripens_report phase _ (.of_eq rfl rfl rfl)
    · split
      · exact .pure fun _ => id
      · exact .stop fun _ => id

end Ripening

-- ======================================================== resolving slots

namespace Static

variable {I : World → Prop}

/-- What was read off the slots of a unit still holds of them while names
are looked up. -/
theorem and_slots (hI : Static I) (u : CompilationUnit)
    (T : (DeclId → Slots) → Prop) : Static fun w => I w ∧ T (w.slots u) where
  coherent := fun w hw => hI.coherent w hw.1
  classifier := fun w k hw => ⟨hI.classifier w k hw.1, hw.2⟩
  counters := fun w c hc hw => ⟨hI.counters w c hc hw.1, hw.2⟩

/-- Work that writes nothing. -/
theorem lookingUp (hI : Static I) (c : Context) :
    (SideBySide.solo I I).Work c fun _ => False :=
  hI.work fun _ _ _ _ h => h.elim

/-- A slot that is resolved is settled, and what was resolved before is
still resolved. -/
theorem resolveSlot (hI : Static I) (c : Context) (d : DeclId) (slot : Slot) :
    Triple I (c.resolveSlot d slot) (fun r w => I w ∧
      r.1.isSettled = true ∧ (slot.isResolved = true → r.1 = slot)) I := by
  cases slot with
  | written t =>
      refine .bind ((hI.lookingUp c).resolveType d t).triple fun r => ?_
      exact .pure fun w hw => ⟨hw, rfl, nofun⟩
  | implicit => exact .pure fun w hw => ⟨hw, rfl, nofun⟩
  | resolved t => exact .pure fun w hw => ⟨hw, rfl, fun _ => rfl⟩

/-- So are the members of a list of slots. -/
theorem resolveSlots (hI : Static I) (c : Context) (d : DeclId)
    (slots : List Slot) :
    Triple I (c.resolveSlots d slots)
      (fun r w => I w ∧ r.1.all Slot.isSettled = true) I := by
  induction slots with
  | nil => exact .pure fun w hw => ⟨hw, rfl⟩
  | cons slot rest ih =>
      refine .bind (hI.resolveSlot c d slot) fun r => ?_
      refine .assume fun hr => ?_
      refine .bind ih fun r' => .pure fun w hw => ⟨hw.1, ?_⟩
      rw [List.all_cons, hr.1, hw.2]
      rfl

/-- And a slot that may be absent. -/
theorem resolveSlot? (hI : Static I) (c : Context) (d : DeclId)
    (slot : Option Slot) :
    Triple I (c.resolveSlot? d slot)
      (fun r w => I w ∧ r.1.all Slot.isSettled = true) I := by
  cases slot with
  | none => exact .pure fun w hw => ⟨hw, rfl⟩
  | some slot =>
      refine .bind (hI.resolveSlot c d slot) fun r => .pure fun w hw => ?_
      exact ⟨hw.1, hw.2.1⟩

end Static

namespace Ripening

variable {I E : World → Prop} {c : Context} {d : DeclId} {phase : Phase}

/-- Resolving annotations. -/
theorem resolveAnnotations (hI : Ripening I)
    (hu : ∀ w, I w → w.Registered c.unit) :
    Triple I (c.resolveAnnotations d phase) (fun _ => I) I := by
  refine .read_then fun annotations => ?_
  split
  · exact .pure fun _ => id
  · refine .bind (hI.resolveSlots c d annotations) fun r => ?_
    refine .assume fun hr => hI.writeSlots hu fun s => ⟨.report ?_ phase _,
      Slots.ripens_report phase _ ⟨fun hs => ⟨hs.1, hs.2, hr⟩, id⟩⟩
    exact ⟨rfl, rfl, rfl⟩

/-- Writing a signature that is resolved, where nothing has changed since
the old one was read. -/
theorem sign (hI : Ripening I) (hu : ∀ w, I w → w.Registered c.unit)
    {s : Slots} {f : Slots → Slots} (hclause : s.SameClause (f s))
    (hsigned : (f s).Signed) (htyped : s.Typed → (f s).Typed) :
    Triple (fun w => I w ∧ w.slots c.unit d = s)
      (Action.writeSlots c.guard c.unit d f)
      (fun _ w => I w ∧ (w.slots c.unit d).Signed) I := by
  refine writeState_triple (fun _ hw => hw.1) fun w hw hd => ?_
  obtain ⟨hw, rfl⟩ := hw
  refine ⟨hI.slots w c.unit d _ hw (hu w hw) hd hclause
    ⟨fun _ => hsigned, htyped⟩, ?_⟩
  rw [World.slots, state_setState_self]
  exact hsigned

/-- Resolving a signature leaves nothing of it written. -/
theorem resolveSignature (hI : Ripening I)
    (hu : ∀ w, I w → w.Registered c.unit) :
    Triple I (c.resolveSignature d phase)
      (fun _ w => I w ∧ (w.slots c.unit d).Signed) I := by
  refine .read_bind fun slots => ?_
  have hJ := hI.toStatic.and_slots c.unit fun σ => σ d = slots
  have hleave : ∀ {α : Type} {x : Action α} {Q : α → Prop},
      Triple (fun w => I w ∧ w.slots c.unit d = slots) x
        (fun r w => (I w ∧ w.slots c.unit d = slots) ∧ Q r)
        (fun w => I w ∧ w.slots c.unit d = slots) →
      Triple (fun w => I w ∧ w.slots c.unit d = slots) x
        (fun r w => (I w ∧ w.slots c.unit d = slots) ∧ Q r) I := fun h =>
    h.conseq (fun _ hw => hw) (fun _ _ hw => hw) fun _ hw => hw.1
  refine .bind (hleave (hJ.resolveSlot c d slots.returnType)) fun r₁ => ?_
  refine .assume fun ⟨hsettled, hresolved⟩ => ?_
  refine .bind (hleave (hJ.resolveSlot? c d slots.receiver)) fun r₂ => ?_
  refine .assume fun hreceiver => ?_
  refine .bind (hleave (hJ.resolveSlots c d slots.bounds)) fun r₃ => ?_
  refine .assume fun _ => ?_
  refine .bind (hleave (hJ.resolveSlots c d slots.annotations)) fun r₄ => ?_
  refine .assume fun hannotations => ?_
  refine hI.sign hu (.report ?_ phase _) ?_ fun htyped => ?_
  · exact ⟨rfl, rfl, rfl⟩
  · refine (Slots.ripens_report phase _ (.refl _)).signed ⟨?_, hreceiver,
      hannotations⟩
    -- the type may be implied, if it is neither written nor there
    show (if r₁.1.isImplicit = true then _ else _ : Slot).isSettled = true
    split
    · split
      · rfl
      · exact hsettled
    · exact hsettled
  · refine (Slots.ripens_report phase _ (.refl _)).typed ?_
    show (if r₁.1.isImplicit = true then _ else _ : Slot).isResolved = true
    rw [hresolved htyped, if_neg]
    · exact htyped
    · rw [Slot.isImplicit_of_isResolved htyped]
      exact Bool.false_ne_true

-- ========================================================= inferred types

/-- Inferring the type of a declaration whose signature is resolved gives
it one, if it holds a value. -/
theorem inferType (hI : Ripening I) (hu : ∀ w, I w → w.Registered c.unit)
    {P : Prop} (hP : P → (c.unit.kind? d).any DeclKind.hasValueType = true ∧
      ∀ w, I w → (w.slots c.unit d).Signed) :
    Triple I (c.inferType d phase)
      (fun _ w => I w ∧ (P → (w.slots c.unit d).Typed)) I := by
  unfold Context.inferType
  split
  · exact .stop fun _ => id
  · next x hx =>
    refine .read_bind fun implicit => ?_
    split
    · next hskip =>
      refine .pure fun w hw => ⟨hw.1, fun hp => ?_⟩
      obtain ⟨hkind, hsigned⟩ := hP hp
      rw [CompilationUnit.kind?, hx] at hkind
      have hvalue : x.kind.hasValueType = true := hkind
      refine Slot.isResolved_of_isSettled (hsigned w hw.1).returnType ?_
      rw [hw.2]
      simpa [hvalue] using hskip
    · refine Triple.pre ?_ fun w hw => hw.1
      refine .bind ((hI.lookingUp c).inferenceRequest x).triple fun r => ?_
      refine writeState_triple (fun _ => id) fun w hw hd => ?_
      refine ⟨hI.slots w c.unit d _ hw (hu w hw) hd (.report ?_ phase _)
        (Slots.ripens_report phase _ ⟨fun h => ⟨rfl, h.2, h.3⟩, fun _ => rfl⟩),
        fun _ => ?_⟩
      · exact ⟨rfl, rfl, rfl⟩
      · rw [World.slots, state_setState_self]
        exact (Slots.ripens_report phase _ (.refl _)).typed rfl

/-- A declaration in executable code catches up on its signature and on its
type. -/
theorem catchUp (hI : Ripening I) (hIE : ∀ w, I w → E w)
    (hu : ∀ w, I w → w.Registered c.unit)
    (hclass : AdvancesBy World.Ripens I (PhaseRule.classSupertypes c d)
      (fun _ _ => True) E) :
    AdvancesBy World.Ripens I (PhaseRule.catchUp c d)
      (fun _ => CaughtUp c.unit d) E := by
  refine .andThen hclass fun _ => ?_
  refine .bind (Q := fun _ w => w.Registered c.unit ∧
    (w.slots c.unit d).Signed) (hI.advances hIE fun J hJ hJI =>
      (hJ.resolveSignature fun w hw => hu w (hJI w hw)).post fun _ w hw =>
        ⟨hw.1, hu w (hJI w hw.1), hw.2⟩) fun _ => ?_
  have hI' := hI.and_kept (kept_signed c.unit d)
  have hu' : ∀ w, I w ∧ (w.Registered c.unit ∧
      (w.slots c.unit d).Signed) → w.Registered c.unit := fun w hw => hw.2.1
  have hIE' : ∀ w, I w ∧ (w.Registered c.unit ∧
      (w.slots c.unit d).Signed) → E w := fun w hw => hIE w hw.1
  refine .andThen (Q := fun _ _ => True) (hI'.advances hIE' fun J hJ hJI =>
    (hJ.storeStatus fun w hw => hu' w (hJI w hw)).post fun _ _ hw =>
      ⟨hw, trivial⟩) fun _ => ?_
  refine .andThen (Q := fun _ _ => True) (hI'.advances hIE' fun J hJ hJI =>
    (hJ.storeContract fun w hw => hu' w (hJI w hw)).post fun _ _ hw =>
      ⟨hw, trivial⟩) fun _ => ?_
  refine (hI'.advances hIE' fun J hJ hJI => hJ.inferType
    (fun w hw => hu' w (hJI w hw)) fun hkind =>
      ⟨hkind, fun w hw => (hJI w hw).2.2⟩).post fun _ w hw h =>
        ⟨hw.2.1, hw.2.2, h⟩

/-- In executable code the work of the last phase begins with catching
up. -/
theorem resolveBody (hI : Ripening I) (hIE : ∀ w, I w → E w)
    (hu : ∀ w, I w → w.Registered c.unit)
    (hclass : AdvancesBy World.Ripens I (PhaseRule.classSupertypes c d)
      (fun _ _ => True) E) :
    AdvancesBy World.Ripens I (PhaseRule.resolveBody c d)
      (fun _ w => c.unit.isLocal d = true → CaughtUp c.unit d w) E := by
  unfold PhaseRule.resolveBody
  split
  · exact .stop hIE
  · next x hx =>
    have hcode : ∀ J, Ripening J → (∀ w, J w → I w) → Triple J
        (if x.hasCode = true then Action.writeSlots c.guard c.unit d fun s =>
          { s with bodyResolved := true } else Pure.pure ())
        (fun _ => J) J := by
      intro J hJ hJI
      split
      · exact hJ.writeSlots (fun w hw => hu w (hJI w hw)) fun s =>
          ⟨⟨rfl, rfl, rfl⟩, .of_eq rfl rfl rfl⟩
      · exact .pure fun _ => id
    by_cases hlocal : x.isLocal = true
    · rw [if_pos hlocal]
      refine .bind (hI.catchUp hIE hu hclass) fun _ => ?_
      refine ((hI.and_kept (kept_caughtUp c.unit d)).advances (Q := fun _ =>
        True) (fun w hw => hIE w hw.1) fun J hJ hJI => ?_).post
          fun _ w hw _ _ => hw.2
      exact (hcode J hJ fun w hw => (hJI w hw).1).post fun _ _ hw =>
        ⟨hw, trivial⟩
    · rw [if_neg hlocal]
      refine (hI.advances (Q := fun _ => True) hIE fun J hJ hJI =>
        (hcode J hJ hJI).post fun _ _ hw => ⟨hw, trivial⟩).post
          fun _ w _ _ h => absurd ?_ hlocal
      rwa [CompilationUnit.isLocal, hx] at h

end Ripening

end StagedResolve
