/-
Reports: names that mean nothing are told.

Resolving a written type never loses a name. Where it means nothing the
answer has an error type of that name in its place, however deep among
the arguments, and the same name is among the errors that go with the
answer (`Scope.resolve_told`). An argument of a type that means nothing
itself is dropped, but what was wrong with it is still told. So whoever
writes the answer into a slot and reports the errors on the same
declaration leaves no error type there that nobody was told of
(`Slots.reports_of_told`).

Nothing of this depends on the world: it is about the answers that
resolving can give at all (`Action.Answers`).
-/
import StagedResolve.Proofs.Runs
import StagedResolve.Rules.Signature
import StagedResolve.Supertypes.Compute

namespace StagedResolve

open StagedResolve.Action

-- ============================================================ error names

namespace ResolvedType

mutual

/-- The names of the error types in a type, at any depth. -/
def errorNames : ResolvedType → List String
  | .error name => [name]
  | .classType _ args _ => errorNamesOfAll args
  | _ => []

/-- The names of the error types in a list of types, at any depth. -/
def errorNamesOfAll : List ResolvedType → List String
  | [] => []
  | t :: rest => errorNames t ++ errorNamesOfAll rest

end

end ResolvedType

/-- The names of the error types in a slot. -/
def Slot.errorNames (slot : Slot) : List String :=
  (slot.type?.map ResolvedType.errorNames).getD []

/-- Every name is among the errors as one that could not be resolved. -/
def Told (errors : List ResolveError) (names : List String) : Prop :=
  ∀ n ∈ names, ∃ span, .unresolved n span ∈ errors

/-- More errors tell no less. -/
theorem Told.mono {errors errors' : List ResolveError} {names : List String}
    (h : Told errors names) (hsub : ∀ e ∈ errors, e ∈ errors') :
    Told errors' names := by
  intro n hn
  obtain ⟨span, he⟩ := h n hn
  exact ⟨span, hsub _ he⟩

/-- What is told before more errors is told. -/
theorem Told.append_left {errors : List ResolveError} {names : List String}
    (h : Told errors names) (more : List ResolveError) :
    Told (errors ++ more) names :=
  h.mono fun _ he => List.mem_append_left _ he

/-- So is what is told after them. -/
theorem Told.append_right {errors : List ResolveError} {names : List String}
    (h : Told errors names) (before : List ResolveError) :
    Told (before ++ errors) names :=
  h.mono fun _ he => List.mem_append_right _ he

/-- A name that is reported last is told. -/
theorem told_last (errors : List ResolveError) (name : String) (span : Span) :
    Told (errors ++ [.unresolved name span]) [name] := by
  intro n hn
  rw [List.mem_singleton.mp hn]
  exact ⟨span, List.mem_append_right _ (List.mem_singleton_self _)⟩

-- ================================================================ answers

namespace Action

variable {α β : Type} {x : Action α} {T : α → Prop}

/-- Whatever the world, what the action answers satisfies a condition. -/
def Answers (x : Action α) (T : α → Prop) : Prop :=
  ∀ w a w', x w = (.ok a, w') → T a

namespace Answers

/-- Answering. -/
theorem pure {a : α} (h : T a) : Answers (Pure.pure a) T := by
  rintro w b w' hrun
  cases hrun
  exact h

/-- One action after another. -/
theorem bind {f : α → Action β} {R : β → Prop} (hx : Answers x T)
    (hf : ∀ a, T a → Answers (f a) R) : Answers (x >>= f) R := by
  intro w b w' hrun
  obtain ⟨a, v, hv, hb⟩ := bind_run_eq_ok_iff.mp hrun
  exact hf a (hx w a v hv) v b w' hb

/-- One action after another, where the answer of the first does not
matter. -/
theorem andThen {f : α → Action β} {R : β → Prop}
    (hf : ∀ a, Answers (f a) R) : Answers (x >>= f) R :=
  bind (T := fun _ => True) (fun _ _ _ _ => trivial) fun a _ => hf a

/-- What is known about answers may be added to a triple. -/
theorem both {P E : World → Prop} {Q : α → World → Prop} (hx : Answers x T)
    (h : Triple P x Q E) : Triple P x (fun a w => Q a w ∧ T a) E :=
  .of_runs (fun w a w' hw hrun => ⟨h.ok hw hrun, hx w a w' hrun⟩)
    fun _ _ _ hw hrun => h.error hw hrun

end Answers

end Action

-- ======================================================== resolving types

namespace Scope

mutual

/-- A written type resolves to nothing that is not told. -/
theorem resolve_told (sc : Scope) (source : SupertypeSource) (place : DeclId)
    (position : Position) : ∀ t, Answers (sc.resolve source place position t)
      fun r => Told r.2 r.1.errorNames
  | ⟨name, args, nullable, span⟩ => by
      unfold resolve
      refine .bind (resolveArgs_told sc source place args) fun r hr => ?_
      refine .andThen fun meaning => ?_
      split
      · exact .pure hr
      · exact .pure nofun
      · exact .pure (told_last _ _ _)

/-- Neither do type arguments. -/
theorem resolveArgs_told (sc : Scope) (source : SupertypeSource)
    (place : DeclId) : ∀ ts, Answers (sc.resolveArgs source place ts)
      fun r => Told r.2 (ResolvedType.errorNamesOfAll r.1)
  | [] => by
      unfold resolveArgs
      exact .pure nofun
  | t :: rest => by
      unfold resolveArgs
      refine .bind (resolve_told sc source place .body t) fun r hr => ?_
      refine .bind (resolveArgs_told sc source place rest) fun r' hr' => ?_
      refine .pure fun n hn => ?_
      rcases List.mem_append.mp hn with hn | hn
      · exact hr.append_left _ n hn
      · exact hr'.append_right _ n hn

end

/-- A built-in class is there, or an error type of its name is. -/
theorem builtin_answers (sc : Scope) (name : String) :
    Answers (sc.builtin name) fun t => t.errorNames = [] ∨ t = .error name := by
  refine .andThen fun found => ?_
  cases found with
  | some s => exact .pure (Or.inl rfl)
  | none => exact .pure (Or.inr rfl)

end Scope

namespace Context

variable (c : Context) (d : DeclId)

/-- A slot is as it was, or what is wrong in it is told. -/
theorem resolveSlot_told (slot : Slot) : Answers (c.resolveSlot d slot)
    fun r => r.1 = slot ∨ Told r.2 r.1.errorNames := by
  cases slot with
  | written t =>
      refine .bind (c.scope.resolve_told _ d .body t) fun r hr => ?_
      exact .pure (Or.inr hr)
  | implicit => exact .pure (Or.inl rfl)
  | resolved t => exact .pure (Or.inl rfl)

/-- So with a list of slots. -/
theorem resolveSlots_told (slots : List Slot) : Answers (c.resolveSlots d slots)
    fun r => ∀ slot ∈ r.1, slot ∈ slots ∨ Told r.2 slot.errorNames := by
  induction slots with
  | nil => exact .pure nofun
  | cons slot rest ih =>
      refine .bind (c.resolveSlot_told d slot) fun r hr => ?_
      refine .bind ih fun r' hr' => .pure fun s hs => ?_
      rcases List.mem_cons.mp hs with rfl | hs
      · rcases hr with rfl | hr
        · exact Or.inl (List.mem_cons_self ..)
        · exact Or.inr (hr.append_left _)
      · exact (hr' s hs).imp (List.mem_cons_of_mem _) fun h =>
          h.append_right _

/-- And with one that may be absent. -/
theorem resolveSlot?_told (slot : Option Slot) :
    Answers (c.resolveSlot? d slot)
      fun r => ∀ s ∈ r.1, s ∈ slot ∨ Told r.2 s.errorNames := by
  cases slot with
  | none => exact .pure nofun
  | some slot =>
      refine .bind (c.resolveSlot_told d slot) fun r hr => ?_
      refine .pure fun s hs => ?_
      obtain rfl := Option.mem_some.mp hs
      exact hr.imp_left fun h => Option.mem_some.mpr h.symm

end Context

/-- If the entries of a clause were all written, what is wrong in them is
told. -/
theorem Action.resolveClause_told (sc : Scope) (source : SupertypeSource)
    (place : DeclId) (slots : List Slot) :
    Answers (resolveClause sc source place slots) fun r =>
      Slot.types slots = [] → ∀ x ∈ r.1, Told r.2 x.type.errorNames := by
  induction slots with
  | nil => exact .pure nofun
  | cons slot rest ih =>
      cases slot with
      | written t =>
          refine .bind (sc.resolve_told source place .header t) fun r hr => ?_
          refine .bind ih fun r' hr' => .pure fun h x hx => ?_
          rcases List.mem_cons.mp hx with rfl | hx
          · exact hr.append_left _
          · exact (hr' h x hx).append_right _
      | implicit => exact ih
      | resolved t => exact .andThen fun r => .pure nofun

/-- Every name that means nothing in a result is among its errors. -/
def Computed.Tells (r : Computed) : Prop :=
  ∀ x ∈ r.references, Told r.errors x.type.errorNames

-- ============================================================== reporting

/-- The name that could not be resolved, if that is the error. -/
def ResolveError.unresolved? : ResolveError → Option String
  | unresolved name _ => some name
  | _ => none

namespace Slots

/-- A diagnostic says that a name could not be resolved. -/
def Reports (s : Slots) (name : String) : Prop :=
  ∃ x ∈ s.diagnostics, x.error.unresolved? = some name

instance (s : Slots) (name : String) : Decidable (s.Reports name) :=
  inferInstanceAs (Decidable (∃ x ∈ s.diagnostics, _))

/-- Recording a diagnostic adds it to the others. -/
theorem mem_diagnostics_addDiagnostic {s : Slots} {x y : Diagnostic} :
    x ∈ (s.addDiagnostic y).diagnostics ↔ x ∈ s.diagnostics ∨ x = y := by
  unfold addDiagnostic
  split
  · next h =>
    refine ⟨Or.inl, fun hx => hx.elim id fun heq => ?_⟩
    rw [heq]
    exact List.contains_iff_mem.mp h
  · rw [List.mem_append, List.mem_singleton]

/-- Reporting adds a diagnostic for each error. -/
theorem mem_diagnostics_report {phase : Phase} {errors : List ResolveError}
    {s : Slots} {x : Diagnostic} : x ∈ (s.report phase errors).diagnostics ↔
      x ∈ s.diagnostics ∨ ∃ e ∈ errors, x = ⟨phase, e⟩ := by
  induction errors generalizing s with
  | nil => simp [report]
  | cons e rest ih =>
      rw [report, ih, mem_diagnostics_addDiagnostic, or_assoc]
      simp

/-- What is told is reported. -/
theorem reports_of_told {errors : List ResolveError} {names : List String}
    (h : Told errors names) (s : Slots) (phase : Phase) :
    ∀ n ∈ names, (s.report phase errors).Reports n := by
  intro n hn
  obtain ⟨span, he⟩ := h n hn
  exact ⟨⟨phase, .unresolved n span⟩,
    mem_diagnostics_report.mpr (Or.inr ⟨_, he, rfl⟩), rfl⟩

end Slots

end StagedResolve
