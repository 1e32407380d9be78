/-
Blueprints: what the phases make of a declaration, told in advance.

# Parts

The work of a phase on a declaration reads what names mean at its place,
and for an accessor the type of what it belongs to; everything else it
needs is in the slots and in what was written. So once it is fixed what
names mean, each piece of work is a function on slots (`Blueprint.step`),
and what a declaration holds when it has reached a phase can be told
without running anything: its slots as they were, changed by the work of
each phase in turn (`Blueprint.slots`). Work that was done before is not
done again, and is left out (`Blueprint.base`). A declaration that leaves
out a phase without work for it loses nothing, so it is enough that all
work before a phase was done (`Blueprint.slots_next`).

# Passing by

A declaration on the way to a target is not worked on but passed, and in
most phases less is done for it (`Blueprint.pass`). For a class of which
nothing but annotations is left to be read that makes no difference
(`Blueprint.pass_eq_step`). For a constructor it does: its type is that
of its class, and it gets it only when it is worked on.
-/
import StagedResolve.Proofs.PhaseWork
import StagedResolve.Proofs.Phases
import StagedResolve.Proofs.Readings

namespace StagedResolve

open StagedResolve.Action World

-- ========================================================== declarations

namespace CompilationUnit

variable {u : CompilationUnit} {d : DeclId} {x : Declaration}

/-- The kind of a declaration that is there. -/
theorem kind?_of_decl? (hx : u.decl? d = some x) : u.kind? d = some x.kind := by
  rw [kind?, hx, Option.map_some]

/-- What it belongs to. -/
theorem parent?_of_decl? (hx : u.decl? d = some x) : u.parent? d = x.parent := by
  rw [parent?, hx, Option.bind_some]

/-- Whether it is in executable code. -/
theorem isLocal_of_decl? (hx : u.decl? d = some x) :
    u.isLocal d = x.isLocal := by
  rw [isLocal, hx, Option.any_some]

/-- What goes through the phases is there. -/
theorem exists_decl?_of_isEligible (he : u.isEligible d = true) :
    ∃ x, u.decl? d = some x :=
  (Option.any_eq_true _ _ |>.mp he).imp fun _ h => h.1

end CompilationUnit

-- ================================================================= slots

namespace Slot

variable {means : Meanings} {slot : Slot}

/-- A slot once what is written in it is read. -/
def settle (means : Meanings) : Slot → Slot
  | .written t => .resolved (t.reading means .body)
  | slot => slot

/-- What is reported of a slot when it is read. -/
def failures (means : Meanings) : Slot → List ResolveError
  | .written t => t.failures means .body
  | _ => []

/-- Where nothing written is left there is nothing to read. -/
theorem settle_of_isSettled (h : slot.isSettled = true) :
    slot.settle means = slot := by
  cases slot <;> first | rfl | cases h

/-- Nor to report. -/
theorem failures_of_isSettled (h : slot.isSettled = true) :
    slot.failures means = [] := by
  cases slot <;> first | rfl | cases h

/-- Slots that are settled stay what they are. -/
theorem map_settle {slots : List Slot} (h : slots.all isSettled = true) :
    slots.map (settle means) = slots := by
  rw [List.map_congr_left fun s hs =>
    settle_of_isSettled (List.all_eq_true.mp h s hs), List.map_id']

/-- And nothing is reported of them. -/
theorem flatMap_failures {slots : List Slot} (h : slots.all isSettled = true) :
    slots.flatMap (failures means) = [] :=
  List.flatMap_eq_nil_iff.mpr fun s hs =>
    failures_of_isSettled (List.all_eq_true.mp h s hs)

/-- A slot that nothing was written in takes the type that is implied, if
there is one. -/
def orImplied : Slot → Option ResolvedType → Slot
  | .implicit, some t => .resolved t
  | slot, _ => slot

end Slot

namespace Slots

variable {s : Slots} {phase : Phase} {means : Meanings}

/-- The slots once the annotations are read. -/
def readAnnotations (means : Meanings) (phase : Phase) (s : Slots) : Slots :=
  { s with annotations := s.annotations.map (Slot.settle means) }.report phase
    (s.annotations.flatMap (Slot.failures means))

/-- The slots once the signature is read. -/
def readSignature (means : Meanings) (implied : Option ResolvedType)
    (phase : Phase) (s : Slots) : Slots :=
  { s with
    returnType := (s.returnType.settle means).orImplied implied
    receiver := s.receiver.map (Slot.settle means)
    bounds := s.bounds.map (Slot.settle means)
    annotations := s.annotations.map (Slot.settle means) }.report phase
    (s.returnType.failures means ++ s.receiver.toList.flatMap (Slot.failures means)
      ++ s.bounds.flatMap (Slot.failures means)
      ++ s.annotations.flatMap (Slot.failures means))

/-- Nothing but annotations is left to be read in a signature. -/
structure Headed (s : Slots) : Prop where
  returnType : s.returnType.isSettled = true
  receiver : s.receiver.all Slot.isSettled = true
  bounds : s.bounds.all Slot.isSettled = true

/-- A signature of which nothing but annotations is left to be read. -/
theorem readSignature_of_headed (h : s.Headed) :
    s.readSignature means none phase = s.readAnnotations means phase := by
  obtain ⟨hreturn, hreceiver, hbounds⟩ := h
  unfold readSignature readAnnotations
  have hreceiver' : s.receiver.map (Slot.settle means) = s.receiver ∧
      s.receiver.toList.flatMap (Slot.failures means) = [] := by
    cases hr : s.receiver with
    | none => exact ⟨rfl, rfl⟩
    | some slot =>
        rw [hr] at hreceiver
        refine ⟨congrArg some (Slot.settle_of_isSettled hreceiver), ?_⟩
        simp [Slot.failures_of_isSettled hreceiver]
  have himplied : s.returnType.orImplied none = s.returnType := by
    cases s.returnType <;> rfl
  rw [Slot.settle_of_isSettled hreturn, himplied,
    Slot.failures_of_isSettled hreturn, hreceiver'.1, hreceiver'.2,
    Slot.map_settle hbounds, Slot.flatMap_failures hbounds]
  rfl

/-- Annotations that were read are not read again. -/
theorem readAnnotations_of_settled
    (h : s.annotations.all Slot.isSettled = true) :
    s.readAnnotations means phase = s := by
  unfold readAnnotations
  rw [Slot.map_settle h, Slot.flatMap_failures h]
  rfl

/-- The slots once the contract is stored. -/
def withContract (u : CompilationUnit) (x : Declaration) (phase : Phase)
    (s : Slots) : Slots :=
  if x.kind.isCallable then
    { s with contract := some (u.contractOf x).1 }.report phase
      (u.contractOf x).2
  else s

/-- Reading annotations leaves what the hierarchy is read from. -/
theorem sameClause_readAnnotations (means : Meanings) (phase : Phase)
    (s : Slots) : s.SameClause (s.readAnnotations means phase) := by
  refine .report ?_ _ _
  exact ⟨rfl, rfl, rfl⟩

/-- So does reading a signature. -/
theorem sameClause_readSignature (means : Meanings)
    (implied : Option ResolvedType) (phase : Phase) (s : Slots) :
    s.SameClause (s.readSignature means implied phase) := by
  refine .report ?_ _ _
  exact ⟨rfl, rfl, rfl⟩

/-- And storing a contract. -/
theorem sameClause_withContract (u : CompilationUnit) (x : Declaration)
    (phase : Phase) (s : Slots) :
    s.SameClause (s.withContract u x phase) := by
  unfold withContract
  split
  · refine .report ?_ _ _
    exact ⟨rfl, rfl, rfl⟩
  · exact ⟨rfl, rfl, rfl⟩

/-- One change after another. -/
theorem SameClause.trans {s t r : Slots} (h : s.SameClause t)
    (h' : t.SameClause r) : s.SameClause r :=
  ⟨h'.supertypes.trans h.supertypes, h'.expansion.trans h.expansion,
    h'.imports.trans h.imports⟩

end Slots

-- ============================================================ blueprints

/-- The phases beyond one and up to another that have work for a declaration.
What is in executable code has everything done in the last one. -/
def Phase.works (isLocal : Bool) (base p : Phase) : List Phase :=
  [.types, .status, .contracts, .implicitTypes, .bodies].filter fun q =>
    decide (base < q) && decide (q ≤ p) && (!isLocal || q == .bodies)

namespace Phase

variable {isLocal : Bool} {base o p q r : Phase}

/-- The phases that have work for a declaration are some of five, and in
executable code there is one at the most. -/
theorem mem_works_iff : r ∈ works isLocal base p ↔
    r ∈ [types, status, contracts, implicitTypes, bodies] ∧
      (base < r ∧ r ≤ p) ∧ (isLocal = true → r = bodies) := by
  rw [works, List.mem_filter]
  cases isLocal <;> simp

/-- They come after the supertypes, and nobody's extensions run in them. -/
theorem after_of_mem_works (hr : r ∈ works isLocal base p) :
    .supertypes < r ∧ r.isExtension = false ∧ r.core = r := by
  have hmem := (mem_works_iff.mp hr).1
  revert hmem
  cases r <;> decide

/-- There is none before the first of them, and none that was passed. -/
theorem works_eq_nil (hp : p < .types ∨ p ≤ base) :
    works isLocal base p = [] := by
  refine List.eq_nil_iff_forall_not_mem.mpr fun r hr => ?_
  obtain ⟨hmem, ⟨hbase, hle⟩, -⟩ := mem_works_iff.mp hr
  rcases hp with hlt | hpb
  · refine absurd (Nat.lt_of_le_of_lt hle hlt) ?_
    revert hmem
    cases r <;> decide
  · exact not_le_of_lt hbase (le_trans hle hpb)

/-- If all work before a phase is done, what is left up to the phase is the
phase itself, if it has any work. -/
theorem works_eq_append (hoq : o < q)
    (hdone : ∀ r ∈ works isLocal base q, r = q ∨ r ≤ o) :
    works isLocal base q = works isLocal base o ++
      if q ∈ works isLocal base q then [q] else [] := by
  have hall : ∀ isLocal, ∀ base ∈ all, ∀ o ∈ all, ∀ q ∈ all, o < q →
      (∀ r ∈ works isLocal base q, r = q ∨ r ≤ o) →
        works isLocal base q = works isLocal base o ++
          if q ∈ works isLocal base q then [q] else [] := by
    decide +kernel
  exact hall isLocal base (mem_all base) o (mem_all o) q (mem_all q) hoq hdone

end Phase

/-- The type of what a declaration belongs to, as far as it has one. -/
def World.typeAbove (w : World) (u : CompilationUnit) (x : Declaration) :
    Option ResolvedType :=
  x.parent.bind fun p => (w.slots u p).returnType.type?

/-- All that the work of the phases depends on. -/
structure Blueprint where
  /-- Where names are looked up. -/
  scope : Scope
  inference : Inference
  /-- What names mean at each place. -/
  means : DeclId → Meanings
  /-- The type of what returns nothing. -/
  unitType : ResolvedType
  /-- The phase up to which all work was done before. -/
  base : Phase
  /-- The slots before the rest of the work. -/
  start : DeclId → Slots

namespace Blueprint

/-- The unit that is worked on. -/
abbrev unit (b : Blueprint) : CompilationUnit := b.scope.unit

-- ------------------------------------------------------------- the work

/-- What inference may look at for a declaration. -/
def request (b : Blueprint) (x : Declaration) (above : Option ResolvedType) :
    InferenceRequest :=
  { unit := b.unit
    decl := x
    initializer := x.initializer.map (WrittenType.reading (b.means x.id) .body)
    propertyType := if x.kind = .accessor then above else none
    unitType := b.unitType }

/-- What is wrong in the initializer of a declaration. -/
def initializerErrors (b : Blueprint) (x : Declaration) : List ResolveError :=
  (x.initializer.map (WrittenType.failures (b.means x.id) .body)).getD []

/-- The type that a declaration without a written one gets, and what is
reported then. -/
def inferred (b : Blueprint) (x : Declaration) (above : Option ResolvedType) :
    ResolvedType × List ResolveError :=
  match b.inference (b.request x above) with
  | some t => (t, b.initializerErrors x)
  | none =>
    let name := "type of " ++ x.nameOrKind
    let span := ((b.unit.tree.node? x.node).map (·.span)).getD .nowhere
    (.error name, b.initializerErrors x ++ [.unresolved name span])

/-- The slots once the type is inferred. -/
def infer (b : Blueprint) (x : Declaration) (above : Option ResolvedType)
    (phase : Phase) (s : Slots) : Slots :=
  if x.kind.hasValueType && s.returnType.isImplicit then
    { s with returnType := .resolved (b.inferred x above).1 }.report phase
      (b.inferred x above).2
  else s

/-- The slots once the status is stored. -/
def withStatus (b : Blueprint) (x : Declaration) (s : Slots) : Slots :=
  { s with status := some (b.unit.statusOf x) }

/-- The slots of a declaration in executable code once it has caught up. -/
def catchUp (b : Blueprint) (x : Declaration) (above : Option ResolvedType)
    (s : Slots) : Slots :=
  b.infer x above .bodies ((b.withStatus x (s.readSignature (b.means x.id)
    (b.unit.impliedType? x.id) .bodies)).withContract b.unit x .bodies)

/-- The slots once the body is resolved. -/
def withBody (x : Declaration) (s : Slots) : Slots :=
  if x.hasCode then { s with bodyResolved := true } else s

/-- What a phase makes of the slots of a declaration that it works on. -/
def step (b : Blueprint) (x : Declaration) (above : Option ResolvedType) :
    Phase → Slots → Slots
  | .types, s => s.readSignature (b.means x.id) (b.unit.impliedType? x.id) .types
  | .status, s => b.withStatus x s
  | .contracts, s => s.withContract b.unit x .contracts
  | .implicitTypes, s => b.infer x above .implicitTypes s
  | .bodies, s => withBody x (if x.isLocal then b.catchUp x above s else s)
  | _, s => s

/-- What it makes of those of a declaration that is passed. -/
def pass (b : Blueprint) (x : Declaration) : Phase → Slots → Slots
  | .types, s => s.readAnnotations (b.means x.id) .types
  | .status, s => b.withStatus x s
  | _, s => s

/-- The slots of a declaration that has reached a phase: the work of the
phases up to it that was left is done, one after the other. -/
def slots (b : Blueprint) (d : DeclId) (p : Phase) : Slots :=
  match b.unit.decl? d with
  | none => b.start d
  | some x =>
    let above (q : Phase) : Option ResolvedType :=
      match x.parent with
      | none => none
      | some m => if _ : m.index < d.index then (slots b m q).returnType.type? else none
    (Phase.works x.isLocal b.base p).foldl (fun s q => b.step x (above q) q s)
      (b.start d)
termination_by d.index

/-- The type of what a declaration belongs to once that has reached a
phase. -/
def above (b : Blueprint) (x : Declaration) (q : Phase) : Option ResolvedType :=
  x.parent.bind fun m => (b.slots m q).returnType.type?

variable {b : Blueprint} {x : Declaration} {d : DeclId} {p q : Phase}
  {type type' : Option ResolvedType} {s : Slots}

/-- What is known of the slots of a declaration, unfolded. -/
theorem slots_eq (hu : b.unit.WellFormed) (hx : b.unit.decl? d = some x)
    (p : Phase) : b.slots d p = (Phase.works x.isLocal b.base p).foldl
      (fun s q => b.step x (b.above x q) q s) (b.start d) := by
  rw [slots]
  simp only [hx]
  congr 1
  funext s q
  congr 1
  unfold above
  cases hm : x.parent with
  | none => rfl
  | some m =>
      have hparent : b.unit.parent? d = some m :=
        (CompilationUnit.parent?_of_decl? hx).trans hm
      exact dif_pos (hu.earlier d m hparent)

/-- Where there was no work since, slots are what they were. -/
theorem slots_of_le (hu : b.unit.WellFormed) (hp : p < .types ∨ p ≤ b.base) :
    b.slots d p = b.start d := by
  cases hx : b.unit.decl? d with
  | none => rw [slots, hx]
  | some x =>
      rw [slots_eq hu hx, Phase.works_eq_nil hp]
      rfl

/-- A phase without work for a declaration leaves its slots. -/
theorem step_of_not_mem (hq : q ∉ Phase.works x.isLocal b.base q)
    (hbase : b.base < q ∨ q = .sealedInheritors)
    (hlocal : x.isLocal = true → q = .bodies) : b.step x type q s = s := by
  rcases hbase with hbase | rfl
  · have hmem : q ∉ [Phase.types, .status, .contracts, .implicitTypes, .bodies] :=
      fun hmem => hq (Phase.mem_works_iff.mpr
        ⟨hmem, ⟨hbase, Phase.le_refl q⟩, hlocal⟩)
    cases q <;> first | rfl | exact absurd (by decide) hmem
  · rfl

/-- The work of a phase leads from the slots before to the slots after. -/
theorem slots_next (hu : b.unit.WellFormed) (hx : b.unit.decl? d = some x)
    {o : Phase} (hoq : o < q) (hbase : b.base < q ∨ q = .sealedInheritors)
    (hlocal : x.isLocal = true → q = .bodies)
    (hdone : ∀ r ∈ Phase.works x.isLocal b.base q, r = q ∨ r ≤ o) :
    b.slots d q = b.step x (b.above x q) q (b.slots d o) := by
  rw [slots_eq hu hx, slots_eq hu hx, Phase.works_eq_append hoq hdone]
  split
  · rw [List.foldl_append]
    rfl
  · next hq => rw [List.append_nil, step_of_not_mem hq hbase hlocal]

/-- Types of what is not in executable code do not change any more once
they are inferred. -/
theorem returnType_slots (hu : b.unit.WellFormed) (hx : b.unit.decl? d = some x)
    (hlocal : x.isLocal = false) (hp : .implicitTypes ≤ p) :
    (b.slots d p).returnType = (b.slots d .implicitTypes).returnType := by
  cases p <;> first | exact absurd hp (by decide) | skip
  · rfl
  · by_cases hbase : b.base < .bodies
    · rw [slots_next hu hx (by decide : Phase.implicitTypes < .bodies)
        (Or.inl hbase) (fun _ => rfl) fun r hr => ?_, step, hlocal]
      · unfold withBody
        split <;> rfl
      · have hmem := (Phase.mem_works_iff.mp hr).1
        revert hmem
        cases r <;> decide
    · have hle := Phase.le_of_not_lt hbase
      rw [slots_of_le hu (Or.inr hle),
        slots_of_le hu (Or.inr (Phase.le_trans (Phase.le_bodies _) hle))]

/-- Only the work on accessors depends on the type of what they belong to, and
only where types are inferred. -/
theorem step_congr (h : x.kind = .accessor →
      q = .implicitTypes ∨ q = .bodies → type = type') :
    b.step x type q s = b.step x type' q s := by
  have hinfer : (q = .implicitTypes ∨ q = .bodies) →
      b.inferred x type = b.inferred x type' := by
    intro hq
    have hrequest : b.request x type = b.request x type' := by
      unfold request
      by_cases hkind : x.kind = .accessor
      · rw [h hkind hq]
      · rw [if_neg hkind, if_neg hkind]
    rw [inferred, hrequest, inferred]
  cases q <;> try rfl
  · rw [step, step, infer, hinfer (Or.inl rfl), infer]
  · rw [step, step, catchUp, infer, hinfer (Or.inr rfl), catchUp, infer]

/-- Inferring types leaves what the hierarchy is read from. -/
theorem sameClause_infer (b : Blueprint) (x : Declaration)
    (type : Option ResolvedType) (phase : Phase) (s : Slots) :
    s.SameClause (b.infer x type phase s) := by
  unfold infer
  split
  · refine .report ?_ _ _
    exact ⟨rfl, rfl, rfl⟩
  · exact ⟨rfl, rfl, rfl⟩

/-- So does catching up. -/
theorem sameClause_catchUp (b : Blueprint) (x : Declaration)
    (type : Option ResolvedType) (s : Slots) :
    s.SameClause (b.catchUp x type s) := by
  have hstatus : ∀ s : Slots, s.SameClause (b.withStatus x s) :=
    fun _ => ⟨rfl, rfl, rfl⟩
  exact (((s.sameClause_readSignature _ _ _).trans (hstatus _)).trans
    (Slots.sameClause_withContract _ _ _ _)).trans (b.sameClause_infer x _ _ _)

/-- No work changes it. -/
theorem sameClause_step (b : Blueprint) (x : Declaration)
    (type : Option ResolvedType) (q : Phase) (s : Slots) :
    s.SameClause (b.step x type q s) := by
  have hrefl : ∀ s : Slots, s.SameClause s := fun _ => ⟨rfl, rfl, rfl⟩
  have hbody : ∀ s : Slots, s.SameClause (withBody x s) := by
    intro s
    unfold withBody
    split <;> exact ⟨rfl, rfl, rfl⟩
  cases q <;> try exact hrefl s
  · exact s.sameClause_readSignature _ _ _
  · exact ⟨rfl, rfl, rfl⟩
  · exact s.sameClause_withContract _ _ _
  · exact b.sameClause_infer x _ _ s
  · refine .trans ?_ (hbody _)
    split
    · exact b.sameClause_catchUp x _ s
    · exact hrefl s

/-- Nor does what is done in passing. -/
theorem sameClause_pass (b : Blueprint) (x : Declaration) (q : Phase)
    (s : Slots) : s.SameClause (b.pass x q s) := by
  cases q <;> try exact ⟨rfl, rfl, rfl⟩
  exact s.sameClause_readAnnotations _ _

/-- A class of which nothing but annotations is left to be read may be passed:
what is done then is all there is to do. -/
theorem pass_eq_step (hx : b.unit.decl? x.id = some x)
    (hclass : x.kind = .classDecl) (hlocal : x.isLocal = false)
    (hcode : x.hasCode = false) (hs : q = .types → s.Headed) :
    b.pass x q s = b.step x type q s := by
  have himplied : b.unit.impliedType? x.id = none := by
    rw [CompilationUnit.impliedType?, CompilationUnit.kind?_of_decl? hx, hclass]
  cases q <;> try rfl
  · rw [pass, step, himplied, Slots.readSignature_of_headed (hs rfl)]
  · show s = _
    rw [step, Slots.withContract, hclass]
    rfl
  · show s = _
    rw [step, infer, hclass]
    rfl
  · show s = _
    rw [step, hlocal, withBody, hcode]
    rfl

end Blueprint

end StagedResolve
