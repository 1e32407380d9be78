/-
What a supertype session remembers, and why that is right.

# Justified results

A session keeps a result for every class whose clause it has computed. A
result that was read off committed slots belongs to a class whose clause
is final (`World.Done`); any other one belongs to a class of a registered
unit and says rightly whether that is an alias (`World.Justified`). A
result refers to genuine classes, and to no more of them than the clause
had room for (`World.Affords`). All of this lasts, so a session may rely
on what it has found before.

# Extending

A computation begins with a class that the session has not met and ends
with its result, and in between it only does the same for other classes.
So when it is over, what the session knew is still there, it has met the
class, and no computation is under way that was not before
(`Session.Extends`).
-/
import StagedResolve.Proofs.Findings
import StagedResolve.Proofs.Reports
import StagedResolve.Proofs.Sessions

namespace StagedResolve

open StagedResolve.Action World

-- ============================================================ arms of clauses

namespace Slot

/-- The class that a slot refers to, or may come to refer to. -/
def isArm : Slot → Bool
  | .written _ => true
  | .resolved t => t.class?.isSome
  | .implicit => false

/-- To how many classes slots may come to refer. -/
def arms (slots : List Slot) : Nat := slots.countP isArm

/-- There are no more than slots. -/
theorem arms_le_length (slots : List Slot) : arms slots ≤ slots.length :=
  List.countP_le_length

/-- Slots do not refer to more classes by now. -/
theorem length_classes_le_arms (slots : List Slot) :
    (ResolvedType.classes (types slots)).length ≤ arms slots := by
  induction slots with
  | nil => exact Nat.le_refl 0
  | cons slot rest ih =>
      simp only [ResolvedType.classes, types, arms, List.filterMap_cons,
        List.countP_cons] at ih ⊢
      cases slot with
      | written t => exact Nat.le_succ_of_le ih
      | implicit => exact ih
      | resolved t =>
          cases ht : t.class? with
          | none => simpa [type?, isArm, ht] using ih
          | some c => simpa [type?, isArm, ht] using ih

/-- Slots that are resolved refer to all they ever will. -/
theorem arms_resolved (ts : List ResolvedType) :
    arms (ts.map .resolved) = (ResolvedType.classes ts).length := by
  induction ts with
  | nil => rfl
  | cons t rest ih =>
      simp only [arms, ResolvedType.classes, List.map_cons, List.countP_cons,
        List.filterMap_cons] at ih ⊢
      rw [ih]
      cases ht : t.class? with
      | none => simp [isArm, ht]
      | some c => simp [isArm, ht]

end Slot

-- ========================================================== justified results

namespace World

/-- The clause of a class will not change any more. -/
structure Done (w : World) (c : Symbol) : Prop where
  known : w.registry.Known c
  marked : ∀ u x, w.Registered u → u.id = c.unit →
    u.decl? c.decl = some x → x.kind.isClassLike = true →
    x.isEligible = true → .supertypes ≤ w.own u c.decl

/-- A final clause stays final. -/
theorem lasting_done (c : Symbol) : Lasting fun w => w.Done c := by
  rintro v w h ⟨hknown, hmarked⟩
  refine ⟨lasting_known c v w h hknown, fun u x hu hid hx hk he => ?_⟩
  rcases h.registry.known u.id u hu with hu | hnew
  · exact Phase.le_trans (hmarked u x hu hid hx hk he) (h.own u _ hu)
  · rw [hid] at hnew
    exact absurd hknown (Nat.not_lt.mpr hnew)

/-- The unit of a known class is not there any more. -/
structure Gone (w : World) (c : Symbol) : Prop where
  known : w.registry.Known c
  absent : ∀ u, w.Registered u → u.id ≠ c.unit

/-- It never comes back. -/
theorem lasting_gone (c : Symbol) : Lasting fun w => w.Gone c := by
  rintro v w h ⟨hknown, habsent⟩
  refine ⟨lasting_known c v w h hknown, fun u hu hid => ?_⟩
  rcases h.registry.known u.id u hu with hu | hnew
  · exact habsent u hu hid
  · rw [hid] at hnew
    exact absurd hknown (Nat.not_lt.mpr hnew)

/-- Then there is no clause to change. -/
theorem Gone.done {w : World} {c : Symbol} (h : w.Gone c) : w.Done c :=
  ⟨h.known, fun u _ hu hid => absurd hid (h.absent u hu)⟩

/-- A class can refer to a number of classes: to none in any case, and to
fewer than it may cause steps of a search. -/
def Affords (w : World) (c : Symbol) (n : Nat) : Prop :=
  n = 0 ∨ ∃ u x, w.Registered u ∧ u.id = c.unit ∧
    u.decl? c.decl = some x ∧ n < x.searchWeight

/-- It can refer to fewer. -/
theorem Affords.mono {w : World} {c : Symbol} {m n : Nat} (h : w.Affords c n)
    (hle : m ≤ n) : w.Affords c m := by
  rcases h with rfl | ⟨u, x, hu, hid, hx, hlt⟩
  · exact Or.inl (Nat.le_zero.mp hle)
  · exact Or.inr ⟨u, x, hu, hid, hx, Nat.lt_of_le_of_lt hle hlt⟩

/-- It can refer to as many later. -/
theorem lasting_affords (c : Symbol) (n : Nat) :
    Lasting fun w => w.Affords c n := by
  rintro v w h (hn | ⟨u, x, hu, hrest⟩)
  · exact Or.inl hn
  · exact Or.inr ⟨u, x, h.registered hu, hrest⟩

/-- The clause of an alias is one type at most. -/
theorem length_clause_of_alias {u : CompilationUnit} {d : DeclId}
    (h : u.kind? d = some .typeAlias) (w : World) :
    (w.clause u d).length ≤ 1 := by
  unfold clause
  dsimp only
  rw [if_pos h]
  cases (w.slots u d).expansion with
  | none => exact Nat.zero_le 1
  | some slot => exact Nat.le_refl 1

/-- The slots that carry no clause: the supertypes of an alias, and the
expansion of anything else. -/
def spare (w : World) (u : CompilationUnit) (d : DeclId) : List Slot :=
  let slots := w.slots u d
  if u.kind? d = some .typeAlias then slots.supertypes
  else slots.expansion.toList

/-- The classes that clauses and import tables refer to are genuine, clauses
have no more references than were written, nothing else is resolved like
one, and clauses are as they were written where the marker is not set. -/
structure Referring (w : World) : Prop where
  clause : ∀ u d, w.Registered u →
    ∀ c ∈ ResolvedType.classes (Slot.types (w.clause u d)),
      w.registry.Genuine c
  width : ∀ u d x, w.Registered u → u.decl? d = some x →
    Slot.arms (w.clause u d) < x.searchWeight
  spare : ∀ u d, w.Registered u → Slot.types (w.spare u d) = []
  unmarked : ∀ u d, w.Registered u → ¬ .supertypes ≤ w.own u d →
    Slot.types (w.clause u d) = []
  imports : ∀ u t, w.Registered u → (w.slots u .root).imports = some t →
    t.Genuine w

/-- A clause that was read is as it was written, unless the marker is set by
now. -/
def Open (w : World) (u : CompilationUnit) (d : DeclId) (clause : List Slot) :
    Prop :=
  w.Registered u ∧ (¬ .supertypes ≤ w.own u d → Slot.types clause = [])

/-- That lasts. -/
theorem lasting_open (u : CompilationUnit) (d : DeclId) (clause : List Slot) :
    Lasting fun w => w.Open u d clause :=
  fun _ _ h hv => ⟨h.registered hv.1, fun hopen => hv.2 fun hle =>
    hopen (Phase.le_trans hle (h.own u d hv.1))⟩

/-- A result of a session is right. -/
structure Justified (w : World) (c : Symbol) (r : Computed) : Prop where
  committed : r.committed = true → w.Done c
  pending : r.committed = false → ∃ u x, w.Registered u ∧ u.id = c.unit ∧
    u.decl? c.decl = some x ∧ x.kind.isClassLike = true ∧
    x.isEligible = true ∧ (r.isAlias = true ↔ x.kind = .typeAlias)
  classes : ∀ b ∈ r.classes, w.registry.Genuine b
  width : w.Affords c r.classes.length
  tells : r.committed = false → r.Tells

/-- It stays right. -/
theorem lasting_justified (c : Symbol) (r : Computed) :
    Lasting fun w => w.Justified c r := by
  rintro v w h ⟨hcommitted, hpending, hclasses, hwidth, htells⟩
  refine ⟨fun hr => lasting_done c v w h (hcommitted hr), fun hr => ?_,
    fun b hb => lasting_genuine b v w h (hclasses b hb),
    lasting_affords c _ v w h hwidth, htells⟩
  obtain ⟨u, x, hu, hrest⟩ := hpending hr
  exact ⟨u, x, h.registered hu, hrest⟩

/-- What a session remembers is right, and it lists what it has met. -/
structure Remembers (w : World) : Prop where
  listed : ∀ c, c ∈ w.session.order ↔ w.session.hasMet c = true
  nodup : w.session.order.Nodup
  known : ∀ c, w.session.hasMet c = true → w.registry.Known c
  result : ∀ c r, w.session.result? c = some r → w.Justified c r
  imports : ∀ id t, w.session.imports.find? id = some t → t.Genuine w

/-- A session that has computed nothing remembers nothing wrong. -/
theorem Remembers.start (w : World) :
    Remembers { w with session := .start } := by
  constructor
  case listed =>
    intro c
    constructor
    · intro h
      cases h
    · intro h
      cases h
  case nodup => exact List.nodup_nil
  case known =>
    intro c h
    cases h
  case result =>
    intro c r h
    cases h
  case imports =>
    intro id t h
    cases h

/-- Nothing that lasts makes a session forget. -/
theorem Remembers.later {v w : World} (hv : v.Remembers) (h : v.Onward w)
    (hs : w.session = v.session) : w.Remembers := by
  constructor
  case listed =>
    rw [hs]
    exact hv.listed
  case nodup =>
    rw [hs]
    exact hv.nodup
  case known =>
    rw [hs]
    exact fun c hc => lasting_known c v w h (hv.known c hc)
  case result =>
    rw [hs]
    exact fun c r hr => lasting_justified c r v w h (hv.result c r hr)
  case imports =>
    rw [hs]
    exact fun id t ht => t.lasting_genuine v w h (hv.imports id t ht)

/-- Another import table of known classes is remembered rightly. -/
theorem Remembers.enterImports {w : World} {id : UnitId} {table : ImportTable}
    (hw : w.Remembers) (ht : table.Genuine w) :
    Remembers { w with session := { w.session with
      imports := w.session.imports.insert id table } } := by
  refine ⟨hw.listed, hw.nodup, hw.known, fun b r h => lasting_justified b r
    w _ (.of_eq rfl rfl (Nat.le_refl _)) (hw.result b r h), fun id' t h => ?_⟩
  rw [Table.find?_insert] at h
  split at h
  · cases h
    exact ht
  · exact hw.imports id' t h

end World

-- ============================================================== extending

namespace Session

/-- Nothing has been forgotten, results that are new were not written back
yet, and the same computations are under way. -/
structure Grows (s t : Session) : Prop where
  order : s.order <+: t.order
  result : ∀ c r, s.result? c = some r → t.result? c = some r
  fresh : ∀ c r, t.result? c = some r →
    s.result? c = some r ∨ r.applied = false
  underWay : ∀ c, t.progress.find? c = some .underWay ↔
    s.progress.find? c = some .underWay

/-- A session has grown within one round. -/
structure Extends (s t : Session) : Prop extends Grows s t where
  expanded : t.expanded = s.expanded

variable {s t u : Session}

/-- Doing nothing forgets nothing. -/
theorem Grows.refl (s : Session) : s.Grows s :=
  ⟨List.prefix_refl _, fun _ _ h => h, fun _ _ h => Or.inl h, fun _ => Iff.rfl⟩

/-- One computation after another. -/
theorem Grows.trans (h : s.Grows t) (h' : t.Grows u) : s.Grows u := by
  refine ⟨h.order.trans h'.order, fun c r hr => h'.result c r (h.result c r hr),
    fun c r hr => ?_, fun c => (h'.underWay c).trans (h.underWay c)⟩
  rcases h'.fresh c r hr with hr | hr
  · exact h.fresh c r hr
  · exact Or.inr hr

/-- Doing nothing goes on from where it was. -/
theorem Extends.refl (s : Session) : s.Extends s := ⟨.refl s, rfl⟩

/-- One part of a round after another. -/
theorem Extends.trans (h : s.Extends t) (h' : t.Extends u) : s.Extends u :=
  ⟨h.toGrows.trans h'.toGrows, h'.expanded.trans h.expanded⟩

/-- A class was met if its computation is under way or done. -/
theorem hasMet_iff {c : Symbol} : s.hasMet c = true ↔
    s.progress.find? c = some .underWay ∨ ∃ r, s.result? c = some r := by
  unfold hasMet result? Table.contains
  cases s.progress.find? c with
  | none => simp
  | some p => cases p <;> simp [Progress.result?]

/-- What was met stays met. -/
theorem Grows.hasMet (h : s.Grows t) {c : Symbol}
    (hc : s.hasMet c = true) : t.hasMet c = true := by
  rw [hasMet_iff] at hc ⊢
  rcases hc with hc | ⟨r, hr⟩
  · exact Or.inl ((h.underWay c).mpr hc)
  · exact Or.inr ⟨r, h.result c r hr⟩

/-- The result of a class whose computation has begun. -/
theorem result?_enter (s : Session) (c b : Symbol) :
    (s.enter c).result? b = if c = b then none else s.result? b := by
  unfold enter result?
  rw [Table.find?_insert]
  split
  · rfl
  · rfl

/-- The result of a class whose computation has ended. -/
theorem result?_finish (s : Session) (c b : Symbol) (r : Computed) :
    (s.finish c r).result? b = if c = b then some r else s.result? b := by
  unfold finish result?
  rw [Table.find?_insert]
  split
  · rfl
  · rfl

/-- Beginning a computation, ending it, and what was done in between. -/
theorem Extends.finish {c : Symbol} {r : Computed} (hc : s.hasMet c = false)
    (h : (s.enter c).Extends t) (hr : r.applied = false) :
    s.Extends (t.finish c r) := by
  have hnone : s.result? c = none ∧ s.progress.find? c ≠ some .underWay := by
    have hnot : ¬ s.hasMet c = true := by
      rw [hc]
      exact Bool.false_ne_true
    rw [hasMet_iff, not_or, not_exists] at hnot
    exact ⟨Option.eq_none_iff_forall_ne_some.mpr hnot.2, hnot.1⟩
  refine ⟨?_, h.expanded⟩
  constructor
  case order =>
    exact (List.prefix_append s.order [c]).trans h.order
  case result =>
    intro b q hq
    have hne : c ≠ b := by
      rintro rfl
      rw [hnone.1] at hq
      cases hq
    rw [result?_finish, if_neg hne]
    exact h.result b q (by rw [result?_enter, if_neg hne]; exact hq)
  case fresh =>
    intro b q hq
    rw [result?_finish] at hq
    split at hq
    · cases hq
      exact Or.inr hr
    · next hne =>
      rcases h.fresh b q hq with hb | hb
      · rw [result?_enter, if_neg hne] at hb
        exact Or.inl hb
      · exact Or.inr hb
  case underWay =>
    intro b
    show (t.progress.insert c (.done r)).find? b = _ ↔ _
    rw [Table.find?_insert]
    by_cases hcb : c = b
    · subst hcb
      rw [if_pos rfl]
      simp [hnone.2]
    · rw [if_neg hcb, h.underWay b]
      show (s.progress.insert c .underWay).find? b = _ ↔ _
      rw [Table.find?_insert, if_neg hcb]

end Session

-- ==================================================== one clause at a time

/-- A condition in a session that has gone on from another one. -/
def World.Recalls (I : World → Prop) (s : Session) (w : World) : Prop :=
  I w ∧ w.Remembers ∧ s.Extends w.session

namespace Unaware

variable {I : World → Prop} {s : Session}

/-- Looking up leaves the memory of a session. -/
theorem recalls (hI : Unaware I) : Static (Recalls I s) where
  coherent := fun w hw => hI.coherent w hw.1
  classifier := fun w k ⟨hw, hr, hs⟩ => ⟨hI.classifier w k hw,
    hr.later (later_classifier (hI.coherent w hw) k) rfl, hs⟩
  counters := fun w c hc ⟨hw, hr, hs⟩ => ⟨hI.counters w c hc hw,
    hr.later (.of_eq rfl rfl hc) rfl, hs⟩

/-- What lasts may be added. -/
theorem recalls_and {T : World → Prop} (w : World) :
    Recalls (fun w => I w ∧ T w) s w ↔ Recalls I s w ∧ T w :=
  ⟨fun hw => ⟨⟨hw.1.1, hw.2⟩, hw.1.2⟩, fun hw => ⟨⟨hw.1.1, hw.2⟩, hw.1.2⟩⟩

end Unaware

/-- What is still to be written back was not read off final slots. -/
theorem Computed.not_committed {r : Computed} (h : r.isPending = true) :
    r.committed = false := by
  unfold isPending at h
  simp only [Bool.and_eq_true, Bool.not_eq_true'] at h
  exact h.1

/-- The types of a result that was read off final slots. -/
theorem Computed.types_ofCommitted (types : List ResolvedType) :
    (Computed.ofCommitted types).types = types := by
  simp [Computed.ofCommitted, Computed.types, Function.comp_def]

/-- So are its classes. -/
theorem Computed.classes_ofCommitted (types : List ResolvedType) :
    (Computed.ofCommitted types).classes = ResolvedType.classes types := by
  rw [classes, types_ofCommitted]

/-- The classes that references refer to. -/
def Reference.classes (rs : List Reference) : List Symbol :=
  ResolvedType.classes (rs.map (·.type))

/-- The first of them comes first. -/
theorem Reference.classes_cons (r : Reference) (rs : List Reference) :
    Reference.classes (r :: rs) =
      r.type.class?.toList ++ Reference.classes rs := by
  unfold classes ResolvedType.classes
  rw [List.map_cons, List.filterMap_cons]
  cases r.type.class? with
  | none => rfl
  | some c => rfl

/-- The classes of references. -/
theorem Computed.mem_classes_iff {r : Computed} {b : Symbol} :
    b ∈ r.classes ↔ ∃ x ∈ r.references, x.type.class? = some b := by
  simp [classes, types, ResolvedType.classes]

/-- The result for a class whose clause has been resolved. -/
def Computed.ofClause (x : Declaration)
    (r : List Reference × List ResolveError) : Computed :=
  { references :=
      if !(x.kind == .typeAlias) && r.1.isEmpty then [⟨.any, none⟩] else r.1
    errors := r.2
    committed := false
    isAlias := x.kind == .typeAlias
    applied := false }

/-- It refers to no other classes than the clause. -/
theorem Computed.length_classes_ofClause (x : Declaration)
    (r : List Reference × List ResolveError) :
    (Computed.ofClause x r).classes.length ≤ (Reference.classes r.1).length := by
  unfold ofClause Computed.classes Computed.types
  dsimp only
  split
  · exact Nat.zero_le _
  · exact Nat.le_refl _

namespace World

/-- What is known about the one unit that a class can be of is enough for
its clause to be final. -/
theorem Done.of_unit {w : World} {c : Symbol} {u : CompilationUnit}
    (hc : w.registry.Known c) (hu : w.Registered u) (hid : u.id = c.unit)
    (h : ∀ x, u.decl? c.decl = some x → x.kind.isClassLike = true →
      x.isEligible = true → .supertypes ≤ w.own u c.decl) : w.Done c := by
  refine ⟨hc, fun v x hv hvid hx hk he => ?_⟩
  obtain rfl : v = u := hv.eq hu (hvid.trans hid.symm)
  exact h x hx hk he

/-- What was read off final slots is right. -/
theorem Justified.ofCommitted {w : World} {c : Symbol}
    {types : List ResolvedType} (hc : w.Done c)
    (h : ∀ b ∈ ResolvedType.classes types, w.registry.Genuine b)
    (hwidth : w.Affords c (ResolvedType.classes types).length) :
    w.Justified c (.ofCommitted types) := by
  have hclasses := Computed.classes_ofCommitted types
  refine ⟨fun _ => hc, fun hr => Bool.noConfusion hr, fun b hb => h b ?_, ?_,
    fun hr => Bool.noConfusion hr⟩
  · rwa [hclasses] at hb
  · rwa [hclasses]

/-- The result for an open class whose clause has been resolved is right:
it is the references, or the top type in their place. -/
theorem Justified.ofClause {w : World} {c : Symbol} {u : CompilationUnit}
    {d : Declaration} {r : List Reference × List ResolveError}
    (hu : w.Registered u) (hid : u.id = c.unit) (hd : u.decl? c.decl = some d)
    (hk : d.kind.isClassLike = true) (he : d.isEligible = true)
    (hknown : ∀ x ∈ r.1, ∀ b, x.type.class? = some b → w.registry.Genuine b)
    (hwidth : (Reference.classes r.1).length < d.searchWeight)
    (htold : ∀ x ∈ r.1, Told r.2 x.type.errorNames) :
    w.Justified c (.ofClause d r) := by
  refine ⟨fun h => absurd h Bool.false_ne_true,
    fun _ => ⟨u, d, hu, hid, hd, hk, he, ?_⟩, fun b hb => ?_,
    Or.inr ⟨u, d, hu, hid, hd, Nat.lt_of_le_of_lt
      (Computed.length_classes_ofClause d r) hwidth⟩, fun _ x hx => ?_⟩
  · simp [Computed.ofClause]
  · obtain ⟨x, hx, hb⟩ := Computed.mem_classes_iff.mp hb
    simp only [Computed.ofClause] at hx
    split at hx
    · rw [List.mem_singleton.mp hx] at hb
      cases hb
    · exact hknown x hx b hb
  · simp only [Computed.ofClause] at hx
    split at hx
    · rw [List.mem_singleton.mp hx]
      exact fun n hn => absurd hn List.not_mem_nil
    · exact htold x hx

end World

namespace Action

variable {I E : World → Prop} {s : Session} {source : SupertypeSource}

/-- A unit that was looked for stays registered, and what is known where there
is none stays so if it lasts. -/
theorem lasting_sought {N : World → Prop} (hN : Lasting N) (id : UnitId)
    (found : Option CompilationUnit) : Lasting fun w =>
      (found = none → N w) ∧
        ∀ u, found = some u → w.Registered u ∧ u.id = id :=
  .and (.all fun _ => hN) (.all fun u => .all fun _ =>
    (lasting_registered u).and (lasting_const _))

/-- A unit that the session needs is registered under its id, and its import
table is entered. Where there is none, something may be known that lasts. -/
theorem sessionUnit?_registered {K N : World → Prop}
    {T : ImportTable → World → Prop} {id : UnitId} (hK : Static K)
    (hN : Lasting N) (hT : ∀ t, Lasting (T t))
    (hstored : ∀ w u t, K w → w.Registered u →
      (w.slots u .root).imports = some t → T t w)
    (hfresh : ∀ w t, K w → t.Live w → T t w)
    (himports : ∀ w table, K w → T table w → K { w with
      session := { w.session with
        imports := w.session.imports.insert id table } })
    (hnone : ∀ w, K w → w.registry.unit? id = none → N w) :
    Advances K (sessionUnit? id) (fun found w => (found = none → N w) ∧
      ∀ u, found = some u → w.Registered u ∧ u.id = id) E := by
  refine .bind (.read (Q := fun found w => (found = none → N w) ∧
    ∀ u, found = some u → w.Registered u ∧ u.id = id) fun w hw => ?_)
    fun found => ?_
  · exact ⟨hnone w hw, fun u hu => (hK.coherent w hw).registered hu⟩
  cases found with
  | none => exact .pure fun w hw => hw.2
  | some u =>
      have hcalm := hK.and_lasting (lasting_sought hN id (some u))
      refine .andThen (.read (Q := fun _ _ => True) fun _ _ => trivial)
        fun known => ?_
      split
      · exact .pure fun w hw => hw.2
      · refine .bind (storedOrFreshImports_advances hcalm hT
          (fun w t hw ht => hstored w u t hw.1 (hw.2.2 u rfl).1 ht)
          fun w t hw ht => hfresh w t hw.1 ht) fun table => ?_
        intro R hR
        refine .bind (Q := fun _ w => (((K w ∧ ((some u = none → N w) ∧
          ∀ v, some u = some v → w.Registered v ∧ v.id = id)) ∧
            T table w) ∧ R w)) (.update ?_) fun _ => .pure fun w hw =>
              ⟨hw, hw.1.1.2⟩
        rintro w ⟨⟨⟨hw, hu⟩, ht⟩, hR'⟩
        have hlater : w.Onward { w with session := { w.session with
            imports := w.session.imports.insert id table } } :=
          .of_eq rfl rfl (Nat.le_refl _)
        exact ⟨⟨⟨himports w table hw ht,
          lasting_sought hN id (some u) _ _ hlater hu⟩,
          hT table _ _ hlater ht⟩, hR _ _ hlater hR'⟩

/-- A unit that the session needs for a known class. Where there is none
there never will be. -/
theorem sessionUnit?_advances {K : World → Prop} (hK : Static K)
    (href : ∀ w, K w → w.Referring)
    (himports : ∀ w id table, K w → table.Genuine w → K { w with
      session := { w.session with
        imports := w.session.imports.insert id table } })
    {c : Symbol} (hc : ∀ w, K w → w.registry.Known c) :
    Advances K (sessionUnit? c.unit) (fun found w =>
      (found = none → w.Gone c) ∧
        ∀ u, found = some u → w.Registered u ∧ u.id = c.unit) E := by
  refine sessionUnit?_registered hK (lasting_gone c)
    (fun t => t.lasting_genuine)
    (fun w u t hw hu ht => (href w hw).imports u t hu ht)
    (fun w t hw ht => ht.genuine (hK.coherent w hw))
    (fun w table hw ht => himports w c.unit table hw ht)
    fun w hw hnone => ⟨hc w hw, fun u hu hid => ?_⟩
  rw [World.Registered, hid, hnone] at hu
  cases hu

/-- The entries of a clause refer to classes that are fine. -/
theorem resolveClause_advances {M : World → Prop}
    {fine asked : Symbol → World → Prop} (h : Yields fine asked M E source)
    (sc : Scope) (hu : ∀ w, M w → w.Registered sc.unit)
    (hasked : ∀ w, M w → ∀ d, asked (sc.unit.symbol d) w)
    (himports : ∀ w, M w → ∀ name c, sc.imports.explicit.find? name = some c →
      fine c w) (place : DeclId) (slots : List Slot)
    (hslots : ∀ w, M w → ∀ b ∈ ResolvedType.classes (Slot.types slots),
      fine b w) :
    Advances M (resolveClause sc source place slots)
      (fun r w => ∀ x ∈ r.1, Yields.Refers fine x.type w) E := by
  induction slots generalizing M with
  | nil => exact .pure fun w _ x hx => by cases hx
  | cons slot rest ih =>
      have hrest : ∀ w, M w → ∀ b ∈ ResolvedType.classes (Slot.types rest),
          fine b w := by
        intro w hw b hb
        refine hslots w hw b ?_
        simp only [ResolvedType.classes, Slot.types, List.filterMap_cons] at hb ⊢
        cases slot.type? with
        | none => exact hb
        | some t =>
            rw [List.filterMap_cons]
            cases t.class? with
            | none => exact hb
            | some c => exact List.mem_cons_of_mem _ hb
      cases slot with
      | implicit => exact ih h hu hasked himports hrest
      | written t =>
          refine .bind (h.resolve hu hasked himports place .header t)
            fun r => ?_
          refine .bind (ih (h.and_lasting (h.lasting_refers r.1))
            (fun w hw => hu w hw.1) (fun w hw => hasked w hw.1)
            (fun w hw => himports w hw.1) fun w hw => hrest w hw.1)
            fun r' => .pure fun w hw x hx => ?_
          rcases List.mem_cons.mp hx with rfl | hx
          · exact hw.1.2
          · exact hw.2 x hx
      | resolved t =>
          refine .bind (ih h hu hasked himports hrest) fun r' =>
            .pure fun w hw x hx => ?_
          rcases List.mem_cons.mp hx with rfl | hx
          · intro c hc
            refine hslots w hw.1 c ?_
            simp [ResolvedType.classes, Slot.types, Slot.type?, hc]
          · exact hw.2 x hx

/-- There are no more of them than were written. -/
theorem resolveClause_length (sc : Scope) (source : SupertypeSource)
    (place : DeclId) (slots : List Slot) :
    Answers (resolveClause sc source place slots)
      fun r => r.1.length ≤ slots.length := by
  induction slots with
  | nil => exact .pure (Nat.le_refl 0)
  | cons slot rest ih =>
      cases slot with
      | implicit => exact fun v r w h => Nat.le_succ_of_le (ih v r w h)
      | written t =>
          exact .andThen fun r => .bind ih fun r' hr' =>
            .pure (Nat.succ_le_succ hr')
      | resolved t => exact .bind ih fun r' hr' => .pure (Nat.succ_le_succ hr')

/-- They refer to no more classes than the clause has room for. -/
theorem resolveClause_width (sc : Scope) (source : SupertypeSource)
    (place : DeclId) (slots : List Slot) :
    Answers (resolveClause sc source place slots)
      fun r => (Reference.classes r.1).length ≤ Slot.arms slots := by
  induction slots with
  | nil => exact .pure (Nat.le_refl 0)
  | cons slot rest ih =>
      have hcons : ∀ (t : ResolvedType) (o : Option WrittenType)
          (rs : List Reference), (Reference.classes (⟨t, o⟩ :: rs)).length =
            (Reference.classes rs).length +
              if t.class?.isSome then 1 else 0 := by
        intro t o rs
        rw [Reference.classes_cons, List.length_append, Nat.add_comm]
        cases t.class? with
        | none => rfl
        | some c => rfl
      have harms : Slot.arms (slot :: rest) =
          Slot.arms rest + if slot.isArm then 1 else 0 := List.countP_cons
      rw [harms]
      cases slot with
      | implicit => exact ih
      | written t =>
          refine .andThen fun r => .bind ih fun r' hr' => .pure ?_
          rw [hcons]
          simp only [Slot.isArm, if_true]
          split <;> omega
      | resolved t =>
          refine .bind ih fun r' hr' => .pure ?_
          rw [hcons]
          exact Nat.add_le_add_right hr' _

/-- What is known about answers may be added to what is established. -/
theorem Answers.advances {α : Type} {x : Action α} {T : α → Prop}
    {S : World → World → Prop} {K F : World → Prop} {Q : α → World → Prop}
    (hx : Answers x T) (h : AdvancesBy S K x Q F) :
    AdvancesBy S K x (fun a w => Q a w ∧ T a) F :=
  fun R hR => (hx.both (h R hR)).post fun _ _ hw =>
    ⟨hw.1.1, hw.1.2, hw.2⟩

section clauses

variable {J : World → Prop} {c : Symbol} {u : CompilationUnit}
  {d : Declaration}

/-- Resolving the clause of an open class comes to a result that is right. -/
theorem openClause_advances (h : Finds J E source)
    (hremembers : ∀ w, J w → w.Remembers) (hu : ∀ w, J w → w.Registered u)
    (hid : ∀ w, J w → u.id = c.unit) (hd : u.decl? c.decl = some d)
    (hk : d.kind.isClassLike = true) (he : d.isEligible = true)
    (defaults : List String) {clause : List Slot}
    (hclause : ∀ w, J w → Slot.types clause = [])
    (hwidth : ∀ w, J w → Slot.arms clause < d.searchWeight) :
    Advances J (do
        let table ← session fun s => (s.imports.find? c.unit).getD .empty
        let (references, errors) ← resolveClause ⟨u, table, defaults⟩ source
          c.decl clause
        return .ofClause d (references, errors))
      (fun r w => w.Justified c r ∧ r.applied = false) E := by
  refine .bind (.read (Q := fun table w => ImportTable.Genuine table w)
    fun w hw => ?_) fun table => ?_
  · show ((w.session.imports.find? c.unit).getD .empty).Genuine w
    cases ht : w.session.imports.find? c.unit with
    | none => exact ImportTable.genuine_empty w
    | some t => exact (hremembers w hw).imports c.unit t ht
  have h' := h.and_lasting table.lasting_genuine
  refine .bind ((resolveClause_told _ source c.decl clause).advances
    ((resolveClause_width _ source c.decl clause).advances
      (resolveClause_advances h' ⟨u, table, defaults⟩
        (fun w hw => hu w hw.1)
        (fun w hw => (h.coherent w hw.1).known (hu w hw.1)) (fun w hw => hw.2)
        c.decl clause fun w hw b hb => ?_))) fun r => .pure fun w hw => ⟨?_, rfl⟩
  · rw [hclause w hw.1] at hb
    cases hb
  · exact .ofClause (hu w hw.1.1) (hid w hw.1.1) hd hk he hw.2.1.1
      (Nat.lt_of_le_of_lt hw.2.1.2 (hwidth w hw.1.1))
      (hw.2.2 (hclause w hw.1.1))

/-- What a class-like declaration comes to is right: what its clause was
told, or what its clause means. -/
theorem classLike_advances (h : Finds J E source)
    (href : ∀ w, J w → w.Referring) (hremembers : ∀ w, J w → w.Remembers)
    (hc : ∀ w, J w → w.registry.Known c) (hu : ∀ w, J w → w.Registered u)
    (hid : ∀ w, J w → u.id = c.unit) (hd : u.decl? c.decl = some d)
    (hk : d.kind.isClassLike = true) (defaults : List String) :
    Advances J (do
        let clause ← read fun w => w.clause u c.decl
        let own ← read fun w => w.own u c.decl
        if .supertypes ≤ own || !d.isEligible then
          return .ofCommitted (Slot.types clause)
        else
          let table ← session fun s => (s.imports.find? c.unit).getD .empty
          let (references, errors) ← resolveClause ⟨u, table, defaults⟩ source
            c.decl clause
          return .ofClause d (references, errors))
      (fun r w => w.Justified c r ∧ r.applied = false) E := by
  refine .bind (.read (Q := fun clause w => ((∀ b ∈ ResolvedType.classes
    (Slot.types clause), w.registry.Genuine b) ∧
      Slot.arms clause < d.searchWeight) ∧ w.Open u c.decl clause)
    fun w hw => ⟨⟨(href w hw).clause u _ (hu w hw),
      (href w hw).width u _ d (hu w hw) hd⟩, hu w hw,
      (href w hw).unmarked u _ (hu w hw)⟩) fun clause => ?_
  have hclause := ((lasting_genuine_all (ResolvedType.classes
    (Slot.types clause))).and (lasting_const (Slot.arms clause <
      d.searchWeight))).and (lasting_open u c.decl clause)
  have hown : ∀ own : Phase, Lasting fun w => w.Registered u ∧
      (.supertypes ≤ own → .supertypes ≤ w.own u c.decl) ∧
      (¬ .supertypes ≤ own → Slot.types clause = []) := by
    rintro own v w hvw ⟨hu, hv, hopen⟩
    exact ⟨hvw.registered hu, fun hle =>
      Phase.le_trans (hv hle) (hvw.own u _ hu), hopen⟩
  refine .bind (.read (Q := fun own w => w.Registered u ∧
    (.supertypes ≤ own → .supertypes ≤ w.own u c.decl) ∧
    (¬ .supertypes ≤ own → Slot.types clause = []))
    fun w hw => ⟨hu w hw.1, id, hw.2.2.2⟩) fun own => ?_
  split
  · next hfinal =>
    refine .pure fun w hw => ⟨.ofCommitted ?_ hw.1.2.1.1 (Or.inr ⟨u, d, hw.2.1,
      hid w hw.1.1, hd, Nat.lt_of_le_of_lt (Slot.length_classes_le_arms clause)
        hw.1.2.1.2⟩), rfl⟩
    refine .of_unit (hc w hw.1.1) hw.2.1 (hid w hw.1.1) fun x hx _ he => ?_
    rw [hd] at hx
    cases hx
    rw [he, Bool.not_true, Bool.or_false] at hfinal
    exact hw.2.2.1 (of_decide_eq_true hfinal)
  · next hopen =>
    simp only [Bool.or_eq_true, decide_eq_true_eq, Bool.not_eq_true', not_or,
      Bool.not_eq_false] at hopen
    exact openClause_advances ((h.and_lasting hclause).and_lasting (hown own))
      (fun w hw => hremembers w hw.1.1) (fun w hw => hw.2.1)
      (fun w hw => hid w hw.1.1) hd hk hopen.2 defaults
      (fun w hw => hw.2.2.2 hopen.1) fun w hw => hw.1.2.1.2

end clauses

/-- The result for a known class is right, and not written back yet. -/
theorem evaluate_advances (hI : Unaware I) (href : ∀ w, I w → w.Referring)
    {c : Symbol} (hc : ∀ w, Recalls I s w → w.registry.Known c)
    (h : Finds (Recalls I s) E source) (defaults : List String) :
    Advances (Recalls I s) (evaluate defaults source c)
      (fun r w => w.Justified c r ∧ r.applied = false) E := by
  have hnone : ∀ w : World, w.Done c → w.Justified c (.ofCommitted []) ∧
      (Computed.ofCommitted []).applied = false :=
    fun w hw => ⟨.ofCommitted hw nofun (Or.inl rfl), rfl⟩
  have hunit := sessionUnit?_advances (E := E) (hI.recalls (s := s))
    (fun w hw => href w hw.1) (fun w id table hw ht => ⟨hI.session w _ hw.1,
      hw.2.1.enterImports ht, ⟨hw.2.2.order, hw.2.2.result, hw.2.2.fresh,
        hw.2.2.underWay⟩, hw.2.2.expanded⟩) hc
  refine .bind hunit fun found => ?_
  cases found with
  | none => exact .pure fun w hw => hnone w (hw.2.1 rfl).done
  | some u =>
      dsimp only
      split
      · next hd =>
        refine .pure fun w hw => hnone w ?_
        obtain ⟨hu, hid⟩ := hw.2.2 u rfl
        refine .of_unit (hc w hw.1) hu hid fun x hx => ?_
        rw [hd] at hx
        cases hx
      · next d hd =>
        split
        · next hk =>
          refine .pure fun w hw => hnone w ?_
          obtain ⟨hu, hid⟩ := hw.2.2 u rfl
          refine .of_unit (hc w hw.1) hu hid fun x hx hk' => ?_
          rw [hd] at hx
          cases hx
          rw [hk'] at hk
          cases hk
        · next hk =>
          have hk : d.kind.isClassLike = true := by simpa using hk
          have hT := lasting_sought (lasting_gone c) c.unit (some u)
          exact classLike_advances (h.and_lasting hT)
            (fun w hw => href w hw.1.1) (fun w hw => hw.1.2.1)
            (fun w hw => hc w hw.1) (fun w hw => (hw.2.2 u rfl).1)
            (fun w hw => (hw.2.2 u rfl).2) hd hk defaults

end Action

-- ============================================================= computing

namespace Session

variable {s : Session} {b c : Symbol}

/-- Beginning a computation meets its class and no other. -/
theorem hasMet_enter_iff :
    (s.enter c).hasMet b = true ↔ c = b ∨ s.hasMet b = true := by
  rw [hasMet, enter, Table.contains, Table.find?_insert]
  split
  · next h => simp [h]
  · next h => simp [h, hasMet, Table.contains]

/-- Finishing a computation meets its class and no other. -/
theorem hasMet_finish_iff {r : Computed} :
    (s.finish c r).hasMet b = true ↔ c = b ∨ s.hasMet b = true := by
  rw [hasMet, finish, Table.contains, Table.find?_insert]
  split
  · next h => simp [h]
  · next h => simp [h, hasMet, Table.contains]

/-- The session lists the classes that it has met, each once. -/
structure Listed (s : Session) : Prop where
  nodup : s.order.Nodup
  met : ∀ c, c ∈ s.order ↔ s.hasMet c = true

namespace Listed

variable {t : Session}

/-- A session that has met nothing lists nothing. -/
theorem start : Session.start.Listed :=
  ⟨List.nodup_nil, fun _ => ⟨nofun, nofun⟩⟩

/-- Only the list and what was met matter. -/
theorem of_eq (h : s.Listed) (horder : t.order = s.order)
    (hprogress : t.progress = s.progress) : t.Listed := by
  refine ⟨horder ▸ h.nodup, fun c => ?_⟩
  rw [horder, hasMet, hprogress]
  exact h.met c

/-- Beginning a computation lists its class. -/
theorem enter (h : s.Listed) (hc : s.hasMet c = false) :
    (s.enter c).Listed := by
  have hnot : c ∉ s.order := by
    rw [h.met, hc]
    exact Bool.false_ne_true
  constructor
  case nodup =>
    show (s.order ++ [c]).Nodup
    rw [List.nodup_append]
    refine ⟨h.nodup, List.pairwise_singleton _ c, fun a ha b hb hab => hnot ?_⟩
    rw [← List.mem_singleton.mp hb, ← hab]
    exact ha
  case met =>
    intro b
    show b ∈ s.order ++ [c] ↔ _
    rw [hasMet_enter_iff, List.mem_append, List.mem_singleton, h.met, or_comm,
      eq_comm]

/-- Finishing a computation lists nothing else. -/
theorem finish (h : s.Listed) (hc : c ∈ s.order) (r : Computed) :
    (s.finish c r).Listed := by
  refine ⟨h.nodup, fun b => ?_⟩
  rw [hasMet_finish_iff, or_iff_right_of_imp]
  · exact h.met b
  · rintro rfl
    exact (h.met c).mp hc

end Listed

end Session

namespace World.Remembers

variable {w : World} {c : Symbol}

/-- The session lists what it has met. -/
theorem toListed (hw : w.Remembers) : w.session.Listed :=
  ⟨hw.nodup, hw.listed⟩

/-- Beginning the computation of a class that was not met. -/
theorem enter (hw : w.Remembers) (hc : w.registry.Known c)
    (hnew : w.session.hasMet c = false) :
    Remembers { w with session := w.session.enter c } := by
  have hlisted := hw.toListed.enter hnew
  constructor
  case listed => exact hlisted.met
  case nodup => exact hlisted.nodup
  case known =>
    intro b hb
    rcases Session.hasMet_enter_iff.mp hb with rfl | hb
    · exact hc
    · exact hw.known b hb
  case result =>
    intro b r hr
    rw [Session.result?_enter] at hr
    split at hr
    · cases hr
    · exact lasting_justified b r w _ (.of_eq rfl rfl (Nat.le_refl _))
        (hw.result b r hr)
  case imports => exact hw.imports

/-- Ending a computation with a right result. -/
theorem finish {r : Computed} (hw : w.Remembers)
    (hc : w.session.hasMet c = true) (hr : w.Justified c r) :
    Remembers { w with session := w.session.finish c r } := by
  have hlater : w.Onward { w with session := w.session.finish c r } :=
    .of_eq rfl rfl (Nat.le_refl _)
  have hlisted := hw.toListed.finish ((hw.listed c).mpr hc) r
  constructor
  case listed => exact hlisted.met
  case nodup => exact hlisted.nodup
  case known =>
    exact fun b hb => hw.known b
      ((hw.listed b).mp ((hlisted.met b).mpr hb))
  case result =>
    intro b q hq
    rw [Session.result?_finish] at hq
    split at hq
    · next hcb =>
      cases hq
      rw [← hcb]
      exact lasting_justified c r w _ hlater hr
    · exact lasting_justified b q w _ hlater (hw.result b q hq)
  case imports => exact hw.imports

/-- What a session knows of a class are known classes. -/
theorem classes (hw : w.Remembers) (c : Symbol) :
    ∀ b ∈ w.session.classes c, w.registry.Known b := by
  intro b hb
  unfold Session.classes at hb
  split at hb
  · next r hr => exact ((hw.result c r hr).classes b hb).known
  · cases hb

end World.Remembers

namespace Action

/-- Computing a class that was not met keeps the memory, and leaves the
class met. -/
theorem compute_triple (defaults : List String) (fuel : Nat)
    {I : World → Prop} (hI : Unaware I) (href : ∀ w, I w → w.Referring)
    (s : Session) (c : Symbol) :
    Triple (fun w => Recalls I s w ∧ w.registry.Known c ∧
        w.session.hasMet c = false)
      (compute defaults fuel c)
      (fun _ w => Recalls I s w ∧ w.session.hasMet c = true) I := by
  induction fuel generalizing I s c with
  | zero => exact .stop fun w hw => hw.1.1
  | succ fuel ih =>
      rintro w ⟨⟨hw, hremembers, hextends⟩, hc, hnew⟩
      -- from here on the session goes on from the one that has begun `c`
      have hJ : Unaware fun w => I w ∧ w.registry.Known c :=
        hI.and_lasting (lasting_known c)
      have hfinds : Finds (Recalls (fun w => I w ∧ w.registry.Known c)
          (w.session.enter c)) I (fun b => do
            if !(← session fun s => s.hasMet b) then compute defaults fuel b
            session fun s => s.classes b) := by
        have hcalm := hJ.recalls (s := w.session.enter c)
        refine .of_source hcalm (fun _ h => h.1.1) fun b R hR => ?_
        have hanswer : ∀ {P : World → Prop}, Triple (fun v =>
            (Recalls (fun w => I w ∧ w.registry.Known c) (w.session.enter c) v ∧
              v.registry.Known b) ∧ R v) (session fun s => s.classes b)
            (fun bs v => ((Recalls (fun w => I w ∧ w.registry.Known c)
              (w.session.enter c) v ∧ v.registry.Known b) ∧ R v) ∧
              ∀ a ∈ bs, v.registry.Known a) P :=
          .read fun v hv => ⟨hv, hv.1.1.2.1.classes b⟩
        refine .read_bind fun met => ?_
        cases met with
        | true => exact hanswer.pre fun v hv => hv.1
        | false =>
            have hJ' := (hJ.and_lasting (lasting_known b)).and_lasting hR
            refine .bind ((ih hJ' (fun v hv => href v hv.1.1.1)
              (w.session.enter c) b).conseq ?_ ?_ ?_) fun _ => hanswer
            · rintro v ⟨⟨⟨⟨hv, hr, hs⟩, hb⟩, hR'⟩, hmet⟩
              exact ⟨⟨⟨⟨hv, hb⟩, hR'⟩, hr, hs⟩, hb, hmet⟩
            · rintro _ v ⟨⟨⟨⟨hv, hb⟩, hR'⟩, hr, hs⟩, -⟩
              exact ⟨⟨⟨hv, hr, hs⟩, hb⟩, hR'⟩
            · exact fun v hv => hv.1.1.1
      have hstep := (evaluate_advances hJ (fun v hv => href v hv.1)
        (fun v hv => hv.1.2) hfinds defaults).triple
      refine (Triple.bind (P := fun v => v = w) (Q := fun _ => Recalls
        (fun w => I w ∧ w.registry.Known c) (w.session.enter c)) ?_
        fun _ => .bind hstep fun r => .update ?_) w rfl
      · refine .update ?_
        rintro v rfl
        refine ⟨⟨hI.session v _ hw, ?_⟩, hremembers.enter hc hnew, .refl _⟩
        exact lasting_known c v _ (.of_eq rfl rfl (Nat.le_refl _)) hc
      · rintro v ⟨⟨⟨hv, -⟩, hr, hs⟩, hjustified, happlied⟩
        have hmet : v.session.hasMet c = true :=
          hs.hasMet (Session.hasMet_enter_iff.mpr (Or.inl rfl))
        exact ⟨⟨hI.session v _ hv, hr.finish hmet hjustified,
          hextends.trans (.finish hnew hs happlied)⟩,
          Session.hasMet_finish_iff.mpr (Or.inl rfl)⟩

end Action

end StagedResolve
