/-
Agreement: what a session reports of a class, and what its slots do.

# What a session reads

A result that a session finds was read off slots that will not change any
more, or it is that of a class whose marker was not set then
(`World.Found`). No state changes while clauses are computed, so this can
be said of the states that there were when the call began, and it goes on
holding while more is computed (`World.Reading`).

# What it writes

While results are written back, a class either refers to what it referred
to, and has been marked in passing if at all, or it refers to what the
session knows of it after cycles were broken (`World.Filing`). An alias
has one place for a type, and one type at most to put there.

# Where the two differ

When a call is over everything that it found has been marked, unless it was
put off. So where nothing was put off, the slots of a class refer to what
the session reports, with one exception: a session marks members that the
phase has nothing to do for before it gets to what is inside of them, and a
class that it finds there later counts as written back already
(`World.Bypassed`).
-/
import StagedResolve.Proofs.Endings
import StagedResolve.Proofs.Meanings

namespace StagedResolve

open StagedResolve.Action World

-- ============================================================ what is read

namespace World

variable {v w : World} {u : CompilationUnit} {b c : Symbol} {r : Computed}

/-- Only a class that has been marked refers to others. -/
theorem Grounded.exists_class (hw : w.Grounded) (hu : w.Registered u)
    (hid : u.id = c.unit) (hb : b ∈ w.committedClasses c) :
    ∃ x, u.decl? c.decl = some x ∧ x.kind.isClassLike = true ∧
      x.isEligible = true ∧ .supertypes ≤ w.own u c.decl := by
  rw [hw.committedClasses_eq hu hid] at hb
  exact hw.marked u c.decl hu b hb

/-- A result that was found while states were those of `v`: it is what final
slots say, or its class was not marked. An alias has one reference at
most. -/
structure Found (v : World) (c : Symbol) (r : Computed) (w : World) :
    Prop where
  committed : r.committed = true → r.classes = v.committedClasses c
  pending : r.committed = false → ∃ u, w.Registered u ∧ u.id = c.unit ∧
    ¬ .supertypes ≤ v.own u c.decl
  single : r.committed = false → r.isAlias = true → r.references.length ≤ 1

/-- Nothing is found where slots refer to nothing. -/
theorem Found.nothing (h : v.committedClasses c = []) :
    Found v c (.ofCommitted []) w := by
  refine ⟨fun _ => ?_, nofun, nofun⟩
  rw [h, Computed.classes_ofCommitted]
  rfl

/-- That lasts. -/
theorem lasting_found (v : World) (c : Symbol) (r : Computed) :
    Lasting (Found v c r) := by
  rintro _ w' h ⟨hcommitted, hpending, hsingle⟩
  refine ⟨hcommitted, fun hr => ?_, hsingle⟩
  obtain ⟨u, hu, hrest⟩ := hpending hr
  exact ⟨u, h.registered hu, hrest⟩

/-- Results are being found: no state has changed since `v`, and what is new
in the session was found since then. -/
structure Reading (v w : World) : Prop where
  grounded : w.Grounded
  later : v.Onward w
  states : w.states = v.states
  result : ∀ c r, w.session.result? c = some r →
    v.session.result? c = some r ∨ Found v c r w

namespace Reading

/-- A call begins with nothing that is new. -/
theorem start (hv : v.Grounded) : Reading v v :=
  ⟨hv, .refl v, rfl, fun _ _ => Or.inl⟩

/-- Nothing that leaves the states and the session changes that. -/
theorem step {w' : World} (hw : Reading v w) (h : w.Unmoved w')
    (hcoherent : w'.Coherent) (hstates : w'.states = w.states)
    (hsession : w'.session = w.session) : Reading v w' := by
  refine ⟨hw.grounded.unmoved h hcoherent, hw.later.trans h.later,
    hstates.trans hw.states, fun c r hr => ?_⟩
  rw [hsession] at hr
  exact (hw.result c r hr).imp_right (lasting_found v c r w w' h.later)

/-- Looking up does not. -/
theorem static (v : World) : Static (Reading v) where
  coherent := fun _ hw => hw.grounded.coherent
  classifier := fun _ k hw => hw.step (unmoved_classifier hw.grounded.coherent k)
    (hw.grounded.coherent.classifier k) rfl rfl
  counters := fun w c hc hw => hw.step (unmoved_of_eq rfl rfl hc)
    (Grounded.structural.idle.counters w c hc hw.grounded).coherent rfl rfl

/-- A session with no other results may take the place of the old one. -/
theorem of_session (hw : Reading v w) {s : Session}
    (h : ∀ c r, s.result? c = some r →
      w.session.result? c = some r ∨ Found v c r w) :
    Reading v { w with session := s } := by
  have hlater : w.Onward { w with session := s } :=
    .of_eq rfl rfl (Nat.le_refl _)
  refine ⟨Grounded.structural.idle.session w s hw.grounded,
    hw.later.trans hlater, hw.states, fun c r hr => ?_⟩
  exact ((h c r hr).elim (hw.result c r) Or.inr).imp_right
    (lasting_found v c r w _ hlater)

/-- Slots and markers are those of `v`. -/
theorem own_eq (hw : Reading v w) (u : CompilationUnit) (d : DeclId) :
    w.own u d = v.own u d := by
  rw [own, own, state, state, hw.states]

/-- So classes refer to what they referred to then. -/
theorem committedClasses_eq (hv : v.Grounded) (hw : Reading v w)
    (c : Symbol) : w.committedClasses c = v.committedClasses c := by
  refine hv.committedClasses_congr hw.grounded hw.later (fun u _ _ => ?_)
    fun u hu hnew => ?_
  · refine clause_eq ?_
    rw [slots, slots, state, state, hw.states]
    exact .refl _
  · rw [hw.states]
    refine hv.coherent.fresh _ ?_
    exact (hw.later.registry.known u.id u hu).resolve_left hnew

/-- Where there was no unit there was nothing to refer to. -/
theorem nothing_of_absent (hv : v.Grounded) (hw : Reading v w)
    (h : w.registry.unit? c.unit = none) : v.committedClasses c = [] := by
  refine committedClasses_of_absent hv.coherent fun u hu hid => ?_
  have hreg := hw.later.registered hu
  rw [Registered, hid, h] at hreg
  cases hreg

/-- Neither was there where there is no class. -/
theorem nothing_of_no_class (hv : v.Grounded) (hw : Reading v w)
    (hu : w.Registered u) (hid : u.id = c.unit)
    (h : ∀ x, u.decl? c.decl = some x → ¬ x.kind.isClassLike = true) :
    v.committedClasses c = [] := by
  rw [← hw.committedClasses_eq hv]
  refine List.eq_nil_iff_forall_not_mem.mpr fun b hb => ?_
  obtain ⟨x, hx, hk, -⟩ := hw.grounded.exists_class hu hid hb
  exact h x hx hk

end Reading

end World

namespace Action

variable {v : World} {source : SupertypeSource} {c : Symbol}

/-- A source that can be asked while results are being found. -/
def Asked (v : World) (source : SupertypeSource) : Prop :=
  ∀ b, Advances (Reading v) (source b) (fun _ _ => True) fun _ => True

/-- Resolving the entries of a clause goes on finding results, and makes no
entries. -/
theorem resolveClause_reads (hs : Asked v source) {R : World → Prop}
    (hR : Lasting R) (sc : Scope) (place : DeclId) (clause : List Slot) :
    Advances (fun w => Reading v w ∧ R w)
      (resolveClause sc source place clause)
      (fun r _ => r.1.length ≤ clause.length) fun _ => True := by
  intro T hT
  have hI := (Reading.static v).and_lasting (hR.and hT)
  have hl : (SideBySide.solo (fun w => Reading v w ∧ R w ∧ T w)
      fun _ => True).Lookups :=
    ⟨fun _ _ h => by rw [h.1], fun k => .of_triple fun w hw =>
      hI.classifier w k hw⟩
  have hsource : ∀ b, Keeps (.solo (fun w => Reading v w ∧ R w ∧ T w)
      fun _ => True) (source b) := fun b =>
    .of_triple ((hs b _ (hR.and hT)).post fun _ _ hw => hw.1)
  exact ((resolveClause_length sc source place clause).both
    ((hl.resolveClause (fun _ _ h => ⟨h.1, trivial⟩) hsource sc place
      clause).triple.pre fun _ hw => ⟨hw.1.1, hw.1.2, hw.2⟩)).post
      fun _ _ hw => ⟨⟨⟨hw.1.1, hw.1.2.1⟩, hw.1.2.2⟩, hw.2⟩

/-- What a class-like declaration comes to was found. -/
theorem classLike_reads (hv : v.Grounded) (hs : Asked v source)
    {u : CompilationUnit} {d : Declaration} {R : World → Prop}
    (hR : Lasting R) (hu : ∀ w, R w → w.Registered u) (hid : u.id = c.unit)
    (hd : u.decl? c.decl = some d) (defaults : List String) :
    Advances (fun w => Reading v w ∧ R w) (do
        let clause ← read fun w => w.clause u c.decl
        let own ← read fun w => w.own u c.decl
        if .supertypes ≤ own || !d.isEligible then
          return .ofCommitted (Slot.types clause)
        else
          let table ← session fun s => (s.imports.find? c.unit).getD .empty
          let (references, errors) ← resolveClause ⟨u, table, defaults⟩ source
            c.decl clause
          return .ofClause d (references, errors))
      (fun r => Found v c r) fun _ => True := by
  refine .bind (.read (Q := fun clause _ =>
    ResolvedType.classes (Slot.types clause) = v.committedClasses c ∧
      (d.kind = .typeAlias → clause.length ≤ 1)) fun w hw => ?_) fun clause => ?_
  · obtain ⟨hw, hRw⟩ := hw
    rw [← hw.committedClasses_eq hv,
      hw.grounded.committedClasses_eq (hu w hRw) hid]
    refine ⟨rfl, fun hk => length_clause_of_alias ?_ w⟩
    rw [CompilationUnit.kind?, hd, Option.map_some, hk]
  refine .bind (.read (Q := fun own _ => own = v.own u c.decl)
    fun w hw => hw.1.1.own_eq u c.decl) fun own => ?_
  split
  · refine .pure fun w hw => ?_
    have hcommitted : (Computed.ofCommitted (Slot.types clause)).committed ≠ false :=
      Bool.false_ne_true.symm
    refine ⟨fun _ => ?_, fun h => absurd h hcommitted, fun h => absurd h hcommitted⟩
    rw [Computed.classes_ofCommitted]
    exact hw.1.2.1
  · next hopen =>
    simp only [Bool.or_eq_true, decide_eq_true_eq, Bool.not_eq_true', not_or,
      Bool.not_eq_false] at hopen
    refine .andThen (.read (Q := fun _ _ => True) fun _ _ => trivial)
      fun table => ?_
    have hlasting := hR.and (lasting_const
      ((ResolvedType.classes (Slot.types clause) = v.committedClasses c ∧
        (d.kind = .typeAlias → clause.length ≤ 1)) ∧ own = v.own u c.decl))
    refine .bind ((resolveClause_reads hs hlasting ⟨u, table, defaults⟩ c.decl
      clause).congr fun w => ⟨fun hw => ⟨⟨⟨hw.1, hw.2.1⟩, hw.2.2.1⟩, hw.2.2.2⟩,
        fun hw => ⟨hw.1.1.1, hw.1.1.2, hw.1.2, hw.2⟩⟩) fun r =>
          .pure fun w hw => ⟨fun h => ?_, fun _ => ?_, fun _ halias => ?_⟩
    · cases h
    · obtain ⟨⟨⟨⟨-, hRw⟩, -⟩, rfl⟩, -⟩ := hw
      exact ⟨u, hu w hRw, hid, hopen.1⟩
    · obtain ⟨⟨⟨-, -, hone⟩, -⟩, hlength⟩ := hw
      have hk : d.kind = .typeAlias := by simpa [Computed.ofClause] using halias
      refine Nat.le_trans ?_ (hone hk)
      simpa [Computed.ofClause, hk] using hlength

/-- Evaluating a class finds a result. -/
theorem evaluate_reads (hv : v.Grounded) (hs : Asked v source)
    (defaults : List String) (c : Symbol) :
    Advances (Reading v) (evaluate defaults source c) (fun r => Found v c r)
      fun _ => True := by
  refine .bind (sessionUnit?_registered (N := fun _ => v.committedClasses c = [])
    (T := fun _ _ => True) (Reading.static v) (lasting_const _)
    (fun _ => lasting_const True) (fun _ _ _ _ _ _ => trivial)
    (fun _ _ _ _ => trivial)
    (fun w table hw _ => hw.of_session fun _ _ => Or.inl)
    fun w hw habsent => hw.nothing_of_absent hv habsent) fun found => ?_
  cases found with
  | none => exact .pure fun w hw => .nothing (hw.2.1 rfl)
  | some u =>
      -- what is no class refers to nothing
      have hnone : (∀ x, u.decl? c.decl = some x →
          ¬ x.kind.isClassLike = true) → Advances (fun w => Reading v w ∧
            (some u = none → v.committedClasses c = []) ∧
            ∀ z, some u = some z → w.Registered z ∧ z.id = c.unit)
          (Pure.pure (Computed.ofCommitted []))
          (fun r => Found v c r) fun _ => True :=
        fun hno => .pure fun w hw => .nothing (hw.1.nothing_of_no_class hv
          (hw.2.2 u rfl).1 (hw.2.2 u rfl).2 hno)
      dsimp only
      split
      · next hd =>
        refine hnone fun x hx => ?_
        rw [hd] at hx
        cases hx
      · next d hd =>
        split
        · next hk =>
          refine hnone fun x hx => ?_
          obtain rfl : d = x := Option.some.inj (hd.symm.trans hx)
          simpa using hk
        · intro R hR w hw
          exact classLike_reads hv hs
            (lasting_sought (lasting_const _) c.unit (some u))
            (fun w hw => (hw.2 u rfl).1) (hw.1.2.2 u rfl).2 hd defaults R hR w hw

/-- Computing a class finds results. -/
theorem compute_reads (hv : v.Grounded) (defaults : List String) (fuel : Nat)
    (c : Symbol) : Advances (Reading v) (compute defaults fuel c)
      (fun _ _ => True) fun _ => True := by
  induction fuel generalizing c with
  | zero => exact .stop fun _ _ => trivial
  | succ fuel ih =>
      have hs : Asked v (fun b => do
          if !(← session fun s => s.hasMet b) then compute defaults fuel b
          session fun s => s.classes b) := by
        intro b
        refine .andThen (.read (Q := fun _ _ => True) fun _ _ => trivial)
          fun met => ?_
        cases met with
        | true => exact .read fun _ _ => trivial
        | false => exact .andThen (ih b) fun _ => .read fun _ _ => trivial
      intro R hR
      refine .bind (Q := fun _ w => Reading v w ∧ R w) (.update ?_) fun _ => ?_
      · rintro w ⟨hw, hRw⟩
        refine ⟨hw.of_session fun b r hr => Or.inl ?_,
          hR w _ (.of_eq rfl rfl (Nat.le_refl _)) hRw⟩
        rw [Session.result?_enter] at hr
        split at hr
        · cases hr
        · exact hr
      · refine .bind (evaluate_reads hv hs defaults c R hR) fun r => .update ?_
        rintro w ⟨⟨hw, hRw⟩, hfound⟩
        refine ⟨⟨hw.of_session fun b q hq => ?_,
          hR w _ (.of_eq rfl rfl (Nat.le_refl _)) hRw⟩, trivial⟩
        rw [Session.result?_finish] at hq
        split at hq
        · next hcb =>
          cases hq
          exact Or.inr (hcb ▸ hfound)
        · exact Or.inl hq

/-- So does computing one member of a round. -/
theorem computeRound_reads (hv : v.Grounded) (config : Config)
    (cancellable : Bool) (c : Symbol) :
    Triple (Reading v) (computeRound config cancellable c)
      (fun _ => Reading v) fun _ => True := by
  refine .read_bind fun met => ?_
  cases met with
  | true => exact .pure fun w hw => hw.1
  | false =>
      refine .read_then fun bound => .bind ((compute_reads hv _ bound c).keeps.pre
        fun _ hw => hw.1) fun _ => ?_
      refine .bind (Q := fun _ => Reading v) (.update fun w hw => ?_)
        fun _ => .read_then fun processed => ?_
      · exact hw.of_session fun _ _ => Or.inl
      · split
        · exact .checkCancelled fun w hw => trivial
        · exact .pure fun w hw => hw

/-- So do all rounds. -/
theorem computeRounds_reads (hv : v.Grounded) (config : Config)
    (cancellable : Bool) (fuel : Nat) (work : List Symbol) :
    Triple (Reading v) (computeRounds config cancellable fuel work)
      (fun _ => Reading v) fun _ => True := by
  induction fuel generalizing work with
  | zero =>
      cases work with
      | nil => exact .pure fun w hw => hw
      | cons c rest => exact .stop fun w hw => trivial
  | succ fuel ih =>
      cases work with
      | nil => exact .pure fun w hw => hw
      | cons c rest =>
          refine .bind (Q := fun _ => Reading v) (.update fun w hw => ?_)
            fun _ => ?_
          · exact (Reading.static v).counters w _ (Nat.le_refl _) hw
          refine .bind (.each fun b _ => computeRound_reads hv _ _ b) fun _ => ?_
          refine .read_bind fun next => .bind (Q := fun _ => Reading v) ?_
            fun _ => ih next.1
          refine .update ?_
          rintro w ⟨hw, rfl⟩
          exact hw.of_session fun _ _ => Or.inl

end Action

-- ========================================================= what is written

namespace Session

/-- Cutting cycles leaves as many references as there were. -/
theorem length_cutResult (s : Session) (c : Symbol) (r : Computed) :
    (s.cutResult c r).references.length = r.references.length := by
  cases hp : r.isPending with
  | true =>
      rw [cutResult_of_pending c hp]
      exact List.length_map _
  | false => rw [cutResult_of_not_pending c hp]

end Session

namespace World

variable {v w : World} {u : CompilationUnit} {c : Symbol}

/-- A class refers to what it referred to, and if it has been marked since
then, that was in passing. -/
structure Stays (v w : World) (c : Symbol) : Prop where
  classes : w.committedClasses c = v.committedClasses c
  marked : ∀ u, v.Registered u → u.id = c.unit →
    .supertypes ≤ w.own u c.decl →
      .supertypes ≤ v.own u c.decl ∨ u.Passed c.decl

/-- A class refers to what the session knows of it without its cycles. -/
def FiledFrom (v w : World) (c : Symbol) : Prop :=
  ∃ r, v.session.result? c = some r ∧ r.isPending = true ∧
    w.committedClasses c = (v.session.cutResult c r).classes

/-- Results of a session are being written back: any class stays, or its
result has been filed. -/
structure Filing (v w : World) : Prop where
  grounded : w.Grounded
  later : v.Onward w
  filed : ∀ c, Stays v w c ∨ FiledFrom v w c

namespace Filing

/-- It begins with nothing filed. -/
theorem start (hv : v.Grounded) : Filing v v :=
  ⟨hv, .refl v, fun _ => Or.inl ⟨rfl, fun _ _ _ => Or.inl⟩⟩

/-- What moves no clause keeps that, if it marks classes in passing only. -/
theorem step {w' : World} (hw : Filing v w) (h : w.Unmoved w')
    (hcoherent : w'.Coherent) (hmarked : ∀ u d, w.Registered u →
      .supertypes ≤ w'.own u d → .supertypes ≤ w.own u d ∨ u.Passed d) :
    Filing v w' := by
  have hgrounded := hw.grounded.unmoved h hcoherent
  refine ⟨hgrounded, hw.later.trans h.later, fun c => ?_⟩
  have hclasses := h.committedClasses hw.grounded hgrounded c
  rcases hw.filed c with hstays | ⟨r, hr, hp, hfiled⟩
  · refine Or.inl ⟨hclasses.trans hstays.classes, fun u hu hid hle => ?_⟩
    rcases hmarked u c.decl (hw.later.registered hu) hle with hle | hpassed
    · exact hstays.marked u hu hid hle
    · exact Or.inr hpassed
  · exact Or.inr ⟨r, hr, hp, hclasses.trans hfiled⟩

/-- Nothing that leaves the states changes it. -/
theorem detached (v : World) : Detached (Filing v) where
  coherent := fun _ hw => hw.grounded.coherent
  classifier := fun _ k hw => hw.step
    (unmoved_classifier hw.grounded.coherent k)
    (hw.grounded.coherent.classifier k) fun _ _ _ => Or.inl
  counters := fun w c hc hw => hw.step (unmoved_of_eq rfl rfl hc)
    (Grounded.structural.idle.counters w c hc hw.grounded).coherent
    fun _ _ _ => Or.inl
  session := fun w s hw => hw.step (unmoved_of_eq rfl rfl (Nat.le_refl _))
    (Grounded.structural.idle.session w s hw.grounded).coherent
    fun _ _ _ => Or.inl
  thread := fun w t hw => hw.step (unmoved_of_eq rfl rfl (Nat.le_refl _))
    (Grounded.structural.idle.thread w t hw.grounded).coherent
    fun _ _ _ => Or.inl

/-- Marking a declaration in passing. -/
theorem passing (hw : Filing v w) (hu : w.Registered u) {d : DeclId}
    (hd : u.Passed d) {s : DeclState}
    (hs : (w.state u d).Raised .supertypes s)
    (hslots : s.slots = w.slots u d) : Filing v (w.setState u d s) := by
  refine hw.step (unmoved_setState hu hs (by rw [hslots]) (by rw [hslots])
    fun t ht => Or.inl (hslots ▸ ht)) (hw.grounded.coherent.setState hu hs)
    fun u' d' hu' hle => ?_
  rw [own, state_setState hu hu'] at hle
  split at hle
  · next h =>
    obtain ⟨rfl, rfl⟩ := h
    exact Or.inr hd
  · exact Or.inl hle

/-- Filling in what the session knows of a class. -/
theorem fill (hw : Filing v w) (hu : w.Registered u) (hid : u.id = c.unit)
    {x : Declaration} (hx : u.decl? c.decl = some x)
    (hk : x.kind.isClassLike = true) (he : x.isEligible = true)
    {q : Computed} (hq : v.session.result? c = some q)
    (hp : q.isPending = true) (hfits : w.Fits x (v.session.cutResult c q))
    (hone : q.isAlias = true → q.references.length ≤ 1) :
    Filing v (w.filled u c.decl (v.session.cutResult c q)) := by
  have hlater := later_setState hu
    (raised_filled w u c.decl (v.session.cutResult c q))
  have hgrounded := hw.grounded.filled hu hx hk he hfits
  refine ⟨hgrounded, hw.later.trans hlater, fun b => ?_⟩
  by_cases hbc : b = c
  · subst hbc
    refine Or.inr ⟨q, hq, hp, ?_⟩
    rw [hgrounded.committedClasses_eq hu hid]
    refine classes_filled hx hfits.isAlias fun halias => ?_
    rw [Session.length_cutResult]
    exact hone (((Session.faithful_cutResult _).isAlias b q).symm.trans halias)
  · -- no other class is written to
    have hother : ∀ u', w.Registered u' → u'.id = b.unit →
        ¬ (u = u' ∧ c.decl = b.decl) := by
      rintro u' - hid' ⟨rfl, hdecl⟩
      have hunit : b.unit = c.unit := hid'.symm.trans hid
      cases b
      cases c
      cases hunit
      cases hdecl
      exact hbc rfl
    have hclasses : (w.filled u c.decl
        (v.session.cutResult c q)).committedClasses b = w.committedClasses b :=
      hw.grounded.committedClasses_congr hgrounded hlater
        (fun u' hu' hid' => clause_filled hu c.decl hu' b.decl
          (hother u' hu' hid')) fun u' hu' hnew => absurd hu' hnew
    rcases hw.filed b with hstays | ⟨r, hr, hpending, hfiled⟩
    · refine Or.inl ⟨hclasses.trans hstays.classes, fun u' hu' hid' hle => ?_⟩
      have hreg := hw.later.registered hu'
      rw [own, filled, state_setState hu hreg, if_neg (hother u' hreg hid')]
        at hle
      exact hstays.marked u' hu' hid' hle
    · exact Or.inr ⟨r, hr, hpending, hclasses.trans hfiled⟩

/-- So results of a session can be filed if an alias has one reference at
most. -/
theorem tended (hone : ∀ c q, v.session.result? c = some q →
      q.isPending = true → q.isAlias = true → q.references.length ≤ 1) :
    Tended (Filing v) fun c r => ∃ q, v.session.result? c = some q ∧
      q.isPending = true ∧ r = v.session.cutResult c q :=
  { detached v with
    referring := fun _ hw => hw.grounded.referring
    members := members_triple fun _ _ _ _ hw hu hd hs hslots =>
      hw.passing hu hd hs hslots
    fill := by
      rintro w u x c r hw hu hid hx hk he ⟨q, hq, hp, rfl⟩ hfits -
      exact hw.fill hu hid hx hk he hq hp hfits (hone c q hq hp) }

end Filing

-- ========================================================= where they agree

/-- A class that a session has passed over: it has been marked while its
clause is as it was written. -/
def Bypassed (w : World) (c : Symbol) : Prop :=
  w.committedClasses c = [] ∧ ∃ u, w.Registered u ∧ u.id = c.unit ∧
    u.Passed c.decl ∧ .supertypes ≤ w.own u c.decl

/-- It remains one while it refers to nothing. -/
theorem Bypassed.later (h : v.Bypassed c) (hvw : v.Onward w)
    (hclasses : w.committedClasses c = v.committedClasses c) :
    w.Bypassed c := by
  obtain ⟨hempty, u, hu, hid, hpassed, hle⟩ := h
  exact ⟨hclasses.trans hempty, u, hvw.registered hu, hid, hpassed,
    Phase.le_trans hle (hvw.own u c.decl hu)⟩

/-- A class whose slots refer to what the session knows of it, or that the
session has passed over. -/
def Agrees (w : World) (c : Symbol) (r : Computed) : Prop :=
  r.classes = w.committedClasses c ∨ w.Bypassed c

/-- That is so while no clause moves. -/
theorem Agrees.unmoved {r : Computed} (h : v.Agrees c r) (hvw : v.Unmoved w)
    (hv : v.Grounded) (hw : w.Grounded) : w.Agrees c r := by
  have hclasses := hvw.committedClasses hv hw c
  exact h.imp (fun h => h.trans hclasses.symm)
    fun h => h.later hvw.later hclasses

/-- A session between two calls, `n` results having been put off before it:
if none has been since then, it agrees with the slots. -/
structure Level (n : Nat) (w : World) : Prop where
  grounded : w.Grounded
  remembers : w.Remembers
  followed : w.session.Followed []
  since : n ≤ w.counters.deferred
  applied : ∀ c r, w.session.result? c = some r → r.committed = false →
    r.applied = true
  agrees : w.counters.deferred = n → ∀ c r, w.session.result? c = some r →
    w.Agrees c r

variable {n : Nat}

/-- That no less was put off lasts. -/
theorem lasting_since (n : Nat) : Lasting fun w => n ≤ w.counters.deferred :=
  fun _ _ h hv => Nat.le_trans hv h.deferred

/-- When results have been dealt with, their classes are final, or something
was put off. -/
theorem deals_since (own : UnitId) (t : Thread) (n : Nat) :
    Deals (fun w => n ≤ w.counters.deferred) own t
      fun c w => w.Done c ∨ n < w.counters.deferred where
  lasting := fun c => by
    rintro v w h (hdone | hlt)
    · exact Or.inl (lasting_done c v w h hdone)
    · exact Or.inr (Nat.lt_of_lt_of_le hlt h.deferred)
  done := fun _ _ => Or.inl
  putOff := fun _ _ hw _ _ => Or.inr (Nat.lt_succ_of_le hw)

namespace Level

/-- A session that has computed nothing agrees with everything. -/
theorem start (hw : w.Grounded) (hs : w.session = .start) :
    Level w.counters.deferred w := by
  have hremembers : w.Remembers := by
    have h := Remembers.start w
    rwa [← hs] at h
  refine ⟨hw, hremembers, hs ▸ .start, Nat.le_refl _, ?_, fun _ => ?_⟩
  · rw [hs]
    exact nofun
  · rw [hs]
    exact nofun

/-- A session goes on agreeing while it is left alone and no clause
moves. -/
theorem unmoved (hv : Level n v) (h : v.Unmoved w) (hw : w.Coherent)
    (hs : w.session = v.session) : Level n w := by
  have hgrounded := hv.grounded.unmoved h hw
  refine ⟨hgrounded, hv.remembers.later h.later hs, hs ▸ hv.followed,
    Nat.le_trans hv.since h.later.deferred, hs ▸ hv.applied,
    fun hzero c r hr => ?_⟩
  have hzero' : v.counters.deferred = n :=
    Nat.le_antisymm (hzero ▸ h.later.deferred) hv.since
  rw [hs] at hr
  exact (hv.agrees hzero' c r hr).unmoved h hv.grounded hgrounded

/-- The rounds of a call find results and forget nothing. -/
theorem rounds (hv : Level n v) (ctx : Context) {seeds : List Symbol}
    (hseeds : ∀ c ∈ seeds, v.registry.Known c) :
    Triple (· = v) (Action.rounds ctx seeds)
      (fun _ w => Reading v w ∧ w.Remembers ∧ v.session.Grows w.session ∧
        w.session.Followed []) fun _ => True := by
  refine .of_runs ?_ fun _ _ _ _ _ => trivial
  rintro w ⟨⟩ u rfl hrun
  have hreads := computeRounds_reads hv.grounded ctx.setup.config
    ctx.cancellable w.registry.searchBound seeds
  have hrounds : Triple _ (computeRounds ctx.setup.config ctx.cancellable _ _)
      _ _ := computeRounds_triple Grounded.structural.idle.toUnaware
    (fun _ hw => hw.referring) w.registry.searchBound
    { w.session with seeds := w.session.seeds ++ seeds } seeds
  have hstart : Reading w { w with session :=
      { w.session with seeds := w.session.seeds ++ seeds } } :=
    (Reading.start hv.grounded).of_session fun _ _ => Or.inl
  have hreading := hreads.ok hstart hrun
  have hfollows : w.session.Followed seeds :=
    ⟨hv.followed.idle, hv.followed.expanded, fun c r hc hn b hb => Or.inl
      ((hv.followed.classes c r hc hn b hb).resolve_right List.not_mem_nil)⟩
  obtain ⟨⟨-, hr, hgrows⟩, hfollowed, -⟩ := hrounds.ok
    ⟨⟨Grounded.structural.idle.session w _ hv.grounded, hv.remembers.ask seeds,
      .refl _⟩, ⟨hfollows.idle, hfollows.expanded, hfollows.classes⟩, hseeds⟩
    hrun
  exact ⟨hreading, hr, ⟨hgrows.order, hgrows.result, hgrows.fresh,
    hgrows.underWay⟩, hfollowed⟩

/-- What a call finds is marked and agrees with the slots when it has been
written back, unless it was passed over. -/
theorem agrees_of_found {u : World} {q : Computed} (hu : Reading v u)
    (hremembers : u.Remembers) (hw : Filing u w)
    (hq : u.session.result? c = some q) (hp : q.isPending = true)
    (hfound : Found v c q u) (hdone : w.Done c) :
    w.Agrees c (u.session.cutResult c q) := by
  have hcommitted := Computed.not_committed hp
  obtain ⟨z, hz, hid, hopen⟩ := hfound.pending hcommitted
  obtain ⟨x, hx, hk, he, -⟩ := hremembers.exists_class hz hid hq hcommitted
  have hmarked := hdone.marked z x (hw.later.registered hz) hid hx hk he
  rw [← hu.own_eq] at hopen
  rcases hw.filed c with hstays | ⟨r, hr, -, hfiled⟩
  · refine Or.inr ⟨?_, z, hw.later.registered hz, hid,
      (hstays.marked z hz hid hmarked).resolve_left hopen, hmarked⟩
    rw [hstays.classes]
    refine List.eq_nil_iff_forall_not_mem.mpr fun b hb => ?_
    obtain ⟨-, -, -, -, hle⟩ := hu.grounded.exists_class hz hid hb
    exact hopen hle
  · obtain rfl : q = r := Option.some.inj (hq.symm.trans hr)
    exact Or.inl hfiled.symm

/-- What is not to be written back agrees with the slots as before. -/
theorem agrees_of_kept {u : World} {q : Computed} (hv : Level n v)
    (hzero : v.counters.deferred = n) (hu : Reading v u)
    (hgrows : v.session.Grows u.session) (hw : Filing u w)
    (hq : u.session.result? c = some q) (hp : q.isPending = false) :
    w.Agrees c q := by
  have hclasses : w.committedClasses c = v.committedClasses c := by
    rw [← hu.committedClasses_eq hv.grounded]
    refine (hw.filed c).elim (fun h => h.classes) ?_
    rintro ⟨r, hr, hpending, -⟩
    obtain rfl : q = r := Option.some.inj (hq.symm.trans hr)
    rw [hp] at hpending
    cases hpending
  have hold : v.session.result? c = some q → w.Agrees c q := by
    intro hq
    exact (hv.agrees hzero c q hq).imp (fun h => h.trans hclasses.symm)
      fun h => h.later (hu.later.trans hw.later) hclasses
  rcases hu.result c q hq with hq' | hfound
  · exact hold hq'
  · rcases hgrows.fresh c q hq with hq' | hfresh
    · exact hold hq'
    · have hcommitted : q.committed = true := by
        rw [Computed.isPending, hfresh] at hp
        simpa using hp
      exact Or.inl ((hfound.committed hcommitted).trans hclasses.symm)

/-- A call that answers leaves a session that agrees with the slots. -/
theorem call (hv : Level n v) {ctx : Context} {seeds : List Symbol}
    (hreg : v.Registered ctx.unit)
    (hguard : ctx.guard.lock = .ofUnit ctx.unit.id)
    (hseeds : ∀ c ∈ seeds, v.registry.Known c)
    (hrun : resolveSupertypes ctx seeds v = (.ok (), w)) : Level n w := by
  rw [resolveSupertypes_eq] at hrun
  obtain ⟨⟨⟩, u, hrounds, hrun⟩ := bind_run_eq_ok_iff.mp hrun
  obtain ⟨hu, hremembers, hgrows, hfollowed⟩ :=
    (hv.rounds ctx hseeds).ok rfl hrounds
  -- what is pending was found by this call
  have hfound : ∀ c q, u.session.result? c = some q → q.isPending = true →
      Found v c q u := by
    intro c q hq hp
    refine (hu.result c q hq).resolve_left fun hold => ?_
    rw [Computed.isPending, hv.applied c q hold (Computed.not_committed hp)] at hp
    simp at hp
  have hsince : n ≤ u.counters.deferred :=
    Nat.le_trans hv.since hu.later.deferred
  have htended := (Filing.tended (v := u) fun c q hq hp =>
    (hfound c q hq hp).single (Computed.not_committed hp)).and_lasting
      ((lasting_registered ctx.unit).and (lasting_since n))
  have hdeals := WritesBack.deals_triple (t := u.thread) (v := u)
    (J := fun x => Filing u x ∧ x.Registered ctx.unit ∧
      n ≤ x.counters.deferred)
    ⟨.start hu.grounded, hu.later.registered hreg, hsince⟩
    (fun _ hx => hx.2.1) hguard (.refl _) hremembers
    (htended.mono fun _ _ h => h.1)
    ((deals_since ctx.unit.id u.thread n).mono fun _ hx => hx.2.2)
    fun c q hq hp => ⟨q, hq, hp, rfl⟩
  obtain ⟨⟨⟨hw, -, hsince'⟩, -, hremembers', hrevised⟩, hfollowed', hdealt⟩ :=
    hdeals.ok rfl hrun
  refine ⟨hw.grounded, hremembers', hfollowed' hfollowed, hsince',
    fun c r hr hn => ?_, fun hzero c r hr => ?_⟩
  · rw [hrevised.result] at hr
    obtain ⟨q, -, rfl⟩ := Option.map_eq_some_iff.mp hr
    exact Session.applied_written hn
  · have hzero' : v.counters.deferred = n := by
      have hle := hw.later.deferred
      have hle' := hu.later.deferred
      have hge := hv.since
      omega
    rw [hrevised.result] at hr
    obtain ⟨q, hq, rfl⟩ := Option.map_eq_some_iff.mp hr
    unfold Session.written
    cases hp : q.isPending with
    | true =>
        refine agrees_of_found hu hremembers hw hq hp
          (hfound c q hq hp) ((hdealt c q hq hp).resolve_right ?_)
        omega
    | false => exact agrees_of_kept hv hzero' hu hgrows hw hq hp

end Level

/-- What a session has made of the world that it was started in: its calls
have answered, for classes that are known and under the lock of the unit at
hand, and between two calls no clause has moved. The world of a walk is
always one that the session of its phase has made (Service.lean). -/
inductive Served (v : World) : World → Prop
  | start : v.Grounded → v.session = .start → Served v v
  | between {w w' : World} : Served v w → w.Unmoved w' → w'.Coherent →
      w'.session = w.session → Served v w'
  | call {w w' : World} (ctx : Context) (seeds : List Symbol) :
      Served v w → w.Registered ctx.unit →
      ctx.guard.lock = .ofUnit ctx.unit.id →
      (∀ c ∈ seeds, w.registry.Known c) →
      resolveSupertypes ctx seeds w = (.ok (), w') → Served v w'

/-- It agrees with the slots. -/
theorem Served.level (h : v.Served w) : Level v.counters.deferred w := by
  induction h with
  | start hv hs => exact .start hv hs
  | between _ hmoved hw hs ih => exact ih.unmoved hmoved hw hs
  | call ctx seeds _ hreg hguard hseeds hrun ih =>
      exact ih.call hreg hguard hseeds hrun

end World

/-- Every world that is reached is grounded, so a session may start there. -/
theorem Reaches.grounded {setup : Setup} {allowed : World → Call → Prop}
    (hquiet : setup.Quiet) {w : World} (hw : Reaches setup allowed w) :
    w.Grounded := by
  have hI : w.Resolving False := hw.resolving hquiet nofun
  exact hI.grounded

/-- As long as a session has put nothing off, it reports of every class that
it has met what the slots of the class say, whatever it was asked for and
however clauses refer to each other; but a class inside of a member that
the session has passed over may have been marked with its clause as it was
written. -/
theorem sessionSource_eq_committedSource {v w : World} (h : v.Served w)
    (hzero : w.counters.deferred = v.counters.deferred) {c : Symbol}
    (hc : w.session.hasMet c = true) (defaults : List String) :
    sessionSource defaults c w = committedSource c w ∨ w.Bypassed c := by
  obtain ⟨r, hr⟩ := h.level.followed.result? hc
  refine (h.level.agrees hzero c r hr).imp_left fun hclasses => ?_
  have hsource : sessionSource defaults c w = (.ok (w.session.classes c), w) := by
    unfold sessionSource
    rw [bind_run_ok (show session (fun s => s.hasMet c) w = (.ok true, w) by
      rw [← hc]; rfl)]
    rfl
  rw [hsource, Session.classes, hr]
  show (Except.ok r.classes, w) = (Except.ok (w.committedClasses c), w)
  rw [hclasses]

/-- Of two classes that extend each other the session reports what their
slots say, without the circle. -/
theorem sessionSource_eq_committedSource_mutualClasses :
    let v := World.after (.plain .default) [.addUnit .mutualClasses]
    let a : Symbol := ⟨⟨0⟩, ⟨1⟩⟩
    let c : Symbol := ⟨⟨0⟩, ⟨3⟩⟩
    let w := (resolveSupertypes (.ofFirst v false) [a] v).2
    v.Served w ∧ w.counters.deferred = v.counters.deferred ∧
      w.session.hasMet a = true ∧
      sessionSource [] a w = committedSource a w ∧
      w.committedClasses a = [c] := by
  intro v a c w
  have hv := (Reaches.after (.plain .default) [.addUnit .mutualClasses]).grounded
    (Setup.quiet_plain .default)
  have hid : (Context.ofFirst v false).unit.id = ⟨0⟩ := by decide +kernel
  have hreg : v.Registered (Context.ofFirst v false).unit := by
    rw [World.Registered]
    decide +kernel
  have hserved : v.Served w := by
    refine .call (.ofFirst v false) [a] (.start hv rfl) hreg (by decide +kernel)
      (fun b hb => ?_) (run_of_fst (by decide +kernel))
    have hknown := hv.coherent.known hreg ⟨1⟩
    rw [CompilationUnit.symbol, hid] at hknown
    rw [List.mem_singleton.mp hb]
    exact hknown
  have hzero : w.counters.deferred = v.counters.deferred := by decide +kernel
  have hmet : w.session.hasMet a = true := by decide +kernel
  have hclasses : w.committedClasses a = [c] := by decide +kernel
  refine ⟨hserved, hzero, hmet, ?_, hclasses⟩
  refine (sessionSource_eq_committedSource hserved hzero hmet []).resolve_right ?_
  rintro ⟨hempty, -⟩
  rw [hclasses] at hempty
  cases hempty

/-- A class inside of a function that is a member of a class below a type
parameter, and a class in executable code that extends both. -/
def UnitSpec.classInMember : UnitSpec :=
  .ofEntries "a.kt" [.member 0 (.classNamed "X" []),
    .member 0 (.classNamed "A" []),
    .member 2 (.ofForm .typeParameter "T"), .member 3 (.classNamed "G" []),
    .member 4 (.functionNamed "m" none), .member 5 (.classNamed "C" ["X"]),
    ⟨⟨5⟩, true, .classNamed "S" ["G", "C"]⟩,
    .member 2 (.functionNamed "other" none)]

/-- Asked for the latter, a session reaches the class below the parameter and
passes its member over, and with that the class inside of it: what it has
computed for that is never written. This is the one call that the walk of
the last phase makes for the outer class, and the session and the slots
that differ are those which the request leaves. -/
theorem not_sessionSource_eq_committedSource :
    let before := [.addUnit .classInMember,
      .resolve false ⟨⟨0⟩, ⟨8⟩⟩ .implicitTypes false]
    let v := { World.after (.plain .default) before with session := .start }
    let x : Symbol := ⟨⟨0⟩, ⟨1⟩⟩
    let c : Symbol := ⟨⟨0⟩, ⟨6⟩⟩
    let w := (resolveSupertypes (.ofFirst v false) [⟨⟨0⟩, ⟨7⟩⟩] v).2
    let after := World.after (.plain .default)
      (before ++ [.resolve false ⟨⟨0⟩, ⟨2⟩⟩ .bodies false])
    v.Served w ∧ w.counters.deferred = v.counters.deferred ∧
      w.session.hasMet c = true ∧
      (sessionSource [] c w).1 = .ok [x] ∧ (committedSource c w).1 = .ok [] ∧
      after.session = w.session ∧
      after.counters.deferred = v.counters.deferred ∧
      (sessionSource [] c after).1 = .ok [x] ∧
      (committedSource c after).1 = .ok [] := by
  intro before v x c w after
  have hv : v.Grounded := Grounded.structural.idle.session _ _
    ((Reaches.after (.plain .default) _).grounded (Setup.quiet_plain .default))
  have hid : (Context.ofFirst v false).unit.id = ⟨0⟩ := by decide +kernel
  have hreg : v.Registered (Context.ofFirst v false).unit := by
    rw [World.Registered]
    decide +kernel
  refine ⟨.call (.ofFirst v false) [⟨⟨0⟩, ⟨7⟩⟩] (.start hv rfl) hreg
    (by decide +kernel) (fun b hb => ?_) (run_of_fst (by decide +kernel)),
    by decide +kernel, by decide +kernel, by decide +kernel, by decide +kernel,
    by decide +kernel, by decide +kernel, by decide +kernel, by decide +kernel⟩
  have hknown := hv.coherent.known hreg ⟨7⟩
  rw [CompilationUnit.symbol, hid] at hknown
  rw [List.mem_singleton.mp hb]
  exact hknown

end StagedResolve
