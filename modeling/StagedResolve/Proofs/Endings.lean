/-
Endings: how a call of a session comes to an end.

# Rounds

A round has as many steps left as the one before it, less one. If it
finds classes to go on with, it has computed the clause of a class that
the session had not met, and that took from what is left
(`Tallied.left_lt`). The first round alone may find some without having
computed anything: those that a call before it left behind when it was
cancelled. One step more is kept for that (`World.Funds`). So rounds do
not run out, and a call stops early only if the token says so
(`computeRounds_ends`).

# Writing back

Writing back asks for nothing that might be missing: the unit at hand is
locked, any other one is there because a class of it was computed, and a
lock that cannot be had is done without. A result that is to scale leaves
its clause to scale (`Roomy.filled`), so the next call finds what this
one did (`World.Applying`).

# Whole sessions

A session is followed from call to call, whatever it is asked for and
whatever its calls come to (`World.InSession`). Between two calls no
computation is under way, and what the rounds of a call computed refers
to classes that the session has met, unless the call was cancelled
(`World.Accounted`). A walk ends with the first call that is cancelled,
and its session with it, so what such a call leaves behind is followed by
nobody (`not_followed_of_cancelled`).
-/
import StagedResolve.Proofs.Budgets
import StagedResolve.Proofs.Clauses
import StagedResolve.Proofs.Cuts

namespace StagedResolve

open StagedResolve.Action World

-- ================================================================= rounds

namespace World

/-- A call that can be cancelled is told to stop. -/
def Revoked (cancellable : Bool) (w : World) : Prop :=
  cancellable = true ∧ w.thread.token.cancelled = true

/-- There are enough rounds left: none is needed, or one more than what is
left, or as many and the references of all classes have been followed. -/
def Funds (fuel : Nat) (work : List Symbol) (w : World) : Prop :=
  work = [] ∨ w.registry.left w.session.hasMet + 1 < fuel ∨
    (w.session.expanded = w.session.order.length ∧
      w.registry.left w.session.hasMet < fuel)

end World

namespace Session

variable {s t : Session} {b : Symbol}

/-- Where all references had been followed, a class that is found is one
that a new clause refers to. -/
theorem new_of_mem_follow (hst : s.Extends t) (hs : s.Listed) (ht : t.Listed)
    (hexpanded : s.expanded = s.order.length) (hb : b ∈ t.follow.1) :
    ∃ c r, s.hasMet c = false ∧ t.result? c = some r ∧
      r.committed = false := by
  obtain hb | ⟨c, hc, r, hr, hcommitted, -⟩ := (mem_unmet_iff _ _).mp hb
  · cases hb
  obtain ⟨l, hl⟩ := hst.order
  rw [hst.expanded, hexpanded, ← hl, List.drop_left] at hc
  refine ⟨c, r, Bool.eq_false_iff.mpr fun hmet => ?_, hr, hcommitted⟩
  have hnodup := ht.nodup
  rw [← hl, List.nodup_append] at hnodup
  exact hnodup.2.2 c ((hs.met c).mpr hmet) c hc rfl

end Session

namespace World

variable {v w : World}

/-- A clause that was computed in a round takes from what is left. -/
theorem Tallied.left_lt {s : Session} {c : Symbol} {r : Computed}
    (hw : w.Tallied) (hcoherent : w.Coherent) (hs : s.Extends w.session)
    (hnew : s.hasMet c = false) (hc : w.session.result? c = some r)
    (hcomputed : r.committed = false) :
    w.registry.left w.session.hasMet < w.registry.left s.hasMet := by
  obtain ⟨u, x, hu, hid, hx, -⟩ := (hw.result c r hc).declared hcomputed
  have := Registry.left_see s.hasMet w.session.hasMet hcoherent.registry
    (fun b => hs.hasMet) hu hid hx hnew
    (Session.hasMet_iff.mpr (Or.inr ⟨r, hc⟩))
  have hweight : 0 < x.searchWeight := by
    rw [Declaration.searchWeight]
    omega
  omega

end World

namespace Action

variable {I : World → Prop} {config : Config} {cancellable : Bool}

/-- Looking at the token fails only if it says so. -/
theorem checkCancelled_revoked {P : World → Prop} (phase : Phase) :
    Triple P (checkCancelled cancellable phase) (fun _ => P)
      fun w => P w ∧ w.Revoked cancellable := by
  intro w hw
  unfold checkCancelled
  cases cancellable with
  | false => exact hw
  | true =>
      rw [if_pos rfl]
      unfold Token.check
      cases htoken : w.thread.token.cancelled with
      | false => exact hw
      | true => exact ⟨hw, rfl, htoken⟩

/-- Computing one member of a round ends. -/
theorem computeRound_ends (hI : Unaware I) (hroomy : ∀ w, I w → w.Roomy)
    (s : Session) (c : Symbol) :
    Triple (Spans I s) (computeRound config cancellable c)
      (fun _ w => Spans I s w ∧ w.session.hasMet c = true)
      fun w => Spans I s w ∧ w.Revoked cancellable := by
  refine .read_bind fun met => ?_
  cases met with
  | true => exact .pure fun w hw => hw
  | false =>
      refine .read_bind fun bound => ?_
      refine .bind ((compute_ends config.defaultImports bound hI hroomy s
        c).conseq ?_ (fun _ _ hw => hw) fun _ hw => hw.elim) fun _ => ?_
      · rintro w ⟨⟨hw, hmet⟩, rfl⟩
        exact ⟨hw, hmet, Nat.lt_of_succ_lt (w.registry.left_lt_searchBound _)⟩
      · refine .bind (Q := fun _ w => Spans I s w ∧
          w.session.hasMet c = true) (.update ?_) fun _ => ?_
        · rintro w ⟨⟨hw, hr, hs⟩, hc⟩
          exact ⟨⟨hI.session w _ hw, hr.of_eq rfl rfl hr.expanded,
            ⟨hs.order, hs.result, hs.fresh, hs.underWay⟩, hs.expanded⟩, hc⟩
        · refine .read_then fun processed => ?_
          split
          · exact (checkCancelled_revoked .supertypes).conseq (fun _ hw => hw)
              (fun _ _ hw => hw) fun w hw => ⟨hw.1.1, hw.2⟩
          · exact .pure fun w hw => hw

/-- So does a round, and all its members have been met. -/
theorem each_computeRound_ends (hI : Unaware I) (hroomy : ∀ w, I w → w.Roomy)
    (s : Session) (work : List Symbol) :
    Triple (Spans I s) (each (computeRound config cancellable) work)
      (fun _ w => Spans I s w ∧ ∀ c ∈ work, w.session.hasMet c = true)
      fun w => Spans I s w ∧ w.Revoked cancellable := by
  refine (Triple.each_prefix (fun done w => Spans I s w ∧
    ∀ c ∈ done, w.session.hasMet c = true) [] work ?_).conseq
      (fun w hw => ⟨hw, nofun⟩) (fun _ w hw => hw) fun w hw => hw
  rintro pre c post - w ⟨⟨hw, hr, hs⟩, hpre⟩
  refine ((computeRound_ends hI hroomy w.session c).conseq (fun _ hw => hw)
    (fun _ v hv => ?_) fun v hv => ?_) w ⟨hw, hr, .refl _⟩
  · obtain ⟨⟨hv, hr', hs'⟩, hmet⟩ := hv
    refine ⟨⟨hv, hr', hs.trans hs'⟩, fun b hb => ?_⟩
    rcases List.mem_append.mp hb with hb | hb
    · exact hs'.hasMet (hpre b hb)
    · rw [List.mem_singleton.mp hb]
      exact hmet
  · obtain ⟨⟨hv, hr', hs'⟩, hrevoked⟩ := hv
    exact ⟨⟨hv, hr', hs.trans hs'⟩, hrevoked⟩

/-- All rounds come to an end, with the references of all classes followed
that are not among the old ones; or the call is cancelled. -/
theorem computeRounds_ends (hI : Unaware I) (hroomy : ∀ w, I w → w.Roomy)
    (fuel : Nat) (old : List Symbol) (s : Session) (work : List Symbol) :
    Triple (fun w => (I w ∧ w.Tallied ∧ s.Grows w.session) ∧
        w.session.Trails old work ∧ w.Funds fuel work)
      (computeRounds config cancellable fuel work)
      (fun _ w => (I w ∧ w.Tallied ∧ s.Grows w.session) ∧
        w.session.Trails old [] ∧ ∀ c ∈ work, w.session.hasMet c = true)
      fun w => (I w ∧ w.Tallied ∧ s.Grows w.session) ∧
        w.Revoked cancellable := by
  induction fuel generalizing s work with
  | zero =>
      cases work with
      | nil => exact .pure fun w hw => ⟨hw.1, hw.2.1, nofun⟩
      | cons c rest =>
          refine .stop fun w hw => ?_
          rcases hw.2.2 with hwork | hleft | ⟨-, hleft⟩
          · cases hwork
          · exact absurd hleft (Nat.not_lt_zero _)
          · exact absurd hleft (Nat.not_lt_zero _)
  | succ fuel ih =>
      cases work with
      | nil => exact .pure fun w hw => ⟨hw.1, hw.2.1, nofun⟩
      | cons c rest =>
          refine .bind (Q := fun _ w => (I w ∧ w.Tallied ∧ s.Grows w.session) ∧
            w.session.Trails old (c :: rest) ∧ w.Funds (fuel + 1) (c :: rest))
            (.update ?_) fun _ => ?_
          · rintro w ⟨⟨hw, hr, hs⟩, hrest⟩
            exact ⟨⟨hI.counters w _ (Nat.le_refl _) hw,
              hr.later (.of_eq rfl rfl (Nat.le_refl _)) rfl, hs⟩, hrest⟩
          rintro w ⟨⟨hw, hr, hs⟩, htrails, hfunds⟩
          -- a round that has followed all references can spare one less
          obtain ⟨spare, hspare, hleft⟩ : ∃ n, (n = 1 ∨
              w.session.expanded = w.session.order.length) ∧
              n + w.registry.left w.session.hasMet < fuel + 1 := by
            rcases hfunds with hwork | hleft | ⟨hexpanded, hleft⟩
            · cases hwork
            · exact ⟨1, Or.inl rfl, by omega⟩
            · exact ⟨0, Or.inr hexpanded, by omega⟩
          have hJ := hI.and_lasting (lasting_left w.session.hasMet spare
            (fuel + 1))
          refine (Triple.bind (P := fun v => v = w)
            ((each_computeRound_ends hJ (fun v hv => hroomy v hv.1) w.session
              (c :: rest)).conseq ?_ (fun _ _ hv => hv) ?_) fun _ => ?_) w rfl
          · rintro v rfl
            exact ⟨⟨hw, hleft⟩, hr, .refl _⟩
          · rintro v ⟨⟨⟨hv, -⟩, hr', hs'⟩, hrevoked⟩
            exact ⟨⟨hv, hr', hs.trans hs'.toGrows⟩, hrevoked⟩
          refine .read_bind fun next => ?_
          refine .bind (Q := fun _ v => ((I v ∧ v.Tallied ∧
            s.Grows v.session) ∧ v.session.Trails old next.1 ∧
              v.Funds fuel next.1) ∧ ∀ b ∈ c :: rest,
                v.session.hasMet b = true) (.update ?_) fun _ => ?_
          · rintro v ⟨⟨⟨⟨hv, hleft'⟩, hr', hs'⟩, hmet⟩, rfl⟩
            have hgrows := hs.trans hs'.toGrows
            refine ⟨⟨⟨hI.session v _ hv, hr'.of_eq rfl rfl (Nat.le_refl _),
              hgrows.order, hgrows.result, hgrows.fresh, hgrows.underWay⟩,
              htrails.follow hs' hr.listed.met hr'.listed.met hmet, ?_⟩, hmet⟩
            cases hnext : v.session.follow.1 with
            | nil => exact Or.inl rfl
            | cons b more =>
                refine Or.inr (Or.inr ⟨rfl, ?_⟩)
                show v.registry.left v.session.hasMet < fuel
                rcases hspare with rfl | hexpanded
                · have := v.registry.left_mono fun b => hs'.hasMet (c := b)
                  omega
                · obtain ⟨d, q, hnew, hq, hcomputed⟩ :=
                    Session.new_of_mem_follow hs' hr.listed hr'.listed
                      hexpanded (hnext ▸ List.mem_cons_self ..)
                  have := hr'.left_lt (hI.coherent v hv) hs' hnew hq hcomputed
                  omega
          · rintro v ⟨⟨⟨hv, hr', hs'⟩, hrest⟩, hmet⟩
            refine ((ih v.session next.1).conseq (fun _ h => h) (fun _ u hu => ?_)
              fun u hu => ?_) v ⟨⟨hv, hr', .refl _⟩, hrest⟩
            · obtain ⟨⟨hu, hru, hgrows⟩, htrails', -⟩ := hu
              exact ⟨⟨hu, hru, hs'.trans hgrows⟩, htrails',
                fun b hb => hgrows.hasMet (hmet b hb)⟩
            · obtain ⟨⟨hu, hru, hgrows⟩, hrevoked⟩ := hu
              exact ⟨⟨hu, hru, hs'.trans hgrows⟩, hrevoked⟩

end Action

-- ============================================================ writing back

namespace World

variable {w : World} {u : CompilationUnit} {order classes : List Symbol}

/-- Results are being written back: the session lists the classes it listed
before, no computation is under way, and what it knows of the classes at
hand was computed. -/
structure Applying (order classes : List Symbol) (w : World) : Prop where
  roomy : w.Roomy
  tallied : w.Tallied
  order : w.session.order = order
  idle : ∀ c, w.session.progress.find? c ≠ some .underWay
  computed : ∀ c ∈ classes, ∀ r, w.session.result? c = some r →
    r.committed = false

namespace Applying

/-- Whatever leaves the session and keeps room for references keeps this. -/
theorem later {v : World} (hv : v.Applying order classes) (h : v.Onward w)
    (hs : w.session = v.session) (hw : w.Roomy) : w.Applying order classes :=
  ⟨hw, hv.tallied.later h hs, hs ▸ hv.order, hs ▸ hv.idle, hs ▸ hv.computed⟩

/-- Looking up does. -/
theorem static : Static (Applying order classes) where
  coherent := fun _ hw => hw.roomy.coherent
  classifier := fun w k hw => hw.later (later_classifier hw.roomy.coherent k)
    rfl (Roomy.structural.idle.classifier w k hw.roomy)
  counters := fun w c hc hw => hw.later (.of_eq rfl rfl hc) rfl
    (Roomy.structural.idle.counters w c hc hw.roomy)

/-- So does what a thread does. -/
theorem thread (hw : w.Applying order classes) (t : Thread) :
    Applying order classes { w with thread := t } :=
  hw.later (.of_eq rfl rfl (Nat.le_refl _)) rfl
    (Roomy.structural.idle.thread w t hw.roomy)

/-- Another import table is none of this. -/
theorem imports (hw : w.Applying order classes)
    (imports : Table UnitId ImportTable) :
    Applying order classes
      { w with session := { w.session with imports := imports } } :=
  ⟨Roomy.structural.idle.session w _ hw.roomy,
    hw.tallied.of_eq rfl rfl hw.tallied.expanded, hw.order, hw.idle,
    hw.computed⟩

/-- Revising results keeps this. -/
theorem revises {t : Session} {f : Symbol → Computed → Computed}
    (hw : w.Applying order classes) (hf : Session.Faithful f)
    (ht : w.session.Revises f t) :
    Applying order classes { w with session := t } := by
  have hresult : ∀ c r, t.result? c = some r →
      ∃ q, w.session.result? c = some q ∧ f c q = r := fun c r hr => by
    rw [ht.result] at hr
    exact Option.map_eq_some_iff.mp hr
  refine ⟨Roomy.structural.idle.session w _ hw.roomy, ⟨⟨?_, fun c => ?_⟩, ?_,
    fun c r hr => ?_⟩, ht.order.trans hw.order,
    fun c hc => hw.idle c ((ht.underWay c).mp hc), fun c hc r hr => ?_⟩
  · exact ht.order ▸ hw.tallied.listed.nodup
  · show c ∈ t.order ↔ t.hasMet c = true
    rw [ht.order, ht.hasMet]
    exact hw.tallied.listed.met c
  · show t.expanded ≤ t.order.length
    rw [ht.expanded, ht.order]
    exact hw.tallied.expanded
  · obtain ⟨q, hq, rfl⟩ := hresult c r hr
    refine lasting_scaled c _ w _ (.of_eq rfl rfl (Nat.le_refl _)) ?_
    obtain ⟨hwidth, hdeclared⟩ := hw.tallied.result c q hq
    refine ⟨hwidth.mono (hf.classes c q).length_le, fun hr => ?_⟩
    rw [hf.isAlias]
    exact hdeclared (hf.committed c q ▸ hr)
  · obtain ⟨q, hq, rfl⟩ := hresult c r hr
    exact (hf.committed c q).trans (hw.computed c hc q hq)

end Applying

end World

namespace Action

variable {order classes : List Symbol} {g : Guard} {u : CompilationUnit}

/-- Writing the result of one class back cannot fail. -/
theorem applyTo_ends (hg : g.lock = .ofUnit u.id) {c : Symbol}
    (hc : c ∈ classes) (hid : u.id = c.unit) {R : World → Prop}
    (hR : Lasting R) :
    Triple (fun w => (w.Applying order classes ∧ R w) ∧ w.Registered u)
      (applyTo g u c)
      (fun _ w => (w.Applying order classes ∧ R w) ∧ w.Registered u)
      fun _ => False := by
  refine .read_bind fun found => ?_
  cases found with
  | none => exact .pure fun w hw => hw.1
  | some r =>
      refine .read_then fun own => ?_
      split
      · exact .pure fun w hw => hw.1
      · rintro w ⟨⟨⟨hw, hRw⟩, hu⟩, hr⟩
        have hscaled := hw.tallied.result c r hr
        have hcomputed := hw.computed c hc r hr
        have hthere : (u.decl? c.decl).isSome := by
          obtain ⟨v, x, hv, hvid, hx, -⟩ := hscaled.declared hcomputed
          obtain rfl : v = u := hv.eq hu (hvid.trans hid.symm)
          rw [hx]
          rfl
        have hlater := later_setState hu (raised_filled w u c.decl r)
        rw [fill_run hg hthere]
        refine Triple.read_then (P := fun v => (v.Applying order classes ∧
          R v) ∧ v.Registered u) (fun isSeed => ?_) _ ⟨⟨hw.later hlater rfl
            (hw.roomy.filled hu hid hscaled hcomputed), hR w _ hlater hRw⟩, hu⟩
        split
        · refine members_triple (J := fun v => v.Applying order classes ∧ R v)
            (fun v u d s hv hu _ hraised hs => ?_) g u c.decl hg
          have hlater := later_setState hu hraised
          exact ⟨hv.1.later hlater rfl (Roomy.structural.raise hv.1.roomy hu
            hraised hs), hR v _ hlater hv.2⟩
        · exact .pure fun w hw => hw

/-- Writing the results for one unit back, or putting them off, cannot
fail. -/
theorem applyUnit_ends {ctx : Context}
    (hguard : ctx.guard.lock = .ofUnit ctx.unit.id) {id : UnitId}
    {chosen : List Symbol} (hchosen : ∀ c ∈ chosen, c ∈ classes ∧ c.unit = id) :
    Triple (fun w => w.Applying order classes ∧ w.Registered ctx.unit)
      (applyUnit ctx id chosen)
      (fun _ w => w.Applying order classes ∧ w.Registered ctx.unit)
      fun _ => False := by
  unfold applyUnit
  split
  · next hown =>
    refine (Triple.each fun c hc => applyTo_ends hguard (hchosen c hc).1
      (hown.symm.trans (hchosen c hc).2.symm) (lasting_const True)).conseq
      (fun w hw => ⟨⟨hw.1, trivial⟩, hw.2⟩) (fun _ w hw => ⟨hw.1.1, hw.2⟩)
      fun _ hw => hw
  · have hstatic : Static fun w =>
        w.Applying order classes ∧ w.Registered ctx.unit :=
      Applying.static.and_lasting (lasting_registered ctx.unit)
    refine .bind (sessionUnit?_registered (T := fun _ _ => True) hstatic
      (lasting_const True) (fun _ => lasting_const True)
      (fun _ _ _ _ _ _ => trivial) (fun _ _ _ _ => trivial)
      (fun w table hw _ => ⟨hw.1.imports _, hw.2⟩)
      fun _ _ _ => trivial).triple fun found => ?_
    cases found with
    | none => exact .pure fun w hw => hw.1
    | some u =>
        dsimp only
        rintro w ⟨⟨hw, hreg⟩, -, hu⟩
        obtain ⟨hu, hid⟩ := hu u rfl
        rw [bind_run_ok (lockUnitOrdered_run id w)]
        cases hg : (w.thread.lockOrdered (.ofUnit id)).1 with
        | none =>
            exact ⟨Applying.static.counters _ _ (Nat.le_succ _)
              (hw.thread _), hreg⟩
        | some g =>
            refine Triple.holding (Triple.each fun c hc => applyTo_ends
              (by rw [Thread.lock_lockOrdered hg, hid]) (hchosen c hc).1
              (hid.trans (hchosen c hc).2.symm) (lasting_registered ctx.unit))
              (fun _ v hv => ⟨hv.1.1.thread _, hv.1.2⟩) (fun _ hv => hv) _
              ⟨⟨hw.thread _, hreg⟩, hu⟩

/-- Writing all results back cannot fail. -/
theorem applyResults_ends {ctx : Context}
    (hguard : ctx.guard.lock = .ofUnit ctx.unit.id) :
    Triple (fun w => w.Applying order [] ∧ w.Registered ctx.unit)
      (applyResults ctx)
      (fun _ w => w.Applying order [] ∧ w.Registered ctx.unit)
      fun _ => False := by
  refine .read_bind fun pending => ?_
  rintro w ⟨⟨hw, hreg⟩, rfl⟩
  have hpending : w.Applying order w.session.pending := by
    refine ⟨hw.roomy, hw.tallied, hw.order, hw.idle, fun c hc r hr => ?_⟩
    have hp := (List.mem_filter.mp hc).2
    rw [hr] at hp
    exact Computed.not_committed hp
  have hnodup := hw.tallied.listed.nodup.filter fun c =>
    (w.session.result? c).any Computed.isPending
  refine ((Triple.each (P := fun v => v.Applying order w.session.pending ∧
    v.Registered ctx.unit) fun id _ => .bind (applyUnit_ends hguard ?_)
      fun _ => .update fun v hv => ?_).conseq (fun _ hv => hv) (fun _ v hv => ?_)
      fun _ hv => hv) w ⟨hpending, hreg⟩
  · intro c hc
    obtain ⟨hc, hid⟩ := List.mem_filter.mp hc
    exact ⟨hc, eq_of_beq hid⟩
  · exact ⟨hv.1.revises (Session.faithful_applied.onSome _)
      (Session.modifyEach_revises _ (hnodup.filter fun c => c.unit == id) _),
      hv.2⟩
  · obtain ⟨hv, hreg⟩ := hv
    exact ⟨⟨hv.roomy, hv.tallied, hv.order, hv.idle, nofun⟩, hreg⟩

/-- Nor can breaking cycles before. -/
theorem breakCycles_ends (order : List Symbol) {ctx : Context}
    (hguard : ctx.guard.lock = .ofUnit ctx.unit.id) :
    Triple (fun w => w.Applying order [] ∧ w.Registered ctx.unit) (do
        updateSession Session.breakCycles
        applyResults ctx)
      (fun _ w => w.Applying order [] ∧ w.Registered ctx.unit)
      fun _ => False := by
  refine .bind (.update fun w hw => ⟨?_, hw.2⟩) fun _ =>
    applyResults_ends hguard
  exact hw.1.revises (Session.faithful_cutResult _)
    hw.1.tallied.listed.breakCycles

end Action

-- ============================================================= whole calls

namespace Action

/-- The rounds of a call: all of it but breaking cycles and writing back. -/
def rounds (ctx : Context) (seeds : List Symbol) : Action Unit := do
  updateSession fun s => { s with seeds := s.seeds ++ seeds }
  let bound ← read fun w => w.registry.searchBound
  computeRounds ctx.setup.config ctx.cancellable bound seeds

/-- They come first. -/
theorem resolveSupertypes_eq (ctx : Context) (seeds : List Symbol) :
    resolveSupertypes ctx seeds = (do
      rounds ctx seeds
      updateSession Session.breakCycles
      applyResults ctx) := rfl

end Action

namespace Context

/-- What the rounds of the calls of a session have computed when this one is
over, with the references as they were before cycles were broken. The
rounds of a call that was cancelled do not count. -/
def computed (ctx : Context) (seeds : List Symbol) (v : World)
    (before : Symbol → Option Computed) : Symbol → Option Computed :=
  match Action.rounds ctx seeds v with
  | (.ok (), w) => fun c =>
      if c ∈ v.session.order then before c else w.session.result? c
  | (.error _, _) => before

variable {ctx : Context} {seeds : List Symbol} {v w : World}

/-- Rounds that come to an end compute what was not met before. -/
theorem computed_of_ok (h : Action.rounds ctx seeds v = (.ok (), w))
    (before : Symbol → Option Computed) (c : Symbol) :
    ctx.computed seeds v before c =
      if c ∈ v.session.order then before c else w.session.result? c := by
  unfold computed
  rw [h]

/-- Others compute nothing. -/
theorem computed_of_error {e : Failure}
    (h : Action.rounds ctx seeds v = (.error e, w))
    (before : Symbol → Option Computed) :
    ctx.computed seeds v before = before := by
  unfold computed
  rw [h]

end Context

namespace World

variable {v w : World} {computed : Symbol → Option Computed} {ctx : Context}

/-- The session of the world has come about by calls, for whatever seeds,
and this is what their rounds have computed. In between units may have been
built and slots written; a call may have been cancelled. -/
inductive InSession : World → (Symbol → Option Computed) → Prop
  | start {w : World} : w.Roomy → w.session = .start →
      InSession w fun _ => none
  | between {v w : World} {computed : Symbol → Option Computed} :
      InSession v computed → v.Onward w → w.Roomy → w.session = v.session →
      InSession w computed
  | call {v : World} {computed : Symbol → Option Computed} (ctx : Context)
      (seeds : List Symbol) : InSession v computed → v.Registered ctx.unit →
      ctx.guard.lock = .ofUnit ctx.unit.id →
      InSession (resolveSupertypes ctx seeds v).2
        (ctx.computed seeds v computed)

/-- A session between two calls: it is to scale, no computation is under
way, and what was computed refers to classes that it has met. -/
structure Accounted (computed : Symbol → Option Computed) (w : World) :
    Prop where
  roomy : w.Roomy
  tallied : w.Tallied
  idle : ∀ c, w.session.progress.find? c ≠ some .underWay
  followed : ∀ c r, computed c = some r → r.committed = false →
    ∀ b ∈ r.classes, b ∈ w.session.order

/-- The rounds of a call end with the references followed of all classes
that are new. -/
theorem Accounted.rounds (hv : v.Accounted computed)
    (hu : v.Registered ctx.unit) (seeds : List Symbol) :
    Triple (· = v) (Action.rounds ctx seeds)
      (fun _ w => (w.Roomy ∧ w.Registered ctx.unit ∧ w.Tallied ∧
          v.session.order <+: w.session.order) ∧
        w.session.Trails v.session.order [] ∧
          ∀ c ∈ seeds, w.session.hasMet c = true)
      fun w => (w.Roomy ∧ w.Registered ctx.unit ∧ w.Tallied ∧
          v.session.order <+: w.session.order) ∧
        (∀ c, w.session.progress.find? c ≠ some .underWay) ∧
          v.Revoked ctx.cancellable := by
  have hI := Roomy.structural.idle.toDetached.and_registered ctx.unit
  have hJ : Unaware fun w => (w.Roomy ∧ w.Registered ctx.unit) ∧
      w.thread = v.thread :=
    { coherent := fun w hw => hI.coherent w hw.1
      classifier := fun w k hw => ⟨hI.classifier w k hw.1, hw.2⟩
      counters := fun w c hc hw => ⟨hI.counters w c hc hw.1, hw.2⟩
      session := fun w s hw => ⟨hI.session w s hw.1, hw.2⟩ }
  rintro w rfl
  have hold : Session.Trails w.session.order
      { w.session with seeds := w.session.seeds ++ seeds } seeds := by
    refine ⟨hv.idle, hv.tallied.expanded, fun c r hc hr => absurd ?_ hc⟩
    exact (hv.tallied.listed.met c).mpr (Session.hasMet_iff.mpr (Or.inr ⟨r, hr⟩))
  refine ((computeRounds_ends hJ (fun _ hw => hw.1.1) w.registry.searchBound
    w.session.order { w.session with seeds := w.session.seeds ++ seeds }
    seeds).conseq (fun _ hw => hw) (fun _ u hu => ?_) fun u hu => ?_)
      { w with session := { w.session with seeds := w.session.seeds ++ seeds } }
      ⟨⟨⟨hI.session w _ ⟨hv.roomy, hu⟩, rfl⟩,
        hv.tallied.of_eq rfl rfl hv.tallied.expanded, .refl _⟩, hold,
        Or.inr (Or.inl (w.registry.left_lt_searchBound _))⟩
  · obtain ⟨⟨⟨⟨hroomy, hreg⟩, -⟩, hr, hgrows⟩, htrails, hmet⟩ := hu
    exact ⟨⟨hroomy, hreg, hr, hgrows.order⟩, htrails, hmet⟩
  · obtain ⟨⟨⟨⟨hroomy, hreg⟩, hthread⟩, hr, hgrows⟩, hrevoked⟩ := hu
    refine ⟨⟨hroomy, hreg, hr, hgrows.order⟩, fun c hc => hv.idle c
      ((hgrows.underWay c).mp hc), hrevoked.1, ?_⟩
    rw [← hthread]
    exact hrevoked.2

/-- A call leaves a session accounted for. It fails only if it is cancelled;
if it answers, the session has met the seeds, and has computed what it had
not met before. -/
theorem Accounted.call (hv : v.Accounted computed)
    (hu : v.Registered ctx.unit)
    (hguard : ctx.guard.lock = .ofUnit ctx.unit.id) (seeds : List Symbol) :
    Triple (· = v) (resolveSupertypes ctx seeds)
      (fun _ w => w.Accounted (ctx.computed seeds v computed) ∧
        v.session.order <+: w.session.order ∧
        (∀ c ∈ seeds, c ∈ w.session.order) ∧
        ∀ c ∈ w.session.order, c ∈ v.session.order ∨
          ∃ r, ctx.computed seeds v computed c = some r)
      fun w => w.Accounted (ctx.computed seeds v computed) ∧
        v.Revoked ctx.cancellable := by
  rw [resolveSupertypes_eq]
  rintro w rfl
  rcases hrun : Action.rounds ctx seeds w with ⟨e | ⟨⟩, v⟩
  · rw [bind_run_error hrun, Context.computed_of_error hrun]
    obtain ⟨⟨hroomy, -, hr, horder⟩, hidle, hrevoked⟩ :=
      (hv.rounds hu seeds).error rfl hrun
    exact ⟨⟨hroomy, hr, hidle, fun c r hc hn b hb =>
      horder.subset (hv.followed c r hc hn b hb)⟩, hrevoked⟩
  rw [bind_run_ok hrun]
  obtain ⟨⟨hroomy, hreg, hr, horder⟩, htrails, hmet⟩ :=
    (hv.rounds hu seeds).ok rfl hrun
  have hcomputed := Context.computed_of_ok hrun computed
  refine ((breakCycles_ends v.session.order hguard).conseq
    (fun _ h => h) (fun _ u hu => ?_) fun _ h => h.elim) v
      ⟨⟨hroomy, hr, rfl, htrails.idle, nofun⟩, hreg⟩
  obtain ⟨⟨hroomy', hr', horder', hidle', -⟩, -⟩ := hu
  rw [horder']
  refine ⟨⟨hroomy', hr', hidle', fun c r hc hn b hb => ?_⟩, horder,
    fun c hc => (hr.listed.met c).mpr (hmet c hc), fun c hc => ?_⟩
  · rw [horder']
    rw [hcomputed] at hc
    split at hc
    · exact horder.subset (hv.followed c r hc hn b hb)
    · next hnew =>
      exact (hr.listed.met b).mpr ((htrails.classes c r hnew hc hn b
        hb).resolve_right List.not_mem_nil)
  · by_cases hold : c ∈ w.session.order
    · exact Or.inl hold
    · rw [hcomputed, if_neg hold]
      exact Or.inr (htrails.result? ((hr.listed.met c).mp hc))

/-- So a session is accounted for between all calls. -/
theorem InSession.accounted (h : v.InSession computed) :
    v.Accounted computed := by
  induction h with
  | start hroomy hs =>
      exact ⟨hroomy, ⟨hs ▸ .start, hs ▸ Nat.le_refl _, hs ▸ nofun⟩, hs ▸ nofun,
        nofun⟩
  | between _ hlater hroomy hs ih =>
      exact ⟨hroomy, ih.tallied.later hlater hs, hs ▸ ih.idle,
        hs ▸ ih.followed⟩
  | call ctx seeds _ hu hguard ih =>
      exact (((ih.call hu hguard seeds).conseq (fun _ h => h)
        (fun _ _ h => h.1) fun _ h => h.1) : Triple _ _ (fun _ =>
          Accounted _) (Accounted _)).world rfl

end World

/-- Every world that is reached has room for the references of its
clauses, so a session may start there. -/
theorem Reaches.roomy {setup : Setup} {allowed : World → Call → Prop}
    (hquiet : setup.Quiet) {w : World} (hw : Reaches setup allowed w) :
    w.Roomy := by
  have hI : w.Resolving False := hw.resolving hquiet nofun
  exact hI.grounded.roomy

/-- A call of a session answers unless it is cancelled, whatever the calls
before it came to, whatever it is asked for, and however clauses refer to
each other. Then no class is listed twice, none is under computation, and
what was listed stays listed. The seeds are among the classes that are, and
so are all that a computed clause referred to before cycles were broken;
what is new among them was computed. -/
theorem resolveSupertypes_ends {v : World}
    {computed : Symbol → Option Computed} (hv : v.InSession computed)
    {ctx : Context} (hu : v.Registered ctx.unit)
    (hguard : ctx.guard.lock = .ofUnit ctx.unit.id) (seeds : List Symbol) :
    ((ctx.cancellable = true → v.thread.token.cancelled = false) →
      ∃ w, resolveSupertypes ctx seeds v = (.ok (), w)) ∧
    ∀ w, resolveSupertypes ctx seeds v = (.ok (), w) →
      w.session.order.Nodup ∧ v.session.order <+: w.session.order ∧
      (∀ c, w.session.progress.find? c ≠ some .underWay) ∧
      (∀ c ∈ seeds, c ∈ w.session.order) ∧
      (∀ c ∈ w.session.order, c ∈ v.session.order ∨
        ∃ r, ctx.computed seeds v computed c = some r) ∧
      ∀ c r, ctx.computed seeds v computed c = some r → r.committed = false →
        ∀ b ∈ r.classes, b ∈ w.session.order := by
  have hcall := hv.accounted.call hu hguard seeds
  refine ⟨fun htoken => ?_, fun w hrun => ?_⟩
  · rcases hrun : resolveSupertypes ctx seeds v with ⟨e | ⟨⟩, w⟩
    · obtain ⟨-, hcancellable, hcancelled⟩ := hcall.error rfl hrun
      rw [htoken hcancellable] at hcancelled
      cases hcancelled
    · exact ⟨w, rfl⟩
  · obtain ⟨hw, horder, hseeds, hnew⟩ := hcall.ok rfl hrun
    exact ⟨hw.tallied.listed.nodup, horder, hw.idle, hseeds, hnew, hw.followed⟩

/-- What a call for the first unit goes on in, with a token that is looked at
every other time. -/
def Context.ofFirst (w : World) (cancellable : Bool) : Context :=
  { setup := .plain { Config.default with interval := 2 }
    unit := (w.registry.unit? ⟨0⟩).getD default
    guard := ⟨.ofUnit ⟨0⟩, true⟩
    scope := default
    cancellable := cancellable }

/-- Two classes that extend each other, and a third one that the first of
them extends as well. -/
def UnitSpec.mutualClasses : UnitSpec :=
  .ofEntries "mutual.kt" [.member 0 (.classNamed "A" ["B", "C"]),
    .member 0 (.classNamed "B" ["A"]), .member 0 (.classNamed "C" [])]

/-- A session is asked for two classes that extend each other, one of them
named twice, after it was asked for a third one that they extend as
well. -/
theorem resolveSupertypes_ends_mutualClasses :
    let v := World.after (.plain .default) [.addUnit .mutualClasses]
    let a : Symbol := ⟨⟨0⟩, ⟨1⟩⟩
    let b : Symbol := ⟨⟨0⟩, ⟨2⟩⟩
    let c : Symbol := ⟨⟨0⟩, ⟨3⟩⟩
    let ctx := Context.ofFirst v false
    let w := (resolveSupertypes ctx [c] v).2
    w.InSession (ctx.computed [c] v fun _ => none) ∧
      w.Registered ctx.unit ∧ ctx.guard.lock = .ofUnit ctx.unit.id ∧
      ∃ u, resolveSupertypes ctx [a, c, a] w = (.ok (), u) ∧
        u.session.order = [c, a, b] ∧
        ∀ d r, ctx.computed [a, c, a] w (ctx.computed [c] v fun _ => none) d =
          some r → r.committed = false → ∀ e ∈ r.classes, e ∈ u.session.order := by
  intro v a b c ctx w
  have hquiet := Setup.quiet_plain .default
  have hstart : v.InSession fun _ => none :=
    .start ((Reaches.after _ _).roomy hquiet) rfl
  have hguard : ctx.guard.lock = .ofUnit ctx.unit.id := by decide +kernel
  have hv : v.Registered ctx.unit := by
    rw [World.Registered]
    decide +kernel
  have hu : w.Registered ctx.unit := by
    rw [World.Registered]
    decide +kernel
  have hw : w.InSession (ctx.computed [c] v fun _ => none) :=
    .call ctx [c] hstart hv hguard
  obtain ⟨hends, hafter⟩ := resolveSupertypes_ends hw hu hguard [a, c, a]
  obtain ⟨u, hrun⟩ := hends nofun
  refine ⟨hw, hu, hguard, u, hrun, ?_, (hafter u hrun).2.2.2.2.2⟩
  have horder : (resolveSupertypes ctx [a, c, a] w).2.session.order =
      [c, a, b] := by decide +kernel
  rwa [hrun] at horder

/-- What the rounds of a call that was cancelled have computed, no later call
follows: the first of three classes refers to the third, which the session
does not list when it has answered again. -/
theorem not_followed_of_cancelled :
    let v := World.after (.plain .default)
      [.addUnit .mutualClasses, .setToken ⟨true, false⟩]
    let a : Symbol := ⟨⟨0⟩, ⟨1⟩⟩
    let c : Symbol := ⟨⟨0⟩, ⟨3⟩⟩
    let w := (resolveSupertypes (.ofFirst v true) [a] v).2
    let ctx := Context.ofFirst v false
    (resolveSupertypes (.ofFirst v true) [a] v).1 =
        .error (.error (.cancelled .supertypes)) ∧
      (∃ computed, w.InSession computed) ∧ w.Registered ctx.unit ∧
      (resolveSupertypes ctx [a] w).1 = .ok () ∧
      ((rounds ctx [a] w).2.session.result? a).any (fun r =>
        !r.committed && r.classes.contains c) = true ∧
      c ∉ (resolveSupertypes ctx [a] w).2.session.order := by
  intro v a c w ctx
  have hstart : v.InSession fun _ => none :=
    .start ((Reaches.after _ _).roomy (Setup.quiet_plain .default)) rfl
  have hv : v.Registered (Context.ofFirst v true).unit := by
    rw [World.Registered]
    decide +kernel
  refine ⟨by decide +kernel, ⟨_, .call (.ofFirst v true) [a] hstart hv ?_⟩, ?_,
    by decide +kernel, by decide +kernel, by decide +kernel⟩
  · decide +kernel
  · rw [World.Registered]
    decide +kernel

end StagedResolve
