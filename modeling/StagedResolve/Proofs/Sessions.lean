/-
What computing supertype clauses does to two runs side by side.

# The steps

A session computes clauses without writing any: it looks names up, it
reads the clause and the marker of a class that it has not met before,
and it keeps what it finds in its own memory, which both runs share. So
the runs may disagree about the classes that the session has met
(`apart`) and still compute the same, because those are answered from
the memory. That is why results that were put off make no difference to
what the rest of a session finds.

Writing the results back is where two runs can part; that is treated
where it is needed.
-/
import StagedResolve.Proofs.Lookups
import StagedResolve.Supertypes.Compute

namespace StagedResolve

/-- A unit that is registered in some world that the second run comes by. -/
def SideBySide.Finds (p : SideBySide) (u : CompilationUnit) : Prop :=
  ∃ v w, p.along v w ∧ w.registry.unit? u.id = some u

/-- The relation survives the steps that computing is made of. The runs
may disagree about the classes that are `apart`; the session has met
them. -/
structure SideBySide.Computes (p : SideBySide) (apart : Symbol → Prop) : Prop
    extends p.Lookups where
  stop : ∀ v w, p.along v w → p.failed v w
  named : ∀ v w id u, p.along v w → w.registry.unit? id = some u → u.id = id
  session : ∀ v w, p.along v w → v.session = w.session
  met : ∀ v w c, p.along v w → apart c → w.session.hasMet c = true
  update : ∀ f, (∀ s c, Session.hasMet s c = true → (f s).hasMet c = true) →
    Action.Keeps p (Action.updateSession f)
  imports : ∀ v w u, p.along v w → p.Finds u →
    (v.slots u .root).imports = (w.slots u .root).imports
  clause : ∀ v w u d, p.along v w → p.Finds u → u.isClassLike d = true →
    ¬ apart (u.symbol d) →
    v.clause u d = w.clause u d ∧ v.own u d = w.own u d
  round : Action.Keeps p (Action.count Counters.countRound)

namespace Session

-- ======================================================== what stays met

variable {s : Session} {c : Symbol}

/-- Beginning a computation forgets no class. -/
theorem hasMet_enter (b : Symbol) (h : s.hasMet c = true) :
    (s.enter b).hasMet c = true := by
  rw [hasMet, enter, Table.contains, Table.find?_insert]
  split
  · rfl
  · exact h

/-- Finishing a computation forgets no class. -/
theorem hasMet_finish (b : Symbol) (r : Computed) (h : s.hasMet c = true) :
    (s.finish b r).hasMet c = true := by
  rw [hasMet, finish, Table.contains, Table.find?_insert]
  split
  · rfl
  · exact h

end Session

/-- The entries of a clause are looked up one by one. -/
theorem SideBySide.Lookups.resolveClause {p : SideBySide} (hl : p.Lookups)
    (hstop : ∀ v w, p.along v w → p.failed v w) {source : SupertypeSource}
    (hs : ∀ c, Action.Keeps p (source c)) (sc : Scope) (place : DeclId)
    (slots : List Slot) :
    Action.Keeps p (Action.resolveClause sc source place slots) := by
  induction slots with
  | nil => exact .pure
  | cons slot rest ih =>
      cases slot with
      | written t =>
          refine .bind (hl.resolve hstop hs sc place .header t) fun r => ?_
          exact .bind ih fun _ => .pure
      | implicit => exact ih
      | resolved t => exact .bind ih fun _ => .pure

namespace SideBySide.Computes

open StagedResolve.Action

variable {p : SideBySide} {apart : Symbol → Prop} {source : SupertypeSource}

/-- The steps survive under an assumption. -/
theorem given (hp : p.Computes apart) (P : Prop) :
    (p.given P).Computes apart where
  registry := fun v w h => hp.registry v w h.2
  classifier := fun k => (hp.classifier k).given P
  stop := fun v w h => hp.stop v w h.2
  named := fun v w id u h => hp.named v w id u h.2
  session := fun v w h => hp.session v w h.2
  met := fun v w c h => hp.met v w c h.2
  update := fun f hf => (hp.update f hf).given P
  imports := fun v w u h ⟨v', w', h', hu⟩ =>
    hp.imports v w u h.2 ⟨v', w', h'.2, hu⟩
  clause := fun v w u d h ⟨v', w', h', hu⟩ =>
    hp.clause v w u d h.2 ⟨v', w', h'.2, hu⟩
  round := hp.round.given P

/-- Runs that are never together disagree about nothing. -/
theorem void (hp : (p.given False).Computes apart) :
    (p.given False).Computes fun _ => False :=
  { hp with
    met := fun _ _ _ _ h => h.elim
    clause := fun _ _ _ _ h => h.1.elim }

/-- What is read off the session is the same in both runs. -/
theorem readSession {α : Type} (hp : p.Computes apart) (f : Session → α) :
    Keeps p (Action.session f) :=
  .read fun v w hvw => by rw [hp.session v w hvw]

-- ==================================================== computing one clause

/-- A unit that the session needs is the registered one. -/
theorem unit?_of_sessionUnit? {w w' : World} {id : UnitId}
    {u : CompilationUnit} (h : Action.sessionUnit? id w = (.ok (some u), w')) :
    w.registry.unit? id = some u := by
  obtain ⟨found, v, hfound, hrest⟩ := Action.bind_run_eq_ok_iff.mp h
  cases hfound
  dsimp only at hrest
  cases hu : w.registry.unit? id with
  | none =>
      rw [hu] at hrest
      cases hrest
  | some u' =>
      rw [hu] at hrest
      obtain ⟨known, v, hknown, hrest⟩ := Action.bind_run_eq_ok_iff.mp hrest
      cases hknown
      split at hrest
      · cases hrest
        rfl
      · obtain ⟨table, v, -, hrest⟩ := Action.bind_run_eq_ok_iff.mp hrest
        obtain ⟨_, v, -, hrest⟩ := Action.bind_run_eq_ok_iff.mp hrest
        cases hrest
        rfl

/-- A unit that the session needs. -/
theorem sessionUnit? (hp : p.Computes apart) (id : UnitId) :
    Keeps p (Action.sessionUnit? id) := by
  refine .read_bind (T := fun found => ∀ u, found = some u → p.Finds u)
    (fun v w h => by rw [hp.registry v w h]) (fun v w h u hu =>
      ⟨v, w, h, hp.named v w id u h hu ▸ hu⟩) fun found => ?_
  cases found with
  | none => exact .pure
  | some u =>
      have hq := hp.given (∀ u', some u = some u' → p.Finds u')
      refine .bind (hq.readSession fun s => s.imports.contains id)
        fun known => ?_
      split
      · exact .pure
      · refine .bind (hq.storedOrFreshImports fun v w hvw =>
          hp.imports v w u hvw.2 (hvw.1 u rfl)) fun table => ?_
        exact .bind (hq.update _ fun _ _ h => h) fun _ => .pure

/-- The supertypes of one class that the runs agree about. -/
theorem evaluate (hp : p.Computes apart) (hs : ∀ c, Keeps p (source c))
    (defaults : List String) {c : Symbol} (hc : ¬ apart c) :
    Keeps p (Action.evaluate defaults source c) := by
  refine .bind_answer (hp.sessionUnit? c.unit)
    (T := fun found => ∀ u, found = some u → u.id = c.unit ∧ p.Finds u) ?_
    fun found => ?_
  · rintro v w found w' hvw hrun u rfl
    have hu := unit?_of_sessionUnit? hrun
    have hid := hp.named v w c.unit u hvw hu
    exact ⟨hid, v, w, hvw, hid ▸ hu⟩
  · cases found with
    | none => exact .pure
    | some u =>
        dsimp only
        split
        · exact .pure
        · next d hd =>
          split
          · exact .pure
          · next hk =>
            have hagree : ∀ v w, (∀ u', some u = some u' →
                u'.id = c.unit ∧ p.Finds u') ∧ p.along v w →
                v.clause u c.decl = w.clause u c.decl ∧
                  v.own u c.decl = w.own u c.decl := by
              rintro v w ⟨hfound, hvw⟩
              obtain ⟨hid, hu⟩ := hfound u rfl
              have hsymbol : u.symbol c.decl = c := by
                rw [CompilationUnit.symbol, hid]
              have hclass : u.isClassLike c.decl = true := by
                rw [CompilationUnit.isClassLike, CompilationUnit.kind?, hd]
                simpa using hk
              exact hp.clause v w u c.decl hvw hu hclass
                (by rw [hsymbol]; exact hc)
            refine .bind (.read fun v w h => (hagree v w h).1) fun clause => ?_
            refine .bind (.read fun v w h => (hagree v w h).2) fun own => ?_
            split
            · exact .pure
            · refine .bind ((hp.given _).readSession _) fun table => ?_
              refine .bind ((hp.given _).toLookups.resolveClause
                (hp.given _).stop (fun b => (hs b).given _) _ _ _) fun r => ?_
              exact .pure

/-- The supertypes of a class that the runs agree about, computed by a
session that has not met it. -/
theorem compute (hp : p.Computes apart) (defaults : List String)
    (fuel : Nat) (c : Symbol) :
    Keeps (p.given (¬ apart c)) (Action.compute defaults fuel c) := by
  induction fuel generalizing c with
  | zero => exact .stop fun v w h => hp.stop v w h.2
  | succ fuel ih =>
      have hsource : ∀ b, Keeps p (do
          if !(← Action.session fun s => s.hasMet b) then
            Action.compute defaults fuel b
          Action.session fun s => s.classes b) := by
        intro b
        refine .read_bind (T := fun met => met = false → ¬ apart b) ?_ ?_
          fun met => ?_
        · intro v w hvw
          rw [hp.session v w hvw]
        · intro v w hvw hmet hapart
          exact Bool.noConfusion (hmet.symm.trans (hp.met v w b hvw hapart))
        · have hclasses := ((hp.given (met = false → ¬ apart b)).readSession
            fun s => s.classes b)
          cases met with
          | true => exact hclasses
          | false =>
              refine .bind ?_ fun _ => hclasses
              exact (ih b).given_mono fun h => h rfl
      have hbody : ∀ {q : SideBySide} {apart' : Symbol → Prop},
          q.Computes apart' → ¬ apart' c → (∀ b, Keeps q (do
            if !(← Action.session fun s => s.hasMet b) then
              Action.compute defaults fuel b
            Action.session fun s => s.classes b)) →
          Keeps q (Action.compute defaults (fuel + 1) c) := by
        intro q apart' hq hc hsource
        refine .bind (hq.update _ fun s b => Session.hasMet_enter c) fun _ => ?_
        refine .bind (hq.evaluate hsource defaults hc) fun r => ?_
        exact hq.update _ fun s b => Session.hasMet_finish c r
      by_cases hc : apart c
      · have hq := hbody (hp.given False).void id fun b => (hsource b).given _
        exact hq.given_mono fun h => h hc
      · exact (hbody hp hc hsource).given _

/-- The bound of a search is the same in both runs. -/
theorem readBound (hp : p.Computes apart) :
    Keeps p (Action.read fun w => w.registry.searchBound) :=
  hp.readRegistry Registry.searchBound

-- =============================================================== rounds

/-- One member of a round. -/
theorem computeRound (hp : p.Computes apart) (config : Config)
    {cancellable : Bool}
    (hcheck : Keeps p (Action.checkCancelled cancellable .supertypes))
    (c : Symbol) : Keeps p (Action.computeRound config cancellable c) := by
  refine .read_bind (T := fun met => met = false → ¬ apart c) ?_ ?_
    fun met => ?_
  · intro v w hvw
    rw [hp.session v w hvw]
  · intro v w hvw hmet hapart
    exact Bool.noConfusion (hmet.symm.trans (hp.met v w c hvw hapart))
  · have hq := hp.given (met = false → ¬ apart c)
    cases met with
    | true => exact .pure
    | false =>
        refine .bind hq.readBound fun bound => ?_
        refine .bind ?_ fun _ => ?_
        · exact (hp.compute config.defaultImports bound c).given_mono
            fun h => h rfl
        · refine .bind (hq.update _ fun _ _ h => h) fun _ => ?_
          refine .bind (hq.readSession _) fun processed => ?_
          split
          · exact hcheck.given _
          · exact .pure

/-- All rounds. -/
theorem computeRounds (hp : p.Computes apart) (config : Config)
    {cancellable : Bool}
    (hcheck : Keeps p (Action.checkCancelled cancellable .supertypes))
    (fuel : Nat) (work : List Symbol) :
    Keeps p (Action.computeRounds config cancellable fuel work) := by
  induction fuel generalizing work with
  | zero =>
      cases work with
      | nil => exact .pure
      | cons c rest => exact .stop hp.stop
  | succ fuel ih =>
      cases work with
      | nil => exact .pure
      | cons c rest =>
          refine .bind hp.round fun _ => ?_
          refine .bind (.each fun b _ =>
            hp.computeRound config hcheck b) fun _ => ?_
          -- what is followed is computed twice here, so that the change of
          -- the session does not depend on what was read
          show Keeps p (Action.session (fun s => s.follow.1) >>= fun next =>
            Action.updateSession (fun s => s.follow.2) >>= fun _ =>
              Action.computeRounds config cancellable fuel next)
          refine .bind (hp.readSession _) fun next => ?_
          exact .bind (hp.update _ fun _ _ h => h) fun _ => ih next

end SideBySide.Computes

end StagedResolve
