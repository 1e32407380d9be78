/-
Cuts: which references breaking cycles takes away, and that no others go.

# What a session lists

Edges are drawn between the classes that a session lists, so the list
has to be the right one: the classes that were met, each once
(`Session.Listed`). A computation begins with a class that was not met
and is entered then, so this holds whatever happens to the world between
two calls, and whether a call ends well or not (`Serving.listed`).

# Circular references

A reference of a class is circular if it refers to a class of the
session that leads back (`Session.Circular`). Cycles are broken within
components, one component after the other, yet what becomes of a class
can be told by its references as they were before anything was taken
away, each on its own and without components (`Session.Freed`).

Every edge that is left at a class that was still to be written back was
there before, and was not circular then. A cycle through such a class
would be made of edges that were there before, so its first edge would
have been circular (`no_cycle_of_revises`).
-/
import StagedResolve.Proofs.Histories
import StagedResolve.Proofs.Reachability
import StagedResolve.Proofs.Requests

namespace StagedResolve

open StagedResolve.Action World Relation

-- ================================================== what a session lists

namespace Session

namespace Listed

variable {s t : Session}

/-- Revising results lists nothing else. -/
theorem revises {f : Symbol → Computed → Computed} (h : s.Listed)
    (ht : s.Revises f t) : t.Listed := by
  refine ⟨ht.order ▸ h.nodup, fun c => ?_⟩
  rw [ht.order, ht.hasMet]
  exact h.met c

/-- Changing the results of several classes lists nothing else. -/
theorem modifyEach (h : s.Listed) (f : Symbol → Computed → Computed)
    (l : List Symbol) : (Session.modifyEach f l s).Listed := by
  induction l generalizing s with
  | nil => exact h
  | cons c rest ih => exact ih (h.revises (modify_revises s c (f c)))

end Listed

end Session

namespace Action

variable {J : Session → Prop} {source : SupertypeSource}

/-- A condition on the session alone is none of what looking names up
changes. -/
theorem lookups_session (J : Session → Prop) :
    (SideBySide.solo (fun w => J w.session) fun w => J w.session).Lookups where
  registry := fun v w h => by rw [h.1]
  classifier := fun _ => .of_triple fun _ hw => hw

/-- A unit that the session needs, where entering an import table keeps a
condition on the session. -/
theorem sessionUnit?_session
    (himports : ∀ s id t, J s → J { s with imports := s.imports.insert id t })
    (id : UnitId) : Triple (fun w => J w.session) (sessionUnit? id)
      (fun _ w => J w.session) fun w => J w.session := by
  refine .read_then fun found => ?_
  cases found with
  | none => exact .pure fun w hw => hw
  | some u =>
      refine .read_then fun known => ?_
      split
      · exact .pure fun w hw => hw
      · have hl := lookups_session J
        refine .bind (hl.storedOrFreshImports (u := u) fun v w h => by
          rw [h.1]).triple fun table => ?_
        refine .bind (Q := fun _ w => J w.session) (.update fun w hw => ?_)
          fun _ => .pure fun w hw => hw
        exact himports w.session id table hw

/-- Evaluating a class keeps a condition on the session that finding
supertypes and entering import tables keep. -/
theorem evaluate_session
    (himports : ∀ s id t, J s → J { s with imports := s.imports.insert id t })
    (hs : ∀ b, Keeps (.solo (fun w => J w.session) fun w => J w.session)
      (source b)) (defaults : List String) (c : Symbol) :
    Triple (fun w => J w.session) (evaluate defaults source c)
      (fun _ w => J w.session) fun w => J w.session := by
  refine .bind (sessionUnit?_session himports c.unit) fun found => ?_
  cases found with
  | none => exact .pure fun w hw => hw
  | some u =>
      dsimp only
      split
      · exact .pure fun w hw => hw
      · split
        · exact .pure fun w hw => hw
        · refine .read_then fun clause => .read_then fun own => ?_
          split
          · exact .pure fun w hw => hw
          · refine .read_then fun table => ?_
            refine .bind ((lookups_session J).resolveClause (fun _ _ h => h) hs
              ⟨u, table, defaults⟩ c.decl clause).triple fun r => ?_
            exact .pure fun w hw => hw

/-- The session lists what it has met, with some classes among it. -/
def Lists (met : List Symbol) (w : World) : Prop :=
  w.session.Listed ∧ ∀ b ∈ met, b ∈ w.session.order

/-- Computing a class lists it. -/
theorem compute_lists (defaults : List String) (fuel : Nat)
    (met : List Symbol) (c : Symbol) :
    Triple (fun w => Lists met w ∧ w.session.hasMet c = false)
      (compute defaults fuel c) (fun _ => Lists (c :: met)) (Lists met) := by
  induction fuel generalizing met c with
  | zero => exact .stop fun w hw => hw.1
  | succ fuel ih =>
      have hsource : ∀ b, Triple (Lists (c :: met)) (do
          if !(← session fun s => s.hasMet b) then compute defaults fuel b
          session fun s => s.classes b) (fun _ => Lists (c :: met))
          (Lists (c :: met)) := by
        intro b
        refine .read_bind fun known => ?_
        cases known with
        | true => exact .read fun w hw => hw.1
        | false =>
            refine .bind (ih (c :: met) b) fun _ => .read fun w hw => ?_
            exact ⟨hw.1, fun a ha => hw.2 a (List.mem_cons_of_mem _ ha)⟩
      refine .bind (Q := fun _ => Lists (c :: met)) (.update ?_) fun _ => ?_
      · rintro w ⟨⟨hlisted, hmet⟩, hc⟩
        refine ⟨hlisted.enter hc, fun b hb => ?_⟩
        show b ∈ w.session.order ++ [c]
        rcases List.mem_cons.mp hb with rfl | hb
        · simp
        · exact List.mem_append_left _ (hmet b hb)
      · have heval := (evaluate_session
          (J := fun s => s.Listed ∧ ∀ b ∈ c :: met, b ∈ s.order)
          (fun s id t h => ⟨h.1.of_eq rfl rfl, h.2⟩)
          (fun b => .of_triple (hsource b)) defaults c)
        refine .bind (heval.conseq (fun _ hw => hw) (fun _ _ hw => hw)
          fun w hw => ⟨hw.1, fun b hb => hw.2 b (List.mem_cons_of_mem _ hb)⟩)
          fun r => .update fun w hw => ?_
        exact ⟨hw.1.finish (hw.2 c (List.mem_cons_self ..)) r, hw.2⟩

/-- So does a round with each of its members. -/
theorem computeRound_lists (config : Config) (cancellable : Bool)
    (c : Symbol) : Triple (Lists []) (computeRound config cancellable c)
      (fun _ => Lists []) (Lists []) := by
  refine .read_bind fun met => ?_
  cases met with
  | true => exact .pure fun w hw => hw.1
  | false =>
      refine .read_then fun bound => ?_
      refine .bind (compute_lists _ bound [] c) fun _ => ?_
      refine .bind (Q := fun _ => Lists []) (.update fun w hw => ?_)
        fun _ => .read_then fun processed => ?_
      · exact ⟨hw.1.of_eq rfl rfl, nofun⟩
      · split
        · exact .checkCancelled fun w hw => hw
        · exact .pure fun w hw => hw

/-- All rounds keep the list right. -/
theorem computeRounds_lists (config : Config) (cancellable : Bool)
    (fuel : Nat) (work : List Symbol) :
    Triple (Lists []) (computeRounds config cancellable fuel work)
      (fun _ => Lists []) (Lists []) := by
  induction fuel generalizing work with
  | zero =>
      cases work with
      | nil => exact .pure fun w hw => hw
      | cons c rest => exact .stop fun w hw => hw
  | succ fuel ih =>
      cases work with
      | nil => exact .pure fun w hw => hw
      | cons c rest =>
          refine .bind (Q := fun _ => Lists []) (.update fun w hw => hw)
            fun _ => ?_
          refine .bind (.each fun b _ => computeRound_lists _ _ b) fun _ => ?_
          refine .read_bind fun next => .bind (Q := fun _ => Lists []) ?_
            fun _ => ih next.1
          refine .update ?_
          rintro w ⟨hw, rfl⟩
          exact ⟨hw.1.of_eq rfl rfl, nofun⟩

/-- Writing to a declaration leaves the session. -/
theorem writeState_session (J : Session → Prop) (g : Guard)
    (u : CompilationUnit) (d : DeclId) (f : DeclState → DeclState) :
    Triple (fun w => J w.session) (writeState g u d f)
      (fun _ w => J w.session) fun w => J w.session := by
  exact writeState_triple (fun _ hw => hw) fun w hw _ => hw

/-- So does writing the result of a class back. -/
theorem applyTo_session (J : Session → Prop) (g : Guard)
    (u : CompilationUnit) (c : Symbol) :
    Triple (fun w => J w.session) (applyTo g u c) (fun _ w => J w.session)
      fun w => J w.session := by
  refine .read_then fun result => ?_
  cases result with
  | none => exact .pure fun w hw => hw
  | some r =>
      refine .read_then fun own => ?_
      split
      · exact .pure fun w hw => hw
      · refine .bind (writeState_session J g u c.decl _) fun _ => ?_
        refine .bind (writeState_session J g u c.decl _) fun _ => ?_
        refine .read_then fun seed => ?_
        split
        · refine .each fun d _ => ?_
          exact .bind (writeState_session J g u d _) fun _ =>
            writeState_session J g u d _
        · exact .pure fun w hw => hw

/-- Writing results back keeps a condition on the session that neither the
entry of an import table nor the revision of results breaks. -/
theorem applyResults_session {J : Session → Prop}
    (himports : ∀ s id t, J s → J { s with imports := s.imports.insert id t })
    (hmodify : ∀ s f l, J s → J (Session.modifyEach f l s)) (ctx : Context) :
    Triple (fun w => J w.session) (applyResults ctx) (fun _ w => J w.session)
      fun w => J w.session := by
  refine .read_then fun pending => .each fun id _ => ?_
  refine .bind (Q := fun _ w => J w.session) ?_ fun _ => .update fun w hw =>
    hmodify w.session _ _ hw
  have heach : ∀ g u, Triple (fun w => J w.session)
      (each (applyTo g u) (pending.filter fun c => c.unit == id))
      (fun _ w => J w.session) fun w => J w.session :=
    fun g u => .each fun c _ => applyTo_session J g u c
  unfold applyUnit
  split
  · exact heach _ _
  · refine .bind (sessionUnit?_session himports id) fun found => ?_
    cases found with
    | none => exact .pure fun w hw => hw
    | some u =>
        refine .bind (Q := fun _ w => J w.session) (fun w hw => hw)
          fun g => ?_
        cases g with
        | some g => exact .holding (heach g u) (fun _ _ hw => hw) fun _ hw => hw
        | none => exact .update fun w hw => hw

/-- So does a whole call. -/
theorem resolveSupertypes_lists (ctx : Context) (seeds : List Symbol) :
    Triple (Lists []) (resolveSupertypes ctx seeds) (fun _ => Lists [])
      (Lists []) := by
  refine .bind (Q := fun _ => Lists []) (.update fun w hw => ?_) fun _ => ?_
  · exact ⟨hw.1.of_eq rfl rfl, nofun⟩
  · refine .read_then fun bound => ?_
    refine .bind (computeRounds_lists _ _ bound seeds) fun _ => ?_
    refine .bind (Q := fun _ => Lists []) (.update fun w hw => ?_) fun _ => ?_
    · exact ⟨Session.breakCyclesBy_keeps (fun f l _ h => h.modifyEach f l) hw.1
        Graph.components, nofun⟩
    · exact applyResults_session
        (J := fun s => s.Listed ∧ ∀ b ∈ [], b ∈ s.order)
        (fun s id t h => ⟨h.1.of_eq rfl rfl, nofun⟩)
        (fun s f l h => ⟨h.1.modifyEach f l, nofun⟩) ctx

end Action

namespace World

/-- The session of the world has come about by calls: it has been started,
and what happened to the world between its calls left it alone. A call
may have ended with a failure. -/
inductive Serving : World → Prop
  | start {w : World} : w.session = .start → Serving w
  | between {v w : World} : Serving v → w.session = v.session → Serving w
  | call {v : World} (ctx : Context) (seeds : List Symbol) :
      Serving v → Serving (resolveSupertypes ctx seeds v).2

/-- Then it lists what it has met. -/
theorem Serving.listed {w : World} (h : w.Serving) : w.session.Listed := by
  induction h with
  | start h => exact h ▸ .start
  | between _ h ih => exact h ▸ ih
  | call ctx seeds _ ih =>
      exact (((resolveSupertypes_lists ctx seeds).world ⟨ih, nofun⟩) :
        Lists [] _).1

end World

-- =================================================== circular references

/-- What is reported of a reference that is replaced: the name and the place
that it was written with. One that was not written is named by its type, and
has no place. -/
def Reference.Reported (x : Reference) (e : ResolveError) : Prop :=
  match x.written with
  | some t => e = .cyclicSupertype t.name t.span
  | none => e = .cyclicSupertype x.type.text .nowhere

/-- Each replaced reference is reported so. -/
theorem reported_cycleError (x : Reference) : x.Reported (cycleError x) := by
  unfold Reference.Reported cycleError
  cases x.written <;> rfl

namespace Session

variable {s t : Session} {a b : Symbol}

/-- A reference of a class is circular: it refers to a class of the
session from which edges lead back to the class. -/
def Circular (s : Session) (a : Symbol) (x : Reference) : Prop :=
  ∃ b ∈ s.order, x.type.class? = some b ∧
    ReflTransGen (fun c d => d ∈ s.edges c) b a

/-- These are the references that close a cycle. -/
theorem closesCycle_iff {x : Reference} :
    s.closesCycle a x = true ↔ s.Circular a x := by
  unfold closesCycle Circular
  cases hx : x.type.class? with
  | none => simp
  | some b =>
      simp only [Bool.and_eq_true, List.contains_iff_mem, Option.some.injEq]
      constructor
      · rintro ⟨hb, hleads⟩
        exact ⟨b, hb, rfl, (Graph.mem_reach_iff hb).mp hleads⟩
      · rintro ⟨c, hc, rfl, hleads⟩
        exact ⟨hc, (Graph.mem_reach_iff hc).mpr hleads⟩

instance (s : Session) (a : Symbol) : DecidablePred (s.Circular a) :=
  fun _ => decidable_of_iff _ closesCycle_iff

/-- A result freed of its circular references: each of them has the top type
in its place and is reported once, in order, and nothing else has changed. -/
structure Freed (s : Session) (a : Symbol) (r r' : Computed) : Prop where
  length : r'.references.length = r.references.length
  replaced : ∀ (i : Nat) (x : Reference), r.references[i]? = some x →
    s.Circular a x → r'.references[i]? = some ⟨.any, x.written⟩
  kept : ∀ (i : Nat) (x : Reference), r.references[i]? = some x →
    ¬ s.Circular a x → r'.references[i]? = some x
  reported : ∃ reports, r'.errors = r.errors ++ reports ∧
    List.Forall₂ Reference.Reported
      (r.references.filter fun x => s.Circular a x) reports
  committed : r'.committed = r.committed
  isAlias : r'.isAlias = r.isAlias
  applied : r'.applied = r.applied

/-- What is still to be written back is freed of its circular
references. -/
theorem freed_cutResult {r : Computed} (hp : r.isPending = true) :
    s.Freed a r (s.cutResult a r) := by
  have hcircular : s.closesCycle a = fun x => decide (s.Circular a x) := by
    funext x
    rw [Bool.eq_iff_iff, closesCycle_iff, decide_eq_true_iff]
  rw [cutResult_of_pending a hp, hcircular]
  refine ⟨List.length_map _, fun i x hx hcirc => ?_, fun i x hx hcirc => ?_,
    ⟨_, rfl, ?_⟩, rfl, rfl, rfl⟩
  · rw [List.getElem?_map, hx, Option.map_some, if_pos (decide_eq_true hcirc)]
  · rw [List.getElem?_map, hx, Option.map_some,
      if_neg fun h => hcirc (of_decide_eq_true h)]
  · rw [List.forall₂_map_right_iff]
    exact List.forall₂_same.mpr fun x _ => reported_cycleError x

/-- An edge that is left is an edge that was there before. -/
theorem edges_of_revises (h : s.Revises s.cutResult t) (a : Symbol) :
    ∀ b ∈ t.edges a, b ∈ s.edges a := by
  intro b hb
  obtain ⟨hclass, horder⟩ := List.mem_filter.mp hb
  rw [h.order] at horder
  refine List.mem_filter.mpr ⟨?_, horder⟩
  unfold classes at hclass ⊢
  rw [h.result] at hclass
  cases hr : s.result? a with
  | none =>
      rw [hr] at hclass
      cases hclass
  | some r =>
      rw [hr] at hclass
      exact ((faithful_cutResult s).classes a r).subset hclass

/-- An edge that is left at a class that was still to be written back does
not lead back to it. -/
theorem not_leads_back (h : s.Revises s.cutResult t) {r : Computed}
    (hr : s.result? a = some r) (hp : r.isPending = true)
    (hb : b ∈ t.edges a) :
    ¬ ReflTransGen (fun c d => d ∈ s.edges c) b a := by
  obtain ⟨hclass, horder⟩ := List.mem_filter.mp hb
  rw [h.order, List.contains_iff_mem] at horder
  have hsurvives : s.Survives a b := by
    rw [classes, h.result, hr] at hclass
    exact ⟨r, hr, hp, hclass⟩
  exact hsurvives.not_leads_back.2 horder

/-- No cycle of edges is left that passes through a class that was still to
be written back. -/
theorem no_cycle_of_revises (h : s.Revises s.cutResult t) {r : Computed}
    (hr : s.result? a = some r) (hp : r.isPending = true) :
    ¬ TransGen (fun c d => d ∈ t.edges c) a a := by
  intro hcycle
  obtain ⟨b, hab, hba⟩ := TransGen.head'_iff.mp hcycle
  exact not_leads_back h hr hp hab
    (ReflTransGen.mono (fun c d hd => edges_of_revises h c d hd) _ _ hba)

end Session

/-- Breaking cycles is exact, however the components of the graph are found,
for which a search is one way. When the rounds of a call are over, whatever
the calls before it came to, every class that is still to be written back is
freed of its circular references and of nothing else; every other result and
the rest of the session are as they were, and no cycle passes through such a
class any more. -/
theorem breakCycles_exact {v w : World} (hv : v.Serving) {config : Config}
    {cancellable : Bool} {fuel : Nat} {seeds : List Symbol}
    (hrun : computeRounds config cancellable fuel seeds { v with
      session := { v.session with seeds := v.session.seeds ++ seeds } } =
        (.ok (), w)) :
    let s := w.session
    s.graph.Splits s.graph.components ∧
      ∀ components : Graph Symbol → List (List Symbol),
        s.graph.Splits (components s.graph) →
        let t := s.breakCyclesBy components
        (∀ a, Option.Rel (fun r r' =>
          if r.isPending then s.Freed a r r' else r' = r)
            (s.result? a) (t.result? a)) ∧
        (t = { s with progress := t.progress } ∧
          ∀ a, t.hasMet a = s.hasMet a) ∧
        ∀ a r, s.result? a = some r → r.isPending = true →
          ¬ TransGen (fun c d => d ∈ t.edges c) a a := by
  intro s
  have hstart : Lists [] { v with
      session := { v.session with seeds := v.session.seeds ++ seeds } } :=
    ⟨hv.listed.of_eq rfl rfl, nofun⟩
  have hlists := computeRounds_lists config cancellable fuel seeds
  have hlisted : s.Listed := (hlists.ok hstart hrun).1
  refine ⟨Graph.splits_components hlisted.nodup, fun components hparts => ?_⟩
  intro t
  have hrevises : s.Revises s.cutResult t := hlisted.breakCyclesBy hparts
  refine ⟨fun a => ?_, ⟨?_, hrevises.hasMet⟩, fun a r hr hp =>
    Session.no_cycle_of_revises hrevises hr hp⟩
  · rw [hrevises.result]
    cases s.result? a with
    | none => exact .none
    | some r =>
        refine .some ?_
        split
        · next hp => exact Session.freed_cutResult hp
        · next hp =>
          exact Session.cutResult_of_not_pending a (Bool.eq_false_iff.mpr hp)
  · obtain ⟨progress, h⟩ := Session.breakCyclesBy_eq components s
    rw [show t = { s with progress := progress } from h]

/-- A class that extends an alias of itself, and another class that extends
itself. -/
def UnitSpec.aliasCircle : UnitSpec :=
  .ofEntries "circle.kt" [
    .member 0 { DeclSpec.ofForm .classDecl "A" with
      supertypes := [⟨"B", [], false, ⟨3, 11, 1⟩⟩, ⟨"C", [], false, ⟨3, 14, 1⟩⟩] },
    .member 0 { DeclSpec.ofForm .typeAlias "B" with
      expansion := some ⟨"A", [], false, ⟨4, 15, 1⟩⟩ },
    .member 0 { DeclSpec.ofForm .classDecl "C" with
      supertypes := [⟨"C", [], false, ⟨5, 11, 1⟩⟩] }]

/-- Three references are circular, and each is reported where it was written;
the fourth one stays. -/
theorem breakCycles_exact_aliasCircle :
    let v := World.after (.plain .default) [.addUnit .aliasCircle]
    let a : Symbol := ⟨⟨0⟩, ⟨1⟩⟩
    let b : Symbol := ⟨⟨0⟩, ⟨2⟩⟩
    let c : Symbol := ⟨⟨0⟩, ⟨3⟩⟩
    let w := (computeRounds .default false 9 [a] { v with
      session := { v.session with seeds := v.session.seeds ++ [a] } }).2
    let t := w.session.breakCycles
    w.session.classes a = [b, c] ∧ w.session.classes b = [a] ∧
      w.session.classes c = [c] ∧
      (t.result? a).map (fun r => (r.types, r.errors)) = some
        ([.any, .ofClass c], [.cyclicSupertype "B" ⟨3, 11, 1⟩]) ∧
      (t.result? b).map (fun r => (r.types, r.errors)) = some
        ([.any], [.cyclicSupertype "A" ⟨4, 15, 1⟩]) ∧
      (t.result? c).map (fun r => (r.types, r.errors)) = some
        ([.any], [.cyclicSupertype "C" ⟨5, 11, 1⟩]) ∧
      ¬ TransGen (fun x y => y ∈ t.edges x) a a := by
  intro v a b c w t
  have hrun : computeRounds .default false 9 [a] { v with session :=
      { v.session with seeds := v.session.seeds ++ [a] } } = (.ok (), w) :=
    run_of_fst (by decide +kernel)
  obtain ⟨hsplits, hexact⟩ := breakCycles_exact (.start rfl) hrun
  have hpending : (w.session.result? a).any Computed.isPending = true := by
    decide +kernel
  obtain ⟨r, hr, hp⟩ := (Option.any_eq_true ..).mp hpending
  exact ⟨by decide +kernel, by decide +kernel, by decide +kernel,
    by decide +kernel, by decide +kernel, by decide +kernel,
    (hexact _ hsplits).2.2 a r hr hp⟩

end StagedResolve
