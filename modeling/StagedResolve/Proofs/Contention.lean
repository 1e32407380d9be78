/-
Contention: a request whose session cannot get at some units, beside one
that can.

# What sets two runs apart

Under the lock of the unit at hand a thread can get at every other unit,
save those that somebody else holds and that the order of units does not
let it wait for. Here two runs of one request are compared, the second of
which has more of those (`Contest`). Whatever it cannot get at, the first
run may write to; everywhere else the worlds are the same, and so are the
units, the session, the log and the token (`World.Beside`).

# What is known of the units beyond reach

What else has to be known depends on the phase. While supertypes are
computed it is enough that the session has met every class about which the
runs disagree (`Contest.Met`): it never reads the clause of such a class
again. Writing back keeps that, since a session writes only what it has
met, and whatever it marks in passing beside that is no class, where
classes are inside of nothing but classes. The other phases write nothing
there (`Contest.Still`), but they look names up in the hierarchy, so then
the clauses of those units have to refer to the same classes
(`Contest.Level`).
-/
import StagedResolve.Proofs.Frames
import StagedResolve.Proofs.Threads

namespace StagedResolve

open StagedResolve.Action World

-- ============================================================== the threads

namespace Thread

variable {s t : Thread} {l : LockId}

/-- The guard of a lock says whether the thread held the lock before. -/
theorem lock_guard (t : Thread) (l : LockId) : (t.lock l).1 = ⟨l, t.owns l⟩ := by
  unfold Thread.lock
  split
  · have howns : (t.wait l).owns l = t.owns l := by
      rw [owns, owns, mutex_insert t l l _ (t.wait l) rfl, if_pos rfl]
    exact congrArg (Guard.mk l) howns
  · rfl

/-- Taking a lock leaves the token. -/
theorem token_lock (t : Thread) (l : LockId) : (t.lock l).2.token = t.token := by
  unfold Thread.lock
  split
  · rfl
  · rfl

/-- Both threads hold the same, and whatever others hold in the first case
they hold in the second. -/
structure Freer (s t : Thread) : Prop where
  held : s.held = t.held
  ours : ∀ l, (s.mutex l).ours = (t.mutex l).ours
  theirs : ∀ l, (s.mutex l).theirs = true → (t.mutex l).theirs = true

namespace Freer

/-- The threads own the same mutexes. -/
theorem owns (h : s.Freer t) (l : LockId) : s.owns l = t.owns l := by
  rw [Thread.owns, Thread.owns, h.ours]

/-- They may wait for the same units. -/
theorem mayWaitFor (h : s.Freer t) (u : UnitId) :
    s.mayWaitFor u = t.mayWaitFor u := by
  rw [Thread.mayWaitFor, Thread.mayWaitFor, highest?, highest?, h.held]

/-- What is blocked in the first case is blocked in the second. -/
theorem blocked (h : s.Freer t) (hl : s.Blocked l) : t.Blocked l :=
  ⟨h.theirs l hl.theirs, (h.owns l).symm.trans hl.notOurs,
    (h.mayWaitFor l.unit).symm.trans hl.notWaiting⟩

end Freer

end Thread

-- ================================================================= the hooks

/-- What a hook answers does not depend on the world, and all it does is
change the token and write to the log. -/
def Hook.Blind (h : Hook) : Prop :=
  ∀ g p u x, ∃ (r : Except Failure Unit) (f : Token → Token)
    (lines : List LogLine), ∀ w : World, h g p u x w = (r, { w with
      thread := { w.thread with token := f w.thread.token }
      log := w.log ++ lines })

namespace Hook

/-- Writing to the log is blind. -/
theorem blind_recorder : recorder.Blind := fun _ p u x =>
  ⟨.ok (), id, [.seen p (u.symbol x.id)], fun _ => rfl⟩

/-- Cancelling the token is blind. -/
theorem blind_canceller : canceller.Blind := fun _ _ _ _ =>
  ⟨.ok (), Token.cancel, [], fun _ => by
    rw [List.append_nil]
    rfl⟩

/-- A hook that is called less often is as blind. -/
theorem Blind.only {h : Hook} (hh : h.Blind) (phase : Option Phase)
    (name : Option String) : (h.only phase name).Blind := fun g p u x => by
  unfold Hook.only
  split
  · exact hh g p u x
  · exact ⟨.ok (), id, [], fun _ => by
      rw [List.append_nil]
      rfl⟩

/-- Blind hooks are quiet. -/
theorem Blind.quiet {h : Hook} (hh : h.Blind) : h.Quiet := by
  intro g p u x w _ _
  obtain ⟨r, f, lines, hrun⟩ := hh g p u x
  rw [hrun]
  exact .of_eq rfl rfl rfl rfl rfl rfl

/-- They are oblivious as well. -/
theorem Blind.oblivious {h : Hook} (hh : h.Blind) : h.Oblivious := by
  intro g p u x w
  obtain ⟨r, f, lines, hrun⟩ := hh g p u x
  refine ⟨by rw [hrun], f, fun t c => ?_⟩
  rw [hrun, hrun]

end Hook

/-- Without hooks nothing is seen. -/
theorem Setup.blind_plain (config : Config) : ∀ h ∈ (plain config).hooks, h.Blind :=
  fun _ h => absurd h List.not_mem_nil

-- =============================================================== the contest

/-- Two runs for a unit that begin with threads of their own, and the units
that the second one cannot get at. -/
structure Contest where
  first : Thread
  second : Thread
  beyond : UnitId → Option CompilationUnit
  /-- The runs look at their tokens. -/
  heeds : Bool

namespace Contest

/-- A unit that both runs can get at. -/
def Common (k : Contest) (u : CompilationUnit) : Prop := k.beyond u.id = none

/-- The units are known by their ids. -/
def Named (k : Contest) : Prop := ∀ id u, k.beyond id = some u → u.id = id

/-- The second run can get at less, and what it cannot get at are the units
whose locks are blocked. -/
structure Fair (k : Contest) : Prop where
  named : k.Named
  freer : k.first.Freer k.second
  blocked : ∀ id u, k.beyond id = some u → k.second.Blocked (.ofUnit id)
  known : ∀ id, k.second.Blocked (.ofUnit id) → k.beyond id ≠ none

end Contest

/-- The worlds are the same apart from units beyond reach, from counters and
from what others hold. -/
structure World.Beside (k : Contest) (v w : World) : Prop where
  registry : v.registry = w.registry
  coherent : w.registry.Coherent
  session : v.session = w.session
  log : v.log = w.log
  token : k.heeds = true → v.thread.token = w.thread.token
  first : k.first.Alike v.thread
  second : k.second.Alike w.thread
  there : ∀ id u, k.beyond id = some u → w.registry.unit? id = some u
  common : ∀ c : Symbol, k.beyond c.unit = none →
    v.states.find? c = w.states.find? c
  imports : ∀ id u, k.beyond id = some u →
    (v.slots u .root).imports = (w.slots u .root).imports

namespace World

variable {k : Contest} {v w : World} {u : CompilationUnit} {d : DeclId}

/-- A state is what the table says. -/
theorem state_congr (h : w.states.find? (u.symbol d) = v.states.find? (u.symbol d)) :
    w.state u d = v.state u d := by
  rw [state, state, h]

namespace Beside

/-- Worlds that differ in threads and counters. -/
theorem of_threads {s t : Thread} {c c' : Counters} (hw : w.registry.Coherent)
    (hfirst : k.first.Alike s) (hsecond : k.second.Alike t)
    (htoken : k.heeds = true → s.token = t.token)
    (hthere : ∀ id u, k.beyond id = some u → w.registry.unit? id = some u) :
    Beside k { w with thread := s, counters := c }
      { w with thread := t, counters := c' } where
  registry := rfl
  coherent := hw
  session := rfl
  log := rfl
  token := htoken
  first := hfirst
  second := hsecond
  there := hthere
  common := fun _ _ => rfl
  imports := fun _ _ _ => rfl

/-- States are the same in a unit that both runs can get at. -/
theorem state (h : Beside k v w) (hu : k.Common u) (d : DeclId) :
    v.state u d = w.state u d :=
  state_congr (h.common (u.symbol d) hu)

/-- A unit beyond reach is the one that is registered. -/
theorem eq_of_beyond (h : Beside k v w) {z : CompilationUnit}
    (hz : k.beyond u.id = some z) (hu : w.Registered u) : z = u :=
  Option.some.inj ((h.there _ _ hz).symm.trans hu)

/-- Both worlds are written to in the same way, where both runs can get at. -/
theorem write (h : Beside k v w) (hk : k.Named) (hu : k.Common u) (d : DeclId)
    (s : DeclState) : Beside k (v.setState u d s) (w.setState u d s) := by
  refine { h with common := fun c hc => ?_, imports := fun id z hz => ?_ }
  · show (v.states.insert _ s).find? c = (w.states.insert _ s).find? c
    rw [Table.find?_insert, Table.find?_insert, h.common c hc]
  · have hne : u.symbol d ≠ z.symbol .root := fun heq => by
      have hid : u.id = id := (congrArg Symbol.unit heq).trans (hk id z hz)
      subst hid
      exact absurd (hu.symm.trans hz) nofun
    rw [slots, slots, state_setState_of_ne _ _ hne, state_setState_of_ne _ _ hne]
    exact h.imports id z hz

/-- The first world is written to where the second run cannot get at; import
tables stay. -/
theorem alter (h : Beside k v w) (hk : k.Named) (hu : k.beyond u.id = some u)
    {s : DeclState} (hs : s.slots.imports = (v.slots u d).imports) :
    Beside k (v.setState u d s) w := by
  refine { h with common := fun c hc => ?_, imports := fun id z hz => ?_ }
  · have hne : u.symbol d ≠ c := by
      rintro rfl
      exact absurd (hc.symm.trans hu) nofun
    exact (Table.find?_insert_of_ne _ _ hne).trans (h.common c hc)
  · rw [← h.imports id z hz, slots]
    by_cases heq : u.symbol d = z.symbol .root
    · have hid : u.id = id := (congrArg Symbol.unit heq).trans (hk id z hz)
      obtain rfl : u = z := Option.some.inj (hu.symm.trans (hid ▸ hz))
      obtain rfl : d = .root := congrArg Symbol.decl heq
      rw [state_setState_self, hs]
    · rw [state_setState_of_ne _ _ heq]
      rfl

end Beside

end World

-- ============================================== what is known beyond reach

namespace Contest

variable {k : Contest} {X : World → World → Prop} {away : World → Prop}

/-- What is known of the units beyond reach is a matter of the states there,
of the session and of what was counted; and a run that has gone its own way
has put things off. -/
structure Watches (k : Contest) (X : World → World → Prop)
    (away : World → Prop) : Prop where
  keep : ∀ {v w v' w' : World}, X v w →
    (∀ c : Symbol, k.beyond c.unit ≠ none →
      v'.states.find? c = v.states.find? c ∧
        w'.states.find? c = w.states.find? c) →
    w'.session = w.session → w'.counters = w.counters → X v' w'
  count : ∀ (v w : World) (f : Counters → Counters),
    (∀ c, c.deferred ≤ (f c).deferred) → X v w →
    away { w with counters := f w.counters } ∨
      X { v with counters := f v.counters } { w with counters := f w.counters }
  gone : ∀ w w' : World, away w → w.counters.deferred ≤ w'.counters.deferred →
    away w'

/-- Nothing has been written there since the runs were in `v₀` and `w₀`. -/
def Still (k : Contest) (v₀ w₀ v w : World) : Prop :=
  ∀ c : Symbol, k.beyond c.unit ≠ none →
    v.states.find? c = v₀.states.find? c ∧ w.states.find? c = w₀.states.find? c

/-- A class beyond reach about which the runs disagree has been met by the
session, and the second run has written nothing there since it was in
`o`. -/
structure Met (k : Contest) (o v w : World) : Prop where
  met : ∀ id u d, k.beyond id = some u → u.isClassLike d = true →
    w.session.hasMet (u.symbol d) = true ∨
      (v.clause u d = w.clause u d ∧ v.own u d = w.own u d)
  untouched : ∀ c : Symbol, k.beyond c.unit ≠ none →
    w.states.find? c = o.states.find? c

/-- Clauses beyond reach refer to the same classes. -/
def Level (k : Contest) (v w : World) : Prop :=
  ∀ id u d x, k.beyond id = some u → u.decl? d = some x →
    ResolvedType.classes (Slot.types (v.clause u x.id)) =
      ResolvedType.classes (Slot.types (w.clause u x.id))

end Contest

/-- Two runs in a contest, either of which may fail as it likes. -/
def SideBySide.contest (k : Contest) (X : World → World → Prop)
    (away : World → Prop) : SideBySide :=
  { along := fun v w => World.Beside k v w ∧ X v w
    failed := fun _ _ => True
    away := away
    alone := True }

namespace Contest

section shares

variable {k : Contest} {X : World → World → Prop} {away : World → Prop}
  {setup : Setup}

/-- A change that leaves states, sessions, counters and locks alone, and is the
same in both runs. -/
theorem keeps_of_aside (hX : k.Watches X away) {α : Type} {x : Action α}
    {r : World → Except Failure α} {f : World → World}
    (hx : ∀ w, x w = (r w, f w))
    (hbeside : ∀ v w, World.Beside k v w →
      r v = r w ∧ World.Beside k (f v) (f w))
    (hf : ∀ w, (f w).states = w.states ∧ (f w).session = w.session ∧
      (f w).counters = w.counters) : Keeps (.contest k X away) x := by
  refine ⟨fun w hw => ?_, fun v w ⟨hvw, hXvw⟩ => Or.inr ?_⟩
  · rw [hx]
    exact hX.gone _ _ hw (Nat.le_of_eq (congrArg Counters.deferred (hf w).2.2.symm))
  · obtain ⟨hr, hafter⟩ := hbeside v w hvw
    have hX' : X (f v) (f w) := hX.keep hXvw
      (fun c _ => by rw [(hf v).1, (hf w).1]; exact ⟨rfl, rfl⟩)
      (hf w).2.1 (hf w).2.2
    rw [hx, hx, hr]
    cases r w with
    | error e => exact Or.inr ⟨rfl, trivial⟩
    | ok a => exact ⟨rfl, hafter, hX'⟩

/-- The runs agree about the units that both can get at, and nothing that is
done to those sets them apart. -/
theorem shares (hk : k.Named) (hX : k.Watches X away)
    (hhooks : ∀ h ∈ setup.hooks, h.Blind) {cancellable : Bool}
    (hheeds : cancellable = true → k.heeds = true) :
    (SideBySide.contest k X away).Shares setup cancellable k.Common where
  registry := fun _ _ h => h.1.registry
  classifier := fun key => by
    refine keeps_of_aside hX (r := fun w => .ok (w.registry.classifier key).answer)
      (f := fun w => { w with
        registry := (w.registry.classifier key).registry
        log := w.log ++ (w.registry.classifier key).built.toList.map .built })
      (fun _ => rfl) (fun v w h => ⟨by rw [h.registry], ?_⟩)
      fun _ => ⟨rfl, rfl, rfl⟩
    obtain ⟨hcoherent, hgrows, -⟩ := h.coherent.classifier key
    exact { h with
      registry := by rw [h.registry]
      coherent := hcoherent
      log := by rw [h.registry, h.log]
      there := fun id u hu => hgrows.kept id u (h.there id u hu) }
  stop := fun _ _ _ => trivial
  state := fun _ _ _ d h hu => h.1.state hu d
  write := fun g u d f hu => by
    refine ⟨fun w hw => ?_, fun v w ⟨hvw, hXvw⟩ => Or.inr ?_⟩ <;>
      unfold Action.writeState
    · split
      · exact hw
      · split
        · exact hw
        · exact hX.gone _ _ hw (Nat.le_refl _)
    · split
      · exact Or.inr ⟨rfl, trivial⟩
      · split
        · exact Or.inr ⟨rfl, trivial⟩
        · rw [hvw.state hu d]
          refine ⟨rfl, hvw.write hk hu d _, hX.keep hXvw (fun c hc => ?_) rfl rfl⟩
          have hne : u.symbol d ≠ c := fun heq => hc (heq ▸ hu)
          exact ⟨Table.find?_insert_of_ne _ _ hne, Table.find?_insert_of_ne _ _ hne⟩
  count := fun f _ hf => ⟨fun w hw => hX.gone _ _ hw (hf _),
    fun v w ⟨hvw, hXvw⟩ => (hX.count v w f hf hXvw).imp_right
      fun hX' => ⟨rfl, { hvw with }, hX'⟩⟩
  check := fun phase => by
    refine keeps_of_aside hX (f := id) (r := fun w =>
      if cancellable then (w.thread.token.check phase).mapError .error else .ok ())
      (fun w => ?_) (fun v w h => ⟨?_, h⟩) fun _ => ⟨rfl, rfl, rfl⟩
    · unfold Action.checkCancelled
      split
      · cases w.thread.token.check phase <;> rfl
      · rfl
    · split
      · next hc => rw [h.token (hheeds hc)]
      · rfl
  hooks := fun h hh g phase u x => by
    obtain ⟨r, f, lines, hrun⟩ := hhooks h hh g phase u x
    refine keeps_of_aside hX (r := fun _ => r) hrun (fun v w h => ⟨rfl, ?_⟩)
      fun _ => ⟨rfl, rfl, rfl⟩
    exact { h with
      log := congrArg (· ++ lines) h.log
      token := fun hk => congrArg f (h.token hk)
      first := h.first.trans (.of_eq rfl rfl)
      second := h.second.trans (.of_eq rfl rfl) }

end shares

-- ======================================================= what may be known

section watches

variable {k : Contest} {v w v' w' : World} {id : UnitId} {u : CompilationUnit}
  {n : Nat}

/-- What is said of states beyond reach alone, in worlds where nobody goes
their own way. -/
theorem Watches.of_states {X : World → World → Prop}
    (hX : ∀ {v w v' w' : World}, X v w →
      (∀ c : Symbol, k.beyond c.unit ≠ none →
        v'.states.find? c = v.states.find? c ∧
          w'.states.find? c = w.states.find? c) → X v' w') :
    k.Watches X fun _ => False where
  keep := fun h hstates _ _ => hX h hstates
  count := fun _ _ _ _ h => Or.inr (hX h fun _ _ => ⟨rfl, rfl⟩)
  gone := fun _ _ h _ => h

/-- States beyond reach are states of units there. -/
theorem Named.state_eq (hk : k.Named) {id : UnitId} {u : CompilationUnit}
    (hu : k.beyond id = some u) (hstates : ∀ c : Symbol, k.beyond c.unit ≠ none →
      v'.states.find? c = v.states.find? c) (d : DeclId) :
    v'.state u d = v.state u d := by
  refine state_congr (hstates _ ?_)
  show k.beyond u.id ≠ none
  rw [hk id u hu, hu]
  exact nofun

/-- So the same is read off them. -/
theorem Named.clause_eq (hk : k.Named) {id : UnitId} {u : CompilationUnit}
    (hu : k.beyond id = some u) (hstates : ∀ c : Symbol, k.beyond c.unit ≠ none →
      v'.states.find? c = v.states.find? c) (d : DeclId) :
    v'.clause u d = v.clause u d ∧ v'.own u d = v.own u d := by
  have hstate := hk.state_eq hu hstates d
  rw [clause, clause, slots, slots, own, own, hstate]
  exact ⟨rfl, rfl⟩

/-- That nothing is written there. -/
theorem watches_still (k : Contest) (v₀ w₀ : World) :
    k.Watches (k.Still v₀ w₀) fun _ => False :=
  .of_states fun h hstates c hc =>
    ⟨(hstates c hc).1.trans (h c hc).1, (hstates c hc).2.trans (h c hc).2⟩

/-- That nothing is put off, until something is. -/
theorem watches_deferred (k : Contest) (n : Nat) :
    k.Watches (fun _ w => w.counters.deferred = n)
      fun w => n < w.counters.deferred where
  keep := fun h _ _ hc => hc ▸ h
  count := fun v w f hf h => by
    have hle : n ≤ (f w.counters).deferred := h ▸ hf w.counters
    exact (Nat.lt_or_eq_of_le hle).imp_right Eq.symm
  gone := fun _ _ => Nat.lt_of_lt_of_le

/-- That classes the runs disagree about have been met. -/
theorem Named.watches_met (hk : k.Named) (o : World) :
    k.Watches (k.Met o) fun _ => False where
  keep := fun h hstates hs _ => by
    refine ⟨fun id u d hu hd => ?_, fun c hc =>
      (hstates c hc).2.trans (h.untouched c hc)⟩
    obtain ⟨hv, hvo⟩ := hk.clause_eq hu (fun c hc => (hstates c hc).1) d
    obtain ⟨hw, hwo⟩ := hk.clause_eq hu (fun c hc => (hstates c hc).2) d
    rw [hs, hv, hvo, hw, hwo]
    exact h.met id u d hu hd
  count := fun _ _ _ _ h => Or.inr ⟨h.met, h.untouched⟩
  gone := fun _ _ h _ => h

section still

variable {v₀ w₀ : World}

/-- As long as nothing is written there, clauses are as they were. -/
theorem Still.clause_eq (h : k.Still v₀ w₀ v w) (hk : k.Named)
    (hu : k.beyond id = some u) (d : DeclId) :
    v.clause u d = v₀.clause u d ∧ v.own u d = v₀.own u d ∧
      w.clause u d = w₀.clause u d ∧ w.own u d = w₀.own u d := by
  obtain ⟨hv, hvo⟩ := hk.clause_eq hu (fun c hc => (h c hc).1) d
  obtain ⟨hw, hwo⟩ := hk.clause_eq hu (fun c hc => (h c hc).2) d
  exact ⟨hv, hvo, hw, hwo⟩

/-- So runs that have begun with the same states disagree about nothing. -/
theorem Still.met (h : k.Still v₀ w₀ v w) (hk : k.Named)
    (hsame : v₀.states = w₀.states) : k.Met w₀ v w := by
  refine ⟨fun id u d hu _ => Or.inr ?_, fun c hc => (h c hc).2⟩
  obtain ⟨hv, hvo, hw, hwo⟩ := h.clause_eq hk hu d
  rw [hv, hvo, hw, hwo]
  exact hk.clause_eq hu (fun c _ => by rw [hsame]) d

/-- What the clauses refer to is as it was. -/
theorem Still.level (h : k.Still v₀ w₀ v w) (hk : k.Named)
    (hlevel : k.Level v₀ w₀) : k.Level v w := by
  intro id u d x hu hx
  obtain ⟨hv, -, hw, -⟩ := h.clause_eq hk hu x.id
  rw [hv, hw]
  exact hlevel id u d x hu hx

end still

/-- The hierarchy is the same. -/
theorem committedClasses_eq (h : World.Beside k v w) (hlevel : k.Level v w)
    (s : Symbol) : v.committedClasses s = w.committedClasses s := by
  unfold World.committedClasses
  rw [h.registry]
  cases hs : w.registry.declaration s with
  | error e => rfl
  | ok r =>
      obtain ⟨u, x⟩ := r
      have hu := (Registry.declaration_eq_ok_iff.mp hs).1
      have hid := h.coherent.named _ u hu
      dsimp only
      cases hz : k.beyond u.id with
      | none =>
          rw [World.clause, World.clause, World.slots, World.slots, h.state hz]
      | some z =>
          have hreg : w.Registered u := by
            rw [World.Registered, hid]
            exact hu
          obtain rfl := h.eq_of_beyond hz hreg
          exact hlevel _ _ _ x hz (Registry.declaration_eq_ok_iff.mp hs).2

end watches

-- ========================================================= writing elsewhere

section elsewhere

variable {k : Contest} {X : World → World → Prop} {away : World → Prop}
  {v w : World} {id : UnitId} {u : CompilationUnit} {g : Guard}

/-- What is done under the lock of another unit, or instead of it. -/
def elsewhere (id : UnitId) (u : CompilationUnit) (classes : List Symbol) :
    Action Unit := do
  match ← Action.lockUnitOrdered id with
  | some g => Action.holding g (Action.each (Action.applyTo g u) classes)
  | none => Action.count Counters.countDeferred

/-- Where the lock is blocked, writing is put off. -/
theorem elsewhere_of_blocked (classes : List Symbol)
    (h : w.thread.Blocked (.ofUnit id)) : elsewhere id u classes w =
      (.ok (), { w with counters := w.counters.countDeferred }) := by
  have hlock := lockUnitOrdered_run id w
  rw [h.lockOrdered, (Thread.blocked_of_lockOrdered h.lockOrdered).2] at hlock
  exact bind_run_ok hlock _

/-- Where it is not, results are written under the lock. -/
theorem elsewhere_of_free (classes : List Symbol)
    (h : ¬ w.thread.Blocked (.ofUnit id)) :
    (w.thread.lockOrdered (.ofUnit id)).1 =
        some ⟨.ofUnit id, w.thread.owns (.ofUnit id)⟩ ∧
      elsewhere id u classes w =
        holding ⟨.ofUnit id, w.thread.owns (.ofUnit id)⟩
          (each (applyTo ⟨.ofUnit id, w.thread.owns (.ofUnit id)⟩ u) classes)
          { w with thread := (w.thread.lockOrdered (.ofUnit id)).2 } := by
  have hlock := lockUnitOrdered_run id w
  cases hg : (w.thread.lockOrdered (.ofUnit id)).1 with
  | none => exact absurd (Thread.blocked_of_lockOrdered hg).1 h
  | some g =>
      have heq := Thread.lockOrdered_eq_some hg
      obtain rfl : ⟨.ofUnit id, w.thread.owns (.ofUnit id)⟩ = g := by
        rw [heq, Thread.lock_guard] at hg
        exact Option.some.inj hg
      rw [hg] at hlock
      exact ⟨rfl, bind_run_ok hlock _⟩

/-- Writing back, whatever threads that begins with. -/
theorem keeps_applyTo (hk : k.Named) (hX : k.Watches X away) (hu : k.Common u)
    (s t : Thread) (g : Guard) (classes : List Symbol) :
    Keeps (.contest ⟨s, t, k.beyond, k.heeds⟩ X away) (each (applyTo g u) classes) := by
  have hshares : (SideBySide.contest ⟨s, t, k.beyond, k.heeds⟩ X away).Shares
      (.plain .default) false (Common ⟨s, t, k.beyond, k.heeds⟩) :=
    shares (k := ⟨s, t, k.beyond, k.heeds⟩) hk ⟨hX.keep, hX.count, hX.gone⟩
      (Setup.blind_plain .default) nofun
  exact .each fun c _ => hshares.applyTo hu (fun _ _ h => h.1.session) g c

/-- A run that has gone its own way stays there. -/
theorem gone_elsewhere (hk : k.Named) (hX : k.Watches X away) (hu : k.Common u)
    (classes : List Symbol) (hw : away w) : away (elsewhere id u classes w).2 := by
  have hthread : ∀ (w : World) t, away w → away { w with thread := t } :=
    fun w t hw => hX.gone _ _ hw (Nat.le_refl _)
  by_cases hblocked : w.thread.Blocked (.ofUnit id)
  · rw [elsewhere_of_blocked classes hblocked]
    exact hX.gone _ _ hw (Nat.le_succ _)
  · rw [(elsewhere_of_free classes hblocked).2]
    exact hthread _ _ ((keeps_applyTo hk hX hu k.first k.second _ classes).gone _
      (hthread _ _ hw))

/-- Writing under a lock that both runs can get sets them apart no further. -/
theorem meets_elsewhere (hk : k.Named) (hfreer : k.first.Freer k.second)
    (hX : k.Watches X away) (hu : k.Common u)
    (hid : ¬ k.second.Blocked (.ofUnit id)) (classes : List Symbol)
    (hvw : World.Beside k v w) (hXvw : X v w) :
    away (elsewhere id u classes w).2 ∨ (SideBySide.contest k X away).Meets
      (elsewhere id u classes v) (elsewhere id u classes w) := by
  have hw : ¬ w.thread.Blocked (.ofUnit id) := fun h =>
    hid (hvw.second.blocked_iff.mpr h)
  have hv : ¬ v.thread.Blocked (.ofUnit id) := fun h =>
    hid (hfreer.blocked (hvw.first.blocked_iff.mpr h))
  obtain ⟨hgw, hrunw⟩ := elsewhere_of_free (u := u) classes hw
  obtain ⟨hgv, hrunv⟩ := elsewhere_of_free (u := u) classes hv
  have howns : v.thread.owns (.ofUnit id) = w.thread.owns (.ofUnit id) := by
    rw [Thread.owns, Thread.owns, hvw.first.ours, hvw.second.ours, hfreer.ours]
  rw [howns] at hgv hrunv
  have hstart : World.Beside ⟨(v.thread.lockOrdered (.ofUnit id)).2,
      (w.thread.lockOrdered (.ofUnit id)).2, k.beyond, k.heeds⟩
      { v with thread := (v.thread.lockOrdered (.ofUnit id)).2 }
      { w with thread := (w.thread.lockOrdered (.ofUnit id)).2 } :=
    { hvw with
      token := fun hheeds => by
        rw [Thread.lockOrdered_eq_some hgv, Thread.lockOrdered_eq_some hgw]
        exact ((v.thread.token_lock _).trans (hvw.token hheeds)).trans
          (w.thread.token_lock _).symm
      first := .refl _
      second := .refl _ }
  have hrun := (keeps_applyTo hk hX hu (v.thread.lockOrdered (.ofUnit id)).2
    (w.thread.lockOrdered (.ofUnit id)).2
    ⟨.ofUnit id, w.thread.owns (.ofUnit id)⟩ classes).run _ _
    ⟨hstart, hX.keep hXvw (fun _ _ => ⟨rfl, rfl⟩) rfl rfl⟩
  rw [hrunv, hrunw]
  have hthread : ∀ (w : World) t, away w → away { w with thread := t } :=
    fun w t hw => hX.gone _ _ hw (Nat.le_refl _)
  refine hrun.imp (hthread _ _) fun hm => ?_
  unfold holding
  rcases hv' : each (applyTo ⟨.ofUnit id, w.thread.owns (.ofUnit id)⟩ u) classes
      { v with thread := (v.thread.lockOrdered (.ofUnit id)).2 } with ⟨e | a, v'⟩ <;>
    rcases hw' : each (applyTo ⟨.ofUnit id, w.thread.owns (.ofUnit id)⟩ u) classes
      { w with thread := (w.thread.lockOrdered (.ofUnit id)).2 } with ⟨f | b, w'⟩ <;>
    rw [hv', hw'] at hm
  · exact Or.inl trivial
  · exact trivial
  · exact trivial
  · obtain ⟨rfl, hafter, hX'⟩ := hm
    refine ⟨rfl, { hafter with
      first := hvw.first.trans (.release hgv hafter.first)
      second := hvw.second.trans (.release hgw hafter.second) },
      hX.keep hX' (fun _ _ => ⟨rfl, rfl⟩) rfl rfl⟩

end elsewhere

-- ==================================================== writing beyond reach

section beyond

variable {k : Contest} {o v w : World} {id : UnitId} {u : CompilationUnit}
  {g : Guard}

/-- Classes beyond reach are inside of nothing that a session passes over. -/
def Plain (k : Contest) : Prop :=
  ∀ id u d, k.beyond id = some u → u.isClassLike d = true → ¬ u.Passed d

/-- The first world is written to, at a class that has been met, or at none. -/
theorem Met.alter (h : k.Met o v w) {d : DeclId} {s : DeclState}
    (hmet : u.isClassLike d = true → w.session.hasMet (u.symbol d) = true)
    (hu : k.beyond u.id = some u) (hk : k.Named) :
    k.Met o (v.setState u d s) w := by
  refine ⟨fun id z e hz he => ?_, h.untouched⟩
  by_cases heq : u.symbol d = z.symbol e
  · have hid : u.id = id := (congrArg Symbol.unit heq).trans (hk id z hz)
    obtain rfl : u = z := Option.some.inj (hu.symm.trans (hid ▸ hz))
    obtain rfl : d = e := congrArg Symbol.decl heq
    exact Or.inl (hmet he)
  · rw [World.clause, World.own, World.slots, state_setState_of_ne _ _ heq]
    exact h.met id z e hz he

/-- What the first run writes back there leaves the runs beside each other. -/
theorem applyTo_beyond (hk : k.Named) (hplain : k.Plain)
    (hu : k.beyond u.id = some u) {c : Symbol} (hc : c.unit = u.id) :
    Triple (fun v => World.Beside k v w ∧ k.Met o v w) (applyTo g u c)
      (fun _ v => World.Beside k v w ∧ k.Met o v w) fun _ => True := by
  have hsymbol : u.symbol c.decl = c := by rw [CompilationUnit.symbol, ← hc]
  refine .read_bind fun found => ?_
  cases found with
  | none => exact .pure fun v hv => hv.1
  | some r =>
      -- a class with a result has been met
      refine .read_then fun own => ?_
      split
      · exact .pure fun v hv => hv.1
      have hwrite : ∀ f : DeclState → DeclState,
          (∀ s, (f s).slots.imports = s.slots.imports) →
          Triple (fun v => (World.Beside k v w ∧ k.Met o v w) ∧
              v.session.result? c = some r) (writeState g u c.decl f)
            (fun _ v => (World.Beside k v w ∧ k.Met o v w) ∧
              v.session.result? c = some r) fun _ => True := by
        refine fun f hf => writeState_triple (fun _ _ => trivial) ?_
        rintro v ⟨⟨hv, hm⟩, hr⟩ -
        refine ⟨⟨hv.alter hk hu (hf _), hm.alter (fun _ => ?_) hu hk⟩, hr⟩
        rw [hsymbol, ← hv.session]
        exact Session.hasMet_iff.mpr (Or.inr ⟨r, hr⟩)
      refine .bind (hwrite _ fun s => r.imports_fill) fun _ => ?_
      refine .bind (hwrite _ fun _ => rfl) fun _ => ?_
      refine .read_then fun seed => ?_
      split
      · rw [markMembers_eq]
        refine ((Visits.commit_keeps (P := u.Passed) (I := fun v =>
          World.Beside k v w ∧ k.Met o v w) ?_ ?_).conseq (fun _ hv => hv.1)
            (fun _ _ hv => hv) fun _ _ => trivial)
        · exact fun d hd => CompilationUnit.passed_of_mem
            (hd.resolve_left List.not_mem_nil)
        · rintro v d s ⟨hv, hm⟩ hd - hs
          exact ⟨hv.alter hk hu (congrArg Slots.imports hs), hm.alter
            (fun hclass => absurd hd (hplain _ u d hu hclass)) hu hk⟩
      · exact .pure fun v hv => hv.1

/-- So one run may write there while the other one puts it off. -/
theorem keeps_elsewhere_beyond (hk : k.Fair) (hplain : k.Plain)
    (hu : k.beyond id = some u) {classes : List Symbol}
    (hclasses : ∀ c ∈ classes, c.unit = id) :
    Keeps (.contest k (k.Met o) fun _ => False) (elsewhere id u classes) := by
  obtain rfl := hk.named id u hu
  refine ⟨fun _ => id, ?_⟩
  rintro v w ⟨hvw, hm⟩
  rw [elsewhere_of_blocked classes (hvw.second.blocked_iff.mp (hk.blocked _ u hu))]
  refine Or.inr ?_
  by_cases hv : v.thread.Blocked (.ofUnit u.id)
  · rw [elsewhere_of_blocked classes hv]
    exact ⟨rfl, { hvw with }, hm.met, hm.untouched⟩
  obtain ⟨hg, hrun⟩ := elsewhere_of_free (u := u) classes hv
  have hbody := Triple.each fun c (hc : c ∈ classes) => applyTo_beyond
    (k := ⟨(v.thread.lockOrdered (.ofUnit u.id)).2, k.second, k.beyond, k.heeds⟩)
    (o := o) (w := w)
    (g := ⟨.ofUnit u.id, v.thread.owns (.ofUnit u.id)⟩) hk.named hplain hu
    (hclasses c hc)
  have htoken : (v.thread.lockOrdered (.ofUnit u.id)).2.token = v.thread.token := by
    rw [Thread.lockOrdered_eq_some hg]
    exact v.thread.token_lock _
  rw [hrun]
  unfold holding
  rcases hv' : each (applyTo ⟨.ofUnit u.id, v.thread.owns (.ofUnit u.id)⟩ u) classes
      { v with thread := (v.thread.lockOrdered (.ofUnit u.id)).2 } with ⟨e | a, v'⟩
  · exact trivial
  · obtain ⟨hafter, hm'⟩ := hbody.ok (w := { v with
      thread := (v.thread.lockOrdered (.ofUnit u.id)).2 }) ⟨{ hvw with
        token := fun hheeds => htoken.trans (hvw.token hheeds)
        first := .refl _ }, hm.met, hm.untouched⟩ hv'
    exact ⟨rfl, { hafter with
      first := hvw.first.trans (.release hg hafter.first)
      second := hvw.second }, hm'.met, hm'.untouched⟩

end beyond

-- ============================================================== the session

section session

variable {k : Contest} {o v₀ w₀ : World}

/-- Two runs that have computed clauses since they were in `v₀` and `w₀`: no
state has changed, and no class was forgotten. -/
def computing (k : Contest) (o v₀ w₀ : World) : SideBySide :=
  { SideBySide.contest k (k.Met o) fun _ => False with
    along := fun v w => (World.Beside k v w ∧ k.Met o v w) ∧
      (v.states = v₀.states ∧ w.states = w₀.states ∧
        ∀ c, w₀.session.hasMet c = true → w.session.hasMet c = true) }

/-- What leaves states alone and forgets no class goes on computing. -/
theorem keeps_computing {α : Type} {x : Action α}
    (hx : Keeps (.contest k (k.Met o) fun _ => False) x)
    (hstates : ∀ w, (x w).2.states = w.states)
    (hmet : ∀ w c, w.session.hasMet c = true → (x w).2.session.hasMet c = true) :
    Keeps (computing k o v₀ w₀) x := by
  refine ⟨fun _ => id, ?_⟩
  rintro v w ⟨hvw, hv, hw, hc⟩
  refine (hx.run v w hvw).imp_right fun hm => ?_
  have hv' := (hstates v).trans hv
  have hw' := (hstates w).trans hw
  have hc' := fun c h => hmet w c (hc c h)
  rcases hxv : x v with ⟨e | a, v'⟩ <;> rcases hxw : x w with ⟨f | b, w'⟩ <;>
    rw [hxv, hxw] at hm
  · exact hm
  · exact hm
  · exact hm
  · rw [hxv] at hv'
    rw [hxw] at hw' hc'
    exact ⟨hm.1, hm.2, hv', hw', hc'⟩

/-- Steps that know of no hooks. -/
theorem Named.shares_met (hk : k.Named) (o : World) {cancellable : Bool}
    (hheeds : cancellable = true → k.heeds = true) :
    (SideBySide.contest k (k.Met o) fun _ => False).Shares (.plain .default)
      cancellable k.Common :=
  shares hk (hk.watches_met o) (Setup.blind_plain .default) hheeds

/-- Changing the session, so that no class is forgotten. -/
theorem keeps_updateSession {f : Session → Session}
    (hf : ∀ s c, Session.hasMet s c = true → (f s).hasMet c = true) :
    Keeps (.contest k (k.Met o) fun _ => False) (updateSession f) :=
  .update (fun _ => id) fun _ _ h =>
    ⟨{ h.1 with session := congrArg f h.1.session }, fun id u d hu hd =>
      (h.2.met id u d hu hd).imp_left (hf _ _), h.2.untouched⟩

/-- While clauses are computed, the runs disagree about no class that was not
met before. -/
theorem Named.computes (hk : k.Named) (h₀ : k.Met o v₀ w₀) :
    (computing k o v₀ w₀).Computes fun c => w₀.session.hasMet c = true where
  registry := fun v w h => h.1.1.registry
  classifier := fun key => keeps_computing
    ((hk.shares_met o (nofun : false = true → _)).classifier key) (fun _ => rfl)
    fun _ _ h => h
  stop := fun _ _ _ => trivial
  named := fun v w id u h hu => h.1.1.coherent.named id u hu
  session := fun v w h => h.1.1.session
  met := fun v w c h hc => h.2.2.2 c hc
  update := fun f hf => keeps_computing (keeps_updateSession hf) (fun _ => rfl)
    fun w c hc => hf w.session c hc
  imports := by
    rintro v w u ⟨⟨h, -⟩, -⟩ ⟨v', w', ⟨⟨h', -⟩, -⟩, hu⟩
    cases hz : k.beyond u.id with
    | none => rw [World.slots, World.slots, h.state hz]
    | some z =>
        obtain rfl := h'.eq_of_beyond hz hu
        exact h.imports _ _ hz
  clause := by
    rintro v w u d ⟨⟨h, -⟩, hv, hw, -⟩ ⟨v', w', ⟨⟨h', -⟩, -⟩, hu⟩ hd hnew
    cases hz : k.beyond u.id with
    | none =>
        have hstate := h.state hz d
        rw [World.clause, World.clause, World.slots, World.slots, World.own,
          World.own, hstate]
        exact ⟨rfl, rfl⟩
    | some z =>
        obtain rfl := h'.eq_of_beyond hz hu
        have hstill : k.Still v₀ w₀ v w := fun _ _ => by rw [hv, hw]; exact ⟨rfl, rfl⟩
        obtain ⟨hv, hvo, hw, hwo⟩ := hstill.clause_eq hk hz d
        rw [hv, hvo, hw, hwo]
        exact (h₀.met _ _ d hz hd).resolve_left hnew
  round := keeps_computing ((hk.shares_met o (nofun : false = true → _)).count _
    (fun _ => rfl) fun _ => Nat.le_refl _) (fun _ => rfl) fun _ _ h => h

/-- What goes on computing from wherever it begins keeps the runs beside each
other. -/
theorem keeps_of_computing {α : Type} {x : Action α}
    (hx : ∀ v₀ w₀, World.Beside k v₀ w₀ → k.Met o v₀ w₀ →
      Keeps (computing k o v₀ w₀) x) : Keeps (.contest k (k.Met o) fun _ => False) x := by
  refine ⟨fun _ => id, fun v w ⟨hvw, hm⟩ => ?_⟩
  refine ((hx v w hvw hm).run v w ⟨⟨hvw, hm⟩, rfl, rfl, fun _ => id⟩).imp_right
    fun hm => ?_
  rcases hv : x v with ⟨e | a, v'⟩ <;> rcases hw : x w with ⟨f | b, w'⟩ <;>
    rw [hv, hw] at hm
  · exact hm
  · exact hm
  · exact hm
  · exact ⟨hm.1, hm.2.1⟩

/-- Changing results forgets no class. -/
theorem hasMet_modifyEach (f : Symbol → Computed → Computed) (l : List Symbol)
    {s : Session} {c : Symbol} (hc : s.hasMet c = true) :
    (Session.modifyEach f l s).hasMet c = true := by
  induction l generalizing s with
  | nil => exact hc
  | cons b rest ih =>
      refine ih ?_
      unfold Session.modify
      split
      · exact Session.hasMet_finish b _ hc
      · exact hc

/-- A session whose results are put off computes and writes what it would
otherwise, where both runs can get at. -/
theorem Fair.keeps_resolveSupertypes (hk : k.Fair) (hplain : k.Plain)
    {c : Context} (hc : k.Common c.unit)
    (hheeds : c.cancellable = true → k.heeds = true) (seeds : List Symbol) :
    Keeps (.contest k (k.Met o) fun _ => False) (resolveSupertypes c seeds) := by
  have hshares := hk.named.shares_met o hheeds
  have hcheck : ∀ v₀ w₀, Keeps (computing k o v₀ w₀)
      (checkCancelled c.cancellable .supertypes) := fun v₀ w₀ => by
    have hworld : ∀ w, (checkCancelled c.cancellable .supertypes w).2 = w :=
      fun w => Triple.world (I := (· = w)) (.checkCancelled fun _ h => h) rfl
    exact keeps_computing (hshares.check .supertypes)
      (fun w => by rw [hworld]) fun w b hb => by rwa [hworld]
  refine .bind (keeps_updateSession fun _ _ h => h) fun _ => ?_
  refine .bind (.read fun v w h => by rw [h.1.registry]) fun bound => ?_
  refine .bind (keeps_of_computing fun v₀ w₀ _ h₀ =>
    (hk.named.computes h₀).computeRounds _ (hcheck v₀ w₀) bound seeds) fun _ => ?_
  refine .bind (keeps_updateSession fun s b hb =>
    Session.breakCyclesBy_keeps (P := fun t => t.hasMet b = true)
      (fun f l _ => hasMet_modifyEach f l) hb Graph.components) fun _ => ?_
  refine .bind (.read fun v w h => by rw [h.1.session]) fun pending => .each fun id _ => ?_
  refine .bind ?_ fun _ => keeps_updateSession fun _ _ => hasMet_modifyEach _ _
  unfold applyUnit
  split
  · exact .each fun b _ => hshares.applyTo hc (fun _ _ h => h.1.session) _ b
  · refine .bind_answer (T := fun found => ∀ u, found = some u → u.id = id ∧
      ∀ z, k.beyond id = some z → z = u) (keeps_of_computing fun v₀ w₀ _ h₀ =>
        (hk.named.computes h₀).sessionUnit? id) ?_ fun found => ?_
    · rintro v w found w' ⟨h, -⟩ hrun u rfl
      have hu := SideBySide.Computes.unit?_of_sessionUnit? hrun
      exact ⟨h.coherent.named id u hu, fun z hz =>
        Option.some.inj ((h.there id z hz).symm.trans hu)⟩
    · cases found with
      | none => exact .pure
      | some u =>
          refine ⟨fun _ => False.elim, fun v w ⟨hu, h⟩ => ?_⟩
          obtain ⟨rfl, hbeyond⟩ := hu u rfl
          have hkeeps : Keeps (.contest k (k.Met o) fun _ => False)
              (elsewhere u.id u (pending.filter fun c => c.unit == u.id)) := by
            cases hz : k.beyond u.id with
            | none =>
                exact ⟨fun _ => id, fun v w h => meets_elsewhere hk.named hk.freer
                  (hk.named.watches_met o) hz (fun hb => hk.known _ hb hz) _ h.1 h.2⟩
            | some z =>
                obtain rfl := hbeyond z hz
                exact keeps_elsewhere_beyond hk hplain hz fun b hb =>
                  eq_of_beq (List.mem_filter.mp hb).2
          exact (hkeeps.given _).run v w ⟨hu, h⟩

end session

end Contest

end StagedResolve
