/-
Worlds: what every step of a request leaves as it was.

# Coherent worlds

A world is coherent if its registry is, if nothing is known about units
that do not exist yet, and if no marker is below where it started
(`World.Coherent`). All of this is about the units that are registered;
states of units that were replaced stay in the table and nobody reads
them.

# Steps

Most of what a request does is harmless to most conditions on worlds: it
looks names up, counts, takes locks, keeps a session, calls hooks, and
raises markers as far as the supertype phase. A condition that survives
all of these is `Steady`; a request can break it only where markers rise
further, which is where a walk is committed and where a file is done.
Hooks are foreign code. What is asked of them is in `Hook.Quiet`: they
may write to the slots of the declaration at hand, to the log and to the
token, and they may fail, but they leave the markers and the hierarchy
alone.

# What lasts

Some facts no step of a request can undo: that a unit is registered, that
a marker has reached a phase, that a symbol was given out
(`World.Lasting`). An action that keeps a condition together with
whatever lasts, and establishes something about its answer, advances it
(`Action.Advances`); so what one step establishes is there for the next.
-/
import StagedResolve.Proofs.Capacities
import StagedResolve.Proofs.Phases
import StagedResolve.Proofs.PhaseWork

namespace StagedResolve

namespace World

-- ======================================================== registered units

/-- The unit is the one that is registered under its id. -/
def Registered (w : World) (u : CompilationUnit) : Prop :=
  w.registry.unit? u.id = some u

/-- A registered unit is known by its id. -/
theorem Registered.eq {w : World} {u v : CompilationUnit}
    (hu : w.Registered u) (hv : w.Registered v) (h : u.id = v.id) : u = v := by
  rw [Registered, h] at hu
  exact Option.some.inj (hu.symm.trans hv)

/-- The world in which a declaration of a registered unit has another
state, at a declaration of a registered unit. -/
theorem state_setState {w : World} {u v : CompilationUnit} {d e : DeclId}
    {s : DeclState} (hu : w.Registered u) (hv : w.Registered v) :
    (w.setState u d s).state v e =
      if u = v ∧ d = e then s else w.state v e := by
  split
  · next h =>
    obtain ⟨rfl, rfl⟩ := h
    exact state_setState_self w u d s
  · next h =>
    refine state_setState_of_ne w s fun heq => h ?_
    have hid : u.id = v.id := congrArg Symbol.unit heq
    exact ⟨hu.eq hv hid, congrArg Symbol.decl heq⟩

-- =========================================================== what hooks do

/-- Nothing has changed but slots that the hierarchy is not read from,
the log, and what the thread shares with others about its token. -/
structure Touches (v w : World) : Prop where
  registry : w.registry = v.registry
  session : w.session = v.session
  counters : w.counters = v.counters
  mutexes : w.thread.mutexes = v.thread.mutexes
  held : w.thread.held = v.thread.held
  own : ∀ u d, v.Registered u → w.own u d = v.own u d
  below : ∀ u d, v.Registered u → w.below u d = v.below u d
  slots : ∀ u d, v.Registered u → (v.slots u d).SameClause (w.slots u d)
  others : ∀ s, v.registry.unit? s.unit = none →
    w.states.find? s = v.states.find? s

end World

/-- A hook that leaves the markers and the hierarchy alone. -/
def Hook.Quiet (h : Hook) : Prop :=
  ∀ (g : Guard) (p : Phase) (u : CompilationUnit) (x : Declaration)
    (w : World), w.Registered u → u.decl? x.id = some x →
    w.Touches (h g p u x w).2

/-- All hooks of a resolver are quiet. -/
def Setup.Quiet (setup : Setup) : Prop := ∀ h ∈ setup.hooks, h.Quiet

/-- Units and states are as they were, and so are the session, the counters
and the locks. -/
theorem World.Touches.of_eq {v w : World} (hr : w.registry = v.registry)
    (hs : w.states = v.states) (hsession : w.session = v.session)
    (hc : w.counters = v.counters) (hm : w.thread.mutexes = v.thread.mutexes)
    (hh : w.thread.held = v.thread.held) : v.Touches w := by
  have hstate : ∀ u d, w.state u d = v.state u d := fun u d => by
    rw [state, state, hs]
  refine ⟨hr, hsession, hc, hm, hh, fun u d _ => ?_, fun u d _ => ?_,
    fun u d _ => ?_, fun s _ => by rw [hs]⟩
  · exact congrArg DeclState.own (hstate u d)
  · exact congrArg DeclState.below (hstate u d)
  · have hslots : w.slots u d = v.slots u d :=
      congrArg DeclState.slots (hstate u d)
    rw [hslots]
    exact ⟨rfl, rfl, rfl⟩

namespace Hook

/-- Writing to the log is quiet. -/
theorem quiet_recorder : recorder.Quiet := fun _ _ _ _ _ _ _ =>
  .of_eq rfl rfl rfl rfl rfl rfl

/-- Cancelling the token is quiet. -/
theorem quiet_canceller : canceller.Quiet := fun _ _ _ _ _ _ _ =>
  .of_eq rfl rfl rfl rfl rfl rfl

/-- Failing is quiet. -/
theorem quiet_failing : failing.Quiet := fun _ _ _ _ _ _ _ =>
  .of_eq rfl rfl rfl rfl rfl rfl

/-- Leaving a note on the declaration is quiet. -/
theorem quiet_annotator : annotator.Quiet := by
  intro g p u x w hu hx
  have hsame : w.Touches w := .of_eq rfl rfl rfl rfl rfl rfl
  unfold annotator Action.writeSlots Action.writeState
  split
  · exact hsame
  · split
    · exact hsame
    · obtain ⟨ds, hds⟩ := (w.slots u x.id).addDiagnostic_eq
        ⟨p, .unresolved "note" (.point 1 1)⟩
      refine ⟨rfl, rfl, rfl, rfl, rfl, fun v e hv => ?_, fun v e hv => ?_,
        fun v e hv => ?_, fun s hs => ?_⟩
      · rw [World.own, World.own, World.state_setState hu hv]
        split
        · next h =>
          obtain ⟨rfl, rfl⟩ := h
          rfl
        · rfl
      · rw [World.below, World.below, World.state_setState hu hv]
        split
        · next h =>
          obtain ⟨rfl, rfl⟩ := h
          rfl
        · rfl
      · rw [World.slots, World.slots, World.state_setState hu hv]
        split
        · next h =>
          obtain ⟨rfl, rfl⟩ := h
          show (w.slots u x.id).SameClause ((w.slots u x.id).addDiagnostic _)
          rw [hds]
          exact ⟨rfl, rfl, rfl⟩
        · exact ⟨rfl, rfl, rfl⟩
      · refine Table.find?_insert_of_ne _ _ fun heq => ?_
        have hunit : u.id = s.unit := congrArg Symbol.unit heq
        rw [World.Registered, hunit, hs] at hu
        cases hu

/-- A quiet hook is quiet where it is active. -/
theorem Quiet.only {h : Hook} (hh : h.Quiet) (phase : Option Phase)
    (name : Option String) : (only phase name h).Quiet := by
  intro g p u x w hu hx
  unfold Hook.only
  split
  · exact hh g p u x w hu hx
  · exact .of_eq rfl rfl rfl rfl rfl rfl

end Hook

namespace World

-- ============================================================= coherence

/-- What every reachable world is like. -/
structure Coherent (w : World) : Prop where
  registry : w.registry.Coherent
  fresh : ∀ s, w.registry.nextUnit ≤ s.unit.index → w.states.find? s = none
  startOwn : ∀ u d x, w.Registered u → u.decl? d = some x →
    x.startPhase ≤ w.own u d
  startBelow : ∀ u d x, w.Registered u → u.decl? d = some x →
    x.startPhase ≤ w.below u d

/-- A registered unit of a coherent world is a tree. -/
theorem Coherent.wellFormed {w : World} {u : CompilationUnit}
    (hw : w.Coherent) (hu : w.Registered u) : u.WellFormed :=
  hw.registry.wellFormed u.id u hu

/-- A unit that is found is registered. -/
theorem Coherent.registered {w : World} {u : CompilationUnit} {id : UnitId}
    (hw : w.Coherent) (hu : w.registry.unit? id = some u) :
    w.Registered u ∧ u.id = id := by
  have hid := hw.registry.named id u hu
  exact ⟨by rw [Registered, hid]; exact hu, hid⟩

/-- Markers of one that is not eligible have reached the end. -/
theorem Coherent.bodies_le {w : World} {u : CompilationUnit} {d : DeclId}
    {x : Declaration} (hw : w.Coherent) (hu : w.Registered u)
    (hx : u.decl? d = some x) (hd : u.isEligible d = false) :
    .bodies ≤ w.own u d ∧ .bodies ≤ w.below u d := by
  have hstart : x.startPhase = .bodies := by
    rw [CompilationUnit.isEligible, hx] at hd
    rw [Declaration.startPhase, if_neg]
    exact fun h => Bool.noConfusion (hd.symm.trans h)
  have hown := hw.startOwn u d x hu hx
  have hbelow := hw.startBelow u d x hu hx
  rw [hstart] at hown hbelow
  exact ⟨hown, hbelow⟩

-- =============================================================== progress

/-- The registry has grown, markers have risen, and what was put off was
counted. -/
structure Later (v w : World) : Prop where
  registry : v.registry.Grows w.registry
  own : ∀ u d, v.Registered u → v.own u d ≤ w.own u d
  below : ∀ u d, v.Registered u → v.below u d ≤ w.below u d
  deferred : v.counters.deferred ≤ w.counters.deferred

/-- Nothing happens if nothing happens. -/
theorem Later.refl (w : World) : w.Later w :=
  ⟨.refl _, fun _ _ _ => Phase.le_refl _, fun _ _ _ => Phase.le_refl _,
    Nat.le_refl _⟩

/-- A unit stays registered. -/
theorem Later.registered {v w : World} {u : CompilationUnit}
    (h : v.Later w) (hu : v.Registered u) : w.Registered u :=
  h.registry.kept u.id u hu

/-- One change after another. -/
theorem Later.trans {u v w : World} (h : u.Later v) (h' : v.Later w) :
    u.Later w :=
  ⟨h.registry.trans h'.registry,
    fun c d hc => Phase.le_trans (h.own c d hc)
      (h'.own c d (h.registered hc)),
    fun c d hc => Phase.le_trans (h.below c d hc)
      (h'.below c d (h.registered hc)),
    Nat.le_trans h.deferred h'.deferred⟩

/-- A later world whose index is in no better order, and in which no more is
left to a search. -/
structure Onward (v w : World) : Prop extends Later v w where
  upright : w.registry.Upright → v.registry.Upright
  drains : v.registry.Drains w.registry

/-- Nothing happens if nothing happens. -/
theorem Onward.refl (w : World) : w.Onward w := ⟨.refl w, id, .refl _⟩

/-- One change after another. -/
theorem Onward.trans {u v w : World} (h : u.Onward v) (h' : v.Onward w) :
    u.Onward w :=
  ⟨h.toLater.trans h'.toLater, fun hw => h.upright (h'.upright hw),
    h.drains.trans h'.drains⟩

end World

-- ======================================================= rising by writing

/-- Both markers have risen as far as a goal at most, whatever became of
the slots. -/
structure DeclState.Raised (goal : Phase) (s t : DeclState) : Prop where
  own : ∃ q, q ≤ goal ∧ t.own = s.own.raise q
  below : ∃ q, q ≤ goal ∧ t.below = s.below.raise q

/-- Raising a marker to the start of the sequence leaves it. -/
theorem Phase.raise_raw (p : Phase) : p.raise .raw = p := by
  cases p <;> rfl

namespace DeclState.Raised

variable {goal : Phase} {s t : DeclState}

/-- Writing to the slots raises nothing. -/
theorem of_slots (goal : Phase) (s : DeclState) (slots : Slots) :
    s.Raised goal { s with slots := slots } :=
  ⟨⟨.raw, Phase.raw_le _, (Phase.raise_raw _).symm⟩,
    ⟨.raw, Phase.raw_le _, (Phase.raise_raw _).symm⟩⟩

/-- Raising the own marker. -/
theorem of_own (s : DeclState) {p : Phase} (hp : p ≤ goal) :
    s.Raised goal { s with own := s.own.raise p } :=
  ⟨⟨p, hp, rfl⟩, ⟨.raw, Phase.raw_le _, (Phase.raise_raw _).symm⟩⟩

/-- Raising the marker of the whole. -/
theorem of_below (s : DeclState) {p : Phase} (hp : p ≤ goal) :
    s.Raised goal { s with below := s.below.raise p } :=
  ⟨⟨.raw, Phase.raw_le _, (Phase.raise_raw _).symm⟩, ⟨p, hp, rfl⟩⟩

/-- The goal may be higher. -/
theorem mono {goal' : Phase} (h : s.Raised goal t) (hle : goal ≤ goal') :
    s.Raised goal' t := by
  obtain ⟨⟨p, hp, hown⟩, ⟨q, hq, hbelow⟩⟩ := h
  exact ⟨⟨p, Phase.le_trans hp hle, hown⟩, ⟨q, Phase.le_trans hq hle, hbelow⟩⟩

/-- One rise after another. -/
theorem trans {r : DeclState} (h : r.Raised goal s) (h' : s.Raised goal t) :
    r.Raised goal t := by
  have hraise : ∀ a b c : Phase, (a.raise b).raise c = a.raise (max b c) :=
    fun a b c => Phase.eq_of_le_iff fun p => by
      simp only [Phase.le_raise_iff, Phase.le_max_iff, or_assoc]
  have hmax : ∀ {a b : Phase}, a ≤ goal → b ≤ goal → max a b ≤ goal := by
    intro a b ha hb
    rcases Phase.le_max_iff.mp (Phase.le_refl (max a b)) with h | h
    · exact Phase.le_trans h ha
    · exact Phase.le_trans h hb
  obtain ⟨⟨p, hp, hown⟩, ⟨q, hq, hbelow⟩⟩ := h
  obtain ⟨⟨p', hp', hown'⟩, ⟨q', hq', hbelow'⟩⟩ := h'
  exact ⟨⟨max p p', hmax hp hp', by rw [hown', hown, hraise]⟩,
    ⟨max q q', hmax hq hq', by rw [hbelow', hbelow, hraise]⟩⟩

/-- Where nothing can rise, nothing has. -/
theorem markers_eq_of_raw (h : s.Raised .raw t) :
    t.own = s.own ∧ t.below = s.below := by
  have hraw : ∀ {a q : Phase}, q ≤ .raw → a.raise q = a := by
    intro a q hq
    obtain rfl : q = .raw := by
      revert hq
      cases q <;> decide
    exact a.raise_raw
  obtain ⟨⟨p, hp, hown⟩, ⟨q, hq, hbelow⟩⟩ := h
  exact ⟨hown.trans (hraw hp), hbelow.trans (hraw hq)⟩

/-- Markers have not risen past what they were and the goal. -/
theorem le_max (h : s.Raised goal t) :
    t.own ≤ max s.own goal ∧ t.below ≤ max s.below goal := by
  have hmax : ∀ {a q : Phase}, q ≤ goal → a.raise q ≤ max a goal :=
    fun hq => Phase.le_max_iff.mpr ((Phase.le_raise_iff.mp
      (Phase.le_refl _)).imp_right fun h => Phase.le_trans h hq)
  obtain ⟨⟨p, hp, hown⟩, ⟨q, hq, hbelow⟩⟩ := h
  exact ⟨hown ▸ hmax hp, hbelow ▸ hmax hq⟩

/-- The own marker has not sunk. -/
theorem le_own (h : s.Raised goal t) : s.own ≤ t.own := by
  obtain ⟨q, -, hq⟩ := h.own
  rw [hq]
  exact Phase.le_raise _ _

/-- The marker of the whole has not sunk. -/
theorem le_below (h : s.Raised goal t) : s.below ≤ t.below := by
  obtain ⟨q, -, hq⟩ := h.below
  rw [hq]
  exact Phase.le_raise _ _

/-- Above the goal the own marker is where it was. -/
theorem own_iff (h : s.Raised goal t) {p : Phase} (hp : goal < p) :
    p ≤ t.own ↔ p ≤ s.own := by
  obtain ⟨q, hle, hq⟩ := h.own
  rw [hq, Phase.le_raise_iff]
  refine or_iff_left fun hpq => ?_
  exact Phase.not_le_of_lt hp (Phase.le_trans hpq hle)

/-- Above the goal the marker of the whole is where it was. -/
theorem below_iff (h : s.Raised goal t) {p : Phase} (hp : goal < p) :
    p ≤ t.below ↔ p ≤ s.below := by
  obtain ⟨q, hle, hq⟩ := h.below
  rw [hq, Phase.le_raise_iff]
  refine or_iff_left fun hpq => ?_
  exact Phase.not_le_of_lt hp (Phase.le_trans hpq hle)

end DeclState.Raised

-- ================================================== steady conditions

/-- A way for worlds to go on, along which time passes. Whatever leaves the
slots of declarations alone goes that way. -/
class World.Course (S : World → World → Prop) : Prop where
  later : ∀ v w, S v w → v.Onward w
  of_slots : ∀ v w, v.Onward w →
    (∀ u d, v.Registered u → w.slots u d = v.slots u d) → S v w

/-- A condition that is kept on such a way. -/
def World.KeptBy (S : World → World → Prop) (Q : World → Prop) : Prop :=
  ∀ v w, S v w → Q v → Q w

/-- A condition that every later world keeps. -/
abbrev World.Lasting (Q : World → Prop) : Prop := World.KeptBy World.Onward Q

namespace World

variable {S : World → World → Prop}

instance : Course Onward := ⟨fun _ _ h => h, fun _ _ h _ => h⟩

/-- What lasts is kept on every way. -/
theorem Lasting.keptBy [Course S] {Q : World → Prop} (h : Lasting Q) :
    KeptBy S Q :=
  fun v w hvw => h v w (Course.later v w hvw)

/-- Being registered lasts. -/
theorem lasting_registered (u : CompilationUnit) :
    Lasting fun w => w.Registered u :=
  fun _ _ h hu => h.registered hu

/-- What the own marker of a declaration has reached lasts. -/
theorem lasting_own (u : CompilationUnit) (d : DeclId) (p : Phase) :
    Lasting fun w => w.Registered u ∧ p ≤ w.own u d :=
  fun _ _ h hw => ⟨h.registered hw.1, Phase.le_trans hw.2 (h.own u d hw.1)⟩

/-- Two conditions are kept together. -/
theorem KeptBy.and {Q R : World → Prop} (hQ : KeptBy S Q) (hR : KeptBy S R) :
    KeptBy S fun w => Q w ∧ R w :=
  fun v w h hw => ⟨hQ v w h hw.1, hR v w h hw.2⟩

/-- What does not depend on the world lasts. -/
theorem lasting_const (P : Prop) : KeptBy S fun _ => P := fun _ _ _ h => h

/-- Conditions are kept together, however many. -/
theorem KeptBy.all {α : Sort _} {Q : α → World → Prop}
    (h : ∀ a, KeptBy S (Q a)) : KeptBy S fun w => ∀ a, Q a w :=
  fun v w hvw hv a => h a v w hvw (hv a)

end World

/-- A condition that looking names up and counting do not break. -/
structure Static (I : World → Prop) : Prop where
  coherent : ∀ w, I w → w.Coherent
  classifier : ∀ w k, I w → I (Action.classifier k w).2
  counters : ∀ w c, w.counters.deferred ≤ c.deferred → I w →
    I { w with counters := c }

/-- A condition that no step of a request breaks that moves no marker and
leaves the hierarchy, the session and the locks alone. -/
structure Calm (I : World → Prop) : Prop extends Static I where
  touches : ∀ v w, I v → v.Touches w → I w
  slots : ∀ w u d s, I w → w.Registered u → (u.decl? d).isSome →
    (w.slots u d).SameClause s →
    I (w.setState u d { w.state u d with slots := s })

/-- A static condition that does not depend on the session. -/
structure Unaware (I : World → Prop) : Prop extends Static I where
  session : ∀ w s, I w → I { w with session := s }

/-- A static condition that depends neither on the session nor on locks. -/
structure Detached (I : World → Prop) : Prop extends Unaware I where
  thread : ∀ w t, I w → I { w with thread := t }

/-- A calm condition that depends neither on the session nor on locks, as
one does that holds between requests. -/
structure Idle (I : World → Prop) : Prop extends Detached I, Calm I

/-- A condition that no step of a request breaks that raises markers to
a goal at most. -/
structure Steady (goal : Phase) (I : World → Prop) : Prop where
  coherent : ∀ w, I w → w.Coherent
  classifier : ∀ w k, I w → I (Action.classifier k w).2
  counters : ∀ w c, w.counters.deferred ≤ c.deferred → I w →
    I { w with counters := c }
  touches : ∀ v w, I v → v.Touches w → I w
  session : ∀ w s, I w → I { w with session := s }
  thread : ∀ w t, I w → I { w with thread := t }
  write : ∀ w u d s, I w → w.Registered u → (u.decl? d).isSome →
    (w.state u d).Raised goal s → I (w.setState u d s)

/-- What survives all writing survives writing to slots. -/
theorem Steady.idle {goal : Phase} {I : World → Prop} (hI : Steady goal I) :
    Idle I :=
  { hI with slots := fun w u d s hw hu hd _ =>
      hI.write w u d _ hw hu hd (.of_slots goal _ s) }

namespace World

-- =========================================== what each step does to markers

/-- Looking a classifier up leaves everything but the registry and the
log. -/
theorem later_classifier {w : World} (hw : w.Coherent) (k : NameKey) :
    w.Onward (Action.classifier k w).2 :=
  ⟨⟨(hw.registry.classifier k).2.1, fun _ _ _ => Phase.le_refl _,
    fun _ _ _ => Phase.le_refl _, Nat.le_refl _⟩,
    hw.registry.upright_of_classifier k, Registry.drains_classifier hw.registry k⟩

/-- What hooks do lowers no marker. -/
theorem Touches.later {v w : World} (h : v.Touches w) : v.Onward w := by
  refine ⟨⟨?_, fun u d hu => ?_, fun u d hu => ?_, ?_⟩,
    fun hw => h.registry ▸ hw, h.registry ▸ .refl _⟩
  · rw [h.registry]
    exact .refl _
  · rw [h.own u d hu]
    exact Phase.le_refl _
  · rw [h.below u d hu]
    exact Phase.le_refl _
  · exact Nat.le_of_eq (congrArg _ h.counters.symm)

/-- Writing raises markers. -/
theorem later_setState {goal : Phase} {w : World} {u : CompilationUnit}
    {d : DeclId} {s : DeclState} (hu : w.Registered u)
    (hs : (w.state u d).Raised goal s) : w.Onward (w.setState u d s) := by
  refine ⟨⟨.refl _, fun v e hv => ?_, fun v e hv => ?_, Nat.le_refl _⟩, id,
    .refl _⟩
  · rw [own, own, state_setState hu hv]
    split
    · next h =>
      obtain ⟨rfl, rfl⟩ := h
      exact hs.le_own
    · exact Phase.le_refl _
  · rw [below, below, state_setState hu hv]
    split
    · next h =>
      obtain ⟨rfl, rfl⟩ := h
      exact hs.le_below
    · exact Phase.le_refl _

-- ============================================= what steps leave coherent

/-- Looking a classifier up keeps a world coherent. -/
theorem Coherent.classifier {w : World} (hw : w.Coherent) (k : NameKey) :
    (Action.classifier k w).2.Coherent := by
  obtain ⟨hr, hgrows, -⟩ := hw.registry.classifier k
  -- a unit that is new has states of its own only if its id is an old one
  have hstart : ∀ u d x, (Action.classifier k w).2.Registered u →
      u.decl? d = some x → x.startPhase ≤ w.own u d ∧
        x.startPhase ≤ w.below u d := by
    intro u d x hu hx
    rcases hgrows.known u.id u hu with hu | hid
    · exact ⟨hw.startOwn u d x hu hx, hw.startBelow u d x hu hx⟩
    · have hnone := hw.fresh (u.symbol d) hid
      have hstate : w.state u d = x.initialState := by
        rw [state, hnone]
        simp only [hx]
      rw [own, below, hstate]
      exact ⟨Phase.le_refl _, Phase.le_refl _⟩
  refine ⟨hr, fun s hs => ?_, fun u d x hu hx => ?_, fun u d x hu hx => ?_⟩
  · exact hw.fresh s (Nat.le_trans hgrows.next hs)
  · exact (hstart u d x hu hx).1
  · exact (hstart u d x hu hx).2

/-- Hooks keep a world coherent. -/
theorem Coherent.touches {v w : World} (hv : v.Coherent) (h : v.Touches w) :
    w.Coherent := by
  have hreg : ∀ u, w.Registered u → v.Registered u := by
    intro u hu
    rwa [Registered, h.registry] at hu
  refine ⟨by rw [h.registry]; exact hv.registry, fun s hs => ?_,
    fun u d x hu hx => ?_, fun u d x hu hx => ?_⟩
  · rw [h.registry] at hs
    have hnone : v.registry.unit? s.unit = none := by
      cases hu : v.registry.unit? s.unit with
      | none => rfl
      | some u =>
          have := hv.registry.issued s.unit u hu
          omega
    rw [h.others s hnone]
    exact hv.fresh s hs
  · rw [h.own u d (hreg u hu)]
    exact hv.startOwn u d x (hreg u hu) hx
  · rw [h.below u d (hreg u hu)]
    exact hv.startBelow u d x (hreg u hu) hx

/-- Raising markers keeps a world coherent. -/
theorem Coherent.setState {goal : Phase} {w : World} {u : CompilationUnit}
    {d : DeclId} {s : DeclState} (hw : w.Coherent) (hu : w.Registered u)
    (hs : (w.state u d).Raised goal s) : (w.setState u d s).Coherent := by
  have hlater := later_setState hu hs
  refine ⟨hw.registry, fun c hc => ?_, fun v e x hv hx => ?_,
    fun v e x hv hx => ?_⟩
  · have hne : u.symbol d ≠ c := by
      rintro rfl
      have := hw.registry.issued u.id u hu
      simp only [World.setState, CompilationUnit.symbol] at hc
      omega
    rw [World.setState, Table.find?_insert_of_ne _ _ hne]
    exact hw.fresh c hc
  · exact Phase.le_trans (hw.startOwn v e x hv hx) (hlater.own v e hv)
  · exact Phase.le_trans (hw.startBelow v e x hv hx) (hlater.below v e hv)

end World

/-- Markers and units are as they were. -/
theorem World.Onward.of_eq {v w : World} (hr : w.registry = v.registry)
    (hs : w.states = v.states)
    (hd : v.counters.deferred ≤ w.counters.deferred) : v.Onward w := by
  refine ⟨⟨?_, fun u d _ => ?_, fun u d _ => ?_, hd⟩, fun hw => hr ▸ hw,
    hr ▸ .refl _⟩
  · rw [hr]
    exact .refl _
  · simp only [World.own, World.state, hs]
    exact Phase.le_refl _
  · simp only [World.below, World.state, hs]
    exact Phase.le_refl _

section courses

variable {S : World → World → Prop} [World.Course S]

/-- A change to the world that is none to its declarations. -/
theorem World.KeptBy.of_eq {Q : World → Prop} (hQ : World.KeptBy S Q)
    (v w : World) (hr : w.registry = v.registry) (hs : w.states = v.states)
    (hd : v.counters.deferred ≤ w.counters.deferred) (hv : Q v) : Q w :=
  hQ v w (World.Course.of_slots v w (.of_eq hr hs hd) fun u d _ => by
    rw [World.slots, World.slots, World.state, World.state, hs]) hv

/-- What is kept may be added to a static condition. -/
theorem Static.and_lasting {I Q : World → Prop} (hI : Static I)
    (hQ : World.KeptBy S Q) : Static fun w => I w ∧ Q w where
  coherent := fun w hw => hI.coherent w hw.1
  classifier := fun w k hw => ⟨hI.classifier w k hw.1,
    hQ _ _ (World.Course.of_slots _ _
      (World.later_classifier (hI.coherent w hw.1) k) fun _ _ _ => rfl) hw.2⟩
  counters := fun w c hc hw => ⟨hI.counters w c hc hw.1,
    hQ.of_eq w _ rfl rfl hc hw.2⟩

/-- What is kept may be added to a condition that does not depend on the
session. -/
theorem Unaware.and_lasting {I Q : World → Prop} (hI : Unaware I)
    (hQ : World.KeptBy S Q) : Unaware fun w => I w ∧ Q w :=
  { hI.toStatic.and_lasting hQ with
    session := fun w s hw => ⟨hI.session w s hw.1,
      hQ.of_eq w _ rfl rfl (Nat.le_refl _) hw.2⟩ }

/-- What is kept may be added to a condition that depends neither on the
session nor on locks. -/
theorem Detached.and_lasting {I Q : World → Prop} (hI : Detached I)
    (hQ : World.KeptBy S Q) : Detached fun w => I w ∧ Q w :=
  { hI.toUnaware.and_lasting hQ with
    thread := fun w t hw => ⟨hI.thread w t hw.1,
      hQ.of_eq w _ rfl rfl (Nat.le_refl _) hw.2⟩ }

end courses

/-- What lasts may be added to a calm condition. -/
theorem Calm.and_lasting {I Q : World → Prop} (hI : Calm I)
    (hQ : World.Lasting Q) : Calm fun w => I w ∧ Q w :=
  { hI.toStatic.and_lasting hQ with
    touches := fun v w hv h => ⟨hI.touches v w hv.1 h, hQ _ _ h.later hv.2⟩
    slots := fun w u d s hw hu hd hs => ⟨hI.slots w u d s hw.1 hu hd hs,
      hQ _ _ (World.later_setState hu (.of_slots .raw _ s)) hw.2⟩ }

/-- What lasts may be added to an idle condition. -/
theorem Idle.and_lasting {I Q : World → Prop} (hI : Idle I)
    (hQ : World.Lasting Q) : Idle fun w => I w ∧ Q w :=
  { hI.toDetached.and_lasting hQ, hI.toCalm.and_lasting hQ with }

namespace Steady

open StagedResolve.Action World

variable {goal : Phase} {I : World → Prop}

/-- What lasts may be added to a steady condition. -/
theorem and_lasting (hI : Steady goal I) {Q : World → Prop}
    (hQ : Lasting Q) : Steady goal fun w => I w ∧ Q w :=
  { hI.idle.and_lasting hQ with
    write := fun w u d s hw hu hd hs => ⟨hI.write w u d s hw.1 hu hd hs,
      hQ _ _ (later_setState hu hs) hw.2⟩ }

/-- Coherence is steady, whatever the goal. -/
theorem coherent_self (goal : Phase) : Steady goal World.Coherent where
  coherent := fun _ hw => hw
  classifier := fun _ k hw => hw.classifier k
  counters := fun _ _ _ hw => ⟨hw.registry, hw.fresh, hw.startOwn,
    hw.startBelow⟩
  touches := fun _ _ hv h => hv.touches h
  session := fun _ _ hw => ⟨hw.registry, hw.fresh, hw.startOwn, hw.startBelow⟩
  thread := fun _ _ hw => ⟨hw.registry, hw.fresh, hw.startOwn, hw.startBelow⟩
  write := fun _ _ _ _ hw hu _ hs => hw.setState hu hs

end Steady

-- ================================================ what actions establish

namespace Action

open World

variable {α β : Type} {S : World → World → Prop} {I E : World → Prop}

/-- The action keeps a condition, whatever is kept on the way, and
establishes something about its answer. -/
def AdvancesBy (S : World → World → Prop) (I : World → Prop) (x : Action α)
    (Q : α → World → Prop) (E : World → Prop) : Prop :=
  ∀ R, KeptBy S R →
    Triple (fun w => I w ∧ R w) x (fun a w => (I w ∧ R w) ∧ Q a w) E

/-- The action keeps a condition, whatever lasts, and establishes
something about its answer. -/
abbrev Advances (I : World → Prop) (x : Action α) (Q : α → World → Prop)
    (E : World → Prop) : Prop :=
  AdvancesBy Onward I x Q E

namespace AdvancesBy

variable {x : Action α} {Q Q' : α → World → Prop} {T : β → World → Prop}

/-- What lasts may be assumed. -/
theorem and_lasting (h : AdvancesBy S I x Q E) {T : World → Prop}
    (hT : KeptBy S T) : AdvancesBy S (fun w => I w ∧ T w) x Q E :=
  fun _ hR => (h _ (hT.and hR)).conseq
    (fun _ hw => ⟨hw.1.1, hw.1.2, hw.2⟩)
    (fun _ _ hw => ⟨⟨⟨hw.1.1, hw.1.2.1⟩, hw.1.2.2⟩, hw.2⟩) fun _ hw => hw

/-- What is established may be weakened. -/
theorem post (h : AdvancesBy S I x Q E) (hQ : ∀ a w, I w → Q a w → Q' a w) :
    AdvancesBy S I x Q' E :=
  fun R hR => (h R hR).post fun a w hw => ⟨hw.1, hQ a w hw.1.1 hw.2⟩

/-- The condition may be put in other words. -/
theorem congr {J : World → Prop} (h : AdvancesBy S I x Q E)
    (hIJ : ∀ w, I w ↔ J w) : AdvancesBy S J x Q E := by
  have hIJ : I = J := funext fun w => propext (hIJ w)
  exact hIJ ▸ h

/-- A plain triple. -/
theorem triple (h : AdvancesBy S I x Q E) :
    Triple I x (fun a w => I w ∧ Q a w) E :=
  (h _ (lasting_const True)).conseq (fun _ hw => ⟨hw, trivial⟩)
    (fun _ _ hw => ⟨hw.1.1, hw.2⟩) fun _ hw => hw

/-- The condition alone. -/
theorem keeps (h : AdvancesBy S I x Q E) : Triple I x (fun _ => I) E :=
  h.triple.post fun _ _ hw => hw.1

/-- Answering establishes what holds of the answer. -/
theorem pure {a : α} (h : ∀ w, I w → Q a w) : AdvancesBy S I (Pure.pure a) Q E :=
  fun _ _ => .pure fun w hw => ⟨hw, h w hw.1⟩

/-- One action after another. -/
theorem bind {f : α → Action β} (hx : AdvancesBy S I x Q E)
    (hf : ∀ a, AdvancesBy S (fun w => I w ∧ Q a w) (f a) T E) :
    AdvancesBy S I (x >>= f) T E := by
  intro R hR
  refine .bind (hx R hR) fun a => ?_
  exact (hf a R hR).conseq (fun _ hw => ⟨⟨hw.1.1, hw.2⟩, hw.1.2⟩)
    (fun _ _ hw => ⟨⟨hw.1.1.1, hw.1.2⟩, hw.2⟩) fun _ hw => hw

/-- One action after another, where what the first one establishes does
not matter. -/
theorem andThen {f : α → Action β} (hx : AdvancesBy S I x Q E)
    (hf : ∀ a, AdvancesBy S I (f a) T E) : AdvancesBy S I (x >>= f) T E :=
  have hx' : AdvancesBy S I x (fun _ _ => True) E :=
    hx.post fun _ _ _ _ => trivial
  bind hx' fun a => (hf a).and_lasting (lasting_const True)

/-- Reading answers with what is there. -/
theorem read {f : World → α} (h : ∀ w, I w → Q (f w) w) :
    AdvancesBy S I (Action.read f) Q E :=
  fun _ _ => .read fun w hw => ⟨hw, h w hw.1⟩

/-- Stopping. -/
theorem stop {f : Failure} (h : ∀ w, I w → E w) :
    AdvancesBy S I (Action.stop (α := α) f) Q E :=
  fun _ _ => .stop fun w hw => h w hw.1

/-- A loop establishes for each member what its body does. -/
theorem each {f : α → Action Unit} {as : List α} {T : α → World → Prop}
    (hT : ∀ a, KeptBy S (T a))
    (h : ∀ a ∈ as, AdvancesBy S I (f a) (fun _ => T a) E) :
    AdvancesBy S I (Action.each f as) (fun _ w => ∀ a ∈ as, T a w) E := by
  induction as generalizing I with
  | nil => exact pure fun w _ a ha => by cases ha
  | cons a rest ih =>
      refine bind (h a (List.mem_cons_self ..)) fun _ => ?_
      refine (ih fun b hb => ?_).post fun _ w hw hrest b hb => ?_
      · exact (h b (List.mem_cons_of_mem _ hb)).and_lasting (hT a)
      · rcases List.mem_cons.mp hb with rfl | hb
        · exact hw.2
        · exact hrest b hb

/-- A loop that collects answers establishes for each member and its
answer what its body does. -/
theorem collect {f : α → Action β} {as : List α} {T : α → β → World → Prop}
    (hT : ∀ a b, KeptBy S (T a b))
    (h : ∀ a ∈ as, AdvancesBy S I (f a) (T a) E) :
    AdvancesBy S I (Action.collect f as) (fun bs w =>
      (∀ a ∈ as, ∃ b ∈ bs, T a b w) ∧ ∀ b ∈ bs, ∃ a ∈ as, T a b w) E := by
  induction as generalizing I with
  | nil =>
      exact pure fun w _ =>
        ⟨fun a ha => (List.not_mem_nil ha).elim,
          fun b hb => (List.not_mem_nil hb).elim⟩
  | cons a rest ih =>
      refine bind (h a (List.mem_cons_self ..)) fun b => ?_
      have hrest := ih (I := fun w => I w ∧ T a b w) fun c hc =>
        (h c (List.mem_cons_of_mem _ hc)).and_lasting (hT a b)
      refine bind hrest fun bs => ?_
      refine pure fun w hw => ⟨fun c hc => ?_, fun b' hb' => ?_⟩
      · rcases List.mem_cons.mp hc with rfl | hc
        · exact ⟨b, List.mem_cons_self .., hw.1.2⟩
        · obtain ⟨b', hb', h'⟩ := hw.2.1 c hc
          exact ⟨b', List.mem_cons_of_mem _ hb', h'⟩
      · rcases List.mem_cons.mp hb' with rfl | hb'
        · exact ⟨a, List.mem_cons_self .., hw.1.2⟩
        · obtain ⟨c, hc, h'⟩ := hw.2.2 b' hb'
          exact ⟨c, List.mem_cons_of_mem _ hc, h'⟩

end AdvancesBy

end Action

end StagedResolve
