/-
Readings: what written types come to, part by part.

# Names first

A look-up in a settled registry, with committed supertypes, always
answers and leaves everything as it was (`World.lookup_answers`). So a
world fixes what each name means at each position of a place, and what a
written type resolves to can be told without running anything: every part
is read by the meaning of its name (`WrittenType.reading`), and the parts
are looked up arguments first, so what cannot be found is reported in
that order (`WrittenType.failures`). Only the outermost name stands at
the position that was asked for; all others stand inside.

# Places for errors

A part whose name means nothing becomes an error type, and its arguments
go with it. So the type and the report agree on whether anything is wrong,
with one exception: the type of a type parameter has no arguments, and
what is wrong in arguments that were written all the same is reported and
kept nowhere. `WrittenType.kept` lists the parts that are not among them,
and these are the ones that show (`WrittenType.containsError_reading`).
-/
import StagedResolve.Proofs.Inheritance
import StagedResolve.Proofs.Meanings

namespace StagedResolve

open StagedResolve.Action World

-- ======================================================== parts of a type

/-- What names mean at a place, at either position. -/
abbrev Meanings : Type := Position → String → Option Meaning

namespace WrittenType

mutual

/-- The parts of a type in the order in which they are looked up, each with
the position that it stands at: arguments, from left to right, before the
type that they are arguments of. -/
def parts (position : Position) : WrittenType → List (Position × WrittenType)
  | ⟨name, args, nullable, span⟩ =>
    partsOfAll args ++ [(position, ⟨name, args, nullable, span⟩)]

/-- The parts of a list of arguments. -/
def partsOfAll : List WrittenType → List (Position × WrittenType)
  | [] => []
  | t :: rest => parts .body t ++ partsOfAll rest

end

mutual

/-- The parts that are not among the arguments of a type parameter. -/
def kept (means : Meanings) (position : Position) :
    WrittenType → List (Position × WrittenType)
  | ⟨name, args, nullable, span⟩ =>
    (match means position name with
      | some (.parameter _) => []
      | _ => keptOfAll means args) ++
      [(position, ⟨name, args, nullable, span⟩)]

/-- Such parts of a list of arguments. -/
def keptOfAll (means : Meanings) :
    List WrittenType → List (Position × WrittenType)
  | [] => []
  | t :: rest => kept means .body t ++ keptOfAll means rest

end

mutual

/-- What a type comes to when each name in it is taken for what it means. -/
def reading (means : Meanings) (position : Position) :
    WrittenType → ResolvedType
  | ⟨name, args, nullable, _⟩ =>
    match means position name with
    | some (.classLike s) => .classType s (readingOfAll means args) nullable
    | some (.parameter s) => .parameter s nullable
    | none => .error name

/-- What a list of arguments comes to, in order. -/
def readingOfAll (means : Meanings) : List WrittenType → List ResolvedType
  | [] => []
  | t :: rest => reading means .body t :: readingOfAll means rest

end

/-- The name of a part means nothing. -/
def Fails (means : Meanings) (part : Position × WrittenType) : Prop :=
  means part.1 part.2.name = none

instance (means : Meanings) : DecidablePred (Fails means) :=
  fun part => inferInstanceAs (Decidable (means part.1 part.2.name = none))

/-- What is reported of some parts: the names that mean nothing, and where
they stand. -/
def report (means : Meanings) (parts : List (Position × WrittenType)) :
    List ResolveError :=
  (parts.filter fun part => decide (Fails means part)).map
    fun part => .unresolved part.2.name part.2.span

/-- What is reported of a type. -/
def failures (means : Meanings) (position : Position) (t : WrittenType) :
    List ResolveError :=
  report means (t.parts position)

variable {means : Meanings}

/-- Parts are reported one after the other. -/
theorem report_append (before after : List (Position × WrittenType)) :
    report means (before ++ after) =
      report means before ++ report means after := by
  simp only [report, List.filter_append, List.map_append]

-- ==================================================== what a type shows

mutual

/-- The reading of a type has an error in it exactly if one of its parts
fails that is not among the arguments of a type parameter. -/
theorem containsError_reading (position : Position) : ∀ t : WrittenType,
    (t.reading means position).containsError = true ↔
      ∃ part ∈ t.kept means position, Fails means part
  | ⟨name, args, nullable, span⟩ => by
      rw [reading, kept]
      cases hm : means position name with
      | none =>
          refine iff_of_true rfl ⟨_, List.mem_append_right _
            (List.mem_singleton_self _), hm⟩
      | some m =>
          have hself : ¬ Fails means
              (position, ⟨name, args, nullable, span⟩) := by
            intro h
            cases h.symm.trans hm
          cases m with
          | parameter s =>
              refine iff_of_false Bool.false_ne_true ?_
              rintro ⟨part, hpart, h⟩
              rw [List.nil_append, List.mem_singleton] at hpart
              exact hself (hpart ▸ h)
          | classLike s =>
              refine (someContainsError_readingOfAll args).trans ?_
              constructor
              · rintro ⟨part, hpart, h⟩
                exact ⟨part, List.mem_append_left _ hpart, h⟩
              · rintro ⟨part, hpart, h⟩
                rcases List.mem_append.mp hpart with hpart | hpart
                · exact ⟨part, hpart, h⟩
                · rw [List.mem_singleton] at hpart
                  exact absurd (hpart ▸ h) hself

/-- So has that of a list of arguments. -/
theorem someContainsError_readingOfAll : ∀ ts : List WrittenType,
    ResolvedType.someContainsError (readingOfAll means ts) = true ↔
      ∃ part ∈ keptOfAll means ts, Fails means part
  | [] => iff_of_false Bool.false_ne_true fun ⟨_, h, _⟩ => nomatch h
  | t :: rest => by
      rw [readingOfAll, ResolvedType.someContainsError, Bool.or_eq_true,
        containsError_reading .body t, someContainsError_readingOfAll rest,
        keptOfAll]
      simp only [List.mem_append, or_and_right, exists_or]

end

end WrittenType

-- ============================================================ look-ups

namespace Registry

/-- Without a source there is nothing left to be built. -/
theorem Indexed.settled {r : Registry} (hr : r.Indexed)
    (h : r.pending = .empty) : r.Settled := by
  have hnone : ∀ e, e ∉ r.pendingIndex.entries := by
    intro e he
    have hsource := hr.promised e he
    rw [h, Table.find?_empty] at hsource
    cases hsource
  have hentries := List.eq_nil_iff_forall_not_mem.mpr hnone
  cases hindex : r.pendingIndex with
  | mk entries =>
      rw [hindex] at hentries
      exact hindex.trans (congrArg Table.mk hentries)

end Registry

section readings

variable {w : World} {sc : Scope} {place : DeclId}

/-- In a settled registry a look-up with committed supertypes answers, and
leaves everything as it was. -/
theorem World.lookup_answers (hw : w.Roomy) (hsettled : w.registry.Settled)
    (hu : w.Registered sc.unit) (place : DeclId) (position : Position)
    (name : String) :
    ∃ m, sc.lookup committedSource place name position w = (.ok m, w) := by
  have hsource : ∀ c, Keeps (.still w w) (committedSource c) := fun c =>
    .read fun v v' h => by rw [h.1, h.2]
  have hstill := ((SideBySide.still_lookups rfl hsettled).lookup
    (fun _ _ h => h) hsource sc place name position).run_still
  have hfinds := (affordable_committedSource.and_lasting
    (lasting_registered sc.unit)).yields
  have hends := ((hfinds.lookup (fun _ h => h.2) (fun _ _ _ => trivial) place
    name position).triple) w ⟨hw, hu⟩
  rcases hrun : sc.lookup committedSource place name position w with
    ⟨e | m, v⟩
  · rw [hrun] at hends
    exact hends.elim
  · rw [hrun] at hstill
    exact ⟨m, hstill⟩

mutual

/-- Where look-ups only answer, a type is read by what they answer. -/
theorem Scope.resolve_eq_reading {source : SupertypeSource} {means : Meanings}
    (h : ∀ position name,
      sc.lookup source place name position w = (.ok (means position name), w))
    (position : Position) : ∀ t : WrittenType,
      sc.resolve source place position t w =
        (.ok (t.reading means position, t.failures means position), w)
  | ⟨name, args, nullable, span⟩ => by
      rw [Scope.resolve, bind_run_ok (resolveArgs_eq_reading h args)]
      dsimp only
      rw [bind_run_ok (h position name), WrittenType.reading,
        WrittenType.failures, WrittenType.parts, WrittenType.report_append]
      cases hm : means position name with
      | none =>
          have hself : WrittenType.report means
              [(position, ⟨name, args, nullable, span⟩)] =
                [.unresolved name span] := by
            simp [WrittenType.report, WrittenType.Fails, hm]
          rw [hself]
          rfl
      | some m =>
          have hself : WrittenType.report means
              [(position, ⟨name, args, nullable, span⟩)] = [] := by
            simp [WrittenType.report, WrittenType.Fails, hm]
          rw [hself, List.append_nil]
          cases m <;> rfl

/-- So is a list of arguments. -/
theorem Scope.resolveArgs_eq_reading {source : SupertypeSource}
    {means : Meanings}
    (h : ∀ position name,
      sc.lookup source place name position w = (.ok (means position name), w)) :
    ∀ ts : List WrittenType, sc.resolveArgs source place ts w =
      (.ok (WrittenType.readingOfAll means ts,
        WrittenType.report means (WrittenType.partsOfAll ts)), w)
  | [] => rfl
  | t :: rest => by
      rw [Scope.resolveArgs, bind_run_ok (resolve_eq_reading h .body t)]
      dsimp only
      rw [bind_run_ok (resolveArgs_eq_reading h rest),
        WrittenType.readingOfAll, WrittenType.partsOfAll,
        WrittenType.report_append]
      rfl

end

end readings

-- ============================================================ reachable worlds

/-- In any world that is reached, if no source is waiting to be built, every
name means something or nothing at each position of a place, and resolving a
type with committed supertypes changes nothing and comes to its reading: a
part that means a class becomes that class, as nullable as it was written and
applied to the readings of its arguments. The errors are those parts, in the
order of the look-ups, whose names mean nothing. The type has an error in it
exactly if one of them is not among the arguments of a type parameter. -/
theorem resolve_exact {setup : Setup} (hquiet : setup.Quiet) {w : World}
    (hw : Reaches setup anyCall w) (hnone : w.registry.pending = .empty)
    {sc : Scope} (hu : w.Registered sc.unit) (place : DeclId) :
    ∃ means : Meanings,
      (∀ position name, sc.lookup committedSource place name position w =
        (.ok (means position name), w)) ∧
      ∀ position t, ∃ type errors,
        sc.resolve committedSource place position t w =
          (.ok (type, errors), w) ∧
        type = t.reading means position ∧
        errors = ((t.parts position).filter fun part =>
          decide (means part.1 part.2.name = none)).map
            (fun part => .unresolved part.2.name part.2.span) ∧
        (type.containsError = true ↔ ∃ part ∈ t.kept means position,
          means part.1 part.2.name = none) := by
  have hsettled := (hw.indexed hquiet).settled hnone
  choose means hmeans using lookup_answers (hw.roomy hquiet) hsettled hu place
  exact ⟨means, hmeans, fun position t => ⟨_, _,
    Scope.resolve_eq_reading hmeans position t, rfl, rfl,
    WrittenType.containsError_reading position t⟩⟩

/-- A generic class with a class inside. -/
def UnitSpec.genericPair : UnitSpec :=
  .ofEntries "a.kt" [.member 0 (.classNamed "C" []),
    .member 1 (.ofForm .typeParameter "T"), .member 1 (.classNamed "D" [])]

/-- A nullable type with two names in it that mean nothing, one of them an
argument of the other, beside a type parameter that was given an argument. -/
theorem resolve_exact_genericPair :
    let w := World.after (.plain .default) [.addUnit .genericPair]
    let sc : Scope := ⟨(w.registry.unit? ⟨0⟩).getD default, .empty, []⟩
    let wrong : WrittenType :=
      ⟨"Gone", [⟨"Lost", [], false, .point 1 2⟩], false, .point 1 1⟩
    let param : WrittenType :=
      ⟨"T", [⟨"Bare", [], false, .point 1 4⟩], false, .point 1 3⟩
    let t : WrittenType := ⟨"D", [wrong, param], true, .nowhere⟩
    let errors : List ResolveError := [.unresolved "Lost" (.point 1 2),
      .unresolved "Gone" (.point 1 1), .unresolved "Bare" (.point 1 4)]
    w.registry.pending = .empty ∧ w.Registered sc.unit ∧
      ∃ means : Meanings, means .body "Lost" = none ∧
        (.body, wrong) ∈ t.kept means .body ∧
        sc.resolve committedSource ⟨1⟩ .body t w =
          (.ok (t.reading means .body, errors), w) ∧
        t.reading means .body = .classType ⟨⟨0⟩, ⟨3⟩⟩
          [.error "Gone", .parameter ⟨⟨0⟩, ⟨2⟩⟩ false] true ∧
        (t.reading means .body).containsError = true := by
  intro w sc wrong param t errors
  have hnone : w.registry.pending = .empty := by decide +kernel
  have hu : w.Registered sc.unit := by
    rw [World.Registered]
    decide +kernel
  obtain ⟨means, hmeans, hall⟩ := resolve_exact (Setup.quiet_plain .default)
    (Reaches.after _ [.addUnit .genericPair]) hnone hu ⟨1⟩
  obtain ⟨type, reported, hrun, rfl, -, hshows⟩ := hall .body t
  have hmeaning : ∀ name m,
      (sc.lookup committedSource ⟨1⟩ name .body w).1 = .ok m →
        means .body name = m := fun name m h => by
    rw [hmeans .body name] at h
    exact Except.ok.inj h
  have hlost := hmeaning "Lost" none (by decide +kernel)
  have hgone := hmeaning "Gone" none (by decide +kernel)
  have hd := hmeaning "D" (some (.classLike ⟨⟨0⟩, ⟨3⟩⟩)) (by decide +kernel)
  have hkept : (.body, wrong) ∈ t.kept means .body := by
    simp [t, wrong, WrittenType.kept, WrittenType.keptOfAll, hd]
  have hanswer : (sc.resolve committedSource ⟨1⟩ .body t w).1 =
      .ok (.classType ⟨⟨0⟩, ⟨3⟩⟩
        [.error "Gone", .parameter ⟨⟨0⟩, ⟨2⟩⟩ false] true, errors) := by
    decide +kernel
  rw [hrun] at hanswer
  obtain ⟨htype, rfl⟩ := Prod.mk.inj (Except.ok.inj hanswer)
  exact ⟨hnone, hu, means, hlost, hkept, hrun, htype,
    hshows.mpr ⟨_, hkept, hgone⟩⟩

/-- What is wrong with the argument of a type parameter is reported, and the
type that is answered with has no error in it. -/
theorem not_resolve_exact :
    let w := World.after (.plain .default) [.addUnit .genericPair]
    let sc : Scope := ⟨(w.registry.unit? ⟨0⟩).getD default, .empty, []⟩
    let t : WrittenType := ⟨"T", [.named "Missing"], false, .nowhere⟩
    w.registry.pending = .empty ∧ w.Registered sc.unit ∧
      (sc.resolve committedSource ⟨1⟩ .body t w).1 =
        .ok (.parameter ⟨⟨0⟩, ⟨2⟩⟩ false, [.unresolved "Missing" .nowhere]) ∧
      (ResolvedType.parameter ⟨⟨0⟩, ⟨2⟩⟩ false).containsError = false := by
  intro w sc t
  refine ⟨by decide +kernel, ?_, by decide +kernel, rfl⟩
  rw [World.Registered]
  decide +kernel

end StagedResolve
