import Planning.Proofs.Phase.Boundary
import Planning.Proofs.Solver.Best

/-!
# What a run that fails gives

A run that fails gives its best solution, or its working solution if it has none yet. That is the working solution of
the last boundary of a step, unless the scores of moves are checked and one of them is found wrong: then the run gives
the working solution with the move that was tried.
-/

namespace Planning

open Checked RunState Running

variable {S F : Type} {k : ScoreKind} [PlanningSolution S k]
variable {B L : Type} {V : B → Type} {W : L → Type} [DecidableEq B] [DecidableEq L]
variable [∀ b, PlanningValue (V b)] [∀ b, DecidableEq (V b)] [∀ l, PlanningValue (W l)] [∀ l, DecidableEq (W l)]
variable {g : Genuine S V W} {facts : S → F} {shadows : ShadowCascade S} {r₀ r : RunState S k} {p : Phase S k}
variable {phases : List (Phase S k)} {place : Nat}

/-- The boundaries of steps in the course of a phase. A local search, which has a best solution throughout, is left
out. -/
inductive Genuine.Pauses (g : Genuine S V W) (r₀ : RunState S k) : Phase S k → RunState S k → Prop where
  /-- A construction stands at a boundary. -/
  | construction {b : B} {x : Construction S (V b) k} {entities r}
      (hentities : x.planned.unassignedSorted x.kind.sortsEntities r₀.director.solution = .ok entities)
      (h : x.pace.Boundary entities r₀ r) : Pauses g r₀ x.phase r
  /-- An insertion stands at a boundary. -/
  | insertion {l : L} {x : Insertion S (W l) k} {elements r}
      (helements : x.planned.unassigned r₀.director.solution = .ok elements)
      (h : x.pace.Boundary elements r₀ r) : Pauses g r₀ x.phase r
  /-- An exhaustive search stands at a boundary. -/
  | exhaustive {b : B} {x : ExhaustiveSearch S (V b) k} {score r₁ r} (hscore : calculate r₀ = .ok score r₁)
      (h : x.Boundary (x.planned.unassigned r₀.director.solution) { frontier := [⟨[], score, 0⟩] } r₁ r) :
      Pauses g r₀ x.phase r

/-- A phase that fails has a best solution, or fails at a boundary of its steps. -/
theorem Running.ends_phase_boundary (hreg : g.Regular facts shadows) (hp : g.Phases p)
    (h : r.Abides (Director.Heeds shadows)) :
    Ends p.run r (fun _ r' => r'.Abides (Director.Heeds shadows) ∧ r.Keeps r') fun e r' => r.Keeps r' ∧
      ∀ err, e = .failed err → r'.best.isSome = true ∨ ∃ r₁, g.Pauses r p r₁ ∧ r₁.Fails g facts err r' := by
  have hP := preserves_heeds (k := k) g shadows
  cases hp with
  | construction x hx =>
    refine ((Construction.keeps_run hP hx r h).and (Construction.ends_run_boundary hx hreg h)).mono
      (fun _ _ => And.left) fun e r' he => ⟨he.1, fun err herr => .inr ?_⟩
    obtain ⟨entities, hentities, r₁, hboundary, hfails⟩ := he.2 err herr
    exact ⟨r₁, .construction hentities hboundary, hfails⟩
  | insertion x hx =>
    refine ((Insertion.keeps_run hP hx r h).and (Insertion.ends_run_boundary hx hreg h)).mono
      (fun _ _ => And.left) fun e r' he => ⟨he.1, fun err herr => .inr ?_⟩
    obtain ⟨elements, helements, r₁, hboundary, hfails⟩ := he.2 err herr
    exact ⟨r₁, .insertion helements hboundary, hfails⟩
  | localSearch x hx =>
    refine ((LocalSearch.keeps_run hP hx r h).and (LocalSearch.ends_run_some hP hx h)).mono
      (fun _ _ => And.left) fun e r' he => ⟨he.1, fun err herr => .inl ?_⟩
    rcases he.2 with ⟨f, rfl⟩ | hbest
    · cases herr
    · exact hbest
  | exhaustive x hx =>
    refine ((ExhaustiveSearch.keeps_run hP hx r h).and (ExhaustiveSearch.ends_run_boundary hreg hx h)).mono
      (fun _ _ => And.left) fun e r' he => ⟨he.1, fun err herr => .inr ?_⟩
    obtain ⟨score, r₂, hscore, r₁, hboundary, hfails⟩ := he.2 err herr
    exact ⟨r₁, .exhaustive hscore hboundary, hfails⟩

namespace Running

/-- A phase of a run begins its course. -/
inductive Comes : Nat → List (Phase S k) → RunState S k → Phase S k → RunState S k → Prop where
  /-- The first phase begins. -/
  | here {place p rest r n r₁ r₂} (htake : takeChanges r = .ok n r₁) (hgo : r₁.isTerminated = false)
      (henter : enterPhase place p r₁ = .ok () r₂) : Comes place (p :: rest) r p r₂
  /-- The first phase is over, and a later one begins. -/
  | later {place p rest r n r₁ r₂ q r₃} (htake : takeChanges r = .ok n r₁) (hgo : r₁.isTerminated = false)
      (hpass : runPhase place p r₁ = .ok none r₂) (h : Comes (place + 1) rest r₂ q r₃) : Comes place (p :: rest) r q r₃

/-- A run fails with a best solution, or at a boundary of the steps of one of its phases. -/
def Stopped (g : Genuine S V W) (facts : S → F) (place : Nat) (phases : List (Phase S k)) (r₀ : RunState S k)
    (err : SolverError) (r : RunState S k) : Prop :=
  r.best.isSome = true ∨ ∃ p r₁ r₂, Comes place phases r₀ p r₁ ∧ g.Pauses r₁ p r₂ ∧ r₂.Fails g facts err r

omit [DecidableEq B] [DecidableEq L] in
/-- What is told after a run has failed leaves it as it is. -/
theorem Stopped.noted {err : SolverError} {r' : RunState S k} (h : Stopped g facts place phases r₀ err r)
    (hrests : r.Rests RunEvent.endsStep r') (hs : r'.director.solution = r.director.solution) :
    Stopped g facts place phases r₀ err r' := by
  rcases h with hbest | ⟨p, r₁, r₂, hcomes, hpauses, hfails⟩
  · exact .inl (by rwa [hrests.best])
  · exact .inr ⟨p, r₁, r₂, hcomes, hpauses, hfails.noted hrests hs⟩

/-- A phase is over: nothing is told of steps, and the working solution is the same. -/
theorem ends_leavePhase_same : Ends (leavePhase place p) r
    (fun _ r' => r.Rests RunEvent.endsStep r' ∧ r'.director.solution = r.director.solution)
    fun e _ => ∃ f, e = .faulted f := by
  have hsame : Ends (leavePhase place p) r (fun _ r' => r'.director.solution = r.director.solution)
      fun e _ => ∃ f, e = .faulted f := by
    simp only [leavePhase, endPhase, ends_bind, ends_modify, ends_get]
    exact .report fun r₁ hr₁ => .tell fun r₂ hr₂ => hr₂.solution.trans hr₁.solution
  exact ((rests_leavePhase RunEvent.inSteps_endsStep place p r trivial).and hsame).mono
    (fun _ _ hr' => ⟨hr'.1.2, hr'.2⟩) fun _ _ => And.right

/-- A run is over: nothing is told of steps, and the working solution is the same. -/
theorem ends_leave_same {failure : Option SolverError} : Ends (Solver.leave failure) r
    (fun _ r' => r.Rests RunEvent.endsStep r' ∧ r'.director.solution = r.director.solution)
    fun e _ => ∃ f, e = .faulted f := by
  have hsame : Ends (Solver.leave failure) r (fun _ r' => r'.director.solution = r.director.solution)
      fun e _ => ∃ f, e = .faulted f := by
    simp only [Solver.leave, ends_bind, ends_get]
    exact .report fun r₁ hr₁ => .tell fun r₂ hr₂ => hr₂.solution.trans hr₁.solution
  exact ((Solver.rests_leave RunEvent.inSteps_endsStep failure r trivial).and hsame).mono
    (fun _ _ hr' => ⟨hr'.1.2, hr'.2⟩) fun _ _ => And.right

/-- A phase of a run that fails has a best solution, or fails at a boundary of its steps. -/
theorem ends_runPhase_boundary (hreg : g.Regular facts shadows) (hp : g.Phases p)
    (h : r.Abides (Director.Heeds shadows)) :
    Ends (runPhase place p) r
      (fun failure r' => (failure = none → r'.Abides (Director.Heeds shadows)) ∧ ∀ err, failure = some err →
        r'.best.isSome = true ∨ ∃ r₁ r₂, enterPhase place p r = .ok () r₁ ∧ g.Pauses r₁ p r₂ ∧
          r₂.Fails g facts err r')
      fun e _ => ∃ f, e = .faulted f := by
  have hP := preserves_heeds (k := k) g shadows
  have henter : Steady (Director.Heeds shadows) RunEvent.endsStep (enterPhase place p : Running S k Unit) :=
    steady_enterPhase RunEvent.inSteps_endsStep (fun _ h => h) place p
  have hleave : Steady (Director.Heeds shadows) RunEvent.endsStep (leavePhase place p : Running S k Unit) :=
    steady_leavePhase RunEvent.inSteps_endsStep (fun _ h => h) place p
  have hunfailing : Unfailing (enterPhase place p : Running S k Unit) :=
    .bind (.modify _) fun _ => .bind (.tell _) fun _ => .logAt _ _
  rw [runPhase_eq]
  simp only [ends_bind, ends_pure]
  refine ((henter r h).and (hunfailing r)).eq.mono (fun _ r₁ hr₁ => ?_) fun _ _ => And.right
  obtain ⟨⟨⟨habides₁, -⟩, -⟩, hentered⟩ := hr₁
  refine .failureOf ((ends_phase_boundary hreg hp habides₁).mono (fun _ r₂ hr₂ => ?_) fun e r₂ he =>
    ⟨fun err herr => ?_, fun f hf => ⟨f, rfl⟩⟩)
  · refine ((hleave r₂ hr₂.1).and (ends_leavePhase_same)).mono (fun _ r₃ hr₃ => ⟨fun _ => hr₃.1.1, ?_⟩)
      fun _ _ => And.right
    intro err hnone
    cases hnone
  · refine ends_leavePhase_same.mono (fun _ r₃ hr₃ => ⟨fun hnone => ?_, fun err' herr' => ?_⟩) fun _ _ => id
    · cases hnone
    · cases herr'
      rcases he.2 err herr with hbest | ⟨r₄, hpauses, hfails⟩
      · exact .inl (by rwa [hr₃.1.best])
      · exact .inr ⟨r₁, r₄, hentered, hpauses, hfails.noted hr₃.1 hr₃.2⟩

/-- Phases one after another fail with a best solution, or at a boundary of the steps of one of them. -/
theorem ends_runPhases_boundary (hreg : g.Regular facts shadows) (hphases : ∀ p ∈ phases, g.Phases p)
    (h : r.Abides (Director.Heeds shadows)) :
    Ends (runPhases place phases) r
      (fun failure r' => ∀ err, failure = some err → Stopped g facts place phases r err r')
      fun e _ => ∃ f, e = .faulted f := by
  have hP := preserves_heeds (k := k) g shadows
  induction phases generalizing r place with
  | nil => exact fun err herr => by cases herr
  | cons p phases ih =>
    obtain ⟨hp, hrest⟩ := List.forall_mem_cons.1 hphases
    have hfaults : Ends takeChanges r (fun _ _ => True) fun e _ => ∃ f, e = .faulted f := Unfailing.takeChanges r
    simp only [runPhases, ends_bind, ends_discard, ends_get, ends_ite, ends_pure]
    refine ((keeps_takeChanges hP r h).and hfaults).eq.mono (fun n r₁ hr₁ => ⟨fun _ err herr => (by cases herr), fun hgo => ?_⟩)
      fun _ _ => And.right
    obtain ⟨⟨⟨habides₁, -⟩, -⟩, htake⟩ := hr₁
    have hgo : r₁.isTerminated = false := by simpa using hgo
    refine (ends_runPhase_boundary hreg hp habides₁).eq.mono (fun failure r₂ hr₂ => ?_) fun _ _ => id
    obtain ⟨⟨habides₂, hfails⟩, hpass⟩ := hr₂
    cases failure with
    | some e =>
      intro err herr
      rcases hfails err herr with hbest | ⟨r₃, r₄, henter, hpauses, hleft⟩
      · exact .inl hbest
      · exact .inr ⟨p, r₃, r₄, .here htake hgo henter, hpauses, hleft⟩
    | none =>
      refine (ih hrest (habides₂ rfl)).mono (fun failure r₃ hr₃ err herr => ?_) fun _ _ => id
      rcases hr₃ err herr with hbest | ⟨q, r₄, r₅, hcomes, hpauses, hleft⟩
      · exact .inl hbest
      · exact .inr ⟨q, r₄, r₅, .later htake hgo hpass hcomes, hpauses, hleft⟩

end Running

/-- The start of a run and its phases: where the run fails without a best solution, and a phase of it stood at a
boundary before. -/
inductive Solver.Pauses (x : Solver S k) (g : Genuine S V W) (desk : Desk S k) (dir : Director S k) :
    RunState S k → Prop where
  /-- A phase that began stands at a boundary. -/
  | phase {r₀ r₁ r₂ p} (hstart : x.enter (x.begin desk dir) = .ok () r₀) (hcomes : Comes 0 x.phases r₀ p r₁)
      (hpauses : g.Pauses r₁ p r₂) : Pauses x g desk dir r₂

/-- A run that fails gives the best solution that it has. If it has none, it gives the working solution as it was at a
boundary of a step behind which no step ended; only where the scores of moves are checked and one is found wrong it
gives that solution with the move made. -/
theorem Solver.solution_of_failure (x : Solver S k) (hreg : g.Regular facts shadows)
    (hphases : ∀ p ∈ x.phases, g.Phases p) {desk desk' : Desk S k} {dir : Director S k} (hdir : dir.Heeds shadows)
    (hdesk : desk.Upholds (Director.Heeds shadows)) {outcome : Outcome S} {err : SolverError}
    (h : x.solve desk dir = (desk', .ok outcome)) (hfailure : outcome.failure = some err) :
    ∃ r, x.course (x.begin desk dir) = .ok (some err) r ∧
      ((∃ b, r.best = some b ∧ outcome.solution = b.solution) ∨
        r.best = none ∧ ∃ r₁, x.Pauses g desk dir r₁ ∧ r₁.Rests RunEvent.endsStep r ∧
          g.Leaves (k := k) facts r₁.mode r₁.director.solution err outcome.solution) := by
  have hP := preserves_heeds (k := k) g shadows
  have henter : Steady (Director.Heeds shadows) RunEvent.endsStep x.enter := x.steady_enter RunEvent.inSteps_endsStep fun _ h => h
  have hunfailing : Unfailing x.enter := .bind (.modify _) fun _ => .bind (.logAt _ _) fun _ => .bind .get fun _ => .tell _
  have hbegin := x.abides_begin hdir hdesk
  have hcourse : Ends x.course (x.begin desk dir)
      (fun failure r => ∀ err, failure = some err → r.best.isSome = true ∨
        ∃ r₁, x.Pauses g desk dir r₁ ∧ r₁.Fails g facts err r) fun e _ => ∃ f, e = .faulted f := by
    rw [course_eq]
    simp only [ends_bind, ends_pure]
    refine ((henter _ hbegin).and (hunfailing _)).eq.mono (fun _ r₀ hr₀ => ?_) fun _ _ => And.right
    obtain ⟨⟨⟨habides₀, -⟩, -⟩, hstart⟩ := hr₀
    refine (ends_runPhases_boundary hreg hphases habides₀).mono (fun failure r₁ hr₁ => ?_) fun _ _ => id
    refine ends_leave_same.mono (fun _ r₂ hr₂ err herr => ?_) fun _ _ => id
    rcases (hr₁ err herr).noted hr₂.1 hr₂.2 with hbest | ⟨p, r₃, r₄, hcomes, hpauses, hleft⟩
    · exact .inl hbest
    · exact .inr ⟨r₄, .phase hstart hcomes hpauses, hleft⟩
  unfold solve at h
  split at h
  · rename_i failure r hrun
    cases h
    obtain rfl : failure = some err := hfailure
    refine ⟨r, hrun, ?_⟩
    cases hbest : r.best with
    | some b =>
      refine .inl ⟨b, rfl, ?_⟩
      simp only [RunState.result, hbest]
    | none =>
      rcases hcourse.of_ok hrun err rfl with hsome | ⟨r₁, hpauses, hfails⟩
      · rw [hbest] at hsome
        cases hsome
      · refine .inr ⟨rfl, r₁, hpauses, hfails.rests, ?_⟩
        simp only [RunState.result, hbest]
        exact hfails.leaves
  · rename_i e r hrun
    obtain ⟨f, hf⟩ := hcourse.of_error hrun
    cases hf
  · cases h

namespace Timetable

/-- The room of the lesson that comes first in the list of all lessons is earned, once all lessons have rooms. -/
def firstPlaced : Constraint Timetable .hardSoft :=
  ((Stream.forEach (.entity 0) lessonMembers).collect (.toList .ok)).constraint ⟨"", "first"⟩ .reward (.unit 1)
    fun t => .ok (if t.items.all isPlaced then ((t.at? 0).at? 4).toInt else 0)

/-- Two lessons, of which the second has a room. -/
def laterGiven : Timetable where
  rooms := [⟨0, "A", 30⟩, ⟨1, "B", 20⟩]
  lessons := [⟨0, "Curie", 25, 0, none⟩, ⟨1, "Turing", 18, 1, some 0⟩]

/-- The director of a timetable that follows the room of the first lesson. -/
def followed (t : Timetable) : Director Timetable .hardSoft where
  descriptor := descriptor
  solution := t
  shadows := []
  scoring := .incremental { constraints := [firstPlaced] }

/-- A construction of rooms. -/
def roomConstruction : Construction Timetable Nat .hardSoft where
  planned := roomVariable
  kind := .firstFit

/-- A solver that gives rooms to lessons and checks the score of each move. -/
def watchful : Solver Timetable .hardSoft where
  phases := [roomConstruction.phase]
  mode := .fullAssert

/-- Where a solver gives a solution with a score that was found wrong: the room of its first lesson, whether there is a
best solution, and whether a step has ended. -/
def halted (x : Solver Timetable .hardSoft) (dir : Director Timetable .hardSoft) : Option (Option Nat × Bool × Bool) :=
  match x.course (x.begin {} dir) with
  | .ok (some (.scoreCorruption _)) r => some (r.result.room? 0, r.best.isSome, r.history.any RunEvent.endsStep)
  | _ => none

/-- The score with the second room is found wrong: the lesson that was changed comes last in the list. -/
theorem halted_watchful : halted watchful (followed laterGiven) = some (some 1, false, false) := by
  decide +kernel

/-- The run fails before a step has ended, and its result has the second room. -/
theorem exists_of_halted {x : Solver Timetable .hardSoft} {dir : Director Timetable .hardSoft} {room : Option Nat}
    (h : halted x dir = some (room, false, false)) : ∃ c r, x.course (x.begin {} dir) = .ok (some (.scoreCorruption c)) r ∧
      r.result.room? 0 = room ∧ r.best = none ∧ ∀ e ∈ r.history, e.endsStep = false := by
  unfold halted at h
  split at h
  · rename_i c r hrun
    obtain ⟨hroom, hbest, hhistory⟩ := (by simpa using h : r.result.room? 0 = room ∧ r.best = none ∧ _)
    exact ⟨c, r, hrun, hroom, hbest, hhistory⟩
  · cases h

/-- The solver gives the result of its run with the error. -/
theorem solve_of_course {x : Solver Timetable .hardSoft} {dir : Director Timetable .hardSoft} {err : SolverError}
    {r : RunState Timetable .hardSoft} (h : x.course (x.begin {} dir) = .ok (some err) r) :
    ∃ desk', x.solve {} dir = (desk', .ok ⟨r.result, some err, r.statistics⟩) := by
  unfold Solver.solve
  rw [h]
  exact ⟨_, rfl⟩

end Timetable

open Timetable in
/-- A solver that checks the scores of moves gives a lesson the room that it tried when the score was found wrong, though
no step has ended and the lesson had no room before. -/
theorem Solver.exists_solution_midway : ∃ (x : Solver Timetable .hardSoft) (dir : Director Timetable .hardSoft),
    (∀ p ∈ x.phases, givenRooms.Phases p) ∧ ∃ desk' outcome c r, x.solve {} dir = (desk', .ok outcome) ∧
      outcome.failure = some (.scoreCorruption c) ∧ x.course (x.begin {} dir) = .ok outcome.failure r ∧ r.best = none ∧
      (∀ e ∈ r.history, e.endsStep = false) ∧ dir.solution.room? 0 = none ∧ outcome.solution.room? 0 = some 1 := by
  obtain ⟨c, r, hrun, hroom, hbest, hhistory⟩ := exists_of_halted halted_watchful
  obtain ⟨desk', hsolve⟩ := solve_of_course hrun
  have hconstruction := Genuine.Phases.construction (g := givenRooms) (b := ()) roomConstruction rfl
  exact ⟨watchful, followed laterGiven, List.forall_mem_singleton.2 hconstruction, desk', _, c, r, hsolve, rfl, hrun, hbest,
    hhistory, rfl, hroom⟩

open Timetable in
/-- A run without a best solution that fails where a score is found wrong. -/
theorem Solver.solution_of_failure_watchful : ∃ desk' outcome err,
    (followed laterGiven).Heeds [] ∧ watchful.solve {} (followed laterGiven) = (desk', .ok outcome) ∧
      outcome.failure = some err ∧ ∃ r, watchful.course (watchful.begin {} (followed laterGiven)) = .ok (some err) r ∧
        ((∃ b, r.best = some b ∧ outcome.solution = b.solution) ∨
          r.best = none ∧ ∃ r₁, watchful.Pauses givenRooms {} (followed laterGiven) r₁ ∧ r₁.Rests RunEvent.endsStep r ∧
            givenRooms.Leaves (k := .hardSoft) bare r₁.mode r₁.director.solution err outcome.solution) := by
  obtain ⟨c, r, hrun, -⟩ := exists_of_halted halted_watchful
  obtain ⟨desk', hsolve⟩ := solve_of_course hrun
  have hconstruction := Genuine.Phases.construction (g := givenRooms) (b := ()) roomConstruction rfl
  have hphases : ∀ p ∈ watchful.phases, givenRooms.Phases p := List.forall_mem_singleton.2 hconstruction
  have hdir : (followed laterGiven).Heeds [] := rfl
  exact ⟨desk', _, _, hdir, hsolve, rfl,
    Solver.solution_of_failure watchful regular_givenRooms hphases hdir upholds_empty hsolve rfl⟩

end Planning
