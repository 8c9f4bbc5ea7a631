import Planning.Dynamic.Problem
import Planning.Proofs.Director.Full
import Planning.Proofs.Phase.Exhaustive
import Planning.Proofs.Phase.Tracked
import Planning.Proofs.Problems.Timetable
import Planning.Proofs.Solver.Course

/-!
# The best solution of a solver

Whatever phases a solver goes through, its best solution comes with the score that it has from scratch, and is replaced
by better ones and after changes of the problem only. An exhaustive search relies on more than that the director scores
its working solution right: the scores that it found for nodes must still hold when it comes back to them.
-/

namespace Planning

open Checked RunState

variable {S T : Type} {k : ScoreKind} [PlanningSolution S k] {D : Director S k → Prop} {F : S → Score k}
variable {B L : Type} {V : B → Type} {W : L → Type} [DecidableEq B] [DecidableEq L]
variable [∀ b, PlanningValue (V b)] [∀ b, DecidableEq (V b)] [∀ l, PlanningValue (W l)] [∀ l, DecidableEq (W l)]
variable {g : Genuine S V W} {facts : S → T} {shadows : ShadowCascade S} {r : RunState S k}

/-- The phases that plan genuine variables. -/
inductive Genuine.Phases (g : Genuine S V W) : Phase S k → Prop where
  /-- The values of a variable are constructed. -/
  | construction {b : B} (x : Construction S (V b) k) (hx : x.planned = g.basic b) : g.Phases x.phase
  /-- The elements of a variable are inserted. -/
  | insertion {l : L} (x : Insertion S (W l) k) (hx : x.planned = g.list l) : g.Phases x.phase
  /-- The solution is improved by moves of the variables. -/
  | localSearch (x : LocalSearch S k) (hx : g.Selects x.selector) : g.Phases x.phase
  /-- All values of a variable are gone through. -/
  | exhaustive {b : B} (x : ExhaustiveSearch S (V b) k) (hx : x.planned = g.basic b) : g.Phases x.phase

/-- Where phases search exhaustively, what the genuine variables hold settles the scores. -/
def Genuine.SettledFor (g : Genuine S V W) (facts : S → T) (shadows : ShadowCascade S) (D : Director S k → Prop)
    (F : S → Score k) (phases : List (Phase S k)) : Prop :=
  ∀ b (x : ExhaustiveSearch S (V b) k), x.phase ∈ phases →
    g.Regular facts shadows ∧ ExhaustiveSearch.Settles g facts shadows D F

namespace Running

variable [LawfulSolution S k] (hD : g.Scores D F) {p : Phase S k} {phases : List (Phase S k)}
include hD

/-- A phase keeps track of the best solution. -/
theorem track_phase (hsettled : g.SettledFor facts shadows D F phases) (hmem : p ∈ phases) (hp : g.Phases p) :
    Leads (Abides D) (Track F) p.run := by
  cases hp with
  | construction x hx => exact Construction.track_run hx hD
  | insertion x hx => exact Insertion.track_run hx hD
  | localSearch x hx => exact LocalSearch.track_run hD hx
  | exhaustive x hx =>
    obtain ⟨hreg, hsettles⟩ := hsettled _ x hmem
    exact ExhaustiveSearch.track_run hreg hsettles hx

omit [LawfulSolution S k] [DecidableEq B] [DecidableEq L] in
/-- A phase that keeps track of the best solution does so in a run, also if it fails. -/
theorem ends_runPhase_track (hp : Leads (Abides D) (Track F) p.run) (place : Nat) (h : r.Abides D) :
    Ends (runPhase place p) r (fun failure r' => (failure = none → r'.Abides D) ∧ Track F r r')
      fun _ r' => Track F r r' := by
  rw [runPhase_eq]
  simp only [ends_bind, ends_pure]
  refine ((steady_enterPhase RunEvent.inSteps_isBest hD.journal place p).track r h).mono (fun _ r₁ hr₁ => ?_)
    fun _ _ => id
  obtain ⟨habides₁, htrack₁⟩ := hr₁
  have hleave : ∀ {r₂ : RunState S k}, Track F r r₂ → Ends (leavePhase place p) r₂ (fun _ r₃ => Track F r r₃)
      fun _ r₃ => Track F r r₃ := by
    intro r₂ htrack
    refine (rests_leavePhase RunEvent.inSteps_isBest place p r₂ trivial).mono (fun _ r₃ hr₃ => ?_) fun _ r₃ hrest => ?_
    · exact htrack.tail (.rest hr₃.2)
    · exact htrack.tail (.rest hrest)
  refine .failureOf ((hp r₁ habides₁).mono (fun _ r₂ hr₂ => ?_) fun e r₂ htrack₂ => ⟨fun e' _ => ?_, fun f _ => ?_⟩)
  · refine ((steady_leavePhase RunEvent.inSteps_isBest hD.journal place p).track r₂ hr₂.1).mono (fun _ r₃ hr₃ => ?_)
      fun _ _ => (htrack₁.trans hr₂.2).trans
    exact ⟨fun _ => hr₃.1, (htrack₁.trans hr₂.2).trans hr₃.2⟩
  · refine (hleave (htrack₁.trans htrack₂)).mono (fun _ r₃ htrack₃ => ⟨fun hnone => ?_, htrack₃⟩) fun _ _ => id
    cases hnone
  · exact htrack₁.trans htrack₂

omit [DecidableEq B] [DecidableEq L] in
/-- Phases one after another keep track of the best solution. -/
theorem ends_runPhases_track (hp : ∀ p ∈ phases, Leads (Abides D) (Track F) p.run) (place : Nat) (h : r.Abides D) :
    Ends (runPhases place phases) r (fun _ r' => Track F r r') fun _ r' => Track F r r' := by
  induction phases generalizing r place with
  | nil => exact .refl
  | cons p phases ih =>
    obtain ⟨hp, hphases⟩ := List.forall_mem_cons.1 hp
    simp only [runPhases, ends_bind, ends_discard, ends_get, ends_ite, ends_pure]
    refine (track_takeChanges hD r h).mono (fun _ r₁ hr₁ => ?_) fun _ _ => id
    obtain ⟨habides₁, htrack₁⟩ := hr₁
    refine ⟨fun _ => htrack₁, fun _ => ?_⟩
    refine (ends_runPhase_track hD hp place habides₁).mono (fun failure r₂ hr₂ => ?_) fun _ _ => htrack₁.trans
    obtain ⟨habides₂, htrack₂⟩ := hr₂
    cases failure with
    | some e => exact htrack₁.trans htrack₂
    | none =>
      exact (ih hphases (place + 1) (habides₂ rfl)).mono (fun _ _ => (htrack₁.trans htrack₂).trans) fun _ _ =>
        (htrack₁.trans htrack₂).trans

end Running

/-- With a director that gives its working solution the score that it has from scratch, whatever phases a solver goes
through and however its run ends: the best solution has always the score that it has from scratch, and the score is
stored in it; a solution that replaces it is better, unless changes of the problem were made; and each of them was told
with its score. Where phases search exhaustively, what the genuine variables hold is to settle the scores. -/
theorem Solver.course_track [LawfulSolution S k] (x : Solver S k) (hD : g.Scores D F)
    (hphases : ∀ p ∈ x.phases, g.Phases p) (hsettled : g.SettledFor facts shadows D F x.phases) {desk : Desk S k}
    {dir : Director S k} (hdir : D dir) (hdesk : desk.Upholds D) :
    (∀ r, Track F (x.begin desk dir) r → r.Right F ∧ ∃ told, r.history = told ++ desk.history ∧
      ∀ s score, .best s score ∈ told → BestSolution.Right F ⟨s, score⟩) ∧
    Running.Ends x.course (x.begin desk dir) (fun _ r => Track F (x.begin desk dir) r)
      fun _ r => Track F (x.begin desk dir) r := by
  refine ⟨fun r hr => ⟨hr.right fun b hb => ?_, hr.told⟩, ?_⟩
  · cases hb
  rw [course_eq]
  simp only [Running.ends_bind, Running.ends_pure]
  have hbegin := x.abides_begin hdir hdesk
  refine ((x.steady_enter RunEvent.inSteps_isBest hD.journal).track _ hbegin).mono (fun _ r₁ hr₁ => ?_) fun _ _ => id
  obtain ⟨habides₁, htrack₁⟩ := hr₁
  have hruns : ∀ p ∈ x.phases, Running.Leads (Abides D) (Track F) p.run :=
    fun p hp => Running.track_phase hD hsettled hp (hphases p hp)
  refine (Running.ends_runPhases_track hD hruns 0 habides₁).mono (fun failure r₂ htrack₂ => ?_) fun _ _ => htrack₁.trans
  have htrack := htrack₁.trans htrack₂
  exact (Solver.rests_leave RunEvent.inSteps_isBest failure r₂ trivial).mono
    (fun _ _ hr₃ => htrack.tail (.rest hr₃.2)) fun _ _ hrest => htrack.tail (.rest hrest)

/-- The best solution and its score in the end of a run that succeeds. -/
def bestOf {α : Type} : EStateM.Result Stop (RunState S k) α → Option (S × Score k)
  | .ok _ r => r.best.map fun b => (b.solution, b.score)
  | .error _ _ => none

omit [PlanningSolution S k] in
/-- A run that has a best solution in the end succeeds. -/
theorem exists_of_bestOf {α : Type} {x : EStateM.Result Stop (RunState S k) α} {s : S} {score : Score k}
    (h : bestOf x = some (s, score)) : ∃ a r, x = .ok a r ∧ r.best = some ⟨s, score⟩ := by
  cases x with
  | ok a r =>
    obtain ⟨b, hb, heq⟩ := Option.map_eq_some_iff.1 h
    cases heq
    exact ⟨a, r, rfl, hb⟩
  | error e r => cases h

namespace Timetable

/-- A search that changes rooms. -/
def roomChanges : LocalSearch Timetable .hardSoft where
  selector := .change roomVariable .asListed

/-- A solver that goes through the rooms of all lessons and then changes rooms. -/
def planner : Solver Timetable .hardSoft where
  phases := [roomSearch.phase, roomChanges.phase]
  termination := some (.steps 24)

/-- The score of a timetable where both teachers move once. -/
def twoMoves : Score .hardSoft := ⟨[.zero, ⟨-2, by decide⟩], rfl⟩

/-- The timetable with the best rooms. -/
def placed : Timetable where
  rooms := small.rooms
  lessons := [⟨0, "Curie", 25, 0, some 0⟩, ⟨1, "Curie", 18, 1, some 1⟩, ⟨2, "Turing", 20, 0, some 1⟩,
    ⟨3, "Turing", 22, 1, some 0⟩]
  score := some twoMoves

/-- The solver finds the best rooms. -/
theorem bestOf_planner : bestOf (planner.course (planner.begin {} (directorOf small))) = some (placed, twoMoves) := by
  decide +kernel

/-- The rooms of lessons settle the scores of directors that score timetables in full. -/
theorem settles_full : ExhaustiveSearch.Settles givenRooms bare [] (Director.Full calculate []) (scratch calculate) where
  toScores := givenRooms.scores_full [] fun _ _ => rfl
  shadows h := h.shadows
  settled _ _ h := by rw [scratch, scratch, calculate_eq_of_alike h]

/-- A director that scores a timetable in full knows no score at first. -/
theorem full_directorOf (t : Timetable) : (directorOf t).Full calculate [] := ⟨rfl, .inl rfl⟩

/-- The planner changes rooms and nothing else. -/
theorem phases_planner : ∀ p ∈ planner.phases, givenRooms.Phases p := by
  have hsearch := Genuine.Phases.exhaustive (g := givenRooms) (b := ()) roomSearch rfl
  have hchanges := Genuine.Phases.localSearch (g := givenRooms) roomChanges (.change () .asListed)
  exact List.forall_mem_cons.2 ⟨hsearch, List.forall_mem_singleton.2 hchanges⟩

/-- Nothing waits on an empty desk. -/
theorem upholds_empty {D : Director Timetable .hardSoft → Prop} : ({} : Desk Timetable .hardSoft).Upholds D where
  pending _ h := absurd h List.not_mem_nil
  asked _ h := by cases h

end Timetable

open Timetable in
/-- A solver that goes through all rooms of four lessons and then changes rooms ends with the best rooms, and their
score is the one from scratch. -/
theorem Solver.course_track_small : ∃ failure r,
    planner.course (planner.begin {} (directorOf small)) = .ok failure r ∧
      Track (scratch calculate) (planner.begin {} (directorOf small)) r ∧
      r.best = some ⟨placed, twoMoves⟩ ∧ twoMoves = scratch calculate placed ∧ placed.score = some twoMoves := by
  obtain ⟨failure, r, hrun, hbest⟩ := exists_of_bestOf bestOf_planner
  obtain ⟨hright, hends⟩ := Solver.course_track (g := givenRooms) planner settles_full.toScores phases_planner
    (fun _ _ _ => ⟨regular_givenRooms, settles_full⟩) (full_directorOf small) upholds_empty
  have htrack := hends.of_ok hrun
  have hright := (hright r htrack).1 _ hbest
  exact ⟨failure, r, hrun, htrack, hbest, hright.score, hright.stored⟩

namespace DynamicSolution

/-- The value of entities as a genuine variable whose one value is the number one. -/
def constant : Genuine DynamicSolution (fun _ : Unit => Value) (fun _ : Empty => Nat) where
  basic _ := variableOf (.fixed [.int 1])
  list l := l.elim

/-- A shadow variable that counts how often it was made anew. -/
def tally : ShadowFormula where
  entityClass := 0
  element := 2
  sources := [⟨className 0, elementName 1⟩]
  formula := .calc .add (.path [0, 2]) (.const (.int 1))

/-- The listener that keeps up the tally when a value changes. -/
def tallied : ShadowCascade DynamicSolution := [⟨⟨0, 2⟩, [⟨0, 1⟩], listener tally⟩]

/-- The score of a solution is the sum of its tallies. -/
def tallies (s : DynamicSolution) : Checked (Score .hardSoft) :=
  Score.ofList .hardSoft [0, (s.members (.entity 0)).foldr (fun v n => (v.at? 2).toInt + n) 0]

/-- The director of a solution with one entity, which has no value yet. -/
def untouched : Director DynamicSolution .hardSoft where
  descriptor := { toSolutionDescriptor := describe [tally] 1 4, shadowOrder := [⟨0, 2⟩], dependencies := [] }
  solution := { entities := [[.list [.int 0, .null, .int 1, .int 0]]], facts := [] }
  shadows := tallied
  scoring := .full tallies none

/-- A search through the values of entities. -/
def valueSearch : ExhaustiveSearch DynamicSolution Value .hardSoft where
  planned := variableOf (.fixed [.int 1])

/-- A solver that searches through the values. -/
def valueSolver : Solver DynamicSolution .hardSoft where
  phases := [valueSearch.phase]

/-- The solution with its value, which was looked at when the tally had gone up. -/
def reached : DynamicSolution where
  entities := [[.list [.int 0, .int 1, .int 4, .int 0]]]
  facts := []
  score := some ⟨[.zero, ⟨2, by decide⟩], rfl⟩

/-- The solver keeps the score of the solution as it was when its value was tried. -/
theorem bestOf_valueSolver : bestOf (valueSolver.course (valueSolver.begin {} untouched)) =
    some (reached, ⟨[.zero, ⟨2, by decide⟩], rfl⟩) := by
  decide +kernel

/-- The score of the solution is another one. -/
theorem scratch_reached : scratch tallies reached = ⟨[.zero, ⟨4, by decide⟩], rfl⟩ := by
  decide +kernel

end DynamicSolution

open DynamicSolution in
/-- With a shadow variable that depends on how often it was made anew, an exhaustive search keeps a score that its best
solution does not have, though the director scores its working solution right. -/
theorem Solver.exists_best_stale : ∃ (x : Solver DynamicSolution .hardSoft) (dir : Director DynamicSolution .hardSoft),
    (∀ p ∈ x.phases, constant.Phases p) ∧ constant.Scores (Director.Full tallies tallied) (scratch tallies) ∧
      dir.Full tallies tallied ∧
      ∃ failure r, x.course (x.begin {} dir) = .ok failure r ∧ ¬ r.Right (scratch tallies) := by
  obtain ⟨failure, r, hrun, hbest⟩ := exists_of_bestOf bestOf_valueSolver
  have hsearch := Genuine.Phases.exhaustive (g := constant) (b := ()) valueSearch rfl
  refine ⟨valueSolver, untouched, List.forall_mem_singleton.2 hsearch, constant.scores_full _ fun _ _ => rfl,
    ⟨rfl, .inl rfl⟩, failure, r, hrun, fun hright => ?_⟩
  have hscore := (hright _ hbest).score
  rw [scratch_reached] at hscore
  exact absurd hscore (by decide)

end Planning
