import Planning.Random.Generator
import Planning.Run.Event
import Planning.Settings.Choice
import Planning.Statistics
import Planning.Termination.Basic

/-!
# Runs in progress

A run holds the director of its working solution, the best solution so far, its random numbers and its
counts. What is done in a run either succeeds or stops it, by an error or by a fault; the run is kept as it
was left then. Time is a reading of a clock that depends on how many moves were evaluated, so that a run
with the same clock is always the same.
-/

namespace Planning

/-- A point in the course of a run. -/
structure Mark where
  /-- The steps done until then. -/
  steps : Nat := 0
  /-- The moves evaluated until then. -/
  moves : Nat := 0
deriving DecidableEq, Repr

/-- A solution with its score. -/
structure BestSolution (S : Type) (k : ScoreKind) where
  /-- The solution, which holds the score. -/
  solution : S
  /-- The score. -/
  score : Score k

/-- A run in progress. -/
structure RunState (S : Type) (k : ScoreKind) where
  /-- The director of the working solution. -/
  director : Director S k
  /-- The best solution so far. -/
  best : Option (BestSolution S k) := none
  /-- The random numbers. -/
  generator : Generator
  /-- How far the run checks itself. -/
  mode : EnvironmentMode := .nonReproducible
  /-- When the run stops. -/
  termination : Option (Termination k) := none
  /-- The time in milliseconds after a number of moves. -/
  clock : Nat → Nat := fun _ => 0
  /-- Where the phase started. -/
  phaseStart : Mark := {}
  /-- Where the best solution was found. -/
  improvement : Mark := {}
  /-- The number of steps. -/
  steps : Nat := 0
  /-- The number of evaluated moves. -/
  moves : Nat := 0
  /-- The counts. -/
  statistics : Statistics := {}
  /-- The run was asked to stop. -/
  stopping : Bool := false
  /-- Changes of the problem are taken in. -/
  takesChanges : Bool := true
  /-- The changes that are waiting, in their order. -/
  pending : List (ProblemChange S k) := []
  /-- Who watches the run. -/
  watch : Option (Watch S k) := none
  /-- What happened, the latest first. -/
  history : List (RunEvent S k) := []
  /-- The least important level that is logged. -/
  detail : LogLevel := .error
  /-- What was logged, the latest first. -/
  log : List LogEvent := []

/-- Why a run stops. -/
inductive Stop where
  /-- An error. -/
  | failed (e : SolverError)
  /-- A fault. -/
  | faulted (f : Fault)

/-- What is done in a run. -/
abbrev Running (S : Type) (k : ScoreKind) := EStateM Stop (RunState S k)

namespace RunState

variable {S : Type} {k : ScoreKind} (r : RunState S k)

/-- The mark of this point. -/
def mark : Mark := ⟨r.steps, r.moves⟩

/-- The number of steps of the phase. -/
def phaseSteps : Nat := r.steps - r.phaseStart.steps

/-- The best score. -/
def bestScore : Option (Score k) := r.best.map BestSolution.score

/-- An event of a level is logged. -/
def logs (level : LogLevel) : Bool := decide (level.rank ≤ r.detail.rank)

/-- What the director reported comes into the log. -/
def drained : RunState S k :=
  { r with
    director := { r.director with journal := [] }
    log := (r.director.journal.filter fun e => r.logs e.level) ++ r.log }

/-- The text of the best score, or the word for none. -/
def bestText : String := (r.bestScore.map Score.text).getD "none"

variable [PlanningSolution S k]

/-- The best solution is initialized. -/
def bestInitialized : Bool := r.best.any fun b => PlanningSolution.isInitialized b.solution

/-- The progress since a mark. A score counts once the best solution is initialized. -/
def progressSince (start : Mark) : Progress k :=
  let steps := max r.improvement.steps start.steps
  let moves := max r.improvement.moves start.moves
  { elapsed := r.clock r.moves - r.clock start.moves
    steps := r.steps - start.steps
    moves := r.moves - start.moves
    best := if r.bestInitialized then r.bestScore else none
    unimprovedElapsed := r.clock r.moves - r.clock moves
    unimprovedSteps := r.steps - steps }

/-- The progress of the run. -/
def progress : Progress k := r.progressSince {}

/-- The progress of the phase. -/
def phaseProgress : Progress k := r.progressSince r.phaseStart

/-- The run has to stop. -/
def isTerminated : Bool := r.stopping || r.termination.any fun t => t.isMet r.progress

/-- The phase has to stop. -/
def isPhaseTerminated (t : Option (Termination k)) : Bool :=
  r.isTerminated || t.any fun t => t.isMet r.phaseProgress

/-- A score of the working solution makes it better than the best one: an initialized solution is better
than one that is not, and otherwise the score decides. -/
def improvesWith (score : Score k) : Bool :=
  match r.best with
  | none => true
  | some b =>
    let initialized := PlanningSolution.isInitialized r.director.solution
    if initialized && !r.bestInitialized then true
    else if !initialized && r.bestInitialized then false
    else score.beats b.score

omit [PlanningSolution S k] in
/-- The best solution, or the working solution if there is none. -/
def result : S :=
  match r.best with
  | some b => b.solution
  | none => r.director.solution

omit [PlanningSolution S k] in
/-- The text that shows the run. -/
def text : String :=
  Text.record "SolverScope"
    [("best_score", Text.optional Score.debugText r.bestScore), ("step_count", toString r.steps),
      ("move_count", toString r.moves), ("environment_mode", Choice.name r.mode)]

end RunState

end Planning
