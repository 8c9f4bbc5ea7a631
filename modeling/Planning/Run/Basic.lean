import Planning.Run.State

/-!
# What is done in a run

Scores are asked for, better solutions are kept, steps and moves are counted, and waiting changes of the
problem are taken in between steps. Everything that matters is logged and told to who watches the run.
-/

namespace Planning.Running

variable {S : Type} {k : ScoreKind}

/-- A computation that may fault. -/
def checked {α : Type} (x : Checked α) : Running S k α :=
  match x with
  | .ok a => pure a
  | .error f => throw (.faulted f)

/-- The run fails with an error. -/
def fail {α : Type} (e : SolverError) : Running S k α := throw (.failed e)

/-- Something is done by the director. -/
def direct {α : Type} (f : Director S k → Checked (Director S k × α)) : Running S k α := do
  let (dir, a) ← checked (f (← get).director)
  modify fun r => { r with director := dir }
  return a

/-- The director is changed. -/
def edit (f : Director S k → Checked (Director S k)) : Running S k Unit :=
  direct fun dir => do return (← f dir, ())

/-- Random numbers are drawn. -/
def draw {α : Type} (x : Generator.Draw α) : Running S k α := do
  let (a, g) ← checked (x.run (← get).generator)
  modify fun r => { r with generator := g }
  return a

/-- An event of a level comes into the log behind what the director reported, if the level is logged. -/
def logAt (level : LogLevel) (e : Unit → LogEvent) : Running S k Unit := do
  if (← get).logs level then
    modify fun r =>
      let r := r.drained
      { r with log := e () :: r.log }

/-- A named event comes into the log. -/
def report (level : LogLevel) (name : String) (fields : Unit → List (String × LogValue)) :
    Running S k Unit :=
  logAt level fun _ => .named level name (fields ())

/-- What is asked of the run is done. -/
def request : Request S k → Running S k Unit
  | .change c => modify fun r => { r with pending := r.pending ++ [c], history := .queued :: r.history }
  | .stop => modify fun r => { r with stopping := true }

variable [PlanningSolution S k]

/-- Something happens: it is noted, requests for the end of a step are met, and it is logged. -/
def tell (e : RunEvent S k) : Running S k Unit := do
  modify fun r => { r with history := e :: r.history }
  if let some w := (← get).watch then
    if let .stepEnded i _ := e then
      (w.requests.filter fun q => q.1 == i).forM fun q => request q.2
    if let some logged := e.logged? w.label then logAt logged.level fun _ => logged

/-- The score of the working solution. -/
def calculate : Running S k (Score k) := do
  modify fun r => { r with statistics := r.statistics.recordCalculation }
  direct Director.calculate

/-- A solution becomes the best one. -/
def setBest (s : S) (score : Score k) : Running S k Unit := do
  let s := PlanningSolution.withScore s score
  let steps := (← get).steps
  report .debug "new_best" fun _ => [("step", .number steps), ("score", .shown score.text)]
  modify fun r => { r with best := some ⟨s, score⟩, improvement := r.mark }
  tell (.best s score)

/-- The working solution with a given score becomes the best one if it is better. -/
def updateBestWith (score : Score k) : Running S k Bool := do
  let r ← get
  if r.improvesWith score then
    setBest r.director.solution score
    return true
  return false

/-- The working solution becomes the best one if it is better. -/
def updateBest : Running S k Bool := do
  let score ← calculate
  updateBestWith score

omit [PlanningSolution S k] in
/-- A move was evaluated. -/
def recordMove (isAccepted : Bool) : Running S k Unit := do
  let moves ← checked (counted ((← get).moves + 1))
  modify fun r => { r with moves := moves, statistics := r.statistics.recordMove isAccepted }

/-- A step starts. -/
def stepStarted : Running S k Unit := do
  tell (.stepStarted (← get).steps)

/-- A step ends with a score. -/
def stepEnded (score : Score k) : Running S k Unit := do
  tell (.stepEnded (← get).steps score)
  let steps ← checked (counted ((← get).steps + 1))
  modify fun r => { r with steps := steps, statistics := r.statistics.recordStep }
  let r ← get
  report .debug "step" fun _ =>
    [("step", .number r.steps), ("phase_step", .number r.phaseSteps), ("score", .shown score.text)]

omit [PlanningSolution S k] in
/-- The run starts: its counts and marks are set to zero. -/
def start : Running S k Unit :=
  modify fun r => { r with phaseStart := {}, improvement := {}, steps := 0, moves := 0, statistics := {} }

omit [PlanningSolution S k] in
/-- A phase starts. -/
def startPhase (place : Nat) (kind : String) : Running S k Unit :=
  modify fun r => { r with phaseStart := r.mark, statistics := r.statistics.startPhase place kind }

omit [PlanningSolution S k] in
/-- The phase ends. -/
def endPhase : Running S k Unit :=
  modify fun r => { r with statistics := r.statistics.endPhase }

/-- The score of the working solution is compared with one calculated from scratch; the run fails if they
differ. -/
def assertScore : Running S k Unit := do
  match ← direct Director.assertScore with
  | .ok _ => return ()
  | .error e => fail (.scoreCorruption e)

/-- The score is checked after a step, if the run checks steps. -/
def assertStep : Running S k Unit := do
  if (← get).mode.assertsSteps then assertScore

omit [PlanningSolution S k] in
/-- A change of the problem is made unless it is refused. -/
def applyChange (c : ProblemChange S k) : Running S k Bool := do
  match ← direct c.apply with
  | none =>
    report .debug "problem_change" fun _ => [("change", .shown c.text)]
    return true
  | some e =>
    report .warn "problem_change_rejected" fun _ =>
      [("change", .shown c.text), ("error", .shown e.message)]
    return false

/-- The waiting changes of the problem are made. If there were any that were not refused, the working
solution becomes the best one, since scores of the problem as it was no longer count. The result is how many
there were. -/
def takeChanges : Running S k Nat := do
  let r ← get
  if !r.takesChanges || r.pending.isEmpty then return 0
  modify fun r => { r with pending := [] }
  let made ← r.pending.filterM applyChange
  if made.isEmpty then return 0
  let score ← calculate
  setBest (← get).director.solution score
  report .debug "problem_changes_applied" fun _ =>
    [("count", .number made.length), ("score", .shown score.text)]
  return made.length

end Planning.Running
