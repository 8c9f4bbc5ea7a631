import Planning.Phase.Basic

/-!
# Solvers

A solver runs phases one after another. Before each phase the waiting changes of the problem are made, and
the run ends when it has to stop or a phase fails. Whatever happens, the result is the best solution, or the
working solution if there is none yet. What a solver keeps from one run to the next is its desk: waiting
changes, a request to stop, and what happened.
-/

namespace Planning

/-- What runs phases one after another. -/
structure Solver (S : Type) (k : ScoreKind) where
  /-- The phases. -/
  phases : List (Phase S k)
  /-- How far runs check themselves. -/
  mode : EnvironmentMode := .nonReproducible
  /-- The seed of the random numbers. -/
  seed : Option Nat := none
  /-- When a run stops. -/
  termination : Option (Termination k) := none
  /-- The time in milliseconds after a number of evaluated moves. -/
  clock : Nat → Nat := fun _ => 0

/-- What a solver keeps from one run to the next. -/
structure Desk (S : Type) (k : ScoreKind) where
  /-- The waiting changes, in their order. -/
  pending : List (ProblemChange S k) := []
  /-- The next run is asked to stop. -/
  stopping : Bool := false
  /-- Who watches the runs. -/
  watch : Option (Watch S k) := none
  /-- What happened, the latest first. -/
  history : List (RunEvent S k) := []
  /-- The least important level that is logged. -/
  detail : LogLevel := .error
  /-- What was logged, the latest first. -/
  log : List LogEvent := []

/-- How a run ended. -/
structure Outcome (S : Type) where
  /-- The best solution. -/
  solution : S
  /-- The error in which a phase ended. -/
  failure : Option SolverError
  /-- The counts of the run. -/
  statistics : Statistics

namespace Running

variable {S : Type} {k : ScoreKind} [PlanningSolution S k]

/-- An error that ends something, if there is one. -/
def failureOf (x : Running S k Unit) : Running S k (Option SolverError) := fun r =>
  match x r with
  | .ok _ r => .ok none r
  | .error (.failed e) r => .ok (some e) r
  | .error (.faulted f) r => .error (.faulted f) r

/-- A phase of a run, and the error in which it ends, if it does. -/
def runPhase (place : Nat) (p : Phase S k) : Running S k (Option SolverError) := do
  startPhase place p.kind
  tell (.phaseStarted place p.kind)
  report .info "phase_start" fun _ => [("phase", .text p.kind), ("phase_index", .number place)]
  let failure ← failureOf p.run
  endPhase
  let r ← get
  report .info "phase_end" fun _ => [("phase", .text p.kind), ("phase_index", .number place),
    ("steps", .number r.phaseSteps), ("score", .shown r.bestText)]
  tell (.phaseEnded place p.kind)
  return failure

/-- The phases from a place on, up to the first that fails. -/
def runPhases (place : Nat) : List (Phase S k) → Running S k (Option SolverError)
  | [] => return none
  | p :: rest => do
    discard takeChanges
    if (← get).isTerminated then return none
    match ← runPhase place p with
    | some e => return some e
    | none => runPhases (place + 1) rest

end Running

namespace Solver

variable {S : Type} {k : ScoreKind} [PlanningSolution S k] (x : Solver S k)

/-- The run with which solving starts. A run without a seed has the seed zero. -/
def begin (desk : Desk S k) (dir : Director S k) : RunState S k where
  director := dir
  generator := .ofSeed (.ofNat (x.seed.getD 0))
  mode := x.mode
  termination := x.termination
  clock := x.clock
  stopping := desk.stopping
  pending := desk.pending
  watch := desk.watch
  history := desk.history
  detail := desk.detail
  log := desk.log

/-- The course of a run. -/
def course : Running S k (Option SolverError) := do
  Running.start
  Running.report .info "solve_start" fun _ => [("phases", .number x.phases.length),
    ("environment_mode", .shown (Choice.name x.mode)),
    ("random_seed", .shown (Text.optional toString x.seed))]
  Running.tell (.started (← get).director.solution)
  let failure ← Running.runPhases 0 x.phases
  let r ← get
  Running.report .info "solve_end" fun _ => [("steps", .number r.statistics.steps),
    ("moves", .number r.statistics.evaluated), ("score", .shown r.bestText),
    ("terminated_early", .flag r.stopping), ("failed", .flag failure.isSome)]
  Running.tell (.ended r.result r.stopping)
  return failure

/-- What is left of a run on the desk; a request to stop is met. -/
def deskAfter (r : RunState S k) : Desk S k :=
  let r := r.drained
  { pending := r.pending
    watch := r.watch
    history := r.history
    detail := r.detail
    log := r.log }

/-- The problem of a director is solved. A fault leaves nothing but the desk. -/
def solve (desk : Desk S k) (dir : Director S k) : Desk S k × Checked (Outcome S) :=
  match x.course (x.begin desk dir) with
  | .ok failure r => (deskAfter r, .ok ⟨r.result, failure, r.statistics⟩)
  | .error (.failed e) r => (deskAfter r, .ok ⟨r.result, some e, r.statistics⟩)
  | .error (.faulted f) r => (deskAfter r, .error f)

end Solver

end Planning
