import Planning.Fault
import Planning.Settings.Choice

/-!
# Settings of a solver

The settings of a solver say when it stops, which phases it runs and how a phase chooses its moves. What is
left out has a value that is given here. Limits of time add up, whatever unit they are written in.
-/

namespace Planning

/-- When a run or a phase stops. -/
structure TerminationSettings where
  /-- Seconds to spend. -/
  seconds : Option Nat := none
  /-- Minutes to spend. -/
  minutes : Option Nat := none
  /-- Milliseconds to spend. -/
  millis : Option Nat := none
  /-- Seconds to spend without a better score. -/
  unimprovedSeconds : Option Nat := none
  /-- Milliseconds to spend without a better score. -/
  unimprovedMillis : Option Nat := none
  /-- The text of a score that is good enough. -/
  scoreLimit : Option String := none
  /-- A feasible score is good enough. -/
  feasible : Option Bool := none
  /-- The number of steps. -/
  steps : Option Nat := none
  /-- The number of steps without a better score. -/
  unimprovedSteps : Option Nat := none
  /-- The number of evaluated moves. -/
  moves : Option Nat := none
  /-- How the conditions are combined. -/
  composition : Composition := .or

/-- The longest time in milliseconds is below this bound. -/
def timeBound : Nat := (maxCount + 1) * 1000

/-- The sum of two times in milliseconds. -/
def addTime (a b : Nat) : Checked Nat := if a + b < timeBound then .ok (a + b) else .error .outOfRange

/-- The sum of the times that are given, none if there are none. -/
def totalTime : List (Option Nat) → Checked (Option Nat)
  | [] => .ok none
  | none :: ts => totalTime ts
  | some t :: ts => do return some (← (ts.filterMap id).foldlM addTime t)

namespace TerminationSettings

variable (t : TerminationSettings)

/-- The time to spend, in milliseconds. -/
def timeLimit : Checked (Option Nat) := do
  let minutes ← t.minutes.mapM fun m => counted (m * 60)
  totalTime [t.millis, t.seconds.map (· * 1000), minutes.map (· * 1000)]

/-- The time to spend without a better score, in milliseconds. -/
def unimprovedTimeLimit : Checked (Option Nat) :=
  totalTime [t.unimprovedMillis, t.unimprovedSeconds.map (· * 1000)]

/-- A feasible score is good enough. -/
def requiresFeasible : Bool := t.feasible.getD false

/-- There is no condition. -/
def isEmpty : Checked Bool := do
  if (← t.timeLimit).isSome then return false
  if (← t.unimprovedTimeLimit).isSome then return false
  return t.scoreLimit.isNone && !t.requiresFeasible && t.steps.isNone && t.unimprovedSteps.isNone &&
    t.moves.isNone

end TerminationSettings

/-- How a solution is constructed. -/
structure ConstructionSettings where
  /-- The order of entities and values. -/
  kind : ConstructionKind := .firstFit
  /-- When the phase stops. -/
  termination : Option TerminationSettings := none

/-- Which evaluated moves are accepted. -/
inductive AcceptorSettings where
  /-- Those that do not make the score worse. -/
  | hillClimbing
  /-- Worse ones with a probability that falls with the temperature. -/
  | simulatedAnnealing (temperature rate : Option Float)
  /-- Those that do not concern what was changed recently. -/
  | tabuSearch (entitySize moveSize : Option Nat) (aspiration : Option Bool)
  /-- Those that are no worse than a score of some steps ago. -/
  | lateAcceptance (size : Option Nat)

/-- How one of the accepted moves is picked. -/
structure ForagerSettings where
  /-- The number of accepted moves to look at. -/
  acceptedLimit : Option Nat := none
  /-- When to stop earlier. -/
  pickEarly : Option PickEarly := none
  /-- Which of the best is taken. -/
  tieBreak : Option TieBreak := none

/-- Which moves of a basic variable a selector lists. -/
structure VariableSelectorSettings where
  /-- The class of the entities. -/
  entityClass : Option String := none
  /-- The name of the variable. -/
  variableName : Option String := none
  /-- The order of the moves. -/
  order : SelectionOrder := .random

/-- Which moves of a list variable a selector lists. -/
structure ListSelectorSettings where
  /-- The class of the entities. -/
  entityClass : Option String := none
  /-- The order of the moves. -/
  order : SelectionOrder := .random

/-- Which sublists a selector moves. -/
structure SublistSelectorSettings where
  /-- The class of the entities. -/
  entityClass : Option String := none
  /-- The least size. -/
  minimum : Option Nat := none
  /-- The greatest size. -/
  maximum : Option Nat := none
  /-- The order of the moves. -/
  order : SelectionOrder := .random

namespace SublistSelectorSettings

/-- The least size of a sublist, one unless it is given. -/
def minimumSize (s : SublistSelectorSettings) : Nat := s.minimum.getD 1

/-- The greatest size of a sublist, three unless it is given. -/
def maximumSize (s : SublistSelectorSettings) : Nat := s.maximum.getD 3

end SublistSelectorSettings

/-- Which moves are candidates. -/
inductive SelectorSettings where
  /-- An entity takes another value. -/
  | change (s : VariableSelectorSettings)
  /-- Two entities exchange their values. -/
  | swap (s : VariableSelectorSettings)
  /-- An element goes to another position. -/
  | listChange (s : ListSelectorSettings)
  /-- Two elements are exchanged. -/
  | listSwap (s : ListSelectorSettings)
  /-- A segment is reversed. -/
  | listReverse (s : ListSelectorSettings)
  /-- A sublist goes to another position. -/
  | sublistChange (s : SublistSelectorSettings)
  /-- The moves of several selectors. -/
  | union (selectors : List SelectorSettings)

/-- How a solution is improved step by step. -/
structure LocalSearchSettings where
  /-- Which moves are accepted; hill climbing unless it is given. -/
  acceptor : Option AcceptorSettings := none
  /-- How one of them is picked. -/
  forager : Option ForagerSettings := none
  /-- Which moves are candidates. -/
  selector : Option SelectorSettings := none
  /-- When the phase stops. -/
  termination : Option TerminationSettings := none

/-- How all assignments are gone through. -/
structure ExhaustiveSettings where
  /-- Which assignments are left out. -/
  kind : ExhaustiveKind := .branchAndBound
  /-- With more entities than this the phase is skipped. -/
  entityLimit : Option Nat := none
  /-- The number of nodes to look at. -/
  nodeLimit : Option Nat := none
  /-- Which node comes next. -/
  exploration : Exploration := .depthFirst
  /-- When the phase stops. -/
  termination : Option TerminationSettings := none

/-- The number of entities above which an exhaustive search is skipped, twelve unless it is given. -/
def ExhaustiveSettings.entityBound (s : ExhaustiveSettings) : Nat := s.entityLimit.getD 12

/-- A phase of a run. -/
inductive PhaseSettings where
  /-- A solution is constructed. -/
  | construction (s : ConstructionSettings)
  /-- A solution is improved. -/
  | localSearch (s : LocalSearchSettings)
  /-- All assignments are gone through. -/
  | exhaustive (s : ExhaustiveSettings)

namespace PhaseSettings

/-- When the phase stops. -/
def termination : PhaseSettings → Option TerminationSettings
  | construction s => s.termination
  | localSearch s => s.termination
  | exhaustive s => s.termination

/-- The word of the phase. -/
def word : PhaseSettings → String
  | construction _ => "construction_heuristic"
  | localSearch _ => "local_search"
  | exhaustive _ => "exhaustive_search"

end PhaseSettings

/-- By how many threads moves are evaluated. -/
inductive ThreadCount where
  /-- As many as the machine offers. -/
  | auto
  /-- Only the thread of the run. -/
  | none
  /-- As many as are given. -/
  | count (n : Nat)
deriving DecidableEq, Repr

/-- The number of threads that evaluate moves beside the run; one or fewer are none. How many a machine
offers does not change what a run does, and is left at none. -/
def ThreadCount.workers : ThreadCount → Option Nat
  | count n => if n ≤ 1 then Option.none else some n
  | _ => Option.none

/-- The settings of a solver. -/
structure SolverSettings where
  /-- How far a run checks itself. -/
  mode : EnvironmentMode := .nonReproducible
  /-- The seed of the random numbers. -/
  seed : Option Nat := none
  /-- By how many threads moves are evaluated. -/
  threads : ThreadCount := .none
  /-- When a run stops. -/
  termination : Option TerminationSettings := none
  /-- The phases. -/
  phases : List PhaseSettings := []

namespace SolverSettings

/-- The phases of a run: a construction and a local search unless others are given. -/
def effectivePhases (s : SolverSettings) : List PhaseSettings :=
  if s.phases.isEmpty then [.construction {}, .localSearch {}] else s.phases

/-- The time to spend, in milliseconds. -/
def timeLimit (s : SolverSettings) : Checked (Option Nat) :=
  match s.termination with
  | some t => t.timeLimit
  | none => .ok none

/-- The settings with another time to spend. -/
def withSeconds (s : SolverSettings) (n : Nat) : SolverSettings :=
  { s with termination := some { s.termination.getD {} with seconds := some n } }

end SolverSettings

end Planning
