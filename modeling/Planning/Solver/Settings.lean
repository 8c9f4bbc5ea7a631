import Planning.Phase.Construction
import Planning.Phase.Exhaustive
import Planning.Phase.LocalSearch
import Planning.Selector.Settings
import Planning.Solver.Basic
import Planning.Termination.Settings

/-!
# Solvers from settings

Settings that are valid and fit the planned variable make a solver. Lists are constructed by cheapest
insertion and values by first fit wherever another construction is asked for that does not suit them; an
exhaustive search needs a variable of values.
-/

namespace Planning

namespace Phase

variable {S V : Type} {k : ScoreKind} [PlanningSolution S k] [PlanningValue V] [DecidableEq V]

/-- The construction of the values or lists of a variable. -/
def construction (x : PlanningVariable S V) (s : ConstructionSettings) (t : Option (Termination k)) :
    Phase S k :=
  match x with
  | .basic x => Construction.phase { planned := x, kind := s.kind, termination := t }
  | .list x => Insertion.phase { planned := x, termination := t }

/-- The local search of settings. -/
def localSearch (x : PlanningVariable S V) (path : String) (threads : Nat) (s : LocalSearchSettings)
    (t : Option (Termination k)) : Except ConfigurationError (Phase S k) := do
  let selector ← MoveSelector.ofSettings x s!"{path}.move_selector" s.selector
  return LocalSearch.phase {
    selector := selector
    acceptor := .ofSettings s.acceptor
    forager := .ofSettings s.forager
    termination := t
    threads := max threads 1 }

/-- The exhaustive search of settings. -/
def exhaustive (x : PlanningVariable S V) (path : String) (s : ExhaustiveSettings)
    (t : Option (Termination k)) : Except ConfigurationError (Phase S k) :=
  match x with
  | .basic x => .ok <| ExhaustiveSearch.phase {
      planned := x
      kind := s.kind
      exploration := s.exploration
      entityLimit := s.entityBound
      nodeLimit := s.nodeLimit
      termination := t }
  | .list _ => misconfigured path "exhaustive search needs a basic variable"

/-- The condition of settings that may be missing. -/
def terminationOf (path : String) :
    Option TerminationSettings → Checked (Except ConfigurationError (Option (Termination k)))
  | some t => Termination.ofSettings path t
  | none => .ok (.ok none)

/-- The phase of settings. -/
def ofSettings (x : PlanningVariable S V) (path : String) (threads : Nat) (p : PhaseSettings) :
    ExceptT ConfigurationError Checked (Phase S k) := do
  let t ← ExceptT.mk (terminationOf s!"{path}.termination" p.termination)
  match p with
  | .construction s => return construction x s t
  | .localSearch s => ExceptT.mk (.ok (localSearch x path threads s t))
  | .exhaustive s => ExceptT.mk (.ok (exhaustive x path s t))

/-- The phases of settings from a place on. -/
def ofSettingsAll (x : PlanningVariable S V) (threads place : Nat) :
    List PhaseSettings → ExceptT ConfigurationError Checked (List (Phase S k))
  | [] => return []
  | p :: rest => do
    let phase ← ofSettings x s!"phases[{place}]" threads p
    return phase :: (← ofSettingsAll x threads (place + 1) rest)

end Phase

namespace Solver

variable {S V : Type} {k : ScoreKind} [PlanningSolution S k] [PlanningValue V] [DecidableEq V]

/-- The solver of settings, or what is wrong with them. -/
def ofSettings (x : PlanningVariable S V) (s : SolverSettings) :
    Checked (Except ConfigurationError (Solver S k)) :=
  ExceptT.run do
    ExceptT.mk s.validate
    let phases ← Phase.ofSettingsAll x (s.threads.workers.getD 1) 0 s.effectivePhases
    let t ← ExceptT.mk (Phase.terminationOf "termination" s.termination)
    return { phases := phases, mode := s.mode, seed := s.seed, termination := t }

end Solver

end Planning
