import Planning.Settings.Validation
import Planning.Termination.Basic

/-!
# Terminations from settings

Each limit of the settings is a condition. One condition stands for itself; several are combined as the
settings say. A score limit must be a score of the kind of the problem.
-/

namespace Planning

namespace Termination

variable {k : ScoreKind}

/-- The score that is good enough. -/
def scoreLimit (path : String) : Option String → Except ConfigurationError (Option (Score k))
  | none => .ok none
  | some s =>
    match Score.parse k s with
    | .ok a => .ok (some a)
    | .error e => .error ⟨s!"{path}.best_score_limit", (SolverError.scoreParse e).message⟩

/-- The conditions of the settings. -/
def conditions (path : String) (t : TerminationSettings) :
    Checked (Except ConfigurationError (List (Termination k))) := do
  let limit ← t.timeLimit
  let unimproved ← t.unimprovedTimeLimit
  match (scoreLimit path t.scoreLimit : Except ConfigurationError (Option (Score k))) with
  | .error e => return .error e
  | .ok target =>
    return .ok <| List.filterMap id
      [limit.map time, unimproved.map unimprovedTime, target.map score,
        if t.requiresFeasible then some feasible else none, t.steps.map steps,
        t.unimprovedSteps.map unimprovedSteps, t.moves.map moves]

/-- Several conditions as one, none if there are none. -/
def combine (c : Composition) : List (Termination k) → Option (Termination k)
  | [] => none
  | [t] => some t
  | l =>
    match c with
    | .or => some (any l)
    | .and => some (all l)

/-- The condition of the settings, none if they have none. -/
def ofSettings (path : String) (t : TerminationSettings) :
    Checked (Except ConfigurationError (Option (Termination k))) := do
  return (← conditions path t).map (combine t.composition)

end Termination

end Planning
