import Planning.Constraint.Stream
import Planning.Director.Basic

/-!
# Planning problems

A planning problem is described by its classes and variables, scored by constraints and by a function of
the whole solution that gives the same score, and has listeners that keep its shadow variables up to date.
-/

namespace Planning

/-- What is the same for all solutions of a problem. -/
structure PlanningProblem (S : Type) (k : ScoreKind) where
  /-- The description of classes and variables. -/
  description : SolutionDescriptor
  /-- What keeps the shadow variables up to date. -/
  listeners : List (ShadowListener S) := []
  /-- The constraints. -/
  constraints : ConstraintSet S k
  /-- The score of a whole solution. -/
  calculate : S → Checked (Score k)

namespace PlanningProblem

variable {S : Type} {k : ScoreKind}

/-- The director of a solution, unless the description is wrong. -/
def director (p : PlanningProblem S k) (scoring : Scoring S k) (s : S) :
    Checked (Except ValidationError (Director S k)) :=
  match p.description.validate with
  | .error e => .ok (.error e)
  | .ok d =>
    match ShadowCascade.ofListeners d p.listeners with
    | .error e => .ok (.error e)
    | .ok shadows => do return .ok (← Director.create d shadows scoring s)

/-- The director that follows each change. -/
def incremental (p : PlanningProblem S k) (s : S) : Checked (Except ValidationError (Director S k)) :=
  p.director (.incremental { constraints := p.constraints }) s

/-- The director that scores the whole solution each time. -/
def full (p : PlanningProblem S k) (s : S) : Checked (Except ValidationError (Director S k)) :=
  p.director (.full p.calculate none) s

end PlanningProblem

end Planning
