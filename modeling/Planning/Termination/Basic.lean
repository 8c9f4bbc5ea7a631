import Planning.Score.Text
import Planning.Text.Record

/-!
# Terminations

A termination is a condition on the progress of a run or a phase. It is looked at between steps. A
conjunction of no conditions is never met.
-/

namespace Planning

/-- How far a run or a phase has come. -/
structure Progress (k : ScoreKind) where
  /-- The time in milliseconds. -/
  elapsed : Nat := 0
  /-- The number of steps. -/
  steps : Nat := 0
  /-- The number of evaluated moves. -/
  moves : Nat := 0
  /-- The best score, if there is one. -/
  best : Option (Score k) := none
  /-- The time since the best score got better. -/
  unimprovedElapsed : Nat := 0
  /-- The number of steps since the best score got better. -/
  unimprovedSteps : Nat := 0

/-- A condition to stop. -/
inductive Termination (k : ScoreKind) where
  /-- Never. -/
  | never
  /-- After a time in milliseconds. -/
  | time (limit : Nat)
  /-- After a time without a better score. -/
  | unimprovedTime (limit : Nat)
  /-- With a score that is good enough. -/
  | score (target : Score k)
  /-- With a feasible score. -/
  | feasible
  /-- After a number of steps. -/
  | steps (limit : Nat)
  /-- After a number of steps without a better score. -/
  | unimprovedSteps (limit : Nat)
  /-- After a number of evaluated moves. -/
  | moves (limit : Nat)
  /-- When it is asked for. -/
  | requested (b : Bool)
  /-- When one of the conditions is met. -/
  | any (l : List (Termination k))
  /-- When all conditions are met. -/
  | all (l : List (Termination k))

namespace Termination

variable {k : ScoreKind}

mutual

/-- The condition is met. -/
def isMet (p : Progress k) : Termination k → Bool
  | never => false
  | time limit => decide (limit ≤ p.elapsed)
  | unimprovedTime limit => decide (limit ≤ p.unimprovedElapsed)
  | score target => p.best.any fun s => s.reaches target
  | feasible => p.best.any fun s => decide s.Feasible
  | steps limit => decide (limit ≤ p.steps)
  | unimprovedSteps limit => decide (limit ≤ p.unimprovedSteps)
  | moves limit => decide (limit ≤ p.moves)
  | requested b => b
  | any l => isAnyMet p l
  | all [] => false
  | all (t :: l) => isMet p t && areAllMet p l

/-- One of the conditions is met. -/
def isAnyMet (p : Progress k) : List (Termination k) → Bool
  | [] => false
  | t :: l => isMet p t || isAnyMet p l

/-- All conditions are met. -/
def areAllMet (p : Progress k) : List (Termination k) → Bool
  | [] => true
  | t :: l => isMet p t && areAllMet p l

end

/-- The text that shows a condition with a limit. -/
def text : Termination k → String
  | steps limit => Text.record "StepCountTermination" [("limit", toString limit)]
  | unimprovedSteps limit => Text.record "UnimprovedStepCountTermination" [("limit", toString limit)]
  | moves limit => Text.record "MoveCountTermination" [("limit", toString limit)]
  | score target => Text.record "BestScoreTermination" [("target_score", target.debugText)]
  | feasible => "BestScoreFeasibleTermination"
  | never => "NoTermination"
  | time _ => "TimeTermination"
  | unimprovedTime _ => "UnimprovedTimeTermination"
  | requested _ => "ExternalTermination"
  | any _ => "OrTermination"
  | all _ => "AndTermination"

end Termination

end Planning
