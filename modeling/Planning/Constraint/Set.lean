import Planning.Constraint.Basic
import Planning.Sequence

/-!
# Score analysis

An analysis explains a score: it lists for each constraint the matches that make up its part of the score.
-/

namespace Planning

/-- A match as an explanation shows it. -/
structure ExplainedMatch (k : ScoreKind) where
  /-- The constraint. -/
  ref : ConstraintRef
  /-- What the match does to the score. -/
  score : Score k
  /-- The text that shows the tuple. -/
  justification : String
deriving DecidableEq

/-- The part of a constraint in a score. -/
structure ConstraintAnalysis (k : ScoreKind) where
  /-- The constraint. -/
  ref : ConstraintRef
  /-- The weight. -/
  weight : Score k
  /-- The part of the score. -/
  score : Score k
  /-- The matches in the order of their identities. -/
  found : List (ExplainedMatch k)
  /-- The constraint may make a solution infeasible. -/
  isHard : Bool
deriving DecidableEq

/-- The analysis of a constraint. -/
def Constraint.analysis {S : Type} {k : ScoreKind} (c : Constraint S k) : ConstraintAnalysis k :=
  { ref := c.ref
    weight := c.weight
    score := c.total
    found := c.sortedMatches.map fun m => ⟨c.ref, m.impact, c.justify m.tuple⟩
    isHard := c.isHard }

/-- A score with the analyses of the constraints that make it up. -/
structure ScoreExplanation (k : ScoreKind) where
  /-- The score. -/
  score : Score k
  /-- The analyses. -/
  analyses : List (ConstraintAnalysis k)
deriving DecidableEq

namespace ScoreExplanation

variable {k : ScoreKind} (e : ScoreExplanation k)

/-- The number of all matches. -/
def totalMatchCount : Nat := sumOf (e.analyses.map fun a => a.found.length)

/-- The analyses of the constraints that change the score. -/
def nonZero : List (ConstraintAnalysis k) := e.analyses.filter fun a => a.score ≠ .zero

/-- All matches, constraint by constraint. -/
def allMatches : List (ExplainedMatch k) := e.analyses.flatMap ConstraintAnalysis.found

/-- The analysis of the first constraint with a name. -/
def find? (name : String) : Option (ConstraintAnalysis k) :=
  e.analyses.find? fun a => a.ref.name == name

end ScoreExplanation

end Planning

/-!
## Constraint sets

The score of a constraint set is the sum of the scores of its constraints. An event goes to those that
read its class, and the score of the set changes by what theirs change by.
-/

namespace Planning

/-- Constraints that are evaluated together. -/
abbrev ConstraintSet (S : Type) (k : ScoreKind) := List (Constraint S k)

namespace ConstraintSet

variable {S : Type} {k : ScoreKind}

/-- The whole solution is taken in, and the sum of the scores. -/
def load (s : S) : ConstraintSet S k → Score k → Checked (ConstraintSet S k × Score k)
  | [], sum => .ok ([], sum)
  | c :: cs, sum => do
    let c ← c.load s
    let (cs, sum) ← load s cs (← sum.add c.total)
    return (c :: cs, sum)

/-- An event is taken in, and the sum of what the scores changed by. -/
def onEvent (s : S) (e : SourceEvent) :
    ConstraintSet S k → Score k → Checked (ConstraintSet S k × Score k)
  | [], sum => .ok ([], sum)
  | c :: cs, sum => do
    if c.listensTo e.source then
      let (c, change) ← c.onEvent s e
      let (cs, sum) ← onEvent s e cs (← sum.add change)
      return (c :: cs, sum)
    else
      let (cs, sum) ← onEvent s e cs sum
      return (c :: cs, sum)

/-- The score of the set. -/
def score (cs : ConstraintSet S k) : Checked (Score k) :=
  cs.foldlM (fun sum c => sum.add c.total) .zero

/-- The constraints without any match. -/
def reset (cs : ConstraintSet S k) : ConstraintSet S k := cs.map Constraint.reset

/-- The analyses of the constraints. -/
def analyze (cs : ConstraintSet S k) : List (ConstraintAnalysis k) := cs.map Constraint.analysis

end ConstraintSet

end Planning
