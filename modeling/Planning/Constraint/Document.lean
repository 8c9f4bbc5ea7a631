import Planning.Constraint.Set
import Planning.Score.Text
import Planning.Value.Document

/-!
# Deltas and explanations as documents

A delta is written as a list of a sign, an identity and the tuple that is live from then on. The analysis of
a constraint is written as a table with its matches, and an explanation as a table of analyses.
-/

namespace Planning

/-- A delta as a list: plus for a tuple that comes, a tilde for one that changes, minus for one that goes. -/
def Delta.toDocument : Delta → Document
  | insert id t => .list [.text "+", .nat id, t.toDocument]
  | update id t => .list [.text "~", .nat id, t.toDocument]
  | retract id => .list [.text "-", .nat id]

variable {k : ScoreKind}

/-- A match as the list of its constraint, its score and its justification. -/
def ExplainedMatch.toDocument (m : ExplainedMatch k) : Document :=
  .texts [m.ref.fullName, m.score.text, m.justification]

namespace ConstraintAnalysis

variable (a : ConstraintAnalysis k)

/-- The matches of the constraint as a list. -/
def foundDocument : Document := .list (a.found.map ExplainedMatch.toDocument)

/-- The analysis as a table. -/
def toDocument : Document :=
  .table [("name", .text a.ref.fullName), ("weight", .text a.weight.text), ("score", .text a.score.text),
    ("count", .nat a.found.length), ("hard", .bool a.isHard), ("matches", a.foundDocument)]

end ConstraintAnalysis

/-- An explanation as a table, with the number of matches of one constraint that is asked for. -/
def ScoreExplanation.toDocument (e : ScoreExplanation k) (name : Option String) : Document :=
  let found := (name.bind e.find?).map fun a => a.found.length
  .table [("score", .text e.score.text), ("total", .nat e.totalMatchCount), ("all", .nat e.allMatches.length),
    ("non_zero", .texts (e.nonZero.map fun a => a.ref.name)), ("found", .ofOption .nat found),
    ("constraints", .list (e.analyses.map ConstraintAnalysis.toDocument))]

end Planning
