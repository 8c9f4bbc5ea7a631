import Planning.Document.Basic
import Planning.Termination.Basic

/-!
# Terminations as documents

A condition is written as a list of a word and what it needs: a limit, the text of a score, or the
conditions that it combines. What is unknown is never met.
-/

namespace Planning

/-- The score of a text, zero if it is none. -/
def Score.ofText (k : ScoreKind) (s : String) : Score k := (Score.parse k s).toOption.getD .zero

namespace Termination

/-- The condition of a document of at most the given depth. -/
def read (k : ScoreKind) : Nat → Document → Termination k
  | 0, _ => never
  | fuel + 1, d =>
    let n := (d.item 1).asNat
    match (d.item 0).asText with
    | "millis" => time n
    | "seconds" => time (n * 1000)
    | "unimproved_millis" => unimprovedTime n
    | "unimproved_seconds" => unimprovedTime (n * 1000)
    | "steps" => steps n
    | "unimproved_steps" => unimprovedSteps n
    | "moves" => moves n
    | "score" => score (.ofText k (d.item 1).asText)
    | "feasible" => feasible
    | "flag" => requested (d.item 1).asBool
    | "or" => any ((d.items.drop 1).map (read k fuel))
    | "or_tuple" => any ((d.items.drop 1).map (read k fuel))
    | "and" => all ((d.items.drop 1).map (read k fuel))
    | "and_tuple" => all ((d.items.drop 1).map (read k fuel))
    | _ => never

/-- The condition of a document. -/
def ofDocument (k : ScoreKind) (d : Document) : Termination k := read k d.depth d

end Termination

/-- The progress of a document; what is missing is zero. -/
def Progress.ofDocument (k : ScoreKind) (d : Document) : Progress k :=
  let n (name : String) : Nat := (d.get name).asNat
  { elapsed := n "ms"
    steps := n "steps"
    moves := n "moves"
    best := (d.get "best").optional fun s => .ofText k s.asText
    unimprovedElapsed := n "unimproved_ms"
    unimprovedSteps := n "unimproved_steps" }

/-- The progress as a table of what does not depend on time. -/
def Progress.toDocument {k : ScoreKind} (p : Progress k) : Document :=
  .table [("steps", .nat p.steps), ("moves", .nat p.moves),
    ("best", .ofOption (fun s => .text s.text) p.best), ("unimproved_steps", .nat p.unimprovedSteps)]

end Planning
