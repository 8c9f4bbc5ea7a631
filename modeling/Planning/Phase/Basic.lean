import Planning.Move.Basic
import Planning.Run.Basic

/-!
# Phases

A phase is a part of a run that constructs or improves the working solution. Phases evaluate moves one after
another and keep count of them.
-/

namespace Planning

/-- A part of a run. -/
structure Phase (S : Type) (k : ScoreKind) where
  /-- What the phase does. -/
  kind : String
  /-- The text that shows the phase. -/
  text : String
  /-- The course of the phase. -/
  run : Running S k Unit

namespace Running

variable {S : Type} {k : ScoreKind} [PlanningSolution S k]

/-- The score that a move would give. -/
def evaluate (m : Move S) : Running S k (Score k) := do
  let check := (← get).mode.assertsMoves
  match ← direct fun dir => dir.evaluate m check with
  | .error e => fail e
  | .ok score =>
    report .trace "move_evaluated" fun _ => [("candidate", .shown m.text), ("score", .shown score.text)]
    return score

/-- The scores of moves in their order. -/
def evaluateAll : List (Move S) → Running S k (List (Move S × Score k))
  | [] => return []
  | m :: ms => do
    let score ← evaluate m
    return (m, score) :: (← evaluateAll ms)

omit [PlanningSolution S k] in
/-- A move is made. -/
def make (m : Move S) : Running S k Unit := do
  match ← direct fun dir => dir.doMove m with
  | .ok _ => return ()
  | .error e => fail (.moveApplication e)

omit [PlanningSolution S k] in
/-- A number of moves were evaluated of which one is made. -/
def recordChoice (n : Nat) : Running S k Unit :=
  (List.range n).forM fun i => recordMove (i == 0)

/-- A step makes the best of some moves; without any, nothing is done. -/
def stepWithBest (moves : List (Move S)) : Running S k Bool := do
  let scored ← evaluateAll moves
  match firstBest scored with
  | none => return false
  | some (m, _) =>
    recordChoice scored.length
    make m
    let score ← calculate
    stepEnded score
    assertStep
    return true

end Running

end Planning
