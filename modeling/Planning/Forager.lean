import Planning.Random.Generator
import Planning.Score.Text
import Planning.Settings.Basic
import Planning.Text.Record

/-!
# Foragers

A forager gathers the accepted moves of a step by their places, says when enough were seen, and picks one:
the latest if it was worth stopping for, and one with the best score otherwise.
-/

namespace Planning

/-- The accepted moves of a step. -/
structure Forager (k : ScoreKind) where
  /-- The number of accepted moves that is enough. -/
  limit : Nat := maxCount
  /-- When one move is enough. -/
  pickEarly : PickEarly := .never
  /-- Which of the best is picked. -/
  tieBreak : TieBreak := .firstEncountered
  /-- The places and scores of the accepted moves, the latest first. -/
  accepted : List (Nat × Score k) := []
  /-- The latest move was worth stopping for. -/
  pickedEarly : Bool := false

namespace Forager

variable {k : ScoreKind} (f : Forager k)

/-- The forager that is content with a number of accepted moves, at least one. -/
def ofLimit (limit : Nat) : Forager k := { limit := max limit 1 }

/-- The forager of settings; without them it looks at all moves. -/
def ofSettings : Option ForagerSettings → Forager k
  | none => {}
  | some s =>
    { ofLimit (s.acceptedLimit.getD maxCount) with
      pickEarly := s.pickEarly.getD .never
      tieBreak := s.tieBreak.getD .firstEncountered }

/-- A step starts. -/
def stepStarted : Forager k := { f with accepted := [], pickedEarly := false }

/-- An accepted move. -/
def add (place : Nat) (score : Score k) : Forager k := { f with accepted := (place, score) :: f.accepted }

/-- An accepted move that may be worth stopping for. -/
def addCompared (place : Nat) (score last best : Score k) : Forager k :=
  let early :=
    match f.pickEarly with
    | .never => false
    | .firstBestScoreImproving => score.beats best
    | .firstLastStepScoreImproving => score.beats last
  { f with pickedEarly := early }.add place score

/-- Enough moves were seen. -/
def isDone : Bool := f.pickedEarly || decide (f.limit ≤ f.accepted.length)

/-- The best score of some moves. -/
def bestScore? : List (Nat × Score k) → Option (Score k)
  | [] => none
  | (_, s) :: rest => some (rest.foldl (fun a m => a.max m.2) s)

/-- The accepted moves with the best score in their order. -/
def ties : List (Nat × Score k) :=
  match bestScore? f.accepted with
  | none => []
  | some best => f.accepted.reverse.filter fun m => m.2 == best

/-- The forager that gave away what it gathered. -/
def emptied : Forager k := { f with accepted := [] }

/-- The move that is picked. -/
def pick : Generator.Draw (Option (Nat × Score k)) := do
  if f.pickedEarly then return f.accepted.head?
  match f.tieBreak with
  | .firstEncountered => return f.ties.head?
  | .random => if f.ties.isEmpty then return none else return f.ties[← Generator.below f.ties.length]?

/-- The text that shows the forager. -/
def text : String :=
  let accepted := f.accepted.reverse.map fun (i, s) => Text.tuple [toString i, s.debugText]
  Text.record "AcceptedCountForager"
    [("accepted_count_limit", toString f.limit), ("pick_early", Choice.name f.pickEarly),
      ("tie_break", Choice.name f.tieBreak), ("accepted", Text.list accepted),
      ("picked_early", Text.flag f.pickedEarly)]

end Forager

end Planning
