import Planning.Decimal.Text
import Planning.Move.Basic
import Planning.Random.Generator
import Planning.Score.Text
import Planning.Settings.Validation
import Planning.Text.Record

/-!
# Acceptors

An acceptor decides which evaluated moves may be made. All of them but tabu search accept a move that does
not make the score worse; they differ in which others they accept, and in what they remember of the steps so far.
-/

/-!
## Simulated annealing

A worse move is accepted with a probability that falls with its loss and rises with the temperature. The
loss is the difference at the first level where the scores differ. The temperature falls with each step.
-/

namespace Planning

/-- A temperature that falls. -/
structure Annealing where
  /-- The temperature at the start of a phase. -/
  start : Float
  /-- The temperature now. -/
  temperature : Float
  /-- The factor by which it falls. -/
  rate : Float

namespace Annealing

/-- The annealing of a temperature and a rate. -/
def ofStart (start rate : Float) : Annealing := ⟨start, start, rate⟩

/-- The first difference that is not zero, kept in bounds. -/
def firstDifference : List Int → List Int → Int
  | a :: as, b :: bs => if a - b = 0 then firstDifference as bs else (Level.clamp (a - b)).val
  | _, _ => 0

/-- What a score loses against a better one. -/
def loss {k : ScoreKind} (better worse : Score k) : Int := firstDifference better.toList worse.toList

/-- The probability with which a loss is accepted. -/
def probability (a : Annealing) (loss : Int) : Float :=
  if loss ≤ 0 then 1
  else if a.temperature ≤ 0 then 0
  else (-(Int64.ofInt loss).toFloat / a.temperature).exp

/-- A worse score is accepted by chance; a number is drawn only if there is a chance. -/
def accepts {k : ScoreKind} (a : Annealing) (last score : Score k) : Generator.Draw Bool := do
  let p := a.probability (loss last score)
  if p > 0 then return (← Generator.unitReal) < p
  return false

/-- The temperature is that of the start. -/
def heat (a : Annealing) : Annealing := { a with temperature := a.start }

/-- The temperature falls. -/
def cool (a : Annealing) : Annealing := { a with temperature := a.temperature * a.rate }

/-- The text that shows the annealing. -/
def text (a : Annealing) : String :=
  Text.record "SimulatedAnnealingAcceptor"
    [("starting_temperature", Decimal.exactText a.start),
      ("current_temperature", Decimal.exactText a.temperature), ("cooling_rate", Decimal.exactText a.rate)]

end Annealing

end Planning

/-!
## Late acceptance

A move is accepted when it is no worse than the score of a fixed number of steps ago. The scores of the last
steps stand in a ring; a place that no step has reached yet holds the score at the start of the phase.
-/

namespace Planning

/-- The scores of the last steps. -/
structure LateAcceptance (k : ScoreKind) where
  /-- The number of steps to look back. -/
  size : Nat
  /-- There is at least one. -/
  size_pos : 0 < size
  /-- The score at the start of the phase, if one is running. -/
  start : Option (Score k) := none
  /-- The scores of steps, at their places in the ring. -/
  ring : Array (Score k) := #[]
  /-- The place of the oldest score. -/
  place : Nat := 0

namespace LateAcceptance

variable {k : ScoreKind} (a : LateAcceptance k)

/-- The acceptance that looks back a number of steps, at least one. -/
def ofSize (k : ScoreKind) (size : Nat) : LateAcceptance k := { size := max size 1, size_pos := by omega }

/-- The score to compare with, none outside of a phase. -/
def lateScore : Option (Score k) := a.start.map fun s => a.ring[a.place]?.getD s

/-- A score is no worse than the late score. -/
def accepts (score : Score k) : Bool := a.lateScore.all fun late => score.reaches late

/-- A phase starts with a score. -/
def phaseStarted (score : Score k) : LateAcceptance k :=
  { a with start := some score, ring := #[], place := 0 }

/-- A phase ends. -/
def phaseEnded : LateAcceptance k := { a with start := none, ring := #[] }

/-- A step ends with a score, which takes the place of the oldest. -/
def stepEnded (score : Score k) : LateAcceptance k :=
  let ring :=
    if a.start.isNone then a.ring
    else if a.place < a.ring.size then a.ring.setIfInBounds a.place score
    else a.ring.push score
  { a with ring := ring, place := (a.place + 1) % a.size }

/-- The text that shows the acceptance. -/
def text : String :=
  Text.record "LateAcceptanceAcceptor"
    [("late_acceptance_size", toString a.size), ("current_index", toString a.place)]

end LateAcceptance

end Planning

/-!
## Tabu search

What was changed in the last steps is tabu for a while: an entity that was touched, and the way back from a
move. A move that would give the best score so far may be accepted all the same.
-/

namespace Planning

/-- The moves of the last steps. -/
structure TabuSearch where
  /-- For how many steps an entity that was touched is tabu. -/
  entitySize : Nat
  /-- For how many steps the way back is tabu. -/
  moveSize : Nat
  /-- A new best score is accepted in any case. -/
  aspiration : Bool := true
  /-- The signatures of the last steps, the latest first. -/
  recent : List MoveSignature := []

namespace TabuSearch

variable (t : TabuSearch)

/-- The number of steps that are remembered. -/
def window : Nat := max t.entitySize t.moveSize

/-- A move is tabu. -/
def isTabu (m : MoveSignature) : Bool :=
  (t.recent.take t.entitySize).any (fun s => s.touches m) ||
    (t.recent.take t.moveSize).any fun s => s.reverses m

/-- A move is accepted; without a signature it is not tabu. -/
def accepts (isBest : Bool) (m : Option MoveSignature) : Bool :=
  (t.aspiration && isBest) || m.all fun m => !t.isTabu m

/-- Nothing is tabu. -/
def clear : TabuSearch := { t with recent := [] }

/-- A step is remembered if its move has a signature. -/
def stepEnded (m : Option MoveSignature) : TabuSearch :=
  match m with
  | some m => { t with recent := (m :: t.recent).take t.window }
  | none => t

/-- The text that shows the search. -/
def text : String :=
  Text.record "TabuSearchAcceptor"
    [("entity_tabu_size", toString t.entitySize), ("move_tabu_size", toString t.moveSize),
      ("aspiration", Text.flag t.aspiration),
      ("recent", Text.list (t.recent.reverse.map MoveSignature.text))]

end TabuSearch

end Planning

/-!
## Acceptors

An acceptor decides which evaluated moves may be made. All of them but tabu search accept a move that does
not make the score worse; they differ in which others they accept.
-/

namespace Planning

/-- What decides which evaluated moves may be made. -/
inductive Acceptor (k : ScoreKind) where
  /-- Only moves that do not make the score worse. -/
  | hillClimbing
  /-- Worse moves by chance. -/
  | annealing (a : Annealing)
  /-- Moves that are no worse than a score of some steps ago. -/
  | lateAcceptance (a : LateAcceptance k)
  /-- Moves that do not concern what was changed recently. -/
  | tabu (t : TabuSearch)

/-- An evaluated move with what it is compared with. -/
structure Evaluation (k : ScoreKind) where
  /-- The score of the last step. -/
  last : Score k
  /-- The best score. -/
  best : Score k
  /-- The score of the move. -/
  score : Score k
  /-- What the move would change. -/
  signature : Option MoveSignature := none

namespace Acceptor

variable {k : ScoreKind}

/-- The move may be made. -/
def accepts (a : Acceptor k) (e : Evaluation k) : Generator.Draw Bool :=
  match a with
  | hillClimbing => return e.score.reaches e.last
  | annealing a => if e.score.reaches e.last then return true else a.accepts e.last e.score
  | lateAcceptance a => return e.score.reaches e.last || a.accepts e.score
  | tabu t => return t.accepts (e.score.beats e.best) e.signature

/-- The acceptor asks what a move would change. -/
def needsSignatures : Acceptor k → Bool
  | tabu _ => true
  | _ => false

/-- A phase starts with a score. -/
def phaseStarted (score : Score k) : Acceptor k → Acceptor k
  | hillClimbing => hillClimbing
  | annealing a => annealing a.heat
  | lateAcceptance a => lateAcceptance (a.phaseStarted score)
  | tabu t => tabu t.clear

/-- A phase ends. -/
def phaseEnded : Acceptor k → Acceptor k
  | lateAcceptance a => lateAcceptance a.phaseEnded
  | tabu t => tabu t.clear
  | a => a

/-- A step ends with a score. -/
def stepEnded (score : Score k) (m : Option MoveSignature) : Acceptor k → Acceptor k
  | hillClimbing => hillClimbing
  | annealing a => annealing a.cool
  | lateAcceptance a => lateAcceptance (a.stepEnded score)
  | tabu t => tabu (t.stepEnded m)

/-- The text that shows the acceptor. -/
def text : Acceptor k → String
  | hillClimbing => "HillClimbingAcceptor"
  | annealing a => a.text
  | lateAcceptance a => a.text
  | tabu t => t.text

/-- The acceptor of settings; hill climbing if there are none. -/
def ofSettings : Option AcceptorSettings → Acceptor k
  | none => hillClimbing
  | some .hillClimbing => hillClimbing
  | some (.simulatedAnnealing temperature rate) =>
    annealing (.ofStart (AcceptorSettings.startingTemperature temperature)
      (AcceptorSettings.coolingRate rate))
  | some (.tabuSearch entitySize moveSize aspiration) =>
    tabu {
      entitySize := entitySize.getD 0
      moveSize := moveSize.getD 0
      aspiration := aspiration.getD true }
  | some (.lateAcceptance size) => lateAcceptance (.ofSize k (size.getD 400))

end Acceptor

end Planning
