import Planning.Document.Basic

/-!
# Statistics

A run counts its steps, the moves it evaluated and accepted, and how often it asked for a score. Steps and
moves count for the latest phase as well, even after it has ended.
-/

namespace Planning

/-- The counts of a phase. -/
structure PhaseStatistics where
  /-- The place of the phase in the run. -/
  place : Nat
  /-- What the phase does. -/
  kind : String
  /-- The phase has ended. -/
  ended : Bool := false
  /-- The number of steps. -/
  steps : Nat := 0
  /-- The number of evaluated moves. -/
  evaluated : Nat := 0
  /-- The number of accepted moves. -/
  accepted : Nat := 0
deriving DecidableEq, Repr

/-- The counts of a run. -/
structure Statistics where
  /-- The number of steps. -/
  steps : Nat := 0
  /-- The number of evaluated moves. -/
  evaluated : Nat := 0
  /-- The number of accepted moves. -/
  accepted : Nat := 0
  /-- How often the score was asked for. -/
  calculations : Nat := 0
  /-- The phases, the latest first. -/
  phases : List PhaseStatistics := []
deriving DecidableEq, Repr

namespace Statistics

variable (s : Statistics)

/-- An edit of the latest phase. -/
def editPhase (f : PhaseStatistics → PhaseStatistics) : Statistics :=
  match s.phases with
  | p :: rest => { s with phases := f p :: rest }
  | [] => s

/-- A phase starts. -/
def startPhase (place : Nat) (kind : String) : Statistics :=
  { s with phases := { place := place, kind := kind } :: s.phases }

/-- The latest phase ends. -/
def endPhase : Statistics := s.editPhase fun p => { p with ended := true }

/-- A move was evaluated. -/
def recordMove (isAccepted : Bool) : Statistics :=
  let n := if isAccepted then 1 else 0
  { s with evaluated := s.evaluated + 1, accepted := s.accepted + n }.editPhase fun p =>
    { p with evaluated := p.evaluated + 1, accepted := p.accepted + n }

/-- A step was done. -/
def recordStep : Statistics :=
  { s with steps := s.steps + 1 }.editPhase fun p => { p with steps := p.steps + 1 }

/-- The score was asked for. -/
def recordCalculation : Statistics := { s with calculations := s.calculations + 1 }

/-- The part of the evaluated moves that were accepted. -/
def acceptanceRate : Float :=
  if s.evaluated = 0 then 0 else Float.ofNat s.accepted / Float.ofNat s.evaluated

/-- The document of the counts of a phase. -/
def phaseDocument (p : PhaseStatistics) : Document :=
  .table [("phase_index", .nat p.place), ("phase_type", .text p.kind), ("step_count", .nat p.steps),
    ("moves_evaluated", .nat p.evaluated), ("moves_accepted", .nat p.accepted),
    ("duration", .bool p.ended)]

/-- The document of the counts. -/
def toDocument : Document :=
  .table [("step_count", .nat s.steps), ("moves_evaluated", .nat s.evaluated),
    ("moves_accepted", .nat s.accepted), ("score_calculations", .nat s.calculations),
    ("phases", .list (s.phases.reverse.map phaseDocument)), ("acceptance", .real s.acceptanceRate)]

end Statistics

end Planning
