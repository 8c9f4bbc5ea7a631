import Planning.Score.Text

/-!
# Errors

An error is one of a few causes; `SolverError.message` words it. Errors leave the state they were found
in: a run that ends in an error still has its best solution. Errors of moves and of corrupted scores end
a run, the others do not reach a running solver.
-/

namespace Planning

/-- What is wrong with a description of a planning problem. -/
inductive ValidationError where
  /-- The solution has no name. -/
  | noSolution
  /-- There is no entity. -/
  | noEntities (solution : String)
  /-- An entity has nothing to plan. -/
  | noPlanningVariables (entity : String)
  /-- There is no place for the score. -/
  | missingScoreField (solution : String)
  /-- A variable names no value range. -/
  | missingValueRange (entity name : String)
  /-- A variable names a value range that is not declared. -/
  | unreferencedValueRange (entity name range : String)
  /-- A shadow variable depends on a variable that does not exist. -/
  | unknownShadowSource (entity name sourceEntity sourceName : String)
  /-- A listener maintains something that is no shadow variable. -/
  | unknownShadowVariable (entity name : String)
  /-- Shadow variables depend on each other in a circle. -/
  | shadowCycle (cycle : List String)
  /-- Two variables of an entity have one name. -/
  | duplicateVariable (entity name : String)
deriving DecidableEq, Repr

/-- The wording of the error. -/
def ValidationError.message : ValidationError → String
  | noSolution => "no planning solution type declared"
  | noEntities solution => s!"solution '{solution}' declares no planning entity"
  | noPlanningVariables entity => s!"entity '{entity}' declares no genuine planning variable"
  | missingScoreField solution => s!"solution '{solution}' has no score field"
  | missingValueRange entity name => s!"variable '{entity}.{name}' has no value range"
  | unreferencedValueRange entity name range =>
    s!"variable '{entity}.{name}' references undeclared value range '{range}'"
  | unknownShadowSource entity name sourceEntity sourceName =>
    s!"shadow variable '{entity}.{name}' depends on unknown source " ++
      s!"'{sourceEntity}.{sourceName}'"
  | unknownShadowVariable entity name =>
    s!"listener targets '{entity}.{name}', which is not a declared shadow variable"
  | shadowCycle cycle => "shadow variables form a cycle: " ++ String.intercalate " -> " cycle
  | duplicateVariable entity name => s!"duplicate variable '{entity}.{name}'"

/-- A setting that cannot be used, and where it stands. -/
structure ConfigurationError where
  /-- The place of the setting. -/
  path : String
  /-- What is wrong with it. -/
  reason : String
deriving DecidableEq, Repr

/-- The wording of the error. -/
def ConfigurationError.message (e : ConfigurationError) : String :=
  s!"invalid configuration at '{e.path}': {e.reason}"

/-- A maintained score that differs from the score calculated from scratch. -/
structure ScoreCorruption where
  /-- The text of the maintained score. -/
  incremental : String
  /-- The text of the score calculated from scratch. -/
  fromScratch : String
  /-- What had just been done. -/
  context : String
  /-- The constraints whose scores differ. -/
  diverging : List String
deriving DecidableEq, Repr

/-- The wording of the error. -/
def ScoreCorruption.message (e : ScoreCorruption) : String :=
  s!"score corruption after {e.context}: incremental score {e.incremental} != " ++
    s!"from-scratch score {e.fromScratch}"

/-- Why a move cannot be applied. -/
inductive MoveError where
  /-- The value is not in the range of the variable. -/
  | valueOutOfRange (name : String) (entity : Nat) (value : String)
  /-- There is no such entity. -/
  | entityOutOfBounds (entity count : Nat)
  /-- The list has no such position. -/
  | staleIndex (entity index length : Nat)
  /-- The entity may not be changed. -/
  | pinned (entity : Nat)
  /-- The move cannot be done for the reason given. -/
  | notDoable (reason : String)
deriving DecidableEq, Repr

/-- The wording of the error. -/
def MoveError.message : MoveError → String
  | valueOutOfRange name entity value =>
    s!"value {value} is outside the value range of '{name}' on entity {entity}"
  | entityOutOfBounds entity count => s!"entity index {entity} is out of bounds ({count} entities)"
  | staleIndex entity index length =>
    s!"stale list index {index} on entity {entity} (list length {length})"
  | pinned entity => s!"entity {entity} is pinned"
  | notDoable reason => s!"move is not doable: {reason}"

/-- Everything that can go wrong. -/
inductive SolverError where
  /-- The description of the problem is wrong. -/
  | validation (e : ValidationError)
  /-- A setting is wrong. -/
  | configuration (e : ConfigurationError)
  /-- The maintained score is wrong. -/
  | scoreCorruption (e : ScoreCorruption)
  /-- A move cannot be applied. -/
  | moveApplication (e : MoveError)
  /-- A text is no score. -/
  | scoreParse (e : Score.ParseError)
  /-- Something was asked for at the wrong time. -/
  | invalidState (reason : String)
deriving DecidableEq, Repr

namespace SolverError

/-- The wording of the error. -/
def message : SolverError → String
  | validation e => e.message
  | configuration e => e.message
  | scoreCorruption e => e.message
  | moveApplication e => e.message
  | scoreParse e => e.message
  | invalidState reason => s!"invalid state: {reason}"

/-- The error ends a run. -/
def isFatalToRun : SolverError → Bool
  | scoreCorruption _ => true
  | moveApplication _ => true
  | _ => false

/-- The wording of a run that ended in the error. -/
def failureMessage (e : SolverError) : String := s!"solve failed: {e.message}"

end SolverError

end Planning
