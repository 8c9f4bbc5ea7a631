import Planning.Document.Basic
import Planning.SolverError

/-!
# Errors as records

An error is exchanged as a record of the name of its cause and its wording, with the place of a setting or
the constraints that diverge where the error has them. A fault is a record without a wording, unless a
contract was broken.
-/

namespace Planning

/-- The name of the cause. -/
def ValidationError.name : ValidationError → String
  | noSolution => "NoSolution"
  | noEntities _ => "NoEntities"
  | noPlanningVariables _ => "NoPlanningVariables"
  | missingScoreField _ => "MissingScoreField"
  | missingValueRange _ _ => "MissingValueRange"
  | unreferencedValueRange _ _ _ => "UnreferencedValueRange"
  | unknownShadowSource _ _ _ _ => "UnknownShadowSource"
  | unknownShadowVariable _ _ => "UnknownShadowVariable"
  | shadowCycle _ => "ShadowCycle"
  | duplicateVariable _ _ => "DuplicateVariable"

/-- The name of the cause. -/
def MoveError.name : MoveError → String
  | valueOutOfRange _ _ _ => "ValueOutOfRange"
  | entityOutOfBounds _ _ => "EntityOutOfBounds"
  | staleIndex _ _ _ => "StaleIndex"
  | pinned _ => "Pinned"
  | notDoable _ => "NotDoable"

namespace SolverError

/-- The name of the cause. -/
def name : SolverError → String
  | validation e => e.name
  | configuration _ => "Configuration"
  | scoreCorruption _ => "ScoreCorruption"
  | moveApplication e => e.name
  | scoreParse _ => "ScoreParse"
  | invalidState _ => "InvalidState"

/-- The entries of the record that belong to some errors only. -/
def details : SolverError → List (String × Document)
  | configuration e => [("path", .text e.path)]
  | scoreCorruption e => [("diverging", .texts e.diverging)]
  | _ => []

/-- The entries of the record of an error. -/
def entries (e : SolverError) : List (String × Document) :=
  [("error", .text e.name), ("message", .text e.message)] ++ e.details

/-- The record of an error. -/
def toDocument (e : SolverError) : Document := .table e.entries

end SolverError

/-- The record of a fault. -/
def Fault.toDocument : Fault → Document
  | overflow => .table [("error", .text "overflow")]
  | broken message => .table [("error", .text "panic"), ("message", .text message)]
  | outOfRange => .table [("error", .text "panic")]

end Planning
