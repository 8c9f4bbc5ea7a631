/-!
# Settings that are one of a few words

Some settings choose among a few ways to do a thing. Each choice has a word, in which it is written in a
settings file, and a name, in which it is shown.
-/

namespace Planning

/-- Settings that are one of a few words. -/
class Choice (α : Type) where
  /-- The choices with their words. -/
  choices : List (String × α)

namespace Choice

/-- A word with a capital. -/
def capital (s : String) : String :=
  match s.toList with
  | [] => ""
  | c :: cs => String.ofList (c.toUpper :: cs)

/-- The name that a word of parts makes: each part with a capital. -/
def nameOfWord (s : String) : String := String.join ((s.splitOn "_").map capital)

variable {α : Type} [Choice α]

/-- The choice of a word. -/
def ofWord? (s : String) : Option α := choices.lookup s

/-- The word of a choice. -/
def word [DecidableEq α] (a : α) : String :=
  ((choices.find? fun c => decide (c.2 = a)).map Prod.fst).getD ""

/-- The name of a choice. -/
def name [DecidableEq α] (a : α) : String := nameOfWord (word a)

end Choice

/-- How far a run checks itself. -/
inductive EnvironmentMode where
  /-- Every run may be different. -/
  | nonReproducible
  /-- Runs with one seed are the same. -/
  | reproducible
  /-- The score is compared with one calculated from scratch after each step. -/
  | fastAssert
  /-- The score is compared after each evaluated move as well. -/
  | fullAssert
deriving DecidableEq, Repr

instance : Choice EnvironmentMode where
  choices := [("non_reproducible", .nonReproducible), ("reproducible", .reproducible),
    ("fast_assert", .fastAssert), ("full_assert", .fullAssert)]

namespace EnvironmentMode

/-- Runs with one seed are the same. -/
def isReproducible (m : EnvironmentMode) : Bool := m != nonReproducible

/-- The score is checked after each step. -/
def assertsSteps (m : EnvironmentMode) : Bool := m == fastAssert || m == fullAssert

/-- The score is checked after each evaluated move. -/
def assertsMoves (m : EnvironmentMode) : Bool := m == fullAssert

end EnvironmentMode

/-- How several conditions to stop are combined. -/
inductive Composition where
  /-- One is enough. -/
  | or
  /-- All are needed. -/
  | and
deriving DecidableEq, Repr

instance : Choice Composition where
  choices := [("or", .or), ("and", .and)]

/-- In which order a construction tries entities and values. -/
inductive ConstructionKind where
  /-- Both in their order. -/
  | firstFit
  /-- The most difficult entities first. -/
  | firstFitDecreasing
  /-- The weakest values first. -/
  | weakestFit
  /-- The most difficult entities and the weakest values first. -/
  | weakestFitDecreasing
  /-- The strongest values first. -/
  | strongestFit
  /-- The most difficult entities and the strongest values first. -/
  | strongestFitDecreasing
  /-- Each element at its cheapest position of a list. -/
  | cheapestInsertion
deriving DecidableEq, Repr

instance : Choice ConstructionKind where
  choices := [("first_fit", .firstFit), ("first_fit_decreasing", .firstFitDecreasing),
    ("weakest_fit", .weakestFit), ("weakest_fit_decreasing", .weakestFitDecreasing),
    ("strongest_fit", .strongestFit), ("strongest_fit_decreasing", .strongestFitDecreasing),
    ("cheapest_insertion", .cheapestInsertion)]

/-- The most difficult entities come first. -/
def ConstructionKind.sortsEntities : ConstructionKind → Bool
  | firstFitDecreasing => true
  | weakestFitDecreasing => true
  | strongestFitDecreasing => true
  | _ => false

/-- When a step stops evaluating moves. -/
inductive PickEarly where
  /-- When all are evaluated. -/
  | never
  /-- At the first move that improves the best score. -/
  | firstBestScoreImproving
  /-- At the first move that improves the score of the last step. -/
  | firstLastStepScoreImproving
deriving DecidableEq, Repr

instance : Choice PickEarly where
  choices := [("never", .never), ("first_best_score_improving", .firstBestScoreImproving),
    ("first_last_step_score_improving", .firstLastStepScoreImproving)]

/-- Which of the best moves is taken. -/
inductive TieBreak where
  /-- The first one. -/
  | firstEncountered
  /-- A random one. -/
  | random
deriving DecidableEq, Repr

instance : Choice TieBreak where
  choices := [("first_encountered", .firstEncountered), ("random", .random)]

/-- In which order candidates come. -/
inductive SelectionOrder where
  /-- As they are listed. -/
  | asListed
  /-- Shuffled at each step. -/
  | random
deriving DecidableEq, Repr

instance : Choice SelectionOrder where
  choices := [("original", .asListed), ("random", .random)]

/-- Which assignments an exhaustive search leaves out. -/
inductive ExhaustiveKind where
  /-- Those that cannot beat the best score. -/
  | branchAndBound
  /-- None. -/
  | bruteForce
deriving DecidableEq, Repr

instance : Choice ExhaustiveKind where
  choices := [("branch_and_bound", .branchAndBound), ("brute_force", .bruteForce)]

/-- Which node an exhaustive search expands next. -/
inductive Exploration where
  /-- The latest one, in the order of values. -/
  | depthFirst
  /-- The one with the best score. -/
  | scoreFirst
deriving DecidableEq, Repr

instance : Choice Exploration where
  choices := [("depth_first", .depthFirst), ("score_first", .scoreFirst)]

end Planning
