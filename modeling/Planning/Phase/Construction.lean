import Planning.Move.List
import Planning.Move.Value
import Planning.Phase.Basic
import Planning.Selector.Neighborhood

/-!
# Construction

Each entity without a value gets the first of the values with the best score, one entity after another. An
entity for which no value would change anything is left as it is.
-/

namespace Planning

/-- A construction of values of a basic variable. -/
structure Construction (S V : Type) (k : ScoreKind) where
  /-- The variable. -/
  planned : BasicVariable S V
  /-- The order of entities and values. -/
  kind : ConstructionKind
  /-- When the phase stops. -/
  termination : Option (Termination k) := none

/-- The order of values that a construction goes by. -/
def ConstructionKind.valueOrder : ConstructionKind → ValueOrder
  | weakestFit => .weakestFirst
  | weakestFitDecreasing => .weakestFirst
  | strongestFit => .strongestFirst
  | strongestFitDecreasing => .strongestFirst
  | _ => .arranged .asListed

namespace Construction

variable {S V : Type} {k : ScoreKind} [PlanningSolution S k] [PlanningValue V] [DecidableEq V]
  (x : Construction S V k)

omit [PlanningSolution S k] in
/-- The changes that an entity may be given. -/
def candidates (e : Nat) : Running S k (List (Move S)) := do
  let s := (← get).director.solution
  let values ← Running.draw (x.planned.candidates x.kind.valueOrder s e)
  let moves := values.map fun v => (BasicMove.change e v).toMove x.planned
  return moves.filter fun m => m.isDoable s

/-- The step of an entity. -/
def step (e : Nat) : Running S k Unit := do
  Running.stepStarted
  if !(← Running.stepWithBest (← x.candidates e)) then
    Running.logAt .debug fun _ =>
      ⟨.debug, [("message", .shown "No candidate value"), ("event", .text "entity_skipped"),
        ("entity", .number e)]⟩

/-- The steps of some entities, as long as the phase does not have to stop. -/
def stepAll : List Nat → Running S k Unit
  | [] => return ()
  | e :: es => do
    if (← get).isPhaseTerminated x.termination then return ()
    x.step e
    stepAll es

/-- The course of the construction. -/
def run : Running S k Unit := do
  let s := (← get).director.solution
  let entities ← Running.checked (x.planned.unassignedSorted x.kind.sortsEntities s)
  x.stepAll entities
  discard Running.updateBest

/-- The text that shows the construction. -/
def text : String :=
  Text.record "ConstructionHeuristicPhase"
    [("variable", Text.quoted x.planned.name), ("construction_type", Choice.name x.kind),
      ("termination", Text.optional Termination.text x.termination)]

/-- The construction as a phase. -/
def phase : Phase S k := ⟨"ConstructionHeuristic", x.text, x.run⟩

end Construction

end Planning

/-!
## Cheapest insertion

Each element that is in no list goes to the first of the positions with the best score, one element after
another. Positions of lists that may not be changed do not count; without any others nothing is inserted.
-/

namespace Planning

/-- A construction of the lists of a list variable. -/
structure Insertion (S V : Type) (k : ScoreKind) where
  /-- The variable. -/
  planned : ListVariable S V
  /-- When the phase stops. -/
  termination : Option (Termination k) := none

namespace Insertion

variable {S V : Type} {k : ScoreKind} [PlanningSolution S k] [PlanningValue V] [DecidableEq V]
  (x : Insertion S V k)

omit [PlanningSolution S k] [PlanningValue V] [DecidableEq V] in
/-- The insertions of an element at all positions. -/
def insertions (s : S) (v : V) : List (ListMove V) :=
  ((List.range (x.planned.count s)).filter fun e => !x.planned.isPinned s e).flatMap fun e =>
    (List.range (x.planned.size s e + 1)).map fun i => .assign v e i

/-- The steps of some elements, as long as the phase does not have to stop. -/
def stepAll : List V → Running S k Unit
  | [] => return ()
  | v :: vs => do
    if (← get).isPhaseTerminated x.termination then return ()
    Running.stepStarted
    let moves := x.insertions (← get).director.solution v
    if ← Running.stepWithBest (moves.map fun m => m.toMove x.planned) then stepAll vs

/-- The course of the insertion. -/
def run : Running S k Unit := do
  x.stepAll (← Running.checked (x.planned.unassigned (← get).director.solution))
  discard Running.updateBest

/-- The text that shows the insertion. -/
def text : String :=
  Text.record "ListConstructionPhase"
    [("variable", Text.quoted x.planned.name), ("termination", Text.optional Termination.text x.termination)]

/-- The insertion as a phase. -/
def phase : Phase S k := ⟨"ListConstruction", x.text, x.run⟩

end Insertion

end Planning
