import Planning.Director.Basic
import Planning.Value.Text

/-!
# Moves

A move is an edit of the variables of a few entities, planned against a solution: either it says why it
cannot be applied, or it gives the edit with what undoes it. Its signature tells what it changes, so that
one move can be recognised as undoing another.
-/

namespace Planning

/-- What a move changes: the state of its entities before and after it. -/
structure MoveSignature where
  /-- The index of the entity class. -/
  entityClass : Nat
  /-- The entities in order, each once. -/
  entities : List Nat
  /-- The state before the move. -/
  before : Value
  /-- The state after the move. -/
  after : Value
deriving DecidableEq

namespace MoveSignature

/-- The signature of a change of entities given in any order. -/
def ofEntities (entityClass : Nat) (entities : List Nat) (before after : Value) : MoveSignature :=
  ⟨entityClass, (entities.mergeSort fun a b => decide (a ≤ b)).eraseReps, before, after⟩

/-- Applying the other would undo the change. -/
def reverses (a b : MoveSignature) : Bool :=
  a.entityClass == b.entityClass && a.entities == b.entities && a.before == b.after &&
    a.after == b.before

/-- Both change a common entity. -/
def touches (a b : MoveSignature) : Bool :=
  a.entityClass == b.entityClass && a.entities.any fun e => b.entities.contains e

/-- The text that shows the signature. -/
def text (s : MoveSignature) : String :=
  Text.record "MoveSignature"
    [("descriptor_index", toString s.entityClass), ("entities", Text.list (s.entities.map toString)),
      ("from", s.before.render), ("to", s.after.render)]

end MoveSignature

/-- An edit of a variable of some entities. -/
structure Edit (S : Type) where
  /-- The entities in the order of their announcement. -/
  entities : List EntityRef
  /-- The name of the variable. -/
  name : String
  /-- What is done. -/
  apply : S → Checked S
  /-- What undoes it. -/
  undo : S → Checked S

/-- A candidate change of a solution. -/
structure Move (S : Type) where
  /-- The text that shows the move. -/
  text : String
  /-- The index of the entity class. -/
  entityClass : Nat
  /-- The entities that it changes. -/
  entities : List Nat
  /-- The name of the variable. -/
  name : String
  /-- It would change the solution. -/
  isDoable : S → Bool
  /-- The edit, or why it cannot be made. -/
  plan : S → Except MoveError (Edit S)
  /-- What it would change. -/
  signature : S → MoveSignature

/-- A result that is there rather than an error. -/
def succeeds {ε α : Type} : Except ε α → Bool
  | .ok _ => true
  | .error _ => false

namespace Director

variable {S : Type} {k : ScoreKind}

/-- An edit with its announcements. -/
def perform (dir : Director S k) (e : Edit S) : Checked (Director S k) := do
  let dir ← dir.beforeVariableChanged.edit e.apply
  let dir ← e.entities.foldlM (fun dir x => dir.afterVariableChanged x e.name) dir
  return dir.remember e.undo

/-- A move is applied, unless it cannot be. -/
def doMove (dir : Director S k) (m : Move S) : Checked (Director S k × Except MoveError Unit) := do
  match m.plan dir.solution with
  | .error e => return (dir, .error e)
  | .ok e => return (← dir.perform e, .ok ())

end Director

end Planning

/-!
## Evaluation of moves

A move is evaluated by making it, scoring the solution and undoing it, so that the solution is as before. If
the score is checked as well and found wrong, the solution is left as it is.
-/

namespace Planning

namespace Director

variable {S : Type} {k : ScoreKind} [PlanningSolution S k]

/-- The score of the solution, compared with one calculated from scratch if that is asked for. -/
def scored (dir : Director S k) (check : Bool) :
    Checked (Director S k × Except ScoreCorruption (Score k)) := do
  if check then dir.assertScore
  else
    let (dir, score) ← dir.calculate
    return (dir, .ok score)

/-- The score that a move would give. -/
def evaluate (dir : Director S k) (m : Move S) (check : Bool) :
    Checked (Director S k × Except SolverError (Score k)) := do
  match ← dir.record.doMove m with
  | (dir, .error e) => return ((← dir.undoRecording).stopRecording, .error (.moveApplication e))
  | (dir, .ok _) =>
    match ← dir.scored check with
    | (dir, .error e) => return (dir.stopRecording, .error (.scoreCorruption e))
    | (dir, .ok score) =>
      let dir ← dir.undoRecording
      if !check then return (dir.stopRecording, .ok score)
      match ← dir.assertScore with
      | (dir, .error e) => return (dir.stopRecording, .error (.scoreCorruption e))
      | (dir, .ok _) => return (dir.stopRecording, .ok score)

end Director

/-- The first of some things with the best score. -/
def firstBest {α : Type} {k : ScoreKind} : List (α × Score k) → Option (α × Score k)
  | [] => none
  | a :: rest => some (rest.foldl (fun best b => if b.2.beats best.2 then b else best) a)

end Planning
