import Planning.Move.Basic
import Planning.Variable

/-!
# Moves of basic variables

A change gives an entity another value; a swap exchanges the values of two entities. Both check that the
entities may be changed and that the values are in range before anything is edited.
-/

namespace Planning

/-- A move of a basic variable. -/
inductive BasicMove (V : Type) where
  /-- An entity takes another value, or none. -/
  | change (entity : Nat) (value : Option V)
  /-- Two entities exchange their values. -/
  | swap (left right : Nat)
deriving DecidableEq

namespace BasicMove

variable {S V : Type} [PlanningValue V] (x : BasicVariable S V)

/-- The entities that the move changes. -/
def entities : BasicMove V → List Nat
  | change e _ => [e]
  | swap l r => [l, r]

/-- The text that shows the move. -/
def text : BasicMove V → String
  | change e v => Text.record "ChangeMove"
      [("variable_name", Text.quoted x.name), ("entity_index", toString e), ("to_value", optionText v)]
  | swap l r => Text.record "SwapMove"
      [("variable_name", Text.quoted x.name), ("left", toString l), ("right", toString r)]

/-- The move would change the solution. -/
def isDoable [DecidableEq V] (s : S) : BasicMove V → Bool
  | change e v => succeeds (x.checkEntity s e) && x.get? s e != v
  | swap l r =>
    l != r && succeeds (x.checkEntity s l) && succeeds (x.checkEntity s r) && x.get? s l != x.get? s r

/-- Nothing speaks against the move. -/
def check (s : S) : BasicMove V → Except MoveError Unit
  | change e v => do
    x.checkEntity s e
    x.checkValue s e v
  | swap l r => do
    x.checkEntity s l
    x.checkEntity s r
    x.checkValue s l (x.get? s r)
    x.checkValue s r (x.get? s l)

omit [PlanningValue V] in
/-- The values that the entities get from the move. -/
def result (s : S) : BasicMove V → List (Nat × Option V)
  | change e v => [(e, v)]
  | swap l r => [(l, x.get? s r), (r, x.get? s l)]

omit [PlanningValue V] in
/-- The solution with other values of entities, one after another. -/
def assignAll (s : S) (l : List (Nat × Option V)) : S := l.foldl (fun s (e, v) => x.set s e v) s

/-- The edit of the move, unless something speaks against it. -/
def plan (s : S) (m : BasicMove V) : Except MoveError (Edit S) := do
  m.check x s
  let new := m.result x s
  let old := m.entities.map fun e => (e, x.get? s e)
  return {
    entities := m.entities.map fun e => (x.entityClass, e)
    name := x.name
    apply := fun s => .ok (assignAll x s new)
    undo := fun s => .ok (assignAll x s old) }

/-- The value of an entity. -/
def entityState (e : Nat) (v : Option V) : Value := .list [.text "change", .int e, optionValue v]

/-- The values of two entities. -/
def pairState (a b : Option V) : Value := .list [.text "swap", optionValue a, optionValue b]

/-- What the move would change. -/
def signature (s : S) : BasicMove V → MoveSignature
  | change e v => .ofEntities x.entityClass [e] (entityState e (x.get? s e)) (entityState e v)
  | swap l r =>
    let a := x.get? s (min l r)
    let b := x.get? s (max l r)
    .ofEntities x.entityClass [l, r] (pairState a b) (pairState b a)

/-- The move of a variable as a move of solutions. -/
def toMove [DecidableEq V] (m : BasicMove V) : Move S where
  text := m.text x
  entityClass := x.entityClass
  entities := m.entities
  name := x.name
  isDoable s := m.isDoable x s
  plan s := m.plan x s
  signature s := m.signature x s

end BasicMove

end Planning
