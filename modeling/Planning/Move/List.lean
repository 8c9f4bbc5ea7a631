import Planning.Move.Basic
import Planning.Variable

/-!
# Moves of list variables

Elements move within and across the lists of a list variable: one element or a sublist goes to another
position, two elements are exchanged, a segment is reversed, or an element that is in no list is put into
one. A position behind which a sublist goes counts after the sublist was taken out.
-/

namespace Planning

/-- A move of a list variable. -/
inductive ListMove (V : Type) where
  /-- An element goes to another position. -/
  | change (source sourceIndex target targetIndex : Nat)
  /-- Two elements are exchanged. -/
  | swap (first firstIndex second secondIndex : Nat)
  /-- A segment is reversed. -/
  | reverse (entity start finish : Nat)
  /-- A sublist goes to another position. -/
  | sublistChange (source start finish target targetIndex : Nat)
  /-- An element that is in no list is put into one. -/
  | assign (element : V) (entity index : Nat)
deriving DecidableEq

namespace ListMove

variable {S V : Type} (x : ListVariable S V)

/-- Two entities, or one if they are the same. -/
def oneOrTwo (a b : Nat) : List Nat := if a = b then [a] else [a, b]

/-- The entities that the move changes. -/
def entities : ListMove V → List Nat
  | change a _ b _ => oneOrTwo a b
  | swap a _ b _ => oneOrTwo a b
  | reverse e _ _ => [e]
  | sublistChange a _ _ b _ => oneOrTwo a b
  | assign _ e _ => [e]

/-- The text that shows the move. -/
def text [PlanningValue V] : ListMove V → String
  | change a i b j => Text.record "ListChangeMove"
      [("from_entity", toString a), ("from_index", toString i), ("to_entity", toString b),
        ("to_index", toString j)]
  | swap a i b j => Text.record "ListSwapMove"
      [("first", Text.tuple [toString a, toString i]), ("second", Text.tuple [toString b, toString j])]
  | reverse e i j => Text.record "ListReverseMove"
      [("entity_index", toString e), ("segment", Text.span i j)]
  | sublistChange a i j b n => Text.record "SubListChangeMove"
      [("from_entity", toString a), ("segment", Text.span i j), ("to_entity", toString b),
        ("to_index", toString n)]
  | assign v e i => Text.record "ListAssignMove"
      [("element", PlanningValue.text v), ("entity_index", toString e), ("index", toString i)]

/-- Nothing speaks against the move. -/
def check [PlanningValue V] [DecidableEq V] (s : S) : ListMove V → Except MoveError Unit
  | change a i b j => do
    x.checkEntity s a
    x.checkEntity s b
    x.checkIndex s a i 0
    x.checkIndex s b j (if a = b then 0 else 1)
  | swap a i b j => do
    x.checkEntity s a
    x.checkIndex s a i 0
    x.checkEntity s b
    x.checkIndex s b j 0
  | reverse e i j => do
    x.checkEntity s e
    if j ≤ i then throw (.notDoable s!"empty segment {i}..{j}")
    x.checkIndex s e j 1
  | sublistChange a i j b n => do
    x.checkEntity s a
    x.checkEntity s b
    if j ≤ i then throw (.notDoable s!"empty sublist {i}..{j}")
    x.checkIndex s a j 1
    let remaining := if a = b then x.size s b - (j - i) else x.size s b
    if remaining < n then throw (.staleIndex b n remaining)
  | assign v e i => do
    x.checkEntity s e
    x.checkElement s e v
    x.checkIndex s e i 1
    if x.isAssigned s v then throw (.notDoable s!"element {PlanningValue.text v} is already assigned")

/-- The move would change the solution. -/
def isDoable [PlanningValue V] [DecidableEq V] (s : S) (m : ListMove V) : Bool :=
  succeeds (m.check x s) &&
    match m with
    | change a i b j => !(a == b && i == j)
    | swap a i b j => !(a == b && i == j) && (x.list s a)[i]? != (x.list s b)[j]?
    | reverse _ i j => decide (i + 2 ≤ j)
    | sublistChange a i _ b n => !(a == b && n == i)
    | assign _ _ _ => true

/-- An element goes from a position to another one. -/
def transfer (s : S) (a i b j : Nat) : Checked S := do
  let v ← member (x.list s a) i
  let s ← x.edit s a fun l => removeAt l i
  x.edit s b fun l => insertAt l j v

/-- A sublist goes from its place to another position. -/
def transferAll (s : S) (a i j b n : Nat) : Checked S := do
  let (part, rest) ← cutAt (x.list s a) i j
  let s ← x.set s a rest
  x.edit s b fun l => insertAllAt l n part

/-- Two elements that are given are exchanged. -/
def exchange (s : S) (a i b j : Nat) (v w : V) : Checked S := do
  if a = b then x.edit s a fun l => swapAt l i j
  else
    let s ← x.edit s a fun l => replaceAt l i w
    x.edit s b fun l => replaceAt l j v

/-- What the move does. -/
def apply (s : S) : ListMove V → Checked S
  | change a i b j => transfer x s a i b j
  | swap a i b j => do
    exchange x s a i b j (← member (x.list s a) i) (← member (x.list s b) j)
  | reverse e i j => x.edit s e fun l => reverseAt l i j
  | sublistChange a i j b n => transferAll x s a i j b n
  | assign v e i => x.edit s e fun l => insertAt l i v

/-- What undoes the move after it was done in a solution. -/
def undo (old : S) (m : ListMove V) (s : S) : Checked S :=
  match m with
  | change a i b j => transfer x s b j a i
  | swap a i b j => do
    exchange x s a i b j (← member (x.list old b) j) (← member (x.list old a) i)
  | reverse e i j => x.edit s e fun l => reverseAt l i j
  | sublistChange a i j b n => transferAll x s b n (n + (j - i)) a i
  | assign _ e i => x.edit s e fun l => removeAt l i

/-- The edit of the move, unless something speaks against it. -/
def plan [PlanningValue V] [DecidableEq V] (s : S) (m : ListMove V) : Except MoveError (Edit S) := do
  m.check x s
  return {
    entities := m.entities.map fun e => (x.entityClass, e)
    name := x.name
    apply := fun s => m.apply x s
    undo := m.undo x s }

variable [PlanningValue V]

/-- An element, or none, at a position. -/
def positionState (kind : String) (e i : Nat) (v : Option V) : Value :=
  .list [.text kind, .int e, .int i, optionValue v]

/-- Two positions with their elements. -/
def exchangeState (a b : Nat × Nat) (v w : Option V) : Value :=
  .list [.text "list_swap", .int a.1, .int a.2, optionValue v, .int b.1, .int b.2, optionValue w]

/-- The order of positions. -/
def precedes (a b : Nat × Nat) : Bool := decide (a.1 < b.1) || (a.1 == b.1 && decide (a.2 < b.2))

/-- The elements of a segment. -/
def elements (l : List V) : Value := .list (l.map PlanningValue.toValue)

/-- What the move would change. -/
def signature (s : S) : ListMove V → MoveSignature
  | change a i b j =>
    let v := (x.list s a)[i]?
    .ofEntities x.entityClass [a, b] (positionState "list_change" a i v)
      (positionState "list_change" b j v)
  | swap a i b j =>
    let found := (x.list s a)[i]?.isSome && (x.list s b)[j]?.isSome
    let v := if found then (x.list s a)[i]? else none
    let w := if found then (x.list s b)[j]? else none
    if precedes (b, j) (a, i) then
      .ofEntities x.entityClass [a, b] (exchangeState (b, j) (a, i) w v)
        (exchangeState (b, j) (a, i) v w)
    else
      .ofEntities x.entityClass [a, b] (exchangeState (a, i) (b, j) v w)
        (exchangeState (a, i) (b, j) w v)
  | reverse e i j =>
    let part := segment (x.list s e) i j
    .ofEntities x.entityClass [e] (.list [.text "list_reverse", .int i, elements part])
      (.list [.text "list_reverse", .int i, elements part.reverse])
  | sublistChange a i j b n =>
    let part := segment (x.list s a) i j
    .ofEntities x.entityClass [a, b] (.list [.text "sublist_change", .int a, .int i, elements part])
      (.list [.text "sublist_change", .int b, .int n, elements part])
  | assign v e i =>
    .ofEntities x.entityClass [e]
      (.list [.text "list_assign", .text "unassigned", PlanningValue.toValue v])
      (positionState "list_assign" e i (some v))

/-- The move of a variable as a move of solutions. -/
def toMove [DecidableEq V] (m : ListMove V) : Move S where
  text := m.text
  entityClass := x.entityClass
  entities := m.entities
  name := x.name
  isDoable s := m.isDoable x s
  plan s := m.plan x s
  signature s := m.signature x s

end ListMove

end Planning
