import Planning.Selector.Neighborhood

/-!
# Move selectors

A selector lists the candidate moves of a step: a neighborhood in its order or shuffled, or the moves of
several selectors one after another, of which each keeps its own order. It also knows about how many moves
there are without listing them.
-/

namespace Planning

/-- What lists the candidate moves of a step. -/
structure MoveSelector (S : Type) where
  /-- The text that shows the selector. -/
  text : String
  /-- About how many moves there are. -/
  size : S → Checked Nat
  /-- The moves. -/
  moves : S → Generator.Draw (List (Move S))

namespace MoveSelector

variable {S V : Type}

/-- The text of a selector of a variable. -/
def selectorText (kind name : String) (o : SelectionOrder) : String :=
  Text.record kind [("variable", Text.quoted name), ("order", Choice.name o)]

/-- The number of pairs among some things. -/
def pairs (n : Nat) : Nat := n * (n - 1) / 2

section Basic

variable [PlanningValue V] [DecidableEq V] (x : BasicVariable S V) (o : SelectionOrder)

/-- The moves of a basic variable in a given order. -/
def ofBasic (l : Checked (List (BasicMove V))) : Generator.Draw (List (Move S)) := do
  return (← o.arrange (← l)).map fun m => m.toMove x

/-- The changes of entities to other values. -/
def change : MoveSelector S where
  text := selectorText "ChangeMoveSelector" x.name o
  size s := do counted (sumOf (← (List.range (x.count s)).mapM fun e => x.range.size s e))
  moves s := ofBasic x o (BasicMove.changes x s)

/-- The swaps of pairs of entities. -/
def swap : MoveSelector S where
  text := selectorText "SwapMoveSelector" x.name o
  size s := .ok (pairs (x.count s))
  moves s := ofBasic x o (.ok (BasicMove.swaps x s))

end Basic

section List

variable [PlanningValue V] [DecidableEq V] (x : ListVariable S V) (o : SelectionOrder)

/-- The moves of a list variable in a given order. -/
def ofList (l : List (ListMove V)) : Generator.Draw (List (Move S)) := do
  return (← o.arrange l).map fun m => m.toMove x

/-- The moves of elements. -/
def listChange : MoveSelector S where
  text := selectorText "ListChangeMoveSelector" x.name o
  size s := .ok (x.movableSize s * (x.movableSize s + (x.movable s).length))
  moves s := ofList x o (ListMove.changes x s)

/-- The swaps of pairs of elements. -/
def listSwap : MoveSelector S where
  text := selectorText "ListSwapMoveSelector" x.name o
  size s := .ok (pairs (x.movableSize s))
  moves s := ofList x o (ListMove.swaps x s)

/-- The reversals of segments. -/
def listReverse : MoveSelector S where
  text := selectorText "ListReverseMoveSelector" x.name o
  size s := .ok (sumOf ((x.movable s).map fun l => pairs l.2))
  moves s := ofList x o (ListMove.reversals x s)

/-- The moves of sublists. A least size of zero counts as one, and a greatest size below the least as the
least. -/
def sublistChange (minimum maximum : Nat) : MoveSelector S :=
  let low := max minimum 1
  let high := max maximum low
  { text := Text.record "SubListChangeMoveSelector" [("variable", Text.quoted x.name),
      ("sizes", s!"{low}..={high}"), ("order", Choice.name o)]
    size := fun s => do
      let sizes := (← counted (high + 1)) - low
      counted (x.movableSize s * sizes * (x.movableSize s + (x.movable s).length))
    moves := fun s => ofList x o (ListMove.sublistChanges x s low high) }

end List

/-- The moves of several selectors. -/
def union (l : List (MoveSelector S)) : MoveSelector S where
  text := Text.record "UnionMoveSelector" [("children", toString l.length)]
  size s := do counted (sumOf (← l.mapM fun x => x.size s))
  moves s := do return (← l.mapM fun x => x.moves s).flatten

end MoveSelector

end Planning
