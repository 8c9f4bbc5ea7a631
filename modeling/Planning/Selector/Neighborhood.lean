import Planning.Move.List
import Planning.Move.Value
import Planning.Random.Generator
import Planning.Settings.Choice
import Planning.Variable

/-!
# Candidates and neighborhoods

What may be assigned to an entity, and which moves lead from a solution to others.
-/

/-!
## Candidate entities and values

A basic variable offers its entities and their values as candidates, in the order in which they are listed,
shuffled, or sorted by how hard an entity is to assign or how likely a value is to fit. Sorting keeps the
order of what is equal.
-/

namespace Planning

/-- Members in a given order. -/
def SelectionOrder.arrange {α : Type} (o : SelectionOrder) (l : List α) : Generator.Draw (List α) :=
  match o with
  | .asListed => return l
  | .random => Generator.shuffle l

/-- In which order the values of an entity come. -/
inductive ValueOrder where
  /-- As they are listed or shuffled. -/
  | arranged (o : SelectionOrder)
  /-- Those that are least likely to fit first. -/
  | weakestFirst
  /-- Those that are most likely to fit first. -/
  | strongestFirst

/-- Members sorted by a key, the least first; a single member needs no key. -/
def sortByKey {α : Type} (key : α → Checked Int) (l : List α) : Checked (List α) := do
  if l.length ≤ 1 then return l
  let keyed ← l.mapM fun a => do return (← key a, a)
  return (keyed.mergeSort fun a b => decide (a.1 ≤ b.1)).map Prod.snd

/-- Members sorted by a key, the greatest first; a single member needs no key. -/
def sortByKeyDescending {α : Type} (key : α → Checked Int) (l : List α) : Checked (List α) := do
  if l.length ≤ 1 then return l
  let keyed ← l.mapM fun a => do return (← key a, a)
  return (keyed.mergeSort fun a b => decide (b.1 ≤ a.1)).map Prod.snd

namespace BasicVariable

variable {S V : Type} (x : BasicVariable S V)

/-- The entities that may be changed. -/
def movable (s : S) : List Nat := (List.range (x.count s)).filter fun e => !x.isPinned s e

/-- The entities without a value, the hardest first if they are sorted and their difficulty is known. -/
def unassignedSorted (sorted : Bool) (s : S) : Checked (List Nat) :=
  match sorted, x.difficulty with
  | true, some difficulty => sortByKeyDescending (difficulty s) (x.unassigned s)
  | _, _ => .ok (x.unassigned s)

/-- The values of an entity in a given order; an order by strength needs to know it. -/
def orderedValues (o : ValueOrder) (s : S) (e : Nat) : Generator.Draw (List V) := do
  let values ← (x.range.values s e : Checked (List V))
  match o, x.strength with
  | .arranged o, _ => o.arrange values
  | .weakestFirst, some strength => sortByKey (strength s) values
  | .strongestFirst, some strength => sortByKeyDescending (strength s) values
  | _, none => return values

/-- What an entity may be given: the values in a given order, then none if that is allowed. -/
def candidates (o : ValueOrder) (s : S) (e : Nat) : Generator.Draw (List (Option V)) := do
  return (← x.orderedValues o s e).map some ++ if x.allowsUnassigned then [none] else []

end BasicVariable

end Planning

/-!
## Neighborhoods

The neighborhood of a solution under a kind of move is the list of all moves of that kind between movable
entities, in a fixed order. Moves that would change nothing are left out where that is plain to see.
-/

namespace Planning

namespace BasicMove

variable {S V : Type} (x : BasicVariable S V) (s : S)

/-- What an entity may be given in the order of the range. -/
def options (e : Nat) : Checked (List (Option V)) := do
  return (← x.range.values s e).map some ++ if x.allowsUnassigned then [none] else []

/-- The changes of an entity to another value. -/
def changesOf [DecidableEq V] (e : Nat) : Checked (List (BasicMove V)) := do
  return ((← options x s e).filter fun v => v != x.get? s e).map (change e)

/-- The changes of all entities. -/
def changes [DecidableEq V] : Checked (List (BasicMove V)) := do
  return (← (x.movable s).mapM (changesOf x s)).flatten

/-- The swaps of each entity of a list with the later ones that hold another value. -/
def swapsAmong [DecidableEq V] : List Nat → List (BasicMove V)
  | [] => []
  | e :: rest => ((rest.filter fun f => x.get? s e != x.get? s f).map (swap e)) ++ swapsAmong rest

/-- The swaps of all pairs of entities. -/
def swaps [DecidableEq V] : List (BasicMove V) := swapsAmong x s (x.movable s)

end BasicMove

namespace ListVariable

variable {S V : Type} (x : ListVariable S V) (s : S)

/-- The entities that may be changed, with the lengths of their lists. -/
def movable : List (Nat × Nat) :=
  ((List.range (x.count s)).filter fun e => !x.isPinned s e).map fun e => (e, x.size s e)

/-- The number of elements in movable lists. -/
def movableSize : Nat := sumOf ((x.movable s).map Prod.snd)

end ListVariable

namespace ListMove

variable {S V : Type} (x : ListVariable S V) (s : S)

/-- The moves of an element to every other position. -/
def changesOf (a i : Nat) : List (ListMove V) :=
  (x.movable s).flatMap fun (b, n) =>
    ((List.range (if a = b then n else n + 1)).filter fun j => !(a == b && i == j)).map (change a i b)

/-- The moves of all elements. -/
def changes : List (ListMove V) :=
  (x.movable s).flatMap fun (a, n) => (List.range n).flatMap (changesOf x s a)

/-- The swaps of each position of a list with the later ones. -/
def swapsAmong : List (Nat × Nat) → List (ListMove V)
  | [] => []
  | (a, i) :: rest => (rest.map fun (b, j) => swap a i b j) ++ swapsAmong rest

/-- The swaps of all pairs of positions. -/
def swaps : List (ListMove V) :=
  swapsAmong ((x.movable s).flatMap fun (e, n) => (List.range n).map fun i => (e, i))

/-- The reversals of all segments of two or more elements. -/
def reversals : List (ListMove V) :=
  (x.movable s).flatMap fun (e, n) =>
    (List.range n).flatMap fun i => (List.range' (i + 2) (n + 1 - (i + 2))).map (reverse e i)

/-- The moves of a sublist to every other position. -/
def sublistChangesOf (a i size : Nat) : List (ListMove V) :=
  (x.movable s).flatMap fun (b, n) =>
    let positions := (if a = b then n - size else n) + 1
    ((List.range positions).filter fun j => !(a == b && i == j)).map (sublistChange a i (i + size) b)

/-- The moves of all sublists whose size is in a span. -/
def sublistChanges (minimum maximum : Nat) : List (ListMove V) :=
  (x.movable s).flatMap fun (a, n) =>
    (List.range' minimum (min maximum n + 1 - minimum)).flatMap fun size =>
      (List.range (n + 1 - size)).flatMap fun i => sublistChangesOf x s a i size

end ListMove

end Planning
