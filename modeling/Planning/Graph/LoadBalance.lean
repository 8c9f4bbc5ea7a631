import Planning.Value.Basic

/-!
# Load balance

Loads add up amounts by key. They are balanced to the degree in which the squares of the loads exceed what
equal loads would give; the square root of the excess, rounded, is the unfairness. The entries stand in
ascending order of their keys, so that the loads are determined by the items that made them up.
-/

/-!
## Tallies

A tally counts how often each value was put in. The values stand in ascending order with positive counts,
so that a tally is determined by what it counts, whatever the order in which the values came.
-/

namespace Planning

/-- Values in ascending order, each with how often it counts. -/
abbrev Tally := List (Value × Nat)

namespace Tally

/-- The tally with one more of a value. -/
def add (v : Value) : Tally → Tally
  | [] => [(v, 1)]
  | (w, n) :: rest =>
    match compare v w with
    | .lt => (v, 1) :: (w, n) :: rest
    | .eq => (w, n + 1) :: rest
    | .gt => (w, n) :: add v rest

/-- The tally with one less of a value; a value that is not counted stays so. -/
def remove (v : Value) : Tally → Tally
  | [] => []
  | (w, n) :: rest => if w = v then if n ≤ 1 then rest else (w, n - 1) :: rest else (w, n) :: remove v rest

/-- The values counted, in ascending order. -/
def values (t : Tally) : List Value := t.map Prod.fst

/-- How often a value counts. -/
def count (t : Tally) (v : Value) : Nat := (List.lookup v t).getD 0

end Tally

end Planning

namespace Planning

/-- The load of one key. -/
structure Load where
  /-- The key. -/
  key : Value
  /-- How many items carry the key. -/
  items : Nat
  /-- The sum of their amounts. -/
  amount : Int
deriving DecidableEq, Repr

/-- The loads of all keys with their sum and the sum of their squares. -/
structure Loads where
  /-- The loads in ascending order of their keys. -/
  entries : List Load := []
  /-- The sum of the loads. -/
  sum : Int := 0
  /-- The sum of the squares of the loads. -/
  squares : Int := 0
deriving DecidableEq, Repr

namespace Loads

/-- A sum of squares that fits 128 signed bits. -/
def boundedSquares (n : Int) : Checked Int :=
  if -170141183460469231731687303715884105728 ≤ n ∧ n ≤ 170141183460469231731687303715884105727 then
    .ok n
  else .error .overflow

/-- The load of a key, if it has one. -/
def find? (l : Loads) (key : Value) : Option Load := l.entries.find? fun e => e.key = key

/-- A load put in its place, instead of a former load of the key. -/
def place (new : Load) : List Load → List Load
  | [] => [new]
  | e :: rest =>
    match compare new.key e.key with
    | .lt => new :: e :: rest
    | .eq => new :: rest
    | .gt => e :: place new rest

/-- The loads after the amount of a key changed from one number to another. -/
def shift (l : Loads) (key : Value) (items : Nat) (old diff : Int) : Checked Loads := do
  let new ← bounded (old + diff)
  let sum ← bounded (l.sum + diff)
  let squares ← boundedSquares (l.squares + (new * new - old * old))
  return { entries := place ⟨key, items, new⟩ l.entries, sum := sum, squares := squares }

/-- The loads with one more item. -/
def add (l : Loads) (key : Value) (amount : Int) : Checked Loads :=
  match l.find? key with
  | some e => l.shift key (e.items + 1) e.amount amount
  | none => l.shift key 1 0 amount

/-- The loads without a key, of which no item is left. -/
def drop (l : Loads) (key : Value) : Checked Loads := do
  let rest := ((l.find? key).map Load.amount).getD 0
  let sum ← bounded (l.sum - rest)
  let squares ← boundedSquares (l.squares - rest * rest)
  return { entries := l.entries.filter fun e => e.key ≠ key, sum := sum, squares := squares }

/-- The loads with one item less; a key without load stays without. -/
def remove (l : Loads) (key : Value) (amount : Int) : Checked Loads :=
  match l.find? key with
  | none => .ok l
  | some e => do
    let l ← l.shift key (e.items - 1) e.amount (← bounded (-amount))
    if e.items ≤ 1 then l.drop key else return l

/-- The square root, rounded, of what the squares of the loads exceed those of equal loads by. -/
def unfairness (l : Loads) : Int :=
  if l.entries.isEmpty then 0
  else
    let sum := Float.ofInt l.sum
    let meanSquare := sum * sum / Float.ofNat l.entries.length
    let excess := Float.ofInt l.squares - meanSquare
    (if excess > 0 then excess else 0).sqrt.round.toInt64.toInt

/-- The loads by key and the unfairness. -/
def toValue (l : Loads) : Value :=
  .pair (.list (l.entries.map fun e => .pair e.key (.int e.amount))) (.int l.unfairness)

end Loads

end Planning
