import Planning.Graph.Delta
import Planning.Table

/-!
# Filtering

Filtering lets pass the tuples for which a predicate holds. It keeps the identities of those that passed,
so that a tuple that changes comes, goes, changes or stays away as the predicate then says.
-/

namespace Planning.Filter

/-- The answer to one delta, given the identities that passed. -/
def step (predicate : Value → Checked Bool) (passing : List TupleId) :
    Delta → Checked (List TupleId × List Delta)
  | .insert id t => do
    if ← predicate t then return (id :: passing.filter (· ≠ id), [.insert id t])
    else return (passing, [])
  | .update id t => do
    let now ← predicate t
    match passing.contains id, now with
    | true, true => return (passing, [.update id t])
    | false, true => return (id :: passing, [.insert id t])
    | true, false => return (passing.filter (· ≠ id), [.retract id])
    | false, false => return (passing, [])
  | .retract id =>
    if passing.contains id then .ok (passing.filter (· ≠ id), [.retract id]) else .ok (passing, [])

end Planning.Filter

/-!
## Flattening

Flattening replaces each tuple by the items it expands to. The items of a tuple come and go together: when
the tuple changes, its items go and the new ones come under new identities.
-/

namespace Planning

/-- The items that live, by the tuples they come from. -/
structure Flatten where
  /-- The identities of the items of each tuple that has any. -/
  outputs : Table TupleId (List TupleId) := []
  /-- The identity of the next item. -/
  next : TupleId := 0
deriving DecidableEq, Repr

namespace Flatten

/-- The items of a tuple go. -/
def removeTuple (s : Flatten) (id : TupleId) : Flatten × List Delta :=
  match s.outputs.get? id with
  | some children => ({ s with outputs := s.outputs.erase id }, children.map .retract)
  | none => (s, [])

/-- The items of a tuple come. -/
def insertItems (s : Flatten) (id : TupleId) (items : List Value) : Flatten × List Delta :=
  if items.isEmpty then (s, [])
  else
    let children := (List.range items.length).map (s.next + ·)
    ({ outputs := s.outputs.set id children, next := s.next + items.length },
      List.zipWith .insert children items)

/-- The answer to one delta. -/
def step (expand : Value → Checked (List Value)) (s : Flatten) :
    Delta → Checked (Flatten × List Delta)
  | .insert id t => do return s.insertItems id (← expand t)
  | .update id t => do
    let (s, gone) := s.removeTuple id
    let (s, come) := s.insertItems id (← expand t)
    return (s, gone ++ come)
  | .retract id => .ok (s.removeTuple id)

end Flatten

end Planning
