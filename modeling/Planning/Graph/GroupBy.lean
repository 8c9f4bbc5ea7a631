import Planning.Graph.Collector
import Planning.Graph.Delta
import Planning.Table

/-!
# Grouping

Grouping collects the tuples with one key into one tuple. A batch is taken in as a whole: each key it
touches is compared before and after, so that a group whose result stays as it was answers nothing and one
whose result changes answers a single update.
-/

namespace Planning

/-- How to group. -/
structure GroupRule where
  /-- The key of a tuple. -/
  key : Value → Checked Value
  /-- What is made of a group. -/
  collector : Collector
  /-- The tuple of a group, from its key and its result. -/
  output : Value → Value → Value

/-- A group with at least one tuple. -/
structure Group (c : Collector) where
  /-- The identity of the tuple of the group. -/
  id : TupleId
  /-- The number of tuples in the group. -/
  size : Nat
  /-- What is kept of their inputs. -/
  state : c.State

/-- The groups, and the key and input of each tuple. -/
structure GroupBy (c : Collector) where
  /-- The groups by key. -/
  groups : Table Value (Group c) := []
  /-- The key and the input of each live tuple. -/
  inputs : Table TupleId (Value × c.Input) := []
  /-- The identity of the next group. -/
  next : TupleId := 0

namespace GroupBy

/-- What a group answers with. -/
structure Outcome where
  /-- The identity of the tuple of the group. -/
  id : TupleId
  /-- The result. -/
  result : Value
deriving DecidableEq, Repr

variable {c : Collector}

/-- What the group of a key answers with, if there is one. -/
def outcome (s : GroupBy c) (key : Value) : Checked (Option Outcome) :=
  match s.groups.get? key with
  | some g => do return some ⟨g.id, ← c.finish g.state⟩
  | none => .ok none

/-- The keys touched in a batch with what their groups answered before, in the order of first touch. -/
abbrev Touched := List (Value × Option Outcome)

/-- A key is touched: the first time, what its group answers with is noted. -/
def touch (s : GroupBy c) (touched : Touched) (key : Value) : Checked Touched :=
  if touched.any fun t => t.1 = key then .ok touched
  else do return touched ++ [(key, ← s.outcome key)]

/-- A tuple comes into the group of its key. -/
def add (s : GroupBy c) (id : TupleId) (key : Value) (input : c.Input) : Checked (GroupBy c) := do
  let (g, next) :=
    match s.groups.get? key with
    | some g => (g, s.next)
    | none => (⟨s.next, 0, c.empty⟩, s.next + 1)
  let state ← c.accumulate g.state input
  return {
    groups := s.groups.set key { g with size := g.size + 1, state := state }
    inputs := s.inputs.set id (key, input)
    next := next }

/-- An input leaves the group of its key; an empty group goes. -/
def leave (s : GroupBy c) (key : Value) (input : c.Input) : Checked (GroupBy c) :=
  match s.groups.get? key with
  | some g => do
    let state ← c.retract g.state input
    if g.size ≤ 1 then return { s with groups := s.groups.erase key }
    return { s with groups := s.groups.set key { g with size := g.size - 1, state := state } }
  | none => .ok s

/-- A tuple goes. -/
def removeTuple (s : GroupBy c) (touched : Touched) (id : TupleId) :
    Checked (GroupBy c × Touched) :=
  match s.inputs.get? id with
  | some (key, input) => do
    let s := { s with inputs := s.inputs.erase id }
    let touched ← s.touch touched key
    return (← s.leave key input, touched)
  | none => .ok (s, touched)

/-- A tuple comes. -/
def insertTuple (rule : GroupRule) (s : GroupBy rule.collector) (touched : Touched) (id : TupleId)
    (t : Value) : Checked (GroupBy rule.collector × Touched) := do
  let key ← rule.key t
  let touched ← s.touch touched key
  let input ← rule.collector.extract t
  return (← s.add id key input, touched)

/-- One delta is taken in. -/
def absorb (rule : GroupRule) : GroupBy rule.collector × Touched → Delta →
    Checked (GroupBy rule.collector × Touched)
  | (s, touched), .insert id t => s.insertTuple rule touched id t
  | (s, touched), .update id t => do
    let (s, touched) ← s.removeTuple touched id
    s.insertTuple rule touched id t
  | (s, touched), .retract id => s.removeTuple touched id

/-- The deltas of a group, from what it answered before and after. -/
def difference (output : Value → Value → Value) (key : Value) :
    Option Outcome → Option Outcome → List Delta
  | none, none => []
  | none, some after => [.insert after.id (output key after.result)]
  | some before, none => [.retract before.id]
  | some before, some after =>
    if before.id ≠ after.id then
      [.retract before.id, .insert after.id (output key after.result)]
    else if before.result ≠ after.result then [.update after.id (output key after.result)]
    else []

/-- The deltas of the touched groups. -/
def differences (s : GroupBy c) (output : Value → Value → Value) : Touched → Checked (List Delta)
  | [] => .ok []
  | (key, before) :: rest => do
    let after ← s.outcome key
    return difference output key before after ++ (← differences s output rest)

/-- The answer to a batch of deltas. -/
def process (rule : GroupRule) (s : GroupBy rule.collector) (batch : List Delta) :
    Checked (GroupBy rule.collector × List Delta) := do
  let (s, touched) ← batch.foldlM (absorb rule) (s, [])
  return (s, ← s.differences rule.output touched)

end GroupBy

end Planning
