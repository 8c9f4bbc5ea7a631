import Planning.Graph.Complement
import Planning.Graph.Exists
import Planning.Graph.Filter
import Planning.Graph.GroupBy

/-!
# Constraint graphs

A constraint graph is a tree of nodes over the classes of a solution. Each node keeps what it needs to
answer a change of the solution with the changes of its tuples: the sources read the solution, and every
other node transforms the deltas of the nodes above it.
-/

namespace Planning

/-- A node of a constraint graph over solutions, with its state. -/
inductive Node (S : Type) where
  /-- The members of a class. -/
  | source (source : SourceClass) (members : S → List Value)
  /-- The tuples for which a predicate holds. -/
  | filter (up : Node S) (predicate : Value → Checked Bool) (passing : List TupleId)
  /-- A function of each tuple. -/
  | map (up : Node S) (f : Value → Checked Value)
  /-- The items to which each tuple expands. -/
  | flatten (up : Node S) (expand : Value → Checked (List Value)) (state : Flatten)
  /-- The pairs of tuples that belong together. -/
  | join (left right : Node S) (rule : JoinRule) (state : Join)
  /-- The left tuples that have a match, or those that have none. -/
  | exists (left right : Node S) (rule : ExistsRule) (state : Exists)
  /-- One tuple for each key. -/
  | group (up : Node S) (rule : GroupRule) (state : GroupBy rule.collector)
  /-- The tuples, and one for each element of a source whose key none of them carries. -/
  | complement (up elements : Node S) (rule : ComplementRule) (state : Complement)

namespace Node

variable {S : Type}

instance : Inhabited (Node S) := ⟨source (.entity 0) fun _ => []⟩

/-- The tuples for which a predicate holds, before any tuple came. -/
def ofFilter (up : Node S) (predicate : Value → Checked Bool) : Node S := filter up predicate []

/-- The items of each tuple, before any tuple came. -/
def ofFlatten (up : Node S) (expand : Value → Checked (List Value)) : Node S := flatten up expand {}

/-- The pairs of tuples, before any tuple came. -/
def ofJoin (left right : Node S) (rule : JoinRule) : Node S :=
  join left right rule (.empty rule.joiner.relation)

/-- The left tuples that pass, before any tuple came. -/
def ofExists (left right : Node S) (rule : ExistsRule) : Node S :=
  .exists left right rule (.empty rule.joiner.relation)

/-- The groups, before any tuple came. -/
def ofGroup (up : Node S) (rule : GroupRule) : Node S := group up rule {}

/-- The complemented tuples, before any tuple came. -/
def ofComplement (up elements : Node S) (rule : ComplementRule) : Node S :=
  complement up elements rule {}

/-- The deltas by which the members of a class come. -/
def arrivals (members : List Value) : List Delta := members.mapIdx .insert

/-- The answer of a source to an event. -/
def sourceAnswer (source : SourceClass) (members : List Value) (e : SourceEvent) : List Delta :=
  if e.source ≠ source then []
  else
    match e.change, members[e.index]? with
    | .retract, _ => [.retract e.index]
    | .insert, some v => [.insert e.index v]
    | .update, some v => [.update e.index v]
    | _, none => []

/-- The node after it took in the whole solution, and the tuples that came. -/
def load : Node S → S → Checked (Node S × List Delta)
  | source c members, s => .ok (source c members, arrivals (members s))
  | filter up p passing, s => do
    let (up, ds) ← up.load s
    let (passing, out) ← feed (Filter.step p) passing ds
    return (filter up p passing, out)
  | map up f, s => do
    let (up, ds) ← up.load s
    return (map up f, ← ds.mapM (Delta.mapTuple f))
  | flatten up expand state, s => do
    let (up, ds) ← up.load s
    let (state, out) ← feed (Flatten.step expand) state ds
    return (flatten up expand state, out)
  | join left right rule state, s => do
    let (left, ls) ← left.load s
    let (right, rs) ← right.load s
    let (state, out) ← state.process rule ls rs
    return (join left right rule state, out)
  | .exists left right rule state, s => do
    let (left, ls) ← left.load s
    let (right, rs) ← right.load s
    let (state, out1) ← state.process rule [] rs
    let (state, out2) ← state.process rule ls []
    return (.exists left right rule state, out1 ++ out2)
  | group up rule state, s => do
    let (up, ds) ← up.load s
    let (state, out) ← state.process rule ds
    return (group up rule state, out)
  | complement up elements rule state, s => do
    let (up, ds) ← up.load s
    let (elements, es) ← elements.load s
    let (state, out) ← state.process rule ds es
    return (complement up elements rule state, out)

/-- The node after an event, and its answer. The solution already shows what happened. -/
def propagate : Node S → S → SourceEvent → Checked (Node S × List Delta)
  | source c members, s, e => .ok (source c members, sourceAnswer c (members s) e)
  | filter up p passing, s, e => do
    let (up, ds) ← up.propagate s e
    let (passing, out) ← feed (Filter.step p) passing ds
    return (filter up p passing, out)
  | map up f, s, e => do
    let (up, ds) ← up.propagate s e
    return (map up f, ← ds.mapM (Delta.mapTuple f))
  | flatten up expand state, s, e => do
    let (up, ds) ← up.propagate s e
    let (state, out) ← feed (Flatten.step expand) state ds
    return (flatten up expand state, out)
  | join left right rule state, s, e => do
    let (left, ls) ← left.propagate s e
    let (right, rs) ← right.propagate s e
    let (state, out) ← state.process rule ls rs
    return (join left right rule state, out)
  | .exists left right rule state, s, e => do
    let (left, ls) ← left.propagate s e
    let (right, rs) ← right.propagate s e
    let (state, out) ← state.process rule ls rs
    return (.exists left right rule state, out)
  | group up rule state, s, e => do
    let (up, ds) ← up.propagate s e
    let (state, out) ← state.process rule ds
    return (group up rule state, out)
  | complement up elements rule state, s, e => do
    let (up, ds) ← up.propagate s e
    let (elements, es) ← elements.propagate s e
    let (state, out) ← state.process rule ds es
    return (complement up elements rule state, out)

/-- The node without any tuple. -/
def reset : Node S → Node S
  | source c members => source c members
  | filter up p _ => ofFilter up.reset p
  | map up f => map up.reset f
  | flatten up expand _ => ofFlatten up.reset expand
  | join left right rule _ => ofJoin left.reset right.reset rule
  | .exists left right rule _ => ofExists left.reset right.reset rule
  | group up rule _ => ofGroup up.reset rule
  | complement up elements rule _ => ofComplement up.reset elements.reset rule

/-- The node reads a class. -/
def listensTo : Node S → SourceClass → Bool
  | source c _, k => k == c
  | filter up _ _, k => up.listensTo k
  | map up _, k => up.listensTo k
  | flatten up _ _, k => up.listensTo k
  | join left right _ _, k => left.listensTo k || right.listensTo k
  | .exists left right _ _, k => left.listensTo k || right.listensTo k
  | group up _ _, k => up.listensTo k
  | complement up elements _ _, k => up.listensTo k || elements.listensTo k

end Node

end Planning
