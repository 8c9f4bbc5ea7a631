import Planning.Phase.Basic
import Planning.Variable

/-!
# Exhaustive search

All assignments of values to the entities without one are gone through as a tree: a node assigns values to
the first entities, its children add a value for the next one. Branch and bound leaves out nodes whose score
is no better than that of the best complete assignment so far; that is right when no assignment of a further
entity makes the score better. The working solution follows the nodes.
-/

namespace Planning

/-- A node: values of the first entities, in their order. -/
structure SearchNode (V : Type) (k : ScoreKind) where
  /-- The values. -/
  path : List V
  /-- The score of the solution with these values. -/
  score : Score k
  /-- How many nodes were made before. -/
  sequence : Nat

namespace SearchNode

variable {V : Type} {k : ScoreKind}

/-- A node comes before another: it has a better score, or is deeper, or older. -/
def precedes (a b : SearchNode V k) : Bool :=
  match compare a.score b.score with
  | .gt => true
  | .lt => false
  | .eq => decide (b.path.length < a.path.length) ||
      (a.path.length == b.path.length && decide (a.sequence ≤ b.sequence))

/-- The nodes in order with one more. -/
def insert (a : SearchNode V k) : List (SearchNode V k) → List (SearchNode V k)
  | [] => [a]
  | b :: rest => if a.precedes b then a :: b :: rest else b :: insert a rest

/-- The open nodes with the children of one: in front of the others, or each at its place. -/
def expand (o : Exploration) (children frontier : List (SearchNode V k)) : List (SearchNode V k) :=
  match o with
  | .depthFirst => children ++ frontier
  | .scoreFirst => children.foldl (fun frontier a => a.insert frontier) frontier

end SearchNode

/-- A search through all assignments of values of a basic variable. -/
structure ExhaustiveSearch (S V : Type) (k : ScoreKind) where
  /-- The variable. -/
  planned : BasicVariable S V
  /-- Which nodes are left out. -/
  kind : ExhaustiveKind := .branchAndBound
  /-- Which node comes next. -/
  exploration : Exploration := .depthFirst
  /-- With more entities than this the search is skipped. -/
  entityLimit : Nat := 12
  /-- The number of nodes to look at. -/
  nodeLimit : Option Nat := none
  /-- When the phase stops. -/
  termination : Option (Termination k) := none

/-- What an exhaustive search keeps from node to node. -/
structure TreeState (V : Type) (k : ScoreKind) where
  /-- The open nodes, the next one first. -/
  frontier : List (SearchNode V k)
  /-- The values that the working solution has. -/
  current : List V := []
  /-- The best complete assignment. -/
  best : Option (SearchNode V k) := none
  /-- How many nodes were made. -/
  sequence : Nat := 0
  /-- How many nodes were looked at. -/
  nodes : Nat := 0

namespace ExhaustiveSearch

variable {S V : Type} {k : ScoreKind} [PlanningSolution S k] [DecidableEq V] (x : ExhaustiveSearch S V k)

/-- A score is no better than that of the best complete assignment. -/
def prunes (best : Option (SearchNode V k)) (score : Score k) : Bool :=
  x.kind == .branchAndBound && best.any fun b => b.score.reaches score

omit [PlanningSolution S k] [DecidableEq V] in
/-- An entity gets a value, or none. -/
def assign (e : Nat) (v : Option V) : Running S k Unit :=
  Running.edit fun dir => do
    let dir ← dir.beforeVariableChanged.edit fun s => .ok (x.planned.set s e v)
    dir.afterVariableChanged (x.planned.entityClass, e) x.planned.name

/-- The number of values that two paths share at their start. -/
def shared : List V → List V → Nat
  | a :: as, b :: bs => if a = b then shared as bs + 1 else 0
  | _, _ => 0

omit [PlanningSolution S k] [DecidableEq V] in
/-- Some entities lose their values, the last first. -/
def rewind (entities : List Nat) : Running S k Unit :=
  entities.reverse.forM fun e => x.assign e none

omit [PlanningSolution S k] [DecidableEq V] in
/-- Some entities get values, the first first. -/
def advance (assignments : List (Nat × V)) : Running S k Unit :=
  assignments.forM fun (e, v) => x.assign e (some v)

omit [PlanningSolution S k] in
/-- The working solution goes from a path to another. -/
def moveTo (entities : List Nat) (current target : List V) : Running S k Unit := do
  let n := shared current target
  x.rewind ((entities.take current.length).drop n)
  x.advance ((entities.zip target).drop n)

/-- The score with a value of an entity, which is taken away again. -/
def scoreWith (e : Nat) (v : V) : Running S k (Score k) := do
  x.assign e (some v)
  let score ← Running.calculate
  x.assign e none
  Running.recordMove true
  return score

/-- The children of a node that are not left out, and how many nodes were made. -/
def children (e : Nat) (node : SearchNode V k) (best : Option (SearchNode V k)) (sequence : Nat) :
    List V → Running S k (List (SearchNode V k) × Nat)
  | [] => return ([], sequence)
  | v :: vs => do
    let score ← x.scoreWith e v
    if x.prunes best score then children e node best sequence vs
    else
      let sequence ← Running.checked (counted (sequence + 1))
      let (rest, n) ← children e node best sequence vs
      return (⟨node.path ++ [v], score, sequence⟩ :: rest, n)

/-- A complete assignment is looked at. -/
def visitLeaf (node : SearchNode V k) (st : TreeState V k) : Running S k (TreeState V k) := do
  let isBetter := st.best.all fun b => node.score.beats b.score
  if isBetter then discard (Running.updateBestWith node.score)
  Running.stepEnded node.score
  return if isBetter then { st with best := some node } else st

/-- An assignment of the first entities is looked at; the next one is `e`. -/
def visitInner (e : Nat) (node : SearchNode V k) (st : TreeState V k) : Running S k (TreeState V k) := do
  let values ← Running.checked (x.planned.range.values (← get).director.solution e)
  let (children, sequence) ← x.children e node st.best st.sequence values
  Running.stepEnded node.score
  Running.assertStep
  return { st with frontier := SearchNode.expand x.exploration children st.frontier, sequence := sequence }

/-- A node is looked at. -/
def visit (entities : List Nat) (node : SearchNode V k) (st : TreeState V k) :
    Running S k (TreeState V k) := do
  Running.stepStarted
  x.moveTo entities st.current node.path
  let st := { st with current := node.path, nodes := st.nodes + 1 }
  match entities[node.path.length]? with
  | none => visitLeaf node st
  | some e => x.visitInner e node st

/-- The search has to stop. -/
def isStopped (st : TreeState V k) : Running S k Bool := do
  return (← get).isPhaseTerminated x.termination || x.nodeLimit.any fun n => decide (n ≤ st.nodes)

/-- At most a number of nodes; a run cannot count more. -/
def visits (entities : List Nat) : Nat → TreeState V k → Running S k (TreeState V k)
  | 0, _ => throw (.faulted .overflow)
  | fuel + 1, st => do
    match st.frontier with
    | [] => return st
    | node :: rest =>
      if ← x.isStopped st then return st
      let st := { st with frontier := rest }
      if x.prunes st.best node.score then visits entities fuel st
      else visits entities fuel (← x.visit entities node st)

/-- The search through the assignments of some entities. In the end the working solution has the best
complete assignment, or is as it was. -/
def search (entities : List Nat) : Running S k Unit := do
  let score ← Running.calculate
  let st ← x.visits entities (maxCount + 2) { frontier := [⟨[], score, 0⟩] }
  x.moveTo entities st.current ((st.best.map SearchNode.path).getD [])
  discard Running.calculate
  Running.report .debug "exhaustive_search_done" fun _ =>
    [("nodes", .number st.nodes),
      ("best_score", .shown (Text.optional (fun b => b.score.debugText) st.best))]

/-- The course of the search. -/
def run : Running S k Unit := do
  let entities := x.planned.unassigned (← get).director.solution
  if entities.isEmpty then return ()
  if x.entityLimit < entities.length then
    Running.report .warn "phase_skipped" fun _ =>
      [("phase", .text "ExhaustiveSearch"), ("entity_count", .number entities.length),
        ("entity_limit", .number x.entityLimit),
        ("reason", .text "too many entities for exhaustive search")]
    return ()
  x.search entities

omit [PlanningSolution S k] [DecidableEq V] in
/-- The text that shows the search. -/
def text : String :=
  Text.record "ExhaustiveSearchPhase"
    [("variable", Text.quoted x.planned.name), ("search_type", Choice.name x.kind),
      ("exploration_type", Choice.name x.exploration), ("entity_limit", toString x.entityLimit),
      ("node_limit", Text.optional toString x.nodeLimit)]

/-- The search as a phase. -/
def phase : Phase S k := ⟨"ExhaustiveSearch", x.text, x.run⟩

end ExhaustiveSearch

end Planning
