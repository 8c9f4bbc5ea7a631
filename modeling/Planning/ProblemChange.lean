import Planning.Director.Basic
import Planning.Variable

/-!
# Problem changes

The problem itself may change while it is solved: entities and facts come and go, and values are set from
outside. A change is announced to the director like an edit of the solver, and refused with an error when
it names what does not exist or is out of range.
-/

namespace Planning

/-- The members of a class of a solution. -/
structure Collection (S E : Type) where
  /-- The members. -/
  members : S → List E
  /-- The solution with other members. -/
  withMembers : S → List E → S

namespace Collection

variable {S E : Type}

/-- The solution with edited members. -/
def edit (c : Collection S E) (f : List E → Checked (List E)) (s : S) : Checked S := do
  return c.withMembers s (← f (c.members s))

end Collection

/-- What a problem change does to a director: the director after it, and the error if it was refused. -/
abbrev ChangeResult (S : Type) (k : ScoreKind) := Checked (Director S k × Option SolverError)

/-- A change of the problem. -/
structure ProblemChange (S : Type) (k : ScoreKind) where
  /-- The text that shows the change. -/
  text : String
  /-- What it does. -/
  apply : Director S k → ChangeResult S k

namespace Director

variable {S E : Type} {k : ScoreKind} [PlanningSolution S k]

/-- An edit by which an entity comes at a position. -/
def addEntity (dir : Director S k) (x : EntityRef) (f : S → Checked S) : Checked (Director S k) := do
  let dir ← dir.beforeEntityMoved x
  let dir ← dir.edit f
  dir.afterEntityAdded x

/-- An edit by which an entity goes from a position. -/
def removeEntity (dir : Director S k) (x : EntityRef) (f : S → Checked S) : Checked (Director S k) := do
  let dir ← dir.beforeEntityMoved x
  let dir ← dir.edit f
  dir.afterEntityRemoved x

/-- An edit by which a fact comes at a position, or goes from it. -/
def moveFact (dir : Director S k) (factClass i : Nat) (f : S → Checked S) : Checked (Director S k) := do
  let dir ← dir.beforeFactMoved factClass i
  let dir ← dir.edit f
  dir.afterFactMoved factClass i

omit [PlanningSolution S k] in
/-- An edit of a fact. -/
def changeFact (dir : Director S k) (factClass i : Nat) (f : S → Checked S) : Checked (Director S k) := do
  let dir ← dir.forget.edit f
  dir.afterFactChanged factClass i

omit [PlanningSolution S k] in
/-- An edit of a variable of an entity. -/
def changeVariable (dir : Director S k) (x : EntityRef) (name : String) (f : S → Checked S) :
    Checked (Director S k) := do
  let dir ← dir.beforeVariableChanged.edit f
  dir.afterVariableChanged x name

end Director

namespace ProblemChange

variable {S E V : Type} {k : ScoreKind} [PlanningSolution S k]

/-- An entity comes behind the others of its class. -/
def addEntity (c : Collection S E) (entityClass : Nat) (entity : E) (text : String) :
    ProblemChange S k where
  text := Text.record "AddEntity" [("descriptor_index", toString entityClass), ("entity", text)]
  apply dir := do
    let n := (c.members dir.solution).length
    return (← dir.addEntity (entityClass, n) (c.edit fun l => .ok (l ++ [entity])), none)

/-- An entity goes. -/
def removeEntity (c : Collection S E) (entityClass i : Nat) : ProblemChange S k where
  text := Text.record "RemoveEntity"
    [("descriptor_index", toString entityClass), ("entity_index", toString i)]
  apply dir := do
    let n := (c.members dir.solution).length
    if n ≤ i then return (dir, some (.moveApplication (.entityOutOfBounds i n)))
    return (← dir.removeEntity (entityClass, i) (c.edit fun l => removeAt l i), none)

omit [PlanningSolution S k] in
/-- An entity takes another value, or none; being pinned does not matter. -/
def setValue [PlanningValue V] (x : BasicVariable S V) (e : Nat) (v : Option V) :
    ProblemChange S k where
  text := Text.record "ChangeVariable"
    [("descriptor_index", toString x.entityClass), ("entity_index", toString e),
      ("variable_name", Text.quoted x.name), ("value", optionText v)]
  apply dir := do
    let n := x.count dir.solution
    if n ≤ e then return (dir, some (.moveApplication (.entityOutOfBounds e n)))
    match x.checkValue dir.solution e v with
    | .error err => return (dir, some (.moveApplication err))
    | .ok _ => return (← dir.changeVariable (x.entityClass, e) x.name fun s => .ok (x.set s e v), none)

/-- A fact comes behind the others of its class. -/
def addFact (c : Collection S E) (factClass : Nat) (fact : E) (text : String) : ProblemChange S k where
  text := Text.record "AddProblemFact" [("descriptor_index", toString factClass), ("fact", text)]
  apply dir := do
    let n := (c.members dir.solution).length
    return (← dir.moveFact factClass n (c.edit fun l => .ok (l ++ [fact])), none)

/-- A fact goes. -/
def removeFact (c : Collection S E) (factClass i : Nat) : ProblemChange S k where
  text := Text.record "RemoveProblemFact"
    [("descriptor_index", toString factClass), ("fact_index", toString i)]
  apply dir := do
    let n := (c.members dir.solution).length
    if n ≤ i then
      let reason := s!"problem fact {i} of descriptor {factClass} does not exist ({n} facts)"
      return (dir, some (.invalidState reason))
    return (← dir.moveFact factClass i (c.edit fun l => removeAt l i), none)

omit [PlanningSolution S k] in
/-- Edits one after another, up to the first that is refused. -/
def runAll (dir : Director S k) : List (Director S k → ChangeResult S k) → ChangeResult S k
  | [] => .ok (dir, none)
  | f :: fs => do
    match ← f dir with
    | (dir, none) => runAll dir fs
    | (dir, some err) => return (dir, some err)

omit [PlanningSolution S k] in
/-- A named change made of edits one after another. -/
def script (name : String) (edits : List (Director S k → ChangeResult S k)) : ProblemChange S k where
  text := Text.record "ClosureProblemChange" [("name", Text.quoted name)]
  apply dir := runAll dir edits

end ProblemChange

end Planning
