import Planning.Graph.Delta
import Planning.Problem
import Planning.ProblemChange
import Planning.Score.Basic
import Planning.Sequence
import Planning.Solution
import Planning.Value.Formula
import Planning.Variable

/-!
# Dynamic solutions

A dynamic solution is made of classes of entities and classes of facts whose members are values. A class
that does not exist is empty.
-/

namespace Planning

/-- A solution whose entities and facts are values. -/
structure DynamicSolution where
  /-- The classes of entities. -/
  entities : List (List Value)
  /-- The classes of facts. -/
  facts : List (List Value)
  /-- The score that was stored last. -/
  score : Option (Score .hardSoft) := none
deriving DecidableEq, Inhabited

namespace DynamicSolution

/-- The members of a class. -/
def members (source : SourceClass) (s : DynamicSolution) : List Value :=
  match source with
  | .entity i => s.entities[i]?.getD []
  | .fact i => s.facts[i]?.getD []

/-- A change of the members of a class that exists. -/
def editClass (s : DynamicSolution) (source : SourceClass)
    (edit : List Value → Checked (List Value)) : Checked DynamicSolution := do
  match source with
  | .entity i => return { s with entities := s.entities.set i (← edit (← member s.entities i)) }
  | .fact i => return { s with facts := s.facts.set i (← edit (← member s.facts i)) }

/-- Another member at an index. -/
def replaceMember (s : DynamicSolution) (source : SourceClass) (i : Nat) (v : Value) :
    Checked DynamicSolution :=
  s.editClass source fun l => replaceAt l i v

/-- A member put before an index. -/
def insertMember (s : DynamicSolution) (source : SourceClass) (i : Nat) (v : Value) :
    Checked DynamicSolution :=
  s.editClass source fun l => insertAt l i v

/-- The member at an index goes. -/
def removeMember (s : DynamicSolution) (source : SourceClass) (i : Nat) : Checked DynamicSolution :=
  s.editClass source fun l => removeAt l i

end DynamicSolution

end Planning

/-!
# Dynamic problems

In a dynamic problem the elements of an entity are its variables. Shadow variables are given by formulas
over the entity and one other entity that it may point to.
-/

namespace Planning

/-- An entity that another one points to: its class, and the element that holds its position. -/
structure EntityLink where
  /-- The class of the entity that is pointed to. -/
  entityClass : Nat
  /-- The element that holds its position. -/
  element : Nat
deriving DecidableEq

/-- A shadow variable given by a formula. -/
structure ShadowFormula where
  /-- The class of the entities. -/
  entityClass : Nat
  /-- The element that holds the variable. -/
  element : Nat
  /-- The variables that it is derived from. -/
  sources : List VariableSource
  /-- The value, given the entity and the one that it points to. -/
  formula : Formula
  /-- The entity that the entity points to. -/
  link : Option EntityLink := none
  /-- The variable is described as a shadow variable. -/
  declared : Bool := true

namespace DynamicSolution

instance : PlanningSolution DynamicSolution .hardSoft where
  score s := s.score
  withScore s score := { s with score := some score }
  isInitialized s := (s.members (.entity 0)).all fun e => e.at? 1 != .null
  entityCount s d := (s.members (.entity d)).length
  factCount s d := (s.members (.fact d)).length

/-- The name of an entity class. -/
def className (d : Nat) : String := s!"E{d}"

/-- The name of the variable that an element holds. -/
def elementName (i : Nat) : String := s!"v{i}"

/-- The members of a class as a collection. A class that does not exist cannot be edited. -/
def collection (source : SourceClass) : Collection DynamicSolution Value where
  members s := s.members source
  withMembers s vs :=
    match source with
    | .entity i => { s with entities := s.entities.set i vs }
    | .fact i => { s with facts := s.facts.set i vs }

/-- An entity with another element; one that it does not have is left alone. -/
def setElement (v : Value) (i : Nat) (new : Value) : Value :=
  match v with
  | .list vs => .list (vs.set i new)
  | v => v

/-- The solution with another element of an entity; an entity that does not exist is left alone. -/
def setVariable (s : DynamicSolution) (d e i : Nat) (new : Value) : DynamicSolution :=
  { s with entities := s.entities.modify d fun c => c.modify e fun v => setElement v i new }

/-- The entity that an entity points to, or null. -/
def linked (s : DynamicSolution) (link : Option EntityLink) (entity : Value) : Value :=
  match link with
  | none => .null
  | some l =>
    match entity.at? l.element with
    | .int i => if 0 ≤ i then ((s.members (.entity l.entityClass))[i.toNat]?).getD .null else .null
    | _ => .null

/-- The shadow variable of one entity is made anew. -/
def refresh (x : ShadowFormula) (s : DynamicSolution) (e : Nat) :
    Checked (DynamicSolution × List EntityRef) := do
  match (s.members (.entity x.entityClass))[e]? with
  | none => return (s, [])
  | some entity =>
    let new ← x.formula.eval (.pair entity (s.linked x.link entity))
    if new = entity.at? x.element then return (s, [])
    return (s.setVariable x.entityClass e x.element new, [(x.entityClass, e)])

/-- The shadow variables of all entities are made anew, one after another. -/
def refreshAll (x : ShadowFormula) (s : DynamicSolution) : Checked (DynamicSolution × List EntityRef) :=
  (List.range (s.members (.entity x.entityClass)).length).foldlM
    (fun (s, changed) e => do
      let (s, more) ← refresh x s e
      return (s, changed ++ more))
    (s, [])

/-- What keeps a shadow variable up to date. -/
def listener (x : ShadowFormula) : ShadowListener DynamicSolution where
  target := ⟨className x.entityClass, elementName x.element⟩
  update s _ := refreshAll x s
  updateAll s := do return (← refreshAll x s).1

/-- The description of a variable. -/
def describeVariable (shadows : List ShadowFormula) (d i : Nat) : VariableDescriptor :=
  match shadows.find? fun x => x.declared && x.entityClass == d && x.element == i with
  | some x => { name := elementName i, kind := .shadow, sources := x.sources }
  | none => { name := elementName i, kind := .genuine, valueRange := some "r" }

/-- The description of a problem with a number of entity classes whose entities have a number of
elements. -/
def describe (shadows : List ShadowFormula) (classes width : Nat) : SolutionDescriptor where
  typeName := "Dyn"
  valueRanges := ["r"]
  entities := (List.range classes).map fun d =>
    { typeName := className d
      solutionField := className d
      allVariables := (List.range width).map (describeVariable shadows d) }
  scoreField := some "score"

/-- The score of a whole solution by fresh constraints. -/
def calculateBy (constraints : ConstraintSet DynamicSolution .hardSoft) (s : DynamicSolution) :
    Checked (Score .hardSoft) := do
  return (← constraints.reset.load s .zero).2

/-- The problem of constraints and shadow variables. -/
def problemOf (constraints : ConstraintSet DynamicSolution .hardSoft) (shadows : List ShadowFormula)
    (classes width : Nat) : PlanningProblem DynamicSolution .hardSoft where
  description := describe shadows classes width
  listeners := shadows.map listener
  constraints := constraints
  calculate := calculateBy constraints

/-- The element of an entity that is planned; null is no value. -/
def planned? (s : DynamicSolution) (e : Nat) : Option Value :=
  match (s.members (.entity 0))[e]? with
  | none => none
  | some entity => if entity.at? 1 = .null then none else some (entity.at? 1)

/-- The variable that gives each entity of the first class a value of a range. -/
def variableOf (range : ValueRange DynamicSolution Value) : BasicVariable DynamicSolution Value where
  entityClass := 0
  name := elementName 1
  count s := (s.members (.entity 0)).length
  get? := planned?
  set s e v := s.setVariable 0 e 1 (v.getD .null)
  range := range

/-- An element of an entity of the first class as a number. -/
def elementNumber (i : Nat) (s : DynamicSolution) (e : Nat) : Int :=
  (((s.members (.entity 0))[e]?.getD .null).at? i).toInt

/-- An entity whose first element is negative is pinned. -/
def isPinned (s : DynamicSolution) (e : Nat) : Bool := decide (elementNumber 0 s e < 0)

/-- How hard it is to give an entity a value. -/
def difficulty (s : DynamicSolution) (e : Nat) : Checked Int := .ok (elementNumber 2 s e)

/-- How likely a value is to fit. -/
def strength (_ : DynamicSolution) (v : Value) : Checked Int := .ok v.toInt

end DynamicSolution

end Planning
