import Planning.Domain.Basic
import Planning.Dynamic.Document
import Planning.Dynamic.Problem

/-!
# Documents of dynamic problems

A dynamic problem is written with its constraints and its shadow variables, a solution as its classes of
entities and of facts.
-/

namespace Planning

/-- The number behind the first letter of a name. -/
def numberAfterLetter (name : String) : Nat := Document.digitsValue (name.toList.drop 1)

/-- The shadow variable of a table. -/
def ShadowFormula.ofDocument (d : Document) : ShadowFormula where
  entityClass := numberAfterLetter ((d.get "target").item 0).asText
  element := numberAfterLetter ((d.get "target").item 1).asText
  sources := (d.get "sources").items.map fun s => ⟨(s.item 0).asText, (s.item 1).asText⟩
  formula := d.formula "f"
  link := (d.get "link").optional fun l => ⟨(l.item 0).asNat, (l.item 1).asNat⟩
  declared := !(d.get "undeclared").asBool

namespace DynamicSolution

/-- The document of a solution. -/
def toDocument (s : DynamicSolution) : Document :=
  let classes (l : List (List Value)) : Document := .list (l.map fun c => .list (Value.toDocuments c))
  .table [("entities", classes s.entities), ("facts", classes s.facts), ("score", scoreDocument s.score)]

/-- The problem of a document. -/
def problemOfDocument (d : Document) : PlanningProblem DynamicSolution .hardSoft :=
  problemOf ((d.get "constraints").items.map constraintOf)
    ((d.get "shadows").items.map ShadowFormula.ofDocument) (d.get "entities").items.length
    (((d.get "width").optional Document.asNat).getD 4)

/-- The range of the planned variable: the values of a list, or the first class of facts. -/
def rangeOf (options : Document) : ValueRange DynamicSolution Value :=
  match options.get "static" with
  | .list values => .fixed (Value.ofDocuments values)
  | _ => .members (members (.fact 0))

/-- The editor of a class; a class that does not exist cannot be edited. -/
def editor (source : SourceClass) : ClassEditor DynamicSolution .hardSoft :=
  { ClassEditor.ofCollection source (collection source) Value.ofDocument Value.render with
    insert := fun d i s => s.insertMember source i (Value.ofDocument d)
    remove := fun i s => s.removeMember source i
    replace := fun d i s => s.replaceMember source i (Value.ofDocument d) }

/-- The domain of a problem with options of the variable. -/
def domain (problem options : Document) : Domain DynamicSolution Value .hardSoft where
  problem := problemOfDocument problem
  plan := .basic ((variableOf (rangeOf options)).withOptions options isPinned difficulty strength)
  read d := .ok (ofDocument d)
  write := toDocument
  value := Value.ofDocument
  assign x name v s :=
    .ok (s.setVariable x.1 x.2 (numberAfterLetter name) (Value.ofDocument v))
  editor := editor

end DynamicSolution

end Planning
