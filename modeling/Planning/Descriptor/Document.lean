import Planning.Descriptor.Validation
import Planning.Document.Basic

/-!
# Descriptions as documents

A description is written as a table with the names of its solution, classes, variables and ranges. A
validated one is shown with what follows from it, and a query asks for one thing that it describes.
-/

namespace Planning

/-- The kind of a word. -/
def VariableKind.ofWord (word : String) : VariableKind :=
  if word == "list" then .list else if word == "shadow" then .shadow else .genuine

/-- The name of a kind. -/
def VariableKind.name : VariableKind → String
  | genuine => "Genuine"
  | list => "List"
  | shadow => "Shadow"

/-- A source as a class and a name. -/
def VariableSource.ofDocument (d : Document) : VariableSource := ⟨(d.item 0).asText, (d.item 1).asText⟩

/-- The variable of a table. -/
def VariableDescriptor.ofDocument (d : Document) : VariableDescriptor :=
  let kind := VariableKind.ofWord (d.get "kind").asText
  { name := (d.get "name").asText
    kind := kind
    allowsUnassigned := ((d.get "unassigned").optional Document.asBool).getD kind.isShadow
    valueRange := (d.get "range").optional Document.asText
    sources := (d.get "sources").items.map VariableSource.ofDocument }

/-- The entity class of a table. -/
def EntityDescriptor.ofDocument (d : Document) : EntityDescriptor where
  typeName := (d.get "type").asText
  solutionField := (d.get "field").asText
  provides := (d.get "provider").optional Document.asText
  pinField := (d.get "pin").optional Document.asText
  allVariables := (d.get "vars").items.map VariableDescriptor.ofDocument

/-- The fact class of a table. -/
def FactDescriptor.ofDocument (d : Document) : FactDescriptor where
  typeName := (d.get "type").asText
  solutionField := (d.get "field").asText
  isCollection := !(d.get "single").asBool
  provides := (d.get "provider").optional Document.asText

/-- The description of a table. -/
def SolutionDescriptor.ofDocument (d : Document) : SolutionDescriptor where
  typeName := (d.get "type").asText
  scoreField := (d.get "score").optional Document.asText
  valueRanges := (d.get "ranges").items.map Document.asText
  facts := (d.get "facts").items.map FactDescriptor.ofDocument
  entities := (d.get "entities").items.map EntityDescriptor.ofDocument

/-- A place as the list of its two positions. -/
def VariableKey.toDocument (key : VariableKey) : Document := .nats [key.entity, key.index]

/-- Some places as a list. -/
def VariableKey.listDocument (keys : List VariableKey) : Document := .list (keys.map toDocument)

/-- The names of some variables. -/
def VariableDescriptor.namesDocument (l : List VariableDescriptor) : Document := .texts (l.map name)

/-- A fact class as the list of its parts. -/
def FactDescriptor.toDocument (f : FactDescriptor) : Document :=
  .list [.text f.typeName, .text f.solutionField, .bool f.isCollection, .ofOption .text f.provides]

/-- What a query finds. -/
def SolutionDescriptor.answer (d : SolutionDescriptor) (q : Document) : Document :=
  let first := (q.item 1).asText
  let second := (q.item 2).asText
  let entity := d.findEntity? first
  match (q.item 0).asText with
  | "variable_key" => .ofOption VariableKey.toDocument (d.variableKey? first second)
  | "entity_index" => .ofOption .nat (d.entityIndex? first)
  | "find_entity" => .ofOption (fun e => .nat e.allVariables.length) entity
  | "find_variable" => .ofOption (fun x => .text x.kind.name) (entity.bind fun e => e.findVariable? second)
  | "variable_index" => .ofOption .nat (entity.bind fun e => e.variableIndex? second)
  | _ => .ofOption (fun x => .text x.name) (d.variableAt? ⟨(q.item 1).asNat, (q.item 2).asNat⟩)

namespace ValidatedDescriptor

variable (v : ValidatedDescriptor)

/-- A variable at a place as a table. -/
def variableDocument (key : VariableKey) (x : VariableDescriptor) : Document :=
  .table [("name", .text x.name), ("kind", .text x.kind.name), ("range", .ofOption .text x.valueRange),
    ("unassigned", .bool x.allowsUnassigned),
    ("is", .list [.bool x.kind.isGenuine, .bool x.kind.isList, .bool x.kind.isShadow]),
    ("dependents", VariableKey.listDocument (v.dependents key))]

/-- An entity class at a place as a table. -/
def entityDocument (i : Nat) (e : EntityDescriptor) : Document :=
  .table [("type", .text e.typeName), ("field", .text e.solutionField),
    ("provider", .ofOption .text e.provides), ("pin", .ofOption .text e.pinField),
    ("genuine", VariableDescriptor.namesDocument e.genuine),
    ("shadow", VariableDescriptor.namesDocument e.shadows), ("has_genuine", .bool (!e.genuine.isEmpty)),
    ("vars", .list (e.allVariables.mapIdx fun j x => v.variableDocument ⟨i, j⟩ x))]

/-- What a query finds. -/
def answer (q : Document) : Document :=
  match (q.item 0).asText with
  | "dependents" => VariableKey.listDocument (v.dependents ⟨(q.item 1).asNat, (q.item 2).asNat⟩)
  | _ => v.toSolutionDescriptor.answer q

/-- The entries of the table that shows a description, with the answers to some queries. -/
def entries (queries : List Document) : List (String × Document) :=
  [("shadow_order", VariableKey.listDocument v.shadowOrder),
    ("entities", .list (v.entities.mapIdx v.entityDocument)),
    ("counts", .nats [v.entities.length, v.facts.length, v.genuine.length]),
    ("genuine", VariableDescriptor.namesDocument v.genuine),
    ("facts", .list (v.facts.map FactDescriptor.toDocument)), ("queries", .list (queries.map v.answer))]

end ValidatedDescriptor

end Planning
