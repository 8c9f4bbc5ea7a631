/-!
# Descriptions of planning problems

A description names the entity classes of a solution with their variables, its classes of problem facts,
the value ranges and the place of the score. A variable is genuine when the solver changes it, a list
variable when its values are lists of elements, and a shadow variable when it is derived from others.
-/

namespace Planning

/-- How a variable gets its value. -/
inductive VariableKind where
  /-- The solver chooses one value. -/
  | genuine
  /-- The solver chooses a list of elements. -/
  | list
  /-- The value is derived from other variables. -/
  | shadow
deriving DecidableEq, Repr

namespace VariableKind

/-- The solver changes the variable. -/
def isGenuine : VariableKind → Bool
  | shadow => false
  | _ => true

/-- The values are lists. -/
def isList : VariableKind → Bool
  | list => true
  | _ => false

/-- The value is derived. -/
def isShadow : VariableKind → Bool
  | shadow => true
  | _ => false

end VariableKind

/-- The place of a variable: its entity class and its position among the variables of the class. -/
structure VariableKey where
  /-- The index of the entity class. -/
  entity : Nat
  /-- The index of the variable in the class. -/
  index : Nat
deriving DecidableEq, Repr

/-- A variable that a shadow variable is derived from, by name. -/
structure VariableSource where
  /-- The name of the entity class. -/
  entity : String
  /-- The name of the variable. -/
  name : String
deriving DecidableEq, Repr

/-- A variable of an entity class. -/
structure VariableDescriptor where
  /-- The name of the variable. -/
  name : String
  /-- How the variable gets its value. -/
  kind : VariableKind
  /-- An entity may be left without a value; by default only shadow variables may. -/
  allowsUnassigned : Bool := kind.isShadow
  /-- The name of the value range. -/
  valueRange : Option String := none
  /-- The variables that a shadow variable is derived from. -/
  sources : List VariableSource := []
deriving DecidableEq, Repr

/-- A class of entities. -/
structure EntityDescriptor where
  /-- The name of the class. -/
  typeName : String
  /-- The field of the solution that holds the entities. -/
  solutionField : String
  /-- The variables in the order of their declaration. -/
  allVariables : List VariableDescriptor := []
  /-- The value range that the entities make up. -/
  provides : Option String := none
  /-- The field that says whether an entity is pinned. -/
  pinField : Option String := none
deriving DecidableEq, Repr

namespace EntityDescriptor

/-- The variables that the solver changes. -/
def genuine (e : EntityDescriptor) : List VariableDescriptor :=
  e.allVariables.filter fun v => v.kind.isGenuine

/-- The variables that are derived. -/
def shadows (e : EntityDescriptor) : List VariableDescriptor :=
  e.allVariables.filter fun v => v.kind.isShadow

/-- The variable of a name. -/
def findVariable? (e : EntityDescriptor) (name : String) : Option VariableDescriptor :=
  e.allVariables.find? fun v => v.name == name

/-- The position of the variable of a name. -/
def variableIndex? (e : EntityDescriptor) (name : String) : Option Nat :=
  e.allVariables.findIdx? fun v => v.name == name

end EntityDescriptor

/-- A class of problem facts. -/
structure FactDescriptor where
  /-- The name of the class. -/
  typeName : String
  /-- The field of the solution that holds the facts. -/
  solutionField : String
  /-- There are several facts of the class. -/
  isCollection : Bool := true
  /-- The value range that the facts make up. -/
  provides : Option String := none
deriving DecidableEq, Repr

/-- A planning problem. -/
structure SolutionDescriptor where
  /-- The name of the solution. -/
  typeName : String
  /-- The entity classes. -/
  entities : List EntityDescriptor := []
  /-- The classes of problem facts. -/
  facts : List FactDescriptor := []
  /-- The field of the solution that holds the score. -/
  scoreField : Option String := none
  /-- The value ranges that nothing in the solution provides. -/
  valueRanges : List String := []
deriving DecidableEq, Repr

namespace SolutionDescriptor

variable (d : SolutionDescriptor)

/-- The position of the entity class of a name. -/
def entityIndex? (typeName : String) : Option Nat :=
  d.entities.findIdx? fun e => e.typeName == typeName

/-- The entity class of a name. -/
def findEntity? (typeName : String) : Option EntityDescriptor :=
  d.entities.find? fun e => e.typeName == typeName

/-- The place of the variable of an entity class. -/
def variableKey? (entity name : String) : Option VariableKey := do
  let i ← d.entityIndex? entity
  let e ← d.entities[i]?
  let v ← e.variableIndex? name
  return ⟨i, v⟩

/-- The variable at a place. -/
def variableAt? (key : VariableKey) : Option VariableDescriptor := do
  let e ← d.entities[key.entity]?
  e.allVariables[key.index]?

/-- The variables that the solver changes, class by class. -/
def genuine : List VariableDescriptor := d.entities.flatMap EntityDescriptor.genuine

/-- The name of the variable at a place, after the name of its class. -/
def label (key : VariableKey) : String :=
  match d.entities[key.entity]? with
  | some e =>
    match e.allVariables[key.index]? with
    | some v => s!"{e.typeName}.{v.name}"
    | none => e.typeName
  | none => ""

/-- The places of the variables of an entity class. -/
def keysOf (i : Nat) : List VariableKey :=
  match d.entities[i]? with
  | some e => (List.range e.allVariables.length).map fun v => ⟨i, v⟩
  | none => []

/-- The places of all shadow variables in the order of their declaration. -/
def shadowKeys : List VariableKey :=
  ((List.range d.entities.length).flatMap d.keysOf).filter fun key =>
    (d.variableAt? key).any fun v => v.kind.isShadow

end SolutionDescriptor

end Planning
