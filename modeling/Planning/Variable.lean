import Planning.Sequence
import Planning.SolverError
import Planning.Text.Record
import Planning.Value.Text
import Planning.ValueRange

/-!
# Planning variables

A basic variable gives each entity of a class one value of a range, or none; a list variable gives each a
list of elements of a range. Both say which entities are pinned and check what a move is about to do.
-/

namespace Planning

/-- Values of planning variables. Each has a dynamic value of its own and a text. -/
class PlanningValue (V : Type) where
  /-- The dynamic value. -/
  toValue : V → Value
  /-- Different values have different dynamic values. -/
  toValue_injective : ∀ a b, toValue a = toValue b → a = b
  /-- The text. -/
  text : V → String

instance : PlanningValue Int where
  toValue := .int
  toValue_injective _ _ h := Value.int.inj h
  text := toString

instance : PlanningValue Nat where
  toValue n := .int n
  toValue_injective _ _ h := Int.ofNat.inj (Value.int.inj h)
  text := toString

instance : PlanningValue Value where
  toValue := id
  toValue_injective _ _ h := h
  text := Value.render

/-- The dynamic value of a value that may be missing. -/
def optionValue {V : Type} [PlanningValue V] : Option V → Value
  | none => .list []
  | some v => .list [PlanningValue.toValue v]

/-- The text of a value that may be missing. -/
def optionText {V : Type} [PlanningValue V] : Option V → String := Text.optional PlanningValue.text

/-- An entity must exist and must not be pinned. -/
def checkMovable (count : Nat) (pinned : Nat → Bool) (e : Nat) : Except MoveError Unit :=
  if count ≤ e then .error (.entityOutOfBounds e count)
  else if pinned e then .error (.pinned e)
  else .ok ()

/-- A variable that holds one value or none. -/
structure BasicVariable (S V : Type) where
  /-- The index of the entity class. -/
  entityClass : Nat
  /-- The name of the variable. -/
  name : String
  /-- The number of entities. -/
  count : S → Nat
  /-- The value of an entity. -/
  get? : S → Nat → Option V
  /-- The solution with another value of an entity; one that does not exist is left alone. -/
  set : S → Nat → Option V → S
  /-- The values that an entity may take. -/
  range : ValueRange S V
  /-- An entity may be left without a value. -/
  allowsUnassigned : Bool := false
  /-- The entities that may not be changed. -/
  pinned : Option (S → Nat → Bool) := none
  /-- How hard an entity is to assign. -/
  difficulty : Option (S → Nat → Checked Int) := none
  /-- How likely a value is to fit. -/
  strength : Option (S → V → Checked Int) := none

namespace BasicVariable

variable {S V : Type} (x : BasicVariable S V)

/-- The entity may not be changed. -/
def isPinned (s : S) (e : Nat) : Bool := x.pinned.any fun p => p s e

/-- The entities that have no value and may be changed. -/
def unassigned (s : S) : List Nat :=
  (List.range (x.count s)).filter fun e => (x.get? s e).isNone && !x.isPinned s e

/-- The entity may be changed. -/
def checkEntity (s : S) (e : Nat) : Except MoveError Unit := checkMovable (x.count s) (x.isPinned s) e

/-- The entity may take the value. -/
def checkValue [PlanningValue V] (s : S) (e : Nat) (v : Option V) : Except MoveError Unit :=
  let legal :=
    match v with
    | some v => x.range.contains s e v
    | none => x.allowsUnassigned
  if legal then .ok () else .error (.valueOutOfRange x.name e (optionText v))

/-- The text that shows the variable. -/
def text : String :=
  Text.openRecord "BasicVariable"
    [("descriptor_index", toString x.entityClass), ("variable_name", Text.quoted x.name),
      ("allows_unassigned", Text.flag x.allowsUnassigned)]

end BasicVariable

/-- A variable that holds a list of elements. -/
structure ListVariable (S V : Type) where
  /-- The index of the entity class. -/
  entityClass : Nat
  /-- The name of the variable. -/
  name : String
  /-- The number of entities. -/
  count : S → Nat
  /-- The list of an entity; one that does not exist has no elements. -/
  list : S → Nat → List V
  /-- The solution with another list of an entity that exists. -/
  set : S → Nat → List V → Checked S
  /-- The elements. -/
  range : ValueRange S V
  /-- The entities that may not be changed. -/
  pinned : Option (S → Nat → Bool) := none

namespace ListVariable

variable {S V : Type} (x : ListVariable S V)

/-- The entity may not be changed. -/
def isPinned (s : S) (e : Nat) : Bool := x.pinned.any fun p => p s e

/-- The length of the list of an entity. -/
def size (s : S) (e : Nat) : Nat := (x.list s e).length

/-- The solution with an edited list of an entity. -/
def edit (s : S) (e : Nat) (f : List V → Checked (List V)) : Checked S := do
  x.set s e (← f (x.list s e))

/-- An element is in a list. -/
def isAssigned [DecidableEq V] (s : S) (v : V) : Bool :=
  (List.range (x.count s)).any fun e => (x.list s e).contains v

/-- The elements that are in no list, in the order of the range. -/
def unassigned [DecidableEq V] (s : S) : Checked (List V) := do
  return (← x.range.values s 0).filter fun v => !x.isAssigned s v

/-- The entity may be changed. -/
def checkEntity (s : S) (e : Nat) : Except MoveError Unit := checkMovable (x.count s) (x.isPinned s) e

/-- The list has a position, or one of a few behind its end. -/
def checkIndex (s : S) (e i slack : Nat) : Except MoveError Unit :=
  if i < x.size s e + slack then .ok () else .error (.staleIndex e i (x.size s e))

/-- The list may hold an element. -/
def checkElement [PlanningValue V] (s : S) (e : Nat) (v : V) : Except MoveError Unit :=
  if x.range.contains s e v then .ok ()
  else .error (.valueOutOfRange x.name e (PlanningValue.text v))

/-- The text that shows the variable. -/
def text : String :=
  Text.openRecord "ListVariable"
    [("descriptor_index", toString x.entityClass), ("variable_name", Text.quoted x.name)]

end ListVariable

/-- The variable that is planned. -/
inductive PlanningVariable (S V : Type) where
  /-- One that holds a value. -/
  | basic (x : BasicVariable S V)
  /-- One that holds a list. -/
  | list (x : ListVariable S V)

namespace PlanningVariable

variable {S V : Type}

/-- The name of the variable. -/
def name : PlanningVariable S V → String
  | basic x => x.name
  | list x => x.name

/-- The text that shows which variable is planned. -/
def text : PlanningVariable S V → String
  | basic x => Text.wrapped "Basic" (Text.quoted x.name)
  | list x => Text.wrapped "List" (Text.quoted x.name)

end PlanningVariable

end Planning
