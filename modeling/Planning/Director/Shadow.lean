import Planning.Descriptor.Validation
import Planning.Fault
import Planning.Text.Record

/-!
# Shadow cascades

A shadow variable is kept up by a listener. When a variable changes, the cascade runs the listeners that
depend on it in the order of the shadow variables, so that each sees what those before it have changed. A
listener says which entities it changed; these wake the listeners that depend on its variable.
-/

namespace Planning

/-- An entity: the index of its class and its position there. -/
abbrev EntityRef := Nat × Nat

namespace EntityRef

/-- The order of entities: class by class. -/
def le (a b : EntityRef) : Bool := decide (a.1 < b.1) || (a.1 == b.1 && decide (a.2 ≤ b.2))

/-- The entities in order, each once. -/
def sorted (l : List EntityRef) : List EntityRef := (l.mergeSort le).eraseReps

end EntityRef

/-- What keeps a shadow variable up to date. -/
structure ShadowListener (S : Type) where
  /-- The shadow variable. -/
  target : VariableSource
  /-- What follows from the change of an entity of a class, and the entities changed by it. -/
  update : S → EntityRef → Checked (S × List EntityRef)
  /-- The shadow variable of every entity made anew. -/
  updateAll : S → Checked S

/-- A listener with the places of its variables. -/
structure ShadowEntry (S : Type) where
  /-- The place of the shadow variable. -/
  target : VariableKey
  /-- The places of the variables that it is derived from. -/
  sources : List VariableKey
  /-- What keeps it up to date. -/
  listener : ShadowListener S

/-- The listeners of a problem in the order of their shadow variables. -/
abbrev ShadowCascade (S : Type) := List (ShadowEntry S)

/-- Entities whose variable, or any variable if none is named, has changed. -/
structure Disturbance where
  /-- The entity class of the variable. -/
  entityClass : Nat
  /-- The position of the variable in its class. -/
  index : Option Nat
  /-- The entities. -/
  entities : List EntityRef
deriving DecidableEq

/-- The change concerns a variable. -/
def Disturbance.concerns (x : Disturbance) (key : VariableKey) : Bool :=
  x.entityClass == key.entity && (x.index.isNone || x.index == some key.index)

namespace ShadowCascade

variable {S : Type}

/-- The place of the shadow variable of a listener with what it is derived from. -/
def entryOf (d : ValidatedDescriptor) (listener : ShadowListener S) :
    Except ValidationError (ShadowEntry S) :=
  let unknown : ValidationError := .unknownShadowVariable listener.target.entity listener.target.name
  match d.variableKey? listener.target.entity listener.target.name with
  | none => .error unknown
  | some key =>
    match d.variableAt? key with
    | none => .error unknown
    | some v =>
      if v.kind.isShadow then
        .ok ⟨key, v.sources.filterMap fun s => d.variableKey? s.entity s.name, listener⟩
      else .error unknown

/-- The place of a listener in the order of the shadow variables; unknown ones come last. -/
def rank (d : ValidatedDescriptor) (e : ShadowEntry S) : Nat :=
  (d.shadowOrder.findIdx? (· = e.target)).getD d.shadowOrder.length

/-- The cascade of listeners, unless one of them keeps up something that is no shadow variable. -/
def ofListeners (d : ValidatedDescriptor) (listeners : List (ShadowListener S)) :
    Except ValidationError (ShadowCascade S) := do
  let entries ← listeners.mapM (entryOf d)
  return entries.mergeSort fun a b => decide (rank d a ≤ rank d b)

/-- The entities that a listener has to look at. -/
def touched (e : ShadowEntry S) (disturbances : List Disturbance) : List EntityRef :=
  EntityRef.sorted ((disturbances.filter fun x => e.sources.any x.concerns).flatMap
    Disturbance.entities)

/-- The listener looks at entities one by one. -/
def updateEach (listener : ShadowListener S) :
    S → List EntityRef → List EntityRef → Checked (S × List EntityRef)
  | s, changed, [] => .ok (s, changed)
  | s, changed, x :: xs => do
    let (s, more) ← listener.update s x
    updateEach listener s (changed ++ more) xs

/-- The listeners run in order; the entities that they change wake later ones. -/
def run : List (ShadowEntry S) → S → List Disturbance → Checked (S × List Disturbance)
  | [], s, disturbances => .ok (s, disturbances)
  | e :: es, s, disturbances => do
    let (s, changed) ← updateEach e.listener s [] (touched e disturbances)
    if changed.isEmpty then run es s disturbances
    else run es s (disturbances ++ [⟨e.target.entity, some e.target.index, EntityRef.sorted changed⟩])

/-- What follows from a change of an entity, and the entities whose shadow variables changed. -/
def cascade (c : ShadowCascade S) (s : S) (x : EntityRef) (index : Option Nat) :
    Checked (S × List EntityRef) := do
  let (s, disturbances) ← run c s [⟨x.1, index, [x]⟩]
  return (s, EntityRef.sorted ((disturbances.drop 1).flatMap Disturbance.entities))

/-- Every shadow variable made anew. -/
def updateAll (c : ShadowCascade S) (s : S) : Checked S := c.foldlM (fun s e => e.listener.updateAll s) s

/-- The text of the place of a variable. -/
def keyText (key : VariableKey) : String :=
  Text.record "VariableKey"
    [("descriptor_index", toString key.entity), ("variable_index", toString key.index)]

/-- The text that shows the cascade. -/
def text (c : ShadowCascade S) : String :=
  Text.record "ShadowCascade" [("targets", Text.list (c.map fun e => keyText e.target))]

end ShadowCascade

end Planning
