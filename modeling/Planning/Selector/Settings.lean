import Planning.Selector.Basic
import Planning.Settings.Validation

/-!
# Selectors from settings

The settings of a selector must fit the variable that is planned: its kind, and its name where one is given.
Without settings, all kinds of moves that change one or two places are candidates.
-/

namespace Planning

namespace MoveSelector

variable {S V : Type} [PlanningValue V] [DecidableEq V]

/-- The settings name no other variable. -/
def checkName (path name : String) (s : VariableSelectorSettings) : Except ConfigurationError Unit :=
  match s.variableName with
  | some given =>
    if given ≠ name then
      misconfigured s!"{path}.variable_name" s!"unknown variable '{given}', expected '{name}'"
    else .ok ()
  | none => .ok ()

mutual

/-- The selector of moves of a basic variable. -/
def ofBasicSettings (x : BasicVariable S V) (path : String) :
    SelectorSettings → Except ConfigurationError (MoveSelector S)
  | .change s => do
    checkName path x.name s
    return change x s.order
  | .swap s => do
    checkName path x.name s
    return swap x s.order
  | .union l => do return union (← ofBasicSettingsAll x path 0 l)
  | _ => misconfigured path s!"selector needs a list variable, but '{x.name}' is basic"

/-- The selectors of a union from a place on. -/
def ofBasicSettingsAll (x : BasicVariable S V) (path : String) (i : Nat) :
    List SelectorSettings → Except ConfigurationError (List (MoveSelector S))
  | [] => .ok []
  | s :: rest => do
    let first ← ofBasicSettings x s!"{path}.selectors[{i}]" s
    return first :: (← ofBasicSettingsAll x path (i + 1) rest)

end

mutual

/-- The selector of moves of a list variable. -/
def ofListSettings (x : ListVariable S V) (path : String) :
    SelectorSettings → Except ConfigurationError (MoveSelector S)
  | .listChange s => .ok (listChange x s.order)
  | .listSwap s => .ok (listSwap x s.order)
  | .listReverse s => .ok (listReverse x s.order)
  | .sublistChange s => .ok (sublistChange x s.order s.minimumSize s.maximumSize)
  | .union l => do return union (← ofListSettingsAll x path 0 l)
  | _ => misconfigured path s!"selector needs a basic variable, but '{x.name}' is a list"

/-- The selectors of a union from a place on. -/
def ofListSettingsAll (x : ListVariable S V) (path : String) (i : Nat) :
    List SelectorSettings → Except ConfigurationError (List (MoveSelector S))
  | [] => .ok []
  | s :: rest => do
    let first ← ofListSettings x s!"{path}.selectors[{i}]" s
    return first :: (← ofListSettingsAll x path (i + 1) rest)

end

/-- The selector of the moves of a variable. -/
def ofSettings (x : PlanningVariable S V) (path : String) :
    Option SelectorSettings → Except ConfigurationError (MoveSelector S)
  | some s =>
    match x with
    | .basic x => ofBasicSettings x path s
    | .list x => ofListSettings x path s
  | none =>
    .ok <|
      match x with
      | .basic x => union [change x .random, swap x .random]
      | .list x => union [listChange x .random, listSwap x .random, listReverse x .random]

end MoveSelector

end Planning
