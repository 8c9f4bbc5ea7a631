import Planning.Document.Fields
import Planning.Settings.Basic
import Planning.Text.Integer

/-!
# Settings as documents

Settings are read from documents: by name from tables, by position from lists. What has the wrong form makes
the whole document unreadable; names that are unknown are ignored. The document of settings names every
field.
-/

namespace Planning

open Document (optionalField? fieldOr?)

/-- The fields that may be missing from a table but not from a list. -/
def namedFields (names : List String) : List FieldName := names.map fun n => { name := n }

/-- The fields of which the last may be missing from a list as well. -/
def fieldsWithLast (names : List String) (last : String) : List FieldName :=
  namedFields names ++ [{ name := last, trailing := true }]

/-- A choice by its word. -/
def choice? {α : Type} [c : Choice α] (p : Place) (d : Document) : Option α :=
  (d.word? p (c.choices.map Prod.fst)).bind Choice.ofWord?

/-- The items of a list, each read. -/
def listOf? {α : Type} (read : Document → Option α) : Document → Option (List α)
  | .list items => items.mapM read
  | _ => none

namespace TerminationSettings

/-- The names of the fields. -/
def fieldNames : List FieldName :=
  fieldsWithLast
    ["seconds_spent_limit", "minutes_spent_limit", "millis_spent_limit",
      "unimproved_seconds_spent_limit", "unimproved_millis_spent_limit", "best_score_limit",
      "best_score_feasible", "step_count_limit", "unimproved_step_count_limit", "move_count_limit"]
    "termination_composition"

/-- The settings of a document. -/
def ofDocument? (p : Place) (d : Document) : Option TerminationSettings := do
  let f ← d.fields? p fieldNames
  let count (name : String) := optionalField? Document.count? (f name)
  return {
    seconds := ← count "seconds_spent_limit"
    minutes := ← count "minutes_spent_limit"
    millis := ← count "millis_spent_limit"
    unimprovedSeconds := ← count "unimproved_seconds_spent_limit"
    unimprovedMillis := ← count "unimproved_millis_spent_limit"
    scoreLimit := ← optionalField? Document.text? (f "best_score_limit")
    feasible := ← optionalField? Document.bool? (f "best_score_feasible")
    steps := ← count "step_count_limit"
    unimprovedSteps := ← count "unimproved_step_count_limit"
    moves := ← count "move_count_limit"
    composition := ← fieldOr? .or (choice? p) (f "termination_composition") }

/-- The document of the settings. -/
def toDocument (t : TerminationSettings) : Document :=
  let count (n : Option Nat) : Document := .ofOption .nat n
  .table [("seconds_spent_limit", count t.seconds), ("minutes_spent_limit", count t.minutes),
    ("millis_spent_limit", count t.millis), ("unimproved_seconds_spent_limit", count t.unimprovedSeconds),
    ("unimproved_millis_spent_limit", count t.unimprovedMillis),
    ("best_score_limit", .ofOption .text t.scoreLimit), ("best_score_feasible", .ofOption .bool t.feasible),
    ("step_count_limit", count t.steps), ("unimproved_step_count_limit", count t.unimprovedSteps),
    ("move_count_limit", count t.moves), ("termination_composition", .text (Choice.word t.composition))]

end TerminationSettings

namespace ConstructionSettings

/-- The settings of a document. -/
def ofDocument? (d : Document) : Option ConstructionSettings := do
  let f ← d.fields? .inner (namedFields ["construction_heuristic_type", "termination"])
  return {
    kind := ← fieldOr? .firstFit (choice? .inner) (f "construction_heuristic_type")
    termination := ← optionalField? (TerminationSettings.ofDocument? .inner) (f "termination") }

/-- The entries of the document of the settings. -/
def entries (s : ConstructionSettings) : List (String × Document) :=
  [("construction_heuristic_type", .text (Choice.word s.kind)),
    ("termination", .ofOption TerminationSettings.toDocument s.termination)]

end ConstructionSettings

namespace AcceptorSettings

/-- The words of the kinds. -/
def kinds : List String := ["hill_climbing", "simulated_annealing", "tabu_search", "late_acceptance"]

/-- The settings of a document. -/
def ofDocument? (p : Place) (d : Document) : Option AcceptorSettings := do
  match ← d.tagged? p "type" kinds with
  | ("hill_climbing", .table _) => return hillClimbing
  | ("hill_climbing", .keyed _) => return hillClimbing
  | ("hill_climbing", .list []) => return hillClimbing
  | ("simulated_annealing", d) =>
    let f ← d.fields? .inner (namedFields ["starting_temperature", "cooling_rate"])
    return simulatedAnnealing (← optionalField? Document.real? (f "starting_temperature"))
      (← optionalField? Document.real? (f "cooling_rate"))
  | ("tabu_search", d) =>
    let f ← d.fields? .inner (namedFields ["entity_tabu_size", "move_tabu_size", "aspiration"])
    return tabuSearch (← optionalField? Document.count? (f "entity_tabu_size"))
      (← optionalField? Document.count? (f "move_tabu_size"))
      (← optionalField? Document.bool? (f "aspiration"))
  | ("late_acceptance", d) =>
    let f ← d.fields? .inner (namedFields ["late_acceptance_size"])
    return lateAcceptance (← optionalField? Document.count? (f "late_acceptance_size"))
  | _ => none

/-- The document of a real number; what is not finite has none. -/
def realDocument (x : Float) : Document := if x.isFinite then .real x else .null

/-- The document of the settings. -/
def toDocument : AcceptorSettings → Document
  | hillClimbing => .table [("type", .text "hill_climbing")]
  | simulatedAnnealing temperature rate =>
    .table [("type", .text "simulated_annealing"),
      ("starting_temperature", .ofOption realDocument temperature),
      ("cooling_rate", .ofOption realDocument rate)]
  | tabuSearch entitySize moveSize aspiration =>
    .table [("type", .text "tabu_search"), ("entity_tabu_size", .ofOption .nat entitySize),
      ("move_tabu_size", .ofOption .nat moveSize), ("aspiration", .ofOption .bool aspiration)]
  | lateAcceptance size =>
    .table [("type", .text "late_acceptance"), ("late_acceptance_size", .ofOption .nat size)]

end AcceptorSettings

namespace ForagerSettings

/-- The settings of a document. -/
def ofDocument? (p : Place) (d : Document) : Option ForagerSettings := do
  let f ← d.fields? p (namedFields ["accepted_count_limit", "pick_early_type", "tie_break"])
  return {
    acceptedLimit := ← optionalField? Document.count? (f "accepted_count_limit")
    pickEarly := ← optionalField? (choice? p) (f "pick_early_type")
    tieBreak := ← optionalField? (choice? p) (f "tie_break") }

/-- The document of the settings. -/
def toDocument (s : ForagerSettings) : Document :=
  .table [("accepted_count_limit", .ofOption .nat s.acceptedLimit),
    ("pick_early_type", .ofOption (fun p => .text (Choice.word p)) s.pickEarly),
    ("tie_break", .ofOption (fun t => .text (Choice.word t)) s.tieBreak)]

end ForagerSettings

/-- The order of the moves of a selector. -/
def orderOf? (f : String → Option Document) : Option SelectionOrder :=
  fieldOr? .random (choice? .inner) (f "selection_order")

/-- The entry of an order. -/
def orderEntry (o : SelectionOrder) : String × Document := ("selection_order", .text (Choice.word o))

/-- The entry of a text that may be missing. -/
def textEntry (name : String) (s : Option String) : String × Document := (name, .ofOption .text s)

namespace VariableSelectorSettings

/-- The settings of a document. -/
def ofDocument? (d : Document) : Option VariableSelectorSettings := do
  let f ← d.fields? .inner (fieldsWithLast ["entity_class", "variable_name"] "selection_order")
  return {
    entityClass := ← optionalField? Document.text? (f "entity_class")
    variableName := ← optionalField? Document.text? (f "variable_name")
    order := ← orderOf? f }

/-- The entries of the document of the settings. -/
def entries (s : VariableSelectorSettings) : List (String × Document) :=
  [textEntry "entity_class" s.entityClass, textEntry "variable_name" s.variableName, orderEntry s.order]

end VariableSelectorSettings

namespace ListSelectorSettings

/-- The settings of a document. -/
def ofDocument? (d : Document) : Option ListSelectorSettings := do
  let f ← d.fields? .inner (fieldsWithLast ["entity_class"] "selection_order")
  return { entityClass := ← optionalField? Document.text? (f "entity_class"), order := ← orderOf? f }

/-- The entries of the document of the settings. -/
def entries (s : ListSelectorSettings) : List (String × Document) :=
  [textEntry "entity_class" s.entityClass, orderEntry s.order]

end ListSelectorSettings

namespace SublistSelectorSettings

/-- The settings of a document. -/
def ofDocument? (d : Document) : Option SublistSelectorSettings := do
  let f ← d.fields? .inner
    (fieldsWithLast ["entity_class", "minimum_sub_list_size", "maximum_sub_list_size"] "selection_order")
  return {
    entityClass := ← optionalField? Document.text? (f "entity_class")
    minimum := ← optionalField? Document.count? (f "minimum_sub_list_size")
    maximum := ← optionalField? Document.count? (f "maximum_sub_list_size")
    order := ← orderOf? f }

/-- The entries of the document of the settings. -/
def entries (s : SublistSelectorSettings) : List (String × Document) :=
  [textEntry "entity_class" s.entityClass, ("minimum_sub_list_size", .ofOption .nat s.minimum),
    ("maximum_sub_list_size", .ofOption .nat s.maximum), orderEntry s.order]

end SublistSelectorSettings

namespace SelectorSettings

/-- The words of the kinds. -/
def kinds : List String :=
  ["change_move_selector", "swap_move_selector", "list_change_move_selector", "list_swap_move_selector",
    "list_reverse_move_selector", "sub_list_change_move_selector", "union_move_selector"]

/-- The settings of a document of at most the given depth. -/
def read? : Nat → Place → Document → Option SelectorSettings
  | 0, _, _ => none
  | fuel + 1, p, d => do
    match ← d.tagged? p "type" kinds with
    | ("change_move_selector", d) => return change (← VariableSelectorSettings.ofDocument? d)
    | ("swap_move_selector", d) => return swap (← VariableSelectorSettings.ofDocument? d)
    | ("list_change_move_selector", d) => return listChange (← ListSelectorSettings.ofDocument? d)
    | ("list_swap_move_selector", d) => return listSwap (← ListSelectorSettings.ofDocument? d)
    | ("list_reverse_move_selector", d) => return listReverse (← ListSelectorSettings.ofDocument? d)
    | ("sub_list_change_move_selector", d) => return sublistChange (← SublistSelectorSettings.ofDocument? d)
    | ("union_move_selector", d) =>
      let f ← d.fields? .inner (namedFields ["selectors"])
      return union (← listOf? (read? fuel .inner) (← f "selectors"))
    | _ => none

/-- The settings of a document. -/
def ofDocument? (p : Place) (d : Document) : Option SelectorSettings := read? d.depth p d

mutual

/-- The document of the settings. -/
def toDocument : SelectorSettings → Document
  | change s => .table (("type", .text "change_move_selector") :: s.entries)
  | swap s => .table (("type", .text "swap_move_selector") :: s.entries)
  | listChange s => .table (("type", .text "list_change_move_selector") :: s.entries)
  | listSwap s => .table (("type", .text "list_swap_move_selector") :: s.entries)
  | listReverse s => .table (("type", .text "list_reverse_move_selector") :: s.entries)
  | sublistChange s => .table (("type", .text "sub_list_change_move_selector") :: s.entries)
  | union selectors =>
    .table [("type", .text "union_move_selector"), ("selectors", .list (toDocuments selectors))]

/-- The documents of settings. -/
def toDocuments : List SelectorSettings → List Document
  | [] => []
  | s :: rest => toDocument s :: toDocuments rest

end

end SelectorSettings

namespace LocalSearchSettings

/-- The settings of a document. -/
def ofDocument? (d : Document) : Option LocalSearchSettings := do
  let f ← d.fields? .inner (namedFields ["acceptor", "forager", "move_selector", "termination"])
  return {
    acceptor := ← optionalField? (AcceptorSettings.ofDocument? .inner) (f "acceptor")
    forager := ← optionalField? (ForagerSettings.ofDocument? .inner) (f "forager")
    selector := ← optionalField? (SelectorSettings.ofDocument? .inner) (f "move_selector")
    termination := ← optionalField? (TerminationSettings.ofDocument? .inner) (f "termination") }

/-- The entries of the document of the settings. -/
def entries (s : LocalSearchSettings) : List (String × Document) :=
  [("acceptor", .ofOption AcceptorSettings.toDocument s.acceptor),
    ("forager", .ofOption ForagerSettings.toDocument s.forager),
    ("move_selector", .ofOption SelectorSettings.toDocument s.selector),
    ("termination", .ofOption TerminationSettings.toDocument s.termination)]

end LocalSearchSettings

namespace ExhaustiveSettings

/-- The names of the fields. -/
def fieldNames : List FieldName :=
  namedFields
    ["exhaustive_search_type", "entity_limit", "node_limit", "exploration_type", "termination"]

/-- The settings of a document. -/
def ofDocument? (d : Document) : Option ExhaustiveSettings := do
  let f ← d.fields? .inner fieldNames
  return {
    kind := ← fieldOr? .branchAndBound (choice? .inner) (f "exhaustive_search_type")
    entityLimit := ← optionalField? Document.count? (f "entity_limit")
    nodeLimit := ← optionalField? Document.count? (f "node_limit")
    exploration := ← fieldOr? .depthFirst (choice? .inner) (f "exploration_type")
    termination := ← optionalField? (TerminationSettings.ofDocument? .inner) (f "termination") }

/-- The entries of the document of the settings. -/
def entries (s : ExhaustiveSettings) : List (String × Document) :=
  [("exhaustive_search_type", .text (Choice.word s.kind)), ("entity_limit", .ofOption .nat s.entityLimit),
    ("node_limit", .ofOption .nat s.nodeLimit), ("exploration_type", .text (Choice.word s.exploration)),
    ("termination", .ofOption TerminationSettings.toDocument s.termination)]

end ExhaustiveSettings

namespace PhaseSettings

/-- The words of the kinds. -/
def kinds : List String := ["construction_heuristic", "local_search", "exhaustive_search"]

/-- The settings of a document. -/
def ofDocument? (p : Place) (d : Document) : Option PhaseSettings := do
  match ← d.tagged? p "type" kinds with
  | ("construction_heuristic", d) => return construction (← ConstructionSettings.ofDocument? d)
  | ("local_search", d) => return localSearch (← LocalSearchSettings.ofDocument? d)
  | ("exhaustive_search", d) => return exhaustive (← ExhaustiveSettings.ofDocument? d)
  | _ => none

/-- The document of the settings. -/
def toDocument (p : PhaseSettings) : Document :=
  let entries :=
    match p with
    | construction s => s.entries
    | localSearch s => s.entries
    | exhaustive s => s.entries
  .table (("type", .text p.word) :: entries)

end PhaseSettings

namespace ThreadCount

/-- The thread count of a document: a number, a word, a number in a text or a table of a number. -/
def ofDocument? : Document → Option ThreadCount
  | .text "auto" => some auto
  | .text "none" => some none
  | .text s => (Text.count? s).map count
  | .list _ => Option.none
  | d =>
    match d.count? with
    | some n => some (count n)
    | Option.none => do
      let f ← d.fields? .inner (namedFields ["count"])
      return count (← (← f "count").count?)

/-- The document of the thread count. -/
def toDocument : ThreadCount → Document
  | auto => .text "auto"
  | none => .text "none"
  | count n => .nat n

end ThreadCount

namespace SolverSettings

/-- The names of the fields. -/
def fieldNames : List FieldName :=
  ["environment_mode", "random_seed", "move_thread_count", "termination", "phases"].map
    fun n => { name := n, trailing := true }

/-- The settings of a document. -/
def ofDocument? (p : Place) (d : Document) : Option SolverSettings := do
  let f ← d.fields? p fieldNames
  return {
    mode := ← fieldOr? .nonReproducible (choice? p) (f "environment_mode")
    seed := ← optionalField? Document.count? (f "random_seed")
    threads := ← fieldOr? .none ThreadCount.ofDocument? (f "move_thread_count")
    termination := ← optionalField? (TerminationSettings.ofDocument? p) (f "termination")
    phases := ← fieldOr? [] (listOf? (PhaseSettings.ofDocument? p)) (f "phases") }

/-- The document of the settings. -/
def toDocument (s : SolverSettings) : Document :=
  .table [("environment_mode", .text (Choice.word s.mode)), ("random_seed", .ofOption .nat s.seed),
    ("move_thread_count", s.threads.toDocument),
    ("termination", .ofOption TerminationSettings.toDocument s.termination),
    ("phases", .list (s.phases.map PhaseSettings.toDocument))]

end SolverSettings

end Planning
