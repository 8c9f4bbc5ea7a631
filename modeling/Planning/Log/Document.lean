import Planning.Document.Basic
import Planning.Log

/-!
# Log events as documents

An event is handed over as the word of its level and a table of its fields. Scores, jobs and errors are
values that are shown, other texts are texts.
-/

namespace Planning

/-- The level of a name; what has no such name matters least. -/
def LogLevel.ofName (s : String) : LogLevel :=
  (([error, warn, info, debug].find? fun l => l.name == s)).getD trace

/-- The names of the fields whose texts are shown values. -/
def LogEvent.shownFields : List String := ["score", "job", "error"]

/-- The value of a field with a name. -/
def LogValue.ofDocument (name : String) : Document → LogValue
  | .text s => if LogEvent.shownFields.contains name then shown s else text s
  | .bool b => flag b
  | d => number d.asInt

/-- The fields of a table; those that are null are left out. -/
def LogEvent.fieldsOf : Document → List (String × LogValue)
  | .table entries =>
    entries.filterMap fun (name, d) => (d.optional (LogValue.ofDocument name)).map fun v => (name, v)
  | _ => []

/-- The event of a document. -/
def LogEvent.ofDocument (d : Document) : LogEvent :=
  ⟨.ofName (d.get "level").asText, fieldsOf (d.get "fields")⟩

end Planning
