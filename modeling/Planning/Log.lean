import Planning.Text.Record

/-!
# Log events

A run reports what it does by events of five levels. An event carries named fields in a fixed order; its
line gives the level and then each field, with texts in quotes and shown values as they are.
-/

namespace Planning

/-- How much an event matters. -/
inductive LogLevel where
  /-- Something is broken. -/
  | error
  /-- Something is wrong. -/
  | warn
  /-- A run or a phase begins or ends. -/
  | info
  /-- A step is done. -/
  | debug
  /-- A move is evaluated. -/
  | trace
deriving DecidableEq, Repr

namespace LogLevel

/-- The name of the level. -/
def name : LogLevel → String
  | error => "ERROR"
  | warn => "WARN"
  | info => "INFO"
  | debug => "DEBUG"
  | trace => "TRACE"

/-- The place of the level; what matters most comes first. -/
def rank : LogLevel → Nat
  | error => 0
  | warn => 1
  | info => 2
  | debug => 3
  | trace => 4

end LogLevel

/-- What a field of an event holds. -/
inductive LogValue where
  /-- A text. -/
  | text (s : String)
  /-- A value by the text that shows it. -/
  | shown (s : String)
  /-- A number. -/
  | number (n : Int)
  /-- A truth value. -/
  | flag (b : Bool)
deriving DecidableEq, Repr

/-- The text of a field. -/
def LogValue.render : LogValue → String
  | text s => Text.quoted s
  | shown s => s
  | number n => toString n
  | flag b => if b then "true" else "false"

/-- What a run reports. -/
structure LogEvent where
  /-- How much it matters. -/
  level : LogLevel
  /-- The named fields in their order. -/
  fields : List (String × LogValue)
deriving DecidableEq, Repr

namespace LogEvent

/-- The event of a name. -/
def named (level : LogLevel) (name : String) (fields : List (String × LogValue)) : LogEvent :=
  ⟨level, ("event", .text name) :: fields⟩

/-- The line of an event. -/
def line (e : LogEvent) : String :=
  e.level.name ++ String.join (e.fields.map fun (name, v) => " " ++ name ++ "=" ++ v.render)

end LogEvent

end Planning
