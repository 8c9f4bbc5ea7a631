import Planning.Document.Json
import Planning.Document.Toml.Basic
import Planning.Document.Yaml.Reading
import Planning.Settings.Document

/-!
# Where settings come from

Settings are written in one of three formats, or made by edits. The name of a file says in which format it
is written.
-/

/-!
## Settings in YAML

At the top of settings and in their conditions to stop, the fields say how a scalar is taken: words and the
text of a score as they are written, whatever they look like. What is left empty stands for no fields or no
phases. Within phases a scalar is taken for what it looks like.
-/

namespace Planning

open Yaml (Reading)

/-- The reading of conditions to stop. -/
def TerminationSettings.yaml : Reading :=
  .record
    [("seconds_spent_limit", .optional .count), ("minutes_spent_limit", .optional .count),
      ("millis_spent_limit", .optional .count), ("unimproved_seconds_spent_limit", .optional .count),
      ("unimproved_millis_spent_limit", .optional .count), ("best_score_limit", .optional .text),
      ("best_score_feasible", .optional .flag), ("step_count_limit", .optional .count),
      ("unimproved_step_count_limit", .optional .count), ("move_count_limit", .optional .count),
      ("termination_composition", .choice)]

/-- The reading of the settings of a solver. -/
def SolverSettings.yaml : Reading :=
  .record
    [("environment_mode", .choice), ("random_seed", .optional .count), ("move_thread_count", .content),
      ("termination", .optional TerminationSettings.yaml), ("phases", .list (.tagged "type"))]

/-- The settings of a YAML text. -/
def SolverSettings.ofYaml? (s : String) : Option SolverSettings := do
  ofDocument? .inner (← SolverSettings.yaml.ofText? s)

end Planning

/-!
## Settings made by edits

Settings can be made step by step: each edit names what it sets and gives it. A time limit is set within the
conditions to stop that were there before; other edits replace what was there.
-/

namespace Planning

/-- The edit of conditions to stop that a list of a word and a value stands for. -/
def TerminationSettings.edited (t : TerminationSettings) (edit : Document) : TerminationSettings :=
  let n : Option Nat := some (edit.item 1).asNat
  match (edit.item 0).asText with
  | "seconds" => { t with seconds := n }
  | "millis" => { t with millis := n }
  | "steps" => { t with steps := n }
  | "unimproved_steps" => { t with unimprovedSteps := n }
  | "moves" => { t with moves := n }
  | "score" => { t with scoreLimit := some (edit.item 1).asText }
  | "feasible" => { t with feasible := some (edit.item 1).asBool }
  | "composition" => { t with composition := (choice? .json (edit.item 1)).getD t.composition }
  | _ => t

namespace SolverSettings

/-- The edit that a list of a word and a value stands for, if the value can be read. -/
def edited? (s : SolverSettings) (edit : Document) : Option SolverSettings := do
  let d := edit.item 1
  match (edit.item 0).asText with
  | "seconds" => return s.withSeconds d.asNat
  | "seed" => return { s with seed := some d.asNat }
  | "mode" => return { s with mode := ← choice? .json d }
  | "threads" => return { s with threads := ← ThreadCount.ofDocument? d }
  | "phase" => return { s with phases := s.phases ++ [← PhaseSettings.ofDocument? .json d] }
  | "termination" => return { s with termination := some (d.items.foldl TerminationSettings.edited {}) }
  | _ => return s

/-- The settings that some edits make. -/
def ofEdits? (edits : List Document) : Option SolverSettings := edits.foldlM edited? {}

end SolverSettings

end Planning

namespace Planning

/-- A format in which settings are written. -/
inductive SettingsFormat where
  /-- TOML. -/
  | toml
  /-- YAML. -/
  | yaml
deriving DecidableEq, Repr

/-- Why there are no settings. -/
inductive SettingsError where
  /-- There is no such file. -/
  | missing
  /-- The text has not the form of settings. -/
  | malformed (f : SettingsFormat)
deriving DecidableEq, Repr

/-- The word behind the last point of a file name, unless the point is its first character. -/
def fileExtension? (name : String) : Option String :=
  let cs := name.toList
  let isOther (c : Char) : Bool := c != '.'
  let tail := cs.reverse.takeWhile isOther
  if cs.length ≤ tail.length + 1 then none else some (String.ofList tail.reverse)

/-- The format of a file: YAML if its extension says so, and TOML otherwise. -/
def SettingsFormat.ofFileName (name : String) : SettingsFormat :=
  match fileExtension? name with
  | some "yaml" => yaml
  | some "yml" => yaml
  | _ => toml

/-- The record of the error, with the place that stands for the whole text. -/
def SettingsError.toDocument (e : SettingsError) : Document :=
  let name :=
    match e with
    | missing => "Io"
    | malformed .toml => "Toml"
    | malformed .yaml => "Yaml"
  .table [("error", .text name), ("path", .text "<source>")]

namespace SolverSettings

/-- The settings of a text. -/
def ofText (f : SettingsFormat) (s : String) : Except SettingsError SolverSettings :=
  let settings :=
    match f with
    | .toml => do ofDocument? .toml (← Document.ofToml? s)
    | .yaml => ofYaml? s
  match settings with
  | some settings => .ok settings
  | none => .error (.malformed f)

/-- The settings of a file with a name, given its text if there is such a file. -/
def ofFile (name : String) : Option String → Except SettingsError SolverSettings
  | some s => ofText (.ofFileName name) s
  | none => .error .missing

end SolverSettings

end Planning
