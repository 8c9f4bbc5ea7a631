import Planning.Decimal.Text
import Planning.Log

/-!
# Log events on a console

An event that matters to who watches a console has a line there: what begins and ends, better solutions,
changes of the problem, jobs and warnings. Other events have none. What an event leaves out is shown as zero
or by a word. The time in front of a line is left to who prints it.
-/

/-!
## Styles of a console

A console is told by short codes between the characters in which colour and weight what follows is written.
A styled text ends with the code that takes its style back.
-/

namespace Planning.Console

/-- A colour of a console. -/
inductive Colour where
  /-- Yellow. -/
  | yellow
  /-- White. -/
  | white
  /-- Bright red. -/
  | brightRed
  /-- Bright green. -/
  | brightGreen
  /-- Bright yellow. -/
  | brightYellow
  /-- Bright blue. -/
  | brightBlue
  /-- Bright magenta. -/
  | brightMagenta
  /-- Bright cyan. -/
  | brightCyan
deriving DecidableEq, Repr

/-- The number of a colour. -/
def Colour.code : Colour → Nat
  | yellow => 33
  | white => 37
  | brightRed => 91
  | brightGreen => 92
  | brightYellow => 93
  | brightBlue => 94
  | brightMagenta => 95
  | brightCyan => 96

/-- The characters that switch to the style of a number. -/
def switch (code : Nat) : String := s!"\x1b[{code}m"

/-- A text in a colour. -/
def paint (c : Colour) (s : String) : String := switch c.code ++ s ++ switch 39

/-- A bold text in a colour. -/
def paintBold (c : Colour) (s : String) : String := switch 1 ++ paint c s ++ switch 0

end Planning.Console

namespace Planning

/-- The text of a field that holds one. Shown values lose quotes around them. -/
def LogValue.text? : LogValue → Option String
  | text s => some s
  | shown s =>
    let quoted (c : Char) : Bool := c == '"'
    some (String.ofList (((s.toList.dropWhile quoted).reverse.dropWhile quoted).reverse))
  | _ => none

/-- The number of a field that holds one; below zero counts as zero. -/
def LogValue.count? : LogValue → Option Nat
  | number n => some n.toNat
  | _ => none

namespace LogEvent

variable (e : LogEvent)

/-- The text of a field. -/
def text? (name : String) : Option String := (e.fields.lookup name).bind LogValue.text?

/-- The text of a field, or a word in its place. -/
def textOr (name word : String) : String := (e.text? name).getD word

/-- The number of a field, zero if there is none. -/
def count (name : String) : Nat := ((e.fields.lookup name).bind LogValue.count?).getD 0

/-- A field is set. -/
def isSet (name : String) : Bool := e.fields.lookup name == some (.flag true)

end LogEvent

namespace Console

/-- Digits in groups of three, from the last one on. -/
def grouped : Nat → List Char → List Char
  | 0, cs => cs.reverse
  | fuel + 1, cs =>
    if cs.length ≤ 3 then cs.reverse else grouped fuel (cs.drop 3) ++ ',' :: (cs.take 3).reverse

/-- A number with its digits in groups of three. -/
def thousands (n : Nat) : String :=
  let digits := Nat.toDigits 10 n
  String.ofList (grouped digits.length digits.reverse)

/-- A time in milliseconds: in seconds from one second on, in minutes from one minute on. -/
def durationText (ms : Nat) : String :=
  if ms < 1000 then s!"{ms}ms"
  else if ms < 60000 then Decimal.hundredths (Float.ofNat ms / 1000) ++ "s"
  else s!"{ms / 60000}m {ms % 60000 / 1000}s"

/-- A score: red below zero, yellow with a level below zero, green otherwise. -/
def scoreText (s : String) : String :=
  if s.startsWith "-" then paint .brightRed s
  else if s.toList.contains '-' then paint .brightYellow s
  else paintBold .brightGreen s

/-- The part of a line behind a bar. -/
def bar (s : String) : String := " │ " ++ s

variable (e : LogEvent)

/-- The score of an event. -/
def score : String := scoreText (e.textOr "score" "none")

/-- A number of an event in white. -/
def whiteCount (name : String) : String := paint .white (thousands (e.count name))

/-- How long something took. -/
def duration : String := paint .yellow (durationText (e.count "duration_ms"))

/-- How many moves were evaluated in a second. -/
def speed : String := paintBold .brightMagenta (thousands (e.count "speed")) ++ " moves/s"

/-- The phase of an event and its place. -/
def phase : String :=
  paintBold .white (e.textOr "phase" "Unknown") ++ " #" ++ toString (e.count "phase_index")

/-- The job of an event. -/
def job : String := paintBold .white (e.textOr "job" "job")

/-- How a run ended. -/
def status : String :=
  if e.isSet "failed" then paintBold .brightRed "FAILED"
  else if e.isSet "terminated_early" then paintBold .brightYellow "TERMINATED EARLY"
  else paintBold .brightGreen "DONE"

/-- The line of a warning, which may be about a phase. -/
def warning : String :=
  let reason := paint .yellow (e.textOr "reason" "")
  paintBold .brightYellow "⚠" ++ " " ++
    match e.text? "phase" with
    | some p => paintBold .white p ++ " skipped" ++ bar reason
    | none => reason

/-- The line of a job that something happened to. -/
def jobLine (what : String) : String := paint .brightCyan "●" ++ " " ++ job e ++ " " ++ what

/-- The line of a job that failed. -/
def failedJob : String :=
  paintBold .brightRed "✖" ++ " " ++ job e ++ " failed" ++
    bar (paint .brightRed (e.textOr "error" "panicked"))

/-- The number of the step of a better solution, right-aligned. -/
def stepColumn : String :=
  let s := thousands (e.count "step")
  String.ofList (List.replicate (8 - s.length) ' ') ++ s

/-- The line of an event, if it has one. -/
def line? : Option String :=
  match e.textOr "event" "" with
  | "solve_start" => some (paintBold .brightGreen "▶" ++ " Solving" ++
      bar (paint .brightYellow (thousands (e.count "phases")) ++ " phases"))
  | "solve_end" => some (paintBold .brightCyan "■" ++ " Solving ended" ++ bar (duration e) ++
      bar (whiteCount e "steps" ++ " steps") ++ bar (whiteCount e "moves" ++ " moves") ++ bar (speed e) ++
      bar (score e) ++ bar (status e))
  | "phase_start" => some (paint .brightBlue "▶" ++ " " ++ phase e ++ " started")
  | "phase_end" => some (paint .brightBlue "◀" ++ " " ++ phase e ++ " ended" ++ bar (duration e) ++
      bar (whiteCount e "steps" ++ " steps") ++ bar (speed e) ++ bar (score e))
  | "new_best" =>
    if e.level.rank < LogLevel.debug.rank then none
    else some (paint .brightYellow "★" ++ " step " ++ stepColumn e ++ bar ("new best " ++ score e))
  | "problem_changes_applied" => some (paint .brightCyan "↻" ++ " " ++ thousands (e.count "count") ++
      " problem changes applied" ++ bar (score e))
  | "problem_change_rejected" => some (paintBold .brightYellow "⚠" ++ " problem change rejected" ++
      bar (paint .yellow (e.textOr "error" "unknown error")))
  | "job_submitted" => some (jobLine e "submitted")
  | "job_finished" => some (jobLine e "finished")
  | "job_removed" => some (jobLine e "removed")
  | "job_failed" => some (failedJob e)
  | "job_panicked" => some (failedJob e)
  | "phase_skipped" => some (warning e)
  | "config_ignored" => some (warning e)
  | _ => none

/-- What is written for an event: its line with a line end, or nothing. -/
def output : String :=
  match line? e with
  | some s => s ++ "\n"
  | none => ""

end Console

end Planning
