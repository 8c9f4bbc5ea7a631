import Planning.Settings.Document
import Planning.Settings.Validation
import Planning.SolverError.Document

/-!
# What settings amount to

A summary says whether settings are valid, for how long and with how many threads a run goes on, how far it
checks itself, and which phases it has. A time is cut to 64 bits of milliseconds.
-/

namespace Planning

/-- The document of a time that may be missing. -/
def timeDocument : Option Nat → Document := .ofOption fun t => .nat (t % (maxCount + 1))

/-- What the conditions to stop amount to. -/
def TerminationSettings.summary (t : TerminationSettings) : Checked Document := do
  let time ← t.timeLimit
  let unimproved ← t.unimprovedTimeLimit
  let isEmpty ← t.isEmpty
  return .table [("time_ms", timeDocument time), ("unimproved_ms", timeDocument unimproved),
    ("feasible", .bool t.requiresFeasible), ("empty", .bool isEmpty)]

/-- What conditions that may be missing amount to. -/
def TerminationSettings.summary? (t : Option TerminationSettings) : Checked Document := do
  return (← t.mapM summary).getD .null

namespace PhaseSettings

/-- What matters of a phase beside its conditions to stop. -/
def detail : PhaseSettings → Document
  | construction s => .table [("sorts", .bool s.kind.sortsEntities)]
  | localSearch _ => .null
  | exhaustive s => .table [("entity_limit", .nat s.entityBound)]

/-- What the settings of a phase amount to. -/
def summary (p : PhaseSettings) : Checked Document := do
  return .table [("type", .text p.word), ("termination", ← TerminationSettings.summary? p.termination),
    ("detail", p.detail)]

end PhaseSettings

/-- What a thread count amounts to. -/
def ThreadCount.summary : ThreadCount → Document
  | auto => .text "auto"
  | c => .ofOption .nat c.workers

namespace SolverSettings

variable (s : SolverSettings)

/-- Whether the settings are valid, or what is wrong with them. -/
def verdict : Checked Document := do
  match ← s.validate with
  | .ok _ => return .text "ok"
  | .error e => return (SolverError.configuration e).toDocument

/-- What the settings amount to. -/
def summary : Checked Document := do
  let verdict ← s.verdict
  let time ← s.timeLimit
  let termination ← TerminationSettings.summary? s.termination
  let phases ← s.effectivePhases.mapM PhaseSettings.summary
  return .table [("validate", verdict), ("time_ms", timeDocument time), ("termination", termination),
    ("threads", s.threads.summary),
    ("mode", .list ([s.mode.isReproducible, s.mode.assertsSteps, s.mode.assertsMoves].map .bool)),
    ("phases", .list phases)]

end SolverSettings

end Planning
