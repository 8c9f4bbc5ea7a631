import Planning.Document.Basic
import Planning.Log
import Planning.ProblemChange

/-!
# Events of a run

A run tells when it and its phases and steps start and end, and when it finds a better solution. Who watches
it may log these events under a name, and may ask for something while a step ends: a change of the problem,
or that the run stops.
-/

namespace Planning

/-- Something that happens in a run. -/
inductive RunEvent (S : Type) (k : ScoreKind) where
  /-- The run starts with a solution. -/
  | started (s : S)
  /-- A phase starts. -/
  | phaseStarted (place : Nat) (kind : String)
  /-- A step starts. -/
  | stepStarted (place : Nat)
  /-- A step ends with a score. -/
  | stepEnded (place : Nat) (score : Score k)
  /-- A change of the problem was asked for. -/
  | queued
  /-- A solution becomes the best one. -/
  | best (s : S) (score : Score k)
  /-- A phase ends. -/
  | phaseEnded (place : Nat) (kind : String)
  /-- The run ends with a solution, and whether it was asked to stop. -/
  | ended (s : S) (early : Bool)

/-- What is asked of a run from outside. -/
inductive Request (S : Type) (k : ScoreKind) where
  /-- A change of the problem. -/
  | change (c : ProblemChange S k)
  /-- An end of the run. -/
  | stop

/-- Who watches a run. -/
structure Watch (S : Type) (k : ScoreKind) where
  /-- The name under which events are logged. -/
  label : String
  /-- What is asked for while steps end. -/
  requests : List (Nat × Request S k) := []

namespace RunEvent

variable {S : Type} {k : ScoreKind} [PlanningSolution S k]

/-- The log event of a named watch, if there is one. -/
def logged? (label : String) : RunEvent S k → Option LogEvent
  | started _ => event .info "listener_started" []
  | phaseStarted i kind =>
    event .info "listener_phase_started" [("phase_index", .number i), ("phase", .text kind)]
  | stepEnded i score =>
    event .debug "listener_step" [("step_index", .number i), ("score", .shown score.text)]
  | best _ score => event .debug "listener_best" [("score", .shown score.text)]
  | phaseEnded i kind =>
    event .info "listener_phase_ended" [("phase_index", .number i), ("phase", .text kind)]
  | ended s early => event .info "listener_ended"
      [("terminated_early", .flag early), ("initialized", .flag (PlanningSolution.isInitialized s))]
  | stepStarted _ => none
  | queued => none
where
  /-- An event of a job. -/
  event (level : LogLevel) (name : String) (fields : List (String × LogValue)) : Option LogEvent :=
    some ⟨level, ("job", .shown label) :: ("event", .text name) :: fields⟩

/-- The document of an event; the start of a step has none. -/
def toDocument? : RunEvent S k → Option Document
  | started s => some (.list [.text "started", .bool (PlanningSolution.isInitialized s)])
  | phaseStarted i kind => some (.list [.text "phase", .nat i, .text kind])
  | stepStarted _ => none
  | stepEnded i score => some (.list [.text "step", .nat i, .text score.text])
  | queued => some (.list [.text "queued", .text "Queued"])
  | best _ score => some (.list [.text "best", .text score.text])
  | phaseEnded i kind => some (.list [.text "phase_end", .nat i, .text kind])
  | ended s early =>
    let score := (PlanningSolution.score s).map Score.text
    some (.list [.text "ended", .ofOption .text score, .bool early])

omit [PlanningSolution S k] in
/-- How many events of each kind there are: better solutions, starts and ends of runs, of phases and of
steps. -/
def counts (l : List (RunEvent S k)) : List Nat :=
  let count (f : RunEvent S k → Bool) : Nat := (l.filter f).length
  [count fun | best _ _ => true | _ => false, count fun | started _ => true | _ => false,
    count fun | ended _ _ => true | _ => false, count fun | phaseStarted _ _ => true | _ => false,
    count fun | phaseEnded _ _ => true | _ => false, count fun | stepStarted _ => true | _ => false,
    count fun | stepEnded _ _ => true | _ => false]

end RunEvent

end Planning
