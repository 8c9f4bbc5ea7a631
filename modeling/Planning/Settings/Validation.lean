import Planning.Decimal.Text
import Planning.Score.Text
import Planning.Settings.Basic
import Planning.SolverError

/-!
# Validation of settings

Settings are refused when they contradict each other or leave their range. The error names the place of the
first wrong setting. A local search must be stopped by something.
-/

namespace Planning

/-- What is wrong at a place. -/
def misconfigured {α : Type} (path reason : String) : Except ConfigurationError α :=
  .error ⟨path, reason⟩

/-- The text is a score of one of the kinds whose number of levels is known, or may be one of another. -/
def isScoreLimit (s : String) : Bool :=
  (s.toList.dropWhile Text.isBlank).head? == some '[' || (Score.parse .simple s).toOption.isSome ||
    (Score.parse .hardSoft s).toOption.isSome || (Score.parse .hardMediumSoft s).toOption.isSome

namespace TerminationSettings

/-- The score limit is a score and there is at least one step. -/
def validate (path : String) (t : TerminationSettings) : Except ConfigurationError Unit := do
  if let some limit := t.scoreLimit then
    if !isScoreLimit limit then
      misconfigured s!"{path}.best_score_limit" s!"'{limit}' is not a score"
  if t.steps = some 0 then
    misconfigured s!"{path}.step_count_limit" "step count limit must be positive"

end TerminationSettings

namespace AcceptorSettings

/-- The temperature at the start, one unless it is given. -/
def startingTemperature (temperature : Option Float) : Float := temperature.getD 1

/-- The factor by which the temperature falls with each step. -/
def coolingRate (rate : Option Float) : Float := rate.getD 0.999

/-- The numbers are in their ranges. -/
def validate (path : String) : AcceptorSettings → Except ConfigurationError Unit
  | hillClimbing => .ok ()
  | simulatedAnnealing temperature rate => do
    let t := startingTemperature temperature
    if !(t.isFinite && t > 0) then
      misconfigured s!"{path}.starting_temperature"
        s!"temperature must be positive, got {Decimal.plainText t}"
    let r := coolingRate rate
    if !(r > 0 && r ≤ 1) then
      misconfigured s!"{path}.cooling_rate"
        s!"cooling rate must be in (0, 1], got {Decimal.plainText r}"
  | tabuSearch entitySize moveSize _ =>
    if entitySize.getD 0 = 0 ∧ moveSize.getD 0 = 0 then
      misconfigured path "tabu search needs a positive entity_tabu_size or move_tabu_size"
    else .ok ()
  | lateAcceptance size =>
    if size = some 0 then
      misconfigured s!"{path}.late_acceptance_size" "late acceptance size must be positive"
    else .ok ()

end AcceptorSettings

namespace SelectorSettings

mutual

/-- The sizes of sublists are in order and no union is empty. -/
def validate (path : String) : SelectorSettings → Except ConfigurationError Unit
  | sublistChange s =>
    if s.minimumSize = 0 ∨ s.maximumSize < s.minimumSize then
      let low := s.minimumSize
      let high := s.maximumSize
      misconfigured path s!"sub-list sizes must satisfy 1 <= minimum <= maximum, got {low}..={high}"
    else .ok ()
  | union [] => misconfigured path "union needs at least one selector"
  | union selectors => validateAll path 0 selectors
  | _ => .ok ()

/-- The selectors of a union from a place on. -/
def validateAll (path : String) (i : Nat) : List SelectorSettings → Except ConfigurationError Unit
  | [] => .ok ()
  | s :: rest => do
    s.validate s!"{path}.selectors[{i}]"
    validateAll path (i + 1) rest

end

end SelectorSettings

/-- The acceptor, the forager and the selector are usable. -/
def LocalSearchSettings.validate (path : String) (s : LocalSearchSettings) :
    Except ConfigurationError Unit := do
  if let some acceptor := s.acceptor then acceptor.validate s!"{path}.acceptor"
  if (s.forager.bind ForagerSettings.acceptedLimit) = some 0 then
    misconfigured s!"{path}.forager.accepted_count_limit" "accepted count limit must be positive"
  if let some selector := s.selector then selector.validate s!"{path}.move_selector"

/-- The settings of a phase are usable. -/
def PhaseSettings.validate (path : String) : PhaseSettings → Except ConfigurationError Unit
  | construction _ => .ok ()
  | localSearch s => s.validate path
  | exhaustive s =>
    if s.nodeLimit = some 0 then misconfigured s!"{path}.node_limit" "node limit must be positive"
    else .ok ()

/-- There is a condition to stop. -/
def stops : Option TerminationSettings → Checked Bool
  | some t => do return !(← t.isEmpty)
  | none => .ok false

namespace SolverSettings

/-- The phases from a place on are usable; `stopped` says that the run is stopped by itself. -/
def validatePhases (stopped : Bool) (i : Nat) :
    List PhaseSettings → ExceptT ConfigurationError Checked Unit
  | [] => pure ()
  | p :: rest => do
    let path := s!"phases[{i}]"
    liftExcept (p.validate path)
    if let some t := p.termination then liftExcept (t.validate s!"{path}.termination")
    let phaseStopped ← (stops p.termination : Checked Bool)
    let isSearch :=
      match p with
      | .localSearch _ => true
      | _ => false
    if isSearch && !stopped && !phaseStopped then
      throw ⟨path, "local search needs a termination on the phase or the solver"⟩
    validatePhases stopped (i + 1) rest
where
  /-- An error of settings. -/
  liftExcept (x : Except ConfigurationError Unit) : ExceptT ConfigurationError Checked Unit :=
    ExceptT.mk (.ok x)

/-- The settings are usable. -/
def validate (s : SolverSettings) : Checked (Except ConfigurationError Unit) :=
  ExceptT.run do
    if s.threads = .count 0 then throw ⟨"move_thread_count", "thread count must be at least 1"⟩
    if let some t := s.termination then
      validatePhases.liftExcept (t.validate "termination")
    let stopped ← (stops s.termination : Checked Bool)
    validatePhases stopped 0 s.effectivePhases

end SolverSettings

end Planning
