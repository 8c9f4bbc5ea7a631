import Planning.Proofs.Run.Track
import Planning.Solver.Basic

/-!
# The course of a solver

A phase that fails ends the run, but not before the end of the phase and the end of the run are told. What is told
around phases concerns neither the best solution nor the working solution.
-/

namespace Planning

open RunState

variable {S : Type} {k : ScoreKind} {D : Director S k → Prop}

/-- Changes of the problem that wait on a desk, or that its watch will ask for, keep directors of a kind. -/
structure Desk.Upholds (desk : Desk S k) (D : Director S k → Prop) : Prop where
  /-- The changes that wait. -/
  pending : ∀ c ∈ desk.pending, c.Upholds D
  /-- The changes that the watch asks for. -/
  asked : ∀ w ∈ desk.watch, ∀ i c, (i, .change c) ∈ w.requests → c.Upholds D

/-- What happens in steps is loud, but not what happens around phases. -/
structure RunEvent.InSteps (loud : RunEvent S k → Bool) : Prop where
  /-- A change of the problem that is asked for. -/
  queued : loud .queued = false
  /-- The start of the run. -/
  started : ∀ s, loud (.started s) = false
  /-- The start of a phase. -/
  phaseStarted : ∀ place kind, loud (.phaseStarted place kind) = false
  /-- The end of a phase. -/
  phaseEnded : ∀ place kind, loud (.phaseEnded place kind) = false
  /-- The end of the run. -/
  ended : ∀ s early, loud (.ended s early) = false

/-- Better solutions are found in steps. -/
theorem RunEvent.inSteps_isBest : InSteps (isBest : RunEvent S k → Bool) :=
  ⟨rfl, fun _ => rfl, fun _ _ => rfl, fun _ _ => rfl, fun _ _ => rfl⟩

/-- Steps end in steps. -/
theorem RunEvent.inSteps_endsStep : InSteps (endsStep : RunEvent S k → Bool) :=
  ⟨rfl, fun _ => rfl, fun _ _ => rfl, fun _ _ => rfl, fun _ _ => rfl⟩

variable [PlanningSolution S k]

omit [PlanningSolution S k] in
/-- A run begins with a director of a kind. -/
theorem Solver.abides_begin (x : Solver S k) {desk : Desk S k} {dir : Director S k} (hdir : D dir)
    (hdesk : desk.Upholds D) : (x.begin desk dir).Abides D where
  director := hdir
  pending := hdesk.pending
  asked := by
    rintro c ⟨w, hw, i, hc⟩
    exact hdesk.asked w hw i c hc

namespace Running

variable {r : RunState S k}

omit [PlanningSolution S k] in
/-- An error that ends something is what comes of it; a fault stops the run. -/
theorem Ends.failureOf {x : Running S k Unit} {Q : Option SolverError → RunState S k → Prop}
    {E : Stop → RunState S k → Prop} (h : Ends x r (fun _ => Q none) fun e r' =>
      (∀ e', e = .failed e' → Q (some e') r') ∧ ∀ f, e = .faulted f → E (.faulted f) r') :
    Ends (failureOf x) r Q E := by
  unfold Ends Running.failureOf
  unfold Ends at h
  split at h
  · rename_i hx
    rw [hx]
    exact h
  · rename_i e r' hx
    rw [hx]
    cases e with
    | failed e => exact h.1 e rfl
    | faulted f => exact h.2 f rfl

/-- A phase begins. -/
def enterPhase (place : Nat) (p : Phase S k) : Running S k Unit := do
  startPhase place p.kind
  tell (.phaseStarted place p.kind)
  report .info "phase_start" fun _ => [("phase", .text p.kind), ("phase_index", .number place)]

/-- A phase is over. -/
def leavePhase (place : Nat) (p : Phase S k) : Running S k Unit := do
  endPhase
  let r ← get
  report .info "phase_end" fun _ => [("phase", .text p.kind), ("phase_index", .number place),
    ("steps", .number r.phaseSteps), ("score", .shown r.bestText)]
  tell (.phaseEnded place p.kind)

/-- A phase begins, takes its course and is over. -/
theorem runPhase_eq (place : Nat) (p : Phase S k) : runPhase place p = (do
    enterPhase place p
    let failure ← failureOf p.run
    leavePhase place p
    return failure) := by
  simp only [runPhase, enterPhase, leavePhase, bind_assoc]

section Quiet

variable {loud : RunEvent S k → Bool} (hloud : RunEvent.InSteps loud)
include hloud

/-- Nothing is loud where a phase begins. -/
theorem steady_enterPhase (hjournal : ∀ {dir : Director S k} journal, D dir → D { dir with journal := journal })
    (place : Nat) (p : Phase S k) : Steady D loud (enterPhase place p) :=
  .bind (Steady.startPhase _ _) fun _ => .bind (Steady.tell hloud.queued hjournal (hloud.phaseStarted _ _)) fun _ =>
    Steady.report hjournal _ _ _

/-- Nothing is loud where a phase is over, whatever the director is. -/
theorem rests_leavePhase (place : Nat) (p : Phase S k) :
    Leads (fun _ => True) (Rests loud) (leavePhase place p) :=
  .bind (.modify fun _ _ => ⟨trivial, .of_eq rfl rfl⟩) fun _ => .bind .get fun _ => .bind (Steady.rests_logAt _ _)
    fun _ => Steady.rests_tell hloud.queued (hloud.phaseEnded _ _)

/-- Where a phase is over the director is as it was. -/
theorem steady_leavePhase (hjournal : ∀ {dir : Director S k} journal, D dir → D { dir with journal := journal })
    (place : Nat) (p : Phase S k) : Steady D loud (leavePhase place p) :=
  .bind Steady.endPhase fun _ => .bind .get fun _ => .bind (Steady.report hjournal _ _ _) fun _ =>
    Steady.tell hloud.queued hjournal (hloud.phaseEnded _ _)

end Quiet

end Running

namespace Solver

open Running

variable (x : Solver S k) {loud : RunEvent S k → Bool} (hloud : RunEvent.InSteps loud)

/-- A run starts. -/
def enter : Running S k Unit := do
  start
  report .info "solve_start" fun _ => [("phases", .number x.phases.length),
    ("environment_mode", .shown (Choice.name x.mode)),
    ("random_seed", .shown (Text.optional toString x.seed))]
  tell (.started (← get).director.solution)

/-- A run is over. -/
def leave (failure : Option SolverError) : Running S k Unit := do
  let r ← get
  report .info "solve_end" fun _ => [("steps", .number r.statistics.steps),
    ("moves", .number r.statistics.evaluated), ("score", .shown r.bestText),
    ("terminated_early", .flag r.stopping), ("failed", .flag failure.isSome)]
  tell (.ended r.result r.stopping)

/-- A run starts, goes through its phases and is over. -/
theorem course_eq : x.course = (do
    x.enter
    let failure ← runPhases 0 x.phases
    leave failure
    return failure) := by
  simp only [course, enter, leave, bind_assoc]

include hloud

/-- Nothing is loud where a run starts. -/
theorem steady_enter (hjournal : ∀ {dir : Director S k} journal, D dir → D { dir with journal := journal }) :
    Steady D loud x.enter :=
  .bind Steady.start fun _ => .bind (Steady.report hjournal _ _ _) fun _ => .bind .get fun _ =>
    Steady.tell hloud.queued hjournal (hloud.started _)

/-- Nothing is loud where a run is over, whatever the director is. -/
theorem rests_leave (failure : Option SolverError) :
    Leads (fun _ => True) (Rests loud) (leave failure : Running S k Unit) :=
  .bind .get fun _ => .bind (Steady.rests_logAt _ _) fun _ => Steady.rests_tell hloud.queued (hloud.ended _ _)

end Solver

end Planning
