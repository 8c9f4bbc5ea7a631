import Planning.Proofs.Phase.Unimproved
import Planning.Proofs.Solver.Best

/-!
# Steps of a run without a better solution

After each step of a run the steps without a better solution are those that ended since the best one was told. A step
that finds a better solution leaves none of them, unless it is one of an exhaustive search, which counts itself. What a
phase counts is never more than its own steps.
-/

namespace Planning

open Relation RunState Running

variable {S : Type} {k : ScoreKind} [PlanningSolution S k] {before : List (RunEvent S k)} {r r' : RunState S k}

namespace Running

omit [PlanningSolution S k] in
/-- What a run that has its counts in order succeeds to do keeps them so. -/
theorem Leads.tallied {α : Type} {x : Running S k α} (hx : Tallies before x) (h : r.Tallied before) {a : α}
    (hr : x r = .ok a r') : r'.Tallied before :=
  ((hx r h).of_ok hr).1

end Running

/-- Steps of a local search keep the counts in order. -/
theorem LocalSearch.tallied_of_turns (x : LocalSearch S k) {a b : SearchState S k × RunState S k}
    (ha : a.2.Tallied before) (h : ReflTransGen (fun a b => x.step a.1 a.2 = .ok (some b.1) b.2) a b) :
    b.2.Tallied before := by
  induction h with
  | refl => exact ha
  | tail _ hturn ih => exact (x.tallies_step _).tallied ih hturn

namespace Phase

/-- The phases that there are. -/
inductive Stock : Phase S k → Prop where
  /-- A construction of values. -/
  | construction {V : Type} [PlanningValue V] [DecidableEq V] (y : Construction S V k) : Stock y.phase
  /-- A construction of lists. -/
  | insertion {V : Type} [PlanningValue V] [DecidableEq V] (y : Insertion S V k) : Stock y.phase
  /-- A local search. -/
  | localSearch (y : LocalSearch S k) : Stock y.phase
  /-- An exhaustive search. -/
  | exhaustive {V : Type} [DecidableEq V] (y : ExhaustiveSearch S V k) : Stock y.phase

/-- A phase that begins in one run completes a step, from another run to a third. The number is that of the steps
without a better solution where the step finds one. -/
inductive Completes : Phase S k → Nat → RunState S k → RunState S k → RunState S k → Prop where
  /-- An entity has its turn behind others. -/
  | construction {V : Type} [PlanningValue V] [DecidableEq V] (y : Construction S V k) {e r₀ r r'} :
      ReflTransGen (fun a b => ∃ e, y.step e a = .ok () b) r₀ r → y.attempt e r = .ok true r' →
      Completes y.phase 0 r₀ r r'
  /-- An element has its turn behind others. -/
  | insertion {V : Type} [PlanningValue V] [DecidableEq V] (y : Insertion S V k) {v r₀ r r'} :
      ReflTransGen (fun a b => ∃ v, y.attempt v a = .ok true b) r₀ r → y.attempt v r = .ok true r' →
      Completes y.phase 0 r₀ r r'
  /-- A local search makes a move behind others, and behind the changes of the problem that wait. -/
  | localSearch (y : LocalSearch S k) {st₀ st st₁ st' n r₀ r₁ r₂ r₃ r r'} : y.begin r₀ = .ok st₀ r₁ →
      ReflTransGen (fun a b => y.step a.1 a.2 = .ok (some b.1) b.2) (st₀, r₁) (st, r₂) → takeChanges r₂ = .ok n r₃ →
      (if n = 0 then pure st else y.restart st : Running S k _) r₃ = .ok st₁ r → y.stepOn st₁ r = .ok (some st') r' →
      Completes y.phase 0 r₀ r r'
  /-- An exhaustive search looks at an open node behind others. -/
  | exhaustive {V : Type} [DecidableEq V] (y : ExhaustiveSearch S V k)
      {entities score looked node rest st st' r₀ r₁ r r'} :
      calculate r₀ = .ok score r₁ → y.Walk entities { frontier := [⟨[], score, 0⟩] } r₁ looked st r →
      st.frontier = node :: rest → y.visit entities node { st with frontier := rest } r = .ok st' r' →
      Completes y.phase 1 r₀ r r'

variable {p : Phase S k}

/-- The phases that there are keep the counts in order. -/
theorem Stock.tallies (hp : p.Stock) : Tallies before p.run := by
  cases hp with
  | construction y => exact y.tallies_run
  | insertion y => exact y.tallies_run
  | localSearch y => exact y.tallies_run
  | exhaustive y => exact y.tallies_run

/-- A phase that begins with counts in order completes its steps with them in order. -/
theorem Completes.tallied {late : Nat} {r₀ : RunState S k} (h : p.Completes late r₀ r r') (hr₀ : r₀.Tallied before) :
    r.Tallied before ∧ StepTaken late r r' := by
  cases h with
  | construction y hturns hstep =>
    refine ⟨?_, (y.advances_attempt _).of_ok hstep⟩
    clear hstep
    induction hturns with
    | refl => exact hr₀
    | tail _ hturn ih =>
      obtain ⟨e, hturn⟩ := hturn
      exact (y.tallies_step e).tallied ih hturn
  | insertion y hturns hstep =>
    refine ⟨?_, (y.advances_attempt _).of_ok hstep⟩
    clear hstep
    induction hturns with
    | refl => exact hr₀
    | tail _ hturn ih =>
      obtain ⟨v, hturn⟩ := hturn
      exact ih.advance ((y.advances_attempt v).of_ok hturn)
  | @localSearch y st₀ st st₁ st' n _ _ _ _ _ _ hbegin hsteps htake hrestart hstep =>
    refine ⟨?_, y.advances_stepOn.of_ok hstep⟩
    have hturns := y.tallied_of_turns (y.tallies_begin.tallied hr₀ hbegin) hsteps
    have hchanged := tallies_takeChanges.tallied hturns htake
    have hidle : Idle (if n = 0 then pure st else y.restart st) := .ite (.pure _) (y.idle_restart st)
    exact hidle.tallies.tallied hchanged hrestart
  | exhaustive y hscore hwalk hnode hstep =>
    refine ⟨?_, y.takes_visit.of_ok hstep⟩
    clear hnode hstep
    have hstart := Idle.calculate.tallies.tallied hr₀ hscore
    induction hwalk with
    | start => exact hstart
    | skip _ _ _ ih => exact ih
    | look _ _ _ hlook ih => exact (y.tallies_visit _ _).tallied ih hlook

end Phase

namespace Running

theorem tallies_enterPhase (place : Nat) (p : Phase S k) : Tallies before (enterPhase place p) := by
  have hstart : Tallies before (startPhase place p.kind : Running S k Unit) :=
    .modify fun r hr => ⟨⟨Nat.le_refl _, Nat.le_refl _, hr.moves, hr.steps⟩, trivial⟩
  exact .bind hstart fun _ => .bind (Idle.tell rfl).tallies fun _ => (Idle.report _ _ _).tallies

theorem tallies_leavePhase (place : Nat) (p : Phase S k) : Tallies before (leavePhase place p) := by
  have hend : Idle (endPhase : Running S k Unit) :=
    .modify fun _ _ => ⟨trivial, .of_eq rfl rfl, rfl, Nat.le_refl _, rfl, rfl⟩
  exact .bind hend.tallies fun _ => .bind .get fun _ => .bind (Idle.report _ _ _).tallies fun _ =>
    (Idle.tell rfl).tallies

/-- A phase that does not fail keeps the counts in order. -/
theorem tallied_of_runPhase {place : Nat} {p : Phase S k} (hp : Tallies before p.run) (h : r.Tallied before)
    (hr : runPhase place p r = .ok none r') : r'.Tallied before := by
  have hends : Ends (runPhase place p) r (fun failure r' => failure = none → r'.Tallied before) fun _ _ => True := by
    rw [runPhase_eq]
    simp only [ends_bind, ends_pure]
    refine (tallies_enterPhase place p r h).mono (fun _ r₁ hr₁ => ?_) fun _ _ => id
    refine .failureOf ((hp r₁ hr₁.1).mono (fun _ r₂ hr₂ => ?_) fun e r₂ _ => ⟨fun e' _ => ?_, fun _ _ => trivial⟩)
    · exact (tallies_leavePhase place p r₂ hr₂.1).mono (fun _ _ hr₃ _ => hr₃.1) fun _ _ => id
    · exact (ends_trivial _ _).mono (fun _ _ _ hnone => absurd hnone (Option.some_ne_none _)) fun _ _ => id
  exact hends.of_ok hr rfl

end Running

namespace Solver

/-- A run comes to phases that are left, from a place on. -/
inductive Comes (x : Solver S k) (r₀ : RunState S k) : Nat → List (Phase S k) → RunState S k → Prop where
  /-- The run has started. -/
  | start {r : RunState S k} : x.enter r₀ = .ok () r → Comes x r₀ 0 x.phases r
  /-- A phase is over and has not failed. -/
  | next {place p rest n r r₁ r'} : Comes x r₀ place (p :: rest) r → takeChanges r = .ok n r₁ →
      r₁.isTerminated = false → runPhase place p r₁ = .ok none r' → Comes x r₀ (place + 1) rest r'

/-- A run comes to a phase, which begins. -/
def Enters (x : Solver S k) (r₀ : RunState S k) (p : Phase S k) (r : RunState S k) : Prop :=
  ∃ place rest n r₁ r₂, x.Comes r₀ place (p :: rest) r₁ ∧ takeChanges r₁ = .ok n r₂ ∧ r₂.isTerminated = false ∧
    enterPhase place p r₂ = .ok () r

variable {x : Solver S k} {desk : Desk S k} {dir : Director S k}

/-- A run that has started has its counts in order. -/
theorem tallied_of_enter (hr : x.enter (x.begin desk dir) = .ok () r) : r.Tallied desk.history := by
  have hends : Ends x.enter (x.begin desk dir) (fun _ r' => r'.Tallied desk.history) fun _ _ => True := by
    rw [enter, ends_bind, start, ends_modify]
    have hrest : Tallies desk.history (do
        report .info "solve_start" fun _ => [("phases", .number x.phases.length),
          ("environment_mode", .shown (Choice.name x.mode)), ("random_seed", .shown (Text.optional toString x.seed))]
        tell (.started (← get).director.solution) : Running S k Unit) :=
      .bind (Idle.report _ _ _).tallies fun _ => .bind .get fun _ => (Idle.tell rfl).tallies
    refine (hrest _ ?_).mono (fun _ _ => And.left) fun _ _ => id
    exact ⟨Nat.le_refl _, Nat.le_refl _, Nat.le_refl _, [], rfl, rfl⟩
  exact hends.of_ok hr

/-- Wherever a run comes to, it has its counts in order. -/
theorem Comes.tallied (hx : ∀ p ∈ x.phases, p.Stock) {place : Nat} {rest : List (Phase S k)}
    (h : x.Comes (x.begin desk dir) place rest r) : r.Tallied desk.history ∧ ∀ p ∈ rest, p.Stock := by
  induction h with
  | start hr => exact ⟨tallied_of_enter hr, hx⟩
  | next _ htake _ hrun ih =>
    obtain ⟨hp, hrest⟩ := List.forall_mem_cons.1 ih.2
    exact ⟨tallied_of_runPhase hp.tallies (tallies_takeChanges.tallied ih.1 htake) hrun, hrest⟩

/-- A phase begins with the counts in order. -/
theorem Enters.tallied (hx : ∀ p ∈ x.phases, p.Stock) {p : Phase S k} (h : x.Enters (x.begin desk dir) p r) :
    r.Tallied desk.history := by
  obtain ⟨place, rest, n, r₁, r₂, hcomes, htake, -, henter⟩ := h
  have htaken := tallies_takeChanges.tallied (hcomes.tallied hx).1 htake
  exact (tallies_enterPhase place p).tallied htaken henter

end Solver

namespace Running

variable {α β : Type}

/-- What comes of a computation that does not fail. -/
def follow (x : Running S k α) (r : RunState S k) (f : α → RunState S k → Option β) : Option β :=
  match x r with
  | .ok a r' => f a r'
  | .error _ _ => none

omit [PlanningSolution S k] in
/-- Something comes of a computation that succeeds. -/
theorem exists_of_follow {x : Running S k α} {f : α → RunState S k → Option β} {b : β} (h : follow x r f = some b) :
    ∃ a r', x r = .ok a r' ∧ f a r' = some b := by
  unfold follow at h
  split at h
  · rename_i a r' hr'
    exact ⟨a, r', hr', h⟩
  · cases h

end Running

namespace Timetable

/-- A solver that changes the rooms of lessons. -/
def changer : Solver Timetable .hardSoft where
  phases := [roomChanges.phase]

/-- A solver that goes through the rooms of lessons. -/
def searcher : Solver Timetable .hardSoft where
  phases := [roomSearch.phase]

/-- The first phase of a solver begins where one of two lessons has a room. -/
def entered (x : Solver Timetable .hardSoft) (p : Phase Timetable .hardSoft) :
    Option (RunState Timetable .hardSoft) :=
  follow x.enter (x.begin {} (directorOf halfGiven)) fun _ r =>
    follow takeChanges r fun _ r =>
      if r.isTerminated then none
      else follow (enterPhase 0 p) r fun _ r => some r

theorem enters_of_entered {x : Solver Timetable .hardSoft} {p : Phase Timetable .hardSoft}
    {r : RunState Timetable .hardSoft} (hx : x.phases = [p]) (h : entered x p = some r) :
    x.Enters (x.begin {} (directorOf halfGiven)) p r := by
  unfold entered at h
  obtain ⟨_, r₁, hr₁, h⟩ := exists_of_follow h
  obtain ⟨n, r₂, hr₂, h⟩ := exists_of_follow h
  obtain ⟨hterminated, h⟩ := Option.ite_none_left_eq_some.1 h
  obtain ⟨_, r₃, hr₃, h⟩ := exists_of_follow h
  cases h
  have hcomes := Solver.Comes.start hr₁
  rw [hx] at hcomes
  exact ⟨0, [], n, r₁, r₂, hcomes, hr₂, Bool.eq_false_of_not_eq_true hterminated, hr₃⟩

/-- The run before and behind the first step of a local search, which gives a lesson a room. -/
def firstChange : Option (RunState Timetable .hardSoft × RunState Timetable .hardSoft) :=
  (entered changer roomChanges.phase).bind fun r =>
    follow roomChanges.begin r fun st r =>
      follow takeChanges r fun n r =>
        follow (if n = 0 then pure st else roomChanges.restart st) r fun st r =>
          follow (roomChanges.stepOn st) r fun st r' => st.map fun _ => (r, r')

/-- The run before and behind the second step of an exhaustive search, which looks at a complete timetable. -/
def firstLeaf : Option (RunState Timetable .hardSoft × RunState Timetable .hardSoft) :=
  (entered searcher roomSearch.phase).bind fun r =>
    follow Running.calculate r fun score r =>
      follow (roomSearch.visit [1] ⟨[], score, 0⟩ { frontier := [] }) r fun st r =>
        match st.frontier with
        | [] => none
        | node :: rest => follow (roomSearch.visit [1] node { st with frontier := rest }) r fun _ r' => some (r, r')

/-- A local search begins and completes its first step. -/
theorem completes_of_firstChange {r r' : RunState Timetable .hardSoft} (h : firstChange = some (r, r')) :
    ∃ r₀, changer.Enters (changer.begin {} (directorOf halfGiven)) roomChanges.phase r₀ ∧
      roomChanges.phase.Completes 0 r₀ r r' := by
  unfold firstChange at h
  obtain ⟨r₀, hr₀, h⟩ := Option.bind_eq_some_iff.1 h
  obtain ⟨st₀, r₁, hbegin, h⟩ := exists_of_follow h
  obtain ⟨n, r₂, htake, h⟩ := exists_of_follow h
  obtain ⟨st, r₃, hrestart, h⟩ := exists_of_follow h
  obtain ⟨_, r₄, hstep, h⟩ := exists_of_follow h
  obtain ⟨st', rfl, heq⟩ := Option.map_eq_some_iff.1 h
  cases heq
  exact ⟨r₀, enters_of_entered rfl hr₀, .localSearch roomChanges hbegin .refl htake hrestart hstep⟩

/-- An exhaustive search begins and looks at a complete timetable. -/
theorem completes_of_firstLeaf {r r' : RunState Timetable .hardSoft} (h : firstLeaf = some (r, r')) :
    ∃ r₀, searcher.Enters (searcher.begin {} (directorOf halfGiven)) roomSearch.phase r₀ ∧
      roomSearch.phase.Completes 1 r₀ r r' := by
  unfold firstLeaf at h
  obtain ⟨r₀, hr₀, h⟩ := Option.bind_eq_some_iff.1 h
  obtain ⟨score, r₁, hscore, h⟩ := exists_of_follow h
  obtain ⟨st, r₂, hroot, h⟩ := exists_of_follow h
  have hwalk : roomSearch.Walk [1] { frontier := [⟨[], score, 0⟩] } r₁ ([] ++ [⟨[], score, 0⟩]) st r₂ :=
    .look .start (List.nil_append _).symm rfl hroot
  split at h
  · cases h
  · rename_i node rest hfrontier
    obtain ⟨st', r₃, hleaf, h⟩ := exists_of_follow h
    cases h
    exact ⟨r₀, enters_of_entered rfl hr₀, .exhaustive roomSearch hscore hwalk hfrontier hleaf⟩

/-- No step is counted behind the change that gives a lesson a room. -/
theorem unimproved_firstChange : firstChange.map (fun y => y.2.progress.unimprovedSteps) = some 0 := by
  decide +kernel

/-- One step is counted before a complete timetable is looked at, and one behind it. -/
theorem unimproved_firstLeaf :
    firstLeaf.map (fun y => (y.1.progress.unimprovedSteps, y.2.progress.unimprovedSteps)) = some (1, 1) := by
  decide +kernel

end Timetable

namespace Solver

variable {x : Solver S k} {desk : Desk S k} {dir : Director S k}

/-- After each step of a run the steps without a better solution are those that ended since the best one was told. A
step that tells no better solution is one more of them; one that does leaves none, or itself in an exhaustive search.
The phase counts as many of them as the run, up to its own steps. No mark is ahead of what is counted. -/
theorem unimproved_of_completes (hx : ∀ p ∈ x.phases, p.Stock) {p : Phase S k} {late : Nat} {r₀ : RunState S k}
    (hp : x.Enters (x.begin desk dir) p r₀) (h : p.Completes late r₀ r r') :
    (∃ told, r'.history = told ++ desk.history ∧ r'.progress.unimprovedSteps = RunEvent.stepsSince told) ∧
    (r'.steps = r.steps + 1 ∧ ∃ better, Tells better r r' ∧
      r'.progress.unimprovedSteps = if better then late else r.progress.unimprovedSteps + 1) ∧
    r'.phaseProgress.unimprovedSteps = min r'.progress.unimprovedSteps r'.phaseProgress.steps ∧
    (r'.phaseStart.steps ≤ r'.steps ∧ r'.phaseStart.moves ≤ r'.moves ∧
      r'.improvement.steps ≤ r'.steps ∧ r'.improvement.moves ≤ r'.moves) := by
  obtain ⟨hr, hstep⟩ := h.tallied (hp.tallied hx)
  have hr' := hr.step hstep
  obtain ⟨told, -, hsteps⟩ := hr'.steps
  exact ⟨hr'.unimproved, hstep.unimproved hr, phaseProgress_unimprovedSteps,
    hr'.phaseSteps, hr'.phaseMoves, hsteps ▸ Nat.le_add_right _ _, hr'.moves⟩

open Timetable

/-- A change that gives a lesson a room tells a better timetable and leaves no step without one. -/
theorem unimproved_of_completes_change : ∃ r₀ r r',
    changer.Enters (changer.begin {} (directorOf halfGiven)) roomChanges.phase r₀ ∧
      roomChanges.phase.Completes 0 r₀ r r' ∧ Tells true r r' ∧ r'.progress.unimprovedSteps = 0 := by
  obtain ⟨⟨r, r'⟩, hfirst, hcount⟩ := Option.map_eq_some_iff.1 unimproved_firstChange
  obtain ⟨r₀, henters, hcompletes⟩ := completes_of_firstChange hfirst
  have hstock : ∀ p ∈ changer.phases, p.Stock := List.forall_mem_singleton.2 (.localSearch roomChanges)
  obtain ⟨-, ⟨-, better, htells, hunimproved⟩, -⟩ := unimproved_of_completes hstock henters hcompletes
  cases better with
  | true => exact ⟨r₀, r, r', henters, hcompletes, htells, hcount⟩
  | false => exact absurd (hunimproved.symm.trans hcount) (Nat.succ_ne_zero _)

/-- An exhaustive search that tells a better timetable counts the step in which it does so. -/
theorem exists_unimproved_of_better : ∃ r₀ r r',
    searcher.Enters (searcher.begin {} (directorOf halfGiven)) roomSearch.phase r₀ ∧
      roomSearch.phase.Completes 1 r₀ r r' ∧ Tells true r r' ∧ r'.progress.unimprovedSteps = 1 := by
  obtain ⟨⟨r, r'⟩, hfirst, hcounts⟩ := Option.map_eq_some_iff.1 unimproved_firstLeaf
  obtain ⟨hcount, hcount'⟩ : r.progress.unimprovedSteps = 1 ∧ r'.progress.unimprovedSteps = 1 := Prod.ext_iff.1 hcounts
  obtain ⟨r₀, henters, hcompletes⟩ := completes_of_firstLeaf hfirst
  obtain ⟨hr, hstep⟩ := hcompletes.tallied (henters.tallied (List.forall_mem_singleton.2 (.exhaustive roomSearch)))
  obtain ⟨-, better, htells, hunimproved⟩ := hstep.unimproved hr
  cases better with
  | true => exact ⟨r₀, r, r', henters, hcompletes, htells, hcount'⟩
  | false =>
    rw [hcount', hcount] at hunimproved
    cases hunimproved

end Solver

end Planning
