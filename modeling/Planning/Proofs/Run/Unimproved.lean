import Planning.Proofs.Run.Track

/-!
# Steps and better solutions

Most of what is done in a run neither ends a step nor replaces the best solution, and leaves alone the marks from which
steps are counted. That needs nothing of the director: moves are evaluated and made, scores are asked for and checked,
and what is reported or told is no end of a step and no better solution.
-/

namespace Planning

variable {S : Type} {k : ScoreKind}

namespace RunEvent

/-- A step ends or a solution becomes the best one. -/
def matters (e : RunEvent S k) : Bool := e.isBest || e.endsStep

end RunEvent

namespace RunState

variable {r r' : RunState S k}

/-- The run goes on within a step or between two: no step ends, and the best solution and the marks stay. -/
structure Idles (r r' : RunState S k) : Prop where
  /-- The best solution stays, and nothing that matters is told. -/
  rests : r.Rests RunEvent.matters r'
  /-- No step is counted. -/
  steps : r'.steps = r.steps
  /-- Moves may be counted. -/
  moves : r.moves ≤ r'.moves
  /-- The phase is the same. -/
  phaseStart : r'.phaseStart = r.phaseStart
  /-- The best solution was found where it was. -/
  improvement : r'.improvement = r.improvement

instance : IsPreorder (RunState S k) Idles where
  refl r := ⟨refl_of _ r, rfl, Nat.le_refl _, rfl, rfl⟩
  trans _ _ _ h h' := ⟨trans_of _ h.rests h'.rests, h'.steps.trans h.steps, Nat.le_trans h.moves h'.moves,
    h'.phaseStart.trans h.phaseStart, h'.improvement.trans h.improvement⟩

/-- What is noted and tells nothing that matters idles. -/
theorem Idles.of_noted (h : r.Noted r') (hrests : r.Rests RunEvent.matters r') : r.Idles r' := by
  refine ⟨hrests, ?_, Nat.le_of_eq ?_, ?_, ?_⟩ <;> rw [h.eq]

end RunState

namespace Running

open RunState

variable {α β : Type} {x : Running S k α} {r : RunState S k} {E : Stop → RunState S k → Prop}

/-- Nothing is done that matters, whatever the run is. -/
abbrev Idle (x : Running S k α) : Prop := Leads (fun _ => True) Idles x

namespace Idle

/-- The director does something. -/
theorem direct (d : Director S k → Checked (Director S k × α)) : Idle (direct d) :=
  Leads.direct fun _ _ _ _ _ => ⟨trivial, .of_eq rfl rfl, rfl, Nat.le_refl _, rfl, rfl⟩

theorem edit (d : Director S k → Checked (Director S k)) : Idle (edit d) := direct _

theorem draw (y : Generator.Draw α) : Idle (draw y : Running S k α) :=
  Leads.draw fun _ _ _ => ⟨trivial, .of_eq rfl rfl, rfl, Nat.le_refl _, rfl, rfl⟩

theorem logAt (level : LogLevel) (e : Unit → LogEvent) : Idle (logAt level e : Running S k Unit) :=
  .bind .get fun _ => .ite (.modify fun _ _ => ⟨trivial, .of_eq rfl rfl, rfl, Nat.le_refl _, rfl, rfl⟩) (.pure _)

theorem report (level : LogLevel) (name : String) (fields : Unit → List (String × LogValue)) :
    Idle (report level name fields : Running S k Unit) := logAt _ _

/-- A move is counted. -/
theorem recordMove (accepted : Bool) : Idle (recordMove accepted : Running S k Unit) := by
  intro r _
  rw [ends_recordMove]
  refine ⟨fun n hn => ⟨trivial, .of_eq rfl rfl, rfl, ?_, rfl, rfl⟩, fun _ _ => refl_of _ r⟩
  unfold counted at hn
  split at hn
  · cases hn
    exact Nat.le_succ _
  · cases hn

theorem recordChoice (n : Nat) : Idle (recordChoice n : Running S k Unit) := .forM fun _ _ => recordMove _

theorem applyChange (c : ProblemChange S k) : Idle (applyChange c) := by
  refine .bind (direct _) fun refusal => ?_
  cases refusal with
  | none => exact .bind (report _ _ _) fun _ => .pure _
  | some e => exact .bind (report _ _ _) fun _ => .pure _

theorem make (m : Move S) : Idle (make m : Running S k Unit) := by
  refine .bind (direct _) fun out => ?_
  cases out with
  | ok _ => exact .pure _
  | error e => exact .fail _

variable [PlanningSolution S k]

/-- What is told and does not matter. -/
theorem tell {e : RunEvent S k} (he : e.matters = false) : Idle (tell e) := by
  intro r _
  have hnoted : Ends (Running.tell e) r (fun _ r' => r.Noted r') fun _ _ => False := .tell fun _ => id
  refine (hnoted.and (Steady.rests_tell rfl he r trivial)).mono (fun _ r' hr' => ⟨trivial, ?_⟩) fun _ _ he => he.1.elim
  exact .of_noted hr'.1 hr'.2.2

theorem stepStarted : Idle (stepStarted : Running S k Unit) := .bind .get fun _ => tell rfl

/-- The score is asked for. -/
theorem calculate : Idle (calculate : Running S k (Score k)) :=
  .bind (.modify fun _ _ => ⟨trivial, .of_eq rfl rfl, rfl, Nat.le_refl _, rfl, rfl⟩) fun _ => direct _

theorem assertStep : Idle (assertStep : Running S k Unit) := by
  refine .bind .get fun _ => .ite (.bind (direct _) fun out => ?_) (.pure _)
  cases out with
  | ok _ => exact .pure _
  | error e => exact .fail _

theorem evaluate (m : Move S) : Idle (evaluate m : Running S k (Score k)) := by
  refine .bind .get fun _ => .bind (direct _) fun out => ?_
  cases out with
  | ok score => exact .bind (report _ _ _) fun _ => .pure _
  | error e => exact .fail _

theorem evaluateAll (ms : List (Move S)) : Idle (evaluateAll ms : Running S k _) := by
  induction ms with
  | nil => exact .pure _
  | cons m ms ih => exact .bind (evaluate m) fun _ => .bind ih fun _ => .pure _

end Idle

end Running

end Planning

/-!
## Steps without a better solution

A run counts its steps, and marks where its best solution was found and where its phase started. The steps since the
best solution was found are those that were told to end since it was told; none of the marks is ahead of the counts, so
that nothing is taken from less. A better solution is kept behind the end of a step or before it, and in the second case
the step itself is counted as one without a better solution.
-/

namespace Planning

variable {S : Type} {k : ScoreKind}

namespace RunEvent

/-- The number of steps that ended since a solution last became the best one; the latest events come first. -/
def stepsSince (told : List (RunEvent S k)) : Nat := (told.takeWhile fun e => !e.isBest).countP endsStep

/-- Events that do not matter end no step. -/
theorem stepsSince_append {quiet told : List (RunEvent S k)} (h : ∀ e ∈ quiet, e.matters = false) :
    stepsSince (quiet ++ told) = stepsSince told := by
  induction quiet with
  | nil => rfl
  | cons e quiet ih =>
    obtain ⟨he, hquiet⟩ := List.forall_mem_cons.1 h
    obtain ⟨hbest, hends⟩ := Bool.or_eq_false_iff.1 he
    rw [← ih hquiet, List.cons_append, stepsSince, List.takeWhile_cons, hbest, Bool.not_false, if_pos rfl,
      List.countP_cons, hends]
    rfl

/-- A step that ends is one more. -/
theorem stepsSince_stepEnded {i : Nat} {score : Score k} {told : List (RunEvent S k)} :
    stepsSince (.stepEnded i score :: told) = stepsSince told + 1 := List.countP_cons_of_pos rfl

/-- No step has ended since a solution became the best one just now. -/
theorem stepsSince_best {s : S} {score : Score k} {told : List (RunEvent S k)} :
    stepsSince (.best s score :: told) = 0 := rfl

end RunEvent

namespace RunState

variable {before : List (RunEvent S k)} {r r' r'' : RunState S k}

/-- A step ends and is counted. -/
structure EndsStep (r r' : RunState S k) : Prop where
  /-- It is counted. -/
  steps : r'.steps = r.steps + 1
  /-- Moves stay counted. -/
  moves : r.moves ≤ r'.moves
  /-- The phase is the same. -/
  phaseStart : r'.phaseStart = r.phaseStart
  /-- The best solution was found where it was. -/
  improvement : r'.improvement = r.improvement
  /-- The end of the step is told. -/
  history : ∃ quiet i score, r'.history = quiet ++ .stepEnded i score :: r.history ∧ ∀ e ∈ quiet, e.matters = false

/-- A solution becomes the best one. -/
structure Replaces (r r' : RunState S k) : Prop where
  /-- No step is counted. -/
  steps : r'.steps = r.steps
  /-- No move is. -/
  moves : r'.moves = r.moves
  /-- The phase is the same. -/
  phaseStart : r'.phaseStart = r.phaseStart
  /-- The best solution is found here. -/
  improvement : r'.improvement = r.mark
  /-- It is told. -/
  history : ∃ s score, r'.history = .best s score :: r.history

/-- A run has its counts in order since it had some history. -/
structure Tallied (before : List (RunEvent S k)) (r : RunState S k) : Prop where
  /-- The phase did not start behind the steps. -/
  phaseSteps : r.phaseStart.steps ≤ r.steps
  /-- The phase did not start behind the moves. -/
  phaseMoves : r.phaseStart.moves ≤ r.moves
  /-- The best solution was not found behind the moves. -/
  moves : r.improvement.moves ≤ r.moves
  /-- The steps since the best solution was found are those that ended since it was told. -/
  steps : ∃ told, r.history = told ++ before ∧ r.steps = r.improvement.steps + RunEvent.stepsSince told

namespace Tallied

/-- What idles keeps the counts in order. -/
theorem idle (h : r.Tallied before) (hr : r.Idles r') : r'.Tallied before := by
  obtain ⟨told, hhistory, hsteps⟩ := h.steps
  obtain ⟨quiet, hquiet, hmatters⟩ := hr.rests.history
  refine ⟨?_, ?_, ?_, quiet ++ told, ?_, ?_⟩
  · rw [hr.phaseStart, hr.steps]
    exact h.phaseSteps
  · rw [hr.phaseStart]
    exact h.phaseMoves.trans hr.moves
  · rw [hr.improvement]
    exact h.moves.trans hr.moves
  · rw [hquiet, hhistory, List.append_assoc]
  · rw [hr.steps, hr.improvement, hsteps, RunEvent.stepsSince_append hmatters]

/-- A step that ends keeps the counts in order. -/
theorem endsStep (h : r.Tallied before) (hr : r.EndsStep r') : r'.Tallied before := by
  obtain ⟨told, hhistory, hsteps⟩ := h.steps
  obtain ⟨quiet, i, score, hquiet, hmatters⟩ := hr.history
  refine ⟨?_, ?_, ?_, quiet ++ .stepEnded i score :: told, ?_, ?_⟩
  · rw [hr.phaseStart, hr.steps]
    exact Nat.le_succ_of_le h.phaseSteps
  · rw [hr.phaseStart]
    exact h.phaseMoves.trans hr.moves
  · rw [hr.improvement]
    exact h.moves.trans hr.moves
  · rw [hquiet, hhistory, List.append_assoc, List.cons_append]
  · rw [hr.steps, hr.improvement, hsteps, RunEvent.stepsSince_append hmatters, RunEvent.stepsSince_stepEnded]
    rfl

/-- A solution that becomes the best one keeps the counts in order. -/
theorem replaces (h : r.Tallied before) (hr : r.Replaces r') : r'.Tallied before := by
  obtain ⟨told, hhistory, -⟩ := h.steps
  obtain ⟨s, score, hbest⟩ := hr.history
  refine ⟨?_, ?_, ?_, .best s score :: told, ?_, ?_⟩
  · rw [hr.phaseStart, hr.steps]
    exact h.phaseSteps
  · rw [hr.phaseStart, hr.moves]
    exact h.phaseMoves
  · rw [hr.improvement, hr.moves]
    exact Nat.le_refl _
  · rw [hbest, hhistory, List.cons_append]
  · rw [hr.steps, hr.improvement, RunEvent.stepsSince_best]
    rfl

end Tallied

/-- A step is completed. A better solution may be kept behind its end, when the steps since count none, or before it,
when they count the step itself. -/
inductive StepTaken : Nat → RunState S k → RunState S k → Prop where
  /-- The best solution stays. -/
  | stays {late r r₁ r₂ r'} (hbegin : Idles r r₁) (hends : EndsStep r₁ r₂) (hrest : Idles r₂ r') : StepTaken late r r'
  /-- The best solution is replaced behind the end of the step. -/
  | behind {r r₁ r₂ r₃ r₄ r'} (hbegin : Idles r r₁) (hends : EndsStep r₁ r₂) (hmiddle : Idles r₂ r₃)
      (hreplaces : Replaces r₃ r₄) (hrest : Idles r₄ r') : StepTaken 0 r r'
  /-- The best solution is replaced before the end of the step. -/
  | ahead {r r₁ r₂ r₃ r'} (hbegin : Idles r r₁) (hreplaces : Replaces r₁ r₂) (hends : EndsStep r₂ r₃)
      (hrest : Idles r₃ r') : StepTaken 1 r r'

/-- A step keeps the counts in order. -/
theorem Tallied.step {late : Nat} (h : r.Tallied before) (hr : StepTaken late r r') : r'.Tallied before := by
  cases hr with
  | stays hbegin hends hrest => exact ((h.idle hbegin).endsStep hends).idle hrest
  | behind hbegin hends hmiddle hreplaces hrest =>
    exact ((((h.idle hbegin).endsStep hends).idle hmiddle).replaces hreplaces).idle hrest
  | ahead hbegin hreplaces hends hrest => exact (((h.idle hbegin).replaces hreplaces).endsStep hends).idle hrest

/-- What idles before a step belongs to it. -/
theorem Idles.step {late : Nat} (h : r.Idles r') (hr : StepTaken late r' r'') : StepTaken late r r'' := by
  cases hr with
  | stays hbegin hends hrest => exact .stays (trans_of _ h hbegin) hends hrest
  | behind hbegin hends hmiddle hreplaces hrest => exact .behind (trans_of _ h hbegin) hends hmiddle hreplaces hrest
  | ahead hbegin hreplaces hends hrest => exact .ahead (trans_of _ h hbegin) hreplaces hends hrest

/-- What idles behind a step belongs to it. -/
theorem StepTaken.idle {late : Nat} (h : StepTaken late r r') (hr : r'.Idles r'') : StepTaken late r r'' := by
  cases h with
  | stays hbegin hends hrest => exact .stays hbegin hends (trans_of _ hrest hr)
  | behind hbegin hends hmiddle hreplaces hrest => exact .behind hbegin hends hmiddle hreplaces (trans_of _ hrest hr)
  | ahead hbegin hreplaces hends hrest => exact .ahead hbegin hreplaces hends (trans_of _ hrest hr)

/-- A step is completed, or nothing is done that matters. -/
def Advances (late : Nat) (completed : Bool) (r r' : RunState S k) : Prop :=
  if completed then StepTaken late r r' else Idles r r'

/-- What idles before a step belongs to it, whether it is completed or not. -/
theorem Idles.advances {late : Nat} {completed : Bool} (h : r.Idles r') (hr : Advances late completed r' r'') :
    Advances late completed r r'' := by
  cases completed with
  | true => exact h.step hr
  | false => exact trans_of Idles h hr

/-- A step keeps the counts in order, whether it is completed or not. -/
theorem Tallied.advance {late : Nat} {completed : Bool} (h : r.Tallied before) (hr : Advances late completed r r') :
    r'.Tallied before := by
  cases completed with
  | true => exact h.step hr
  | false => exact h.idle hr

/-- Something is told, a better solution among it or not. -/
def Tells (better : Bool) (r r' : RunState S k) : Prop :=
  ∃ told, r'.history = told ++ r.history ∧ told.any RunEvent.isBest = better

/-- What is told one after another. -/
theorem Tells.trans {b c : Bool} (h : Tells b r r') (h' : Tells c r' r'') : Tells (c || b) r r'' := by
  obtain ⟨told, hhistory, hb⟩ := h
  obtain ⟨told', hhistory', hc⟩ := h'
  exact ⟨told' ++ told, by rw [hhistory', hhistory, List.append_assoc], by rw [List.any_append, hb, hc]⟩

/-- Nothing that matters is no better solution. -/
theorem any_isBest_of_matters {quiet : List (RunEvent S k)} (h : ∀ e ∈ quiet, e.matters = false) :
    quiet.any RunEvent.isBest = false := by
  rw [List.any_eq_false]
  intro e he
  rw [(Bool.or_eq_false_iff.1 (h e he)).1]
  exact Bool.false_ne_true

theorem Idles.tells (h : r.Idles r') : Tells false r r' := by
  obtain ⟨quiet, hquiet, hmatters⟩ := h.rests.history
  exact ⟨quiet, hquiet, any_isBest_of_matters hmatters⟩

theorem EndsStep.tells (h : r.EndsStep r') : Tells false r r' := by
  obtain ⟨quiet, i, score, hquiet, hmatters⟩ := h.history
  refine ⟨quiet ++ [.stepEnded i score], by rw [hquiet, List.append_assoc, List.singleton_append], ?_⟩
  rw [List.any_append, any_isBest_of_matters hmatters]
  rfl

theorem Replaces.tells (h : r.Replaces r') : Tells true r r' := by
  obtain ⟨s, score, hbest⟩ := h.history
  exact ⟨[.best s score], hbest, rfl⟩

variable [PlanningSolution S k]

/-- The steps without a better solution are those since it was found. -/
theorem progress_unimprovedSteps : r.progress.unimprovedSteps = r.steps - r.improvement.steps :=
  congrArg (r.steps - ·) (Nat.max_zero _)

/-- The steps of the phase without a better solution are those of the run, or all steps of the phase. -/
theorem phaseProgress_unimprovedSteps :
    r.phaseProgress.unimprovedSteps = min r.progress.unimprovedSteps r.phaseProgress.steps := by
  rw [progress_unimprovedSteps]
  change r.steps - max r.improvement.steps r.phaseStart.steps = min _ (r.steps - r.phaseStart.steps)
  omega

/-- The steps without a better solution are those that ended since one was told. -/
theorem Tallied.unimproved (h : r.Tallied before) :
    ∃ told, r.history = told ++ before ∧ r.progress.unimprovedSteps = RunEvent.stepsSince told := by
  obtain ⟨told, hhistory, hsteps⟩ := h.steps
  exact ⟨told, hhistory, by rw [progress_unimprovedSteps, hsteps, Nat.add_sub_cancel_left]⟩

/-- A step without a better solution is one more of them. A better solution that is kept behind its end leaves none, and
one that is kept before it leaves the step itself. -/
theorem StepTaken.unimproved {late : Nat} (h : r.Tallied before) (hr : StepTaken late r r') :
    r'.steps = r.steps + 1 ∧ ∃ better, Tells better r r' ∧
      r'.progress.unimprovedSteps = if better then late else r.progress.unimprovedSteps + 1 := by
  obtain ⟨told, -, hsteps⟩ := h.steps
  simp only [progress_unimprovedSteps]
  cases hr with
  | stays hbegin hends hrest =>
    have hcount : r'.steps = r.steps + 1 := by rw [hrest.steps, hends.steps, hbegin.steps]
    refine ⟨hcount, false, (hbegin.tells.trans hends.tells).trans hrest.tells, ?_⟩
    rw [hcount, hrest.improvement, hends.improvement, hbegin.improvement, if_neg Bool.false_ne_true]
    omega
  | behind hbegin hends hmiddle hreplaces hrest =>
    have hcount : r'.steps = r.steps + 1 := by
      rw [hrest.steps, hreplaces.steps, hmiddle.steps, hends.steps, hbegin.steps]
    have htells := ((hbegin.tells.trans hends.tells).trans hmiddle.tells).trans hreplaces.tells
    refine ⟨hcount, true, htells.trans hrest.tells, ?_⟩
    rw [hrest.improvement, hrest.steps, hreplaces.improvement, hreplaces.steps, if_pos rfl]
    exact Nat.sub_self _
  | ahead hbegin hreplaces hends hrest =>
    have hcount : r'.steps = r.steps + 1 := by rw [hrest.steps, hends.steps, hreplaces.steps, hbegin.steps]
    refine ⟨hcount, true, ((hbegin.tells.trans hreplaces.tells).trans hends.tells).trans hrest.tells, ?_⟩
    rw [hcount, hrest.improvement, hends.improvement, hreplaces.improvement, if_pos rfl, mark, hbegin.steps]
    exact Nat.add_sub_cancel_left _ 1

end RunState

namespace Running

open RunState

variable {r : RunState S k} {before : List (RunEvent S k)} {α : Type} {x : Running S k α}

instance : IsPreorder (RunState S k) fun _ _ => True where
  refl _ := trivial
  trans _ _ _ _ _ := trivial

/-- A computation that does not fail keeps the counts in order. -/
abbrev Tallies (before : List (RunEvent S k)) (x : Running S k α) : Prop :=
  Leads (Tallied before) (fun _ _ => True) x

/-- What idles keeps the counts in order. -/
theorem Idle.tallies (hx : Idle x) : Tallies before x :=
  fun r hr => (hx r trivial).mono (fun _ _ hr' => ⟨hr.idle hr'.2, trivial⟩) fun _ _ _ => trivial

variable [PlanningSolution S k]

/-- Behind the end of a step at most something is asked for. -/
theorem ends_tell_stepEnded {i : Nat} {score : Score k} :
    Ends (tell (.stepEnded i score)) r
      (fun _ r' => r.Noted r' ∧ { r with history := .stepEnded i score :: r.history }.Rests RunEvent.matters r')
      fun _ _ => True := by
  have hnoted : Ends (tell (.stepEnded i score)) r (fun _ r' => r.Noted r') fun _ _ => False := .tell fun _ => id
  suffices hrests : Ends (tell (.stepEnded i score)) r
      (fun _ r' => { r with history := .stepEnded i score :: r.history }.Rests RunEvent.matters r') fun _ _ => True from
    (hnoted.and hrests).mono (fun _ _ => id) fun _ _ h => h.1.elim
  simp only [tell, ends_bind, ends_modify, ends_get]
  split
  · rename_i w hw
    have hloop : Leads (fun _ => True) (Rests RunEvent.matters)
        ((w.requests.filter fun q => q.1 == i).forM fun q => request q.2 : Running S k PUnit) :=
      .forM fun q _ => Steady.rests_request rfl q.2
    rw [ends_bind]
    refine (hloop _ trivial).mono (fun _ r' hr' => ?_) fun _ _ _ => trivial
    split
    · exact (Steady.rests_logAt _ _ r' trivial).mono (fun _ _ hr'' => trans_of _ hr'.2 hr''.2) fun _ _ _ => trivial
    · exact hr'.2
  · exact refl_of _ _

/-- A step that ends is told and counted. -/
theorem ends_stepEnded_endsStep (score : Score k) :
    Ends (stepEnded score) r (fun _ r' => r.EndsStep r') fun _ _ => True := by
  simp only [stepEnded, ends_bind, ends_get]
  refine ends_tell_stepEnded.mono (fun _ r₁ hr₁ => ?_) fun _ _ _ => trivial
  obtain ⟨hnoted₁, hrests₁⟩ := hr₁
  rw [ends_checked]
  refine ⟨fun n hn => ?_, fun _ _ => trivial⟩
  obtain ⟨-, rfl⟩ := Checked.ite_eq_ok_iff.1 hn
  rw [ends_modify]
  refine (Idle.report _ _ _ _ trivial).mono (fun _ r₂ hr₂ => ?_) fun _ _ _ => trivial
  obtain ⟨-, hidles⟩ := hr₂
  obtain ⟨quiet₁, hquiet₁, hmatters₁⟩ := hrests₁.history
  obtain ⟨quiet₂, hquiet₂, hmatters₂⟩ := hidles.rests.history
  refine ⟨?_, ?_, ?_, ?_, quiet₂ ++ quiet₁, r.steps, score, ?_, fun e he => ?_⟩
  · rw [hidles.steps, hnoted₁.eq]
  · have hmoves := hidles.moves
    rw [hnoted₁.eq] at hmoves
    exact hmoves
  · rw [hidles.phaseStart, hnoted₁.eq]
  · rw [hidles.improvement, hnoted₁.eq]
  · rw [hquiet₂, hquiet₁, List.append_assoc]
  · exact (List.mem_append.1 he).elim (hmatters₂ e) (hmatters₁ e)

/-- A solution that becomes the best one replaces the one before. -/
theorem ends_setBest_replaces (s : S) (score : Score k) :
    Ends (setBest s score) r (fun _ r' => r.Replaces r') fun _ _ => True := by
  have habides : r.Abides fun _ => True := ⟨trivial, fun _ _ _ _ _ _ _ => trivial, fun _ _ _ _ _ _ _ => trivial⟩
  have hmarks : Ends (setBest s score) r (fun _ r' => r'.steps = r.steps ∧ r'.moves = r.moves ∧
      r'.phaseStart = r.phaseStart ∧ r'.improvement = r.mark) fun _ _ => False := by
    refine .setBest fun r' r'' hr' hr'' => ?_
    rw [hr''.eq, hr'.eq]
    exact ⟨rfl, rfl, rfl, rfl⟩
  refine (hmarks.and (ends_setBest (fun _ _ => trivial) habides s score (E := fun _ _ => True))).mono
    (fun _ r' hr' => ?_) fun _ _ _ => trivial
  obtain ⟨⟨hsteps, hmoves, hphase, hmark⟩, -, -, hhistory⟩ := hr'
  exact ⟨hsteps, hmoves, hphase, hmark, _, _, hhistory⟩

/-- The working solution becomes the best one if it is better, and otherwise nothing happens. -/
theorem ends_updateBestWith_replaces (score : Score k) :
    Ends (updateBestWith score) r (fun better r' => if better then r.Replaces r' else r' = r) fun _ _ => True :=
  .updateBestWith (fun _ => ends_setBest_replaces _ score) fun _ => rfl

theorem tallies_setBest (s : S) (score : Score k) : Tallies before (setBest s score : Running S k Unit) :=
  fun _ hr => (ends_setBest_replaces s score).mono (fun _ _ hr' => ⟨hr.replaces hr', trivial⟩) fun _ _ _ => trivial

theorem tallies_updateBestWith (score : Score k) : Tallies before (updateBestWith score : Running S k Bool) := by
  intro r hr
  refine (ends_updateBestWith_replaces score).mono (fun better r' hr' => ⟨?_, trivial⟩) fun _ _ _ => trivial
  cases better with
  | true => exact hr.replaces hr'
  | false => exact hr' ▸ hr

theorem tallies_updateBest : Tallies before (updateBest : Running S k Bool) :=
  .bind Idle.calculate.tallies fun _ => tallies_updateBestWith _

/-- Changes of the problem that are taken in keep the counts in order. -/
theorem tallies_takeChanges : Tallies before (takeChanges : Running S k Nat) := by
  have hclear : Idle (modify fun r => { r with pending := [] } : Running S k PUnit) :=
    .modify fun _ _ => ⟨trivial, .of_eq rfl rfl, rfl, Nat.le_refl _, rfl, rfl⟩
  refine .bind .get fun r => .ite (.pure _) (.bind hclear.tallies fun _ => ?_)
  refine .bind (.filterM fun c _ => (Idle.applyChange c).tallies) fun made => .ite (.pure _) ?_
  refine .bind Idle.calculate.tallies fun score => .bind .get fun _ => .bind (tallies_setBest _ _) fun _ => ?_
  exact .bind (Idle.report _ _ _).tallies fun _ => .pure _

end Running

end Planning
