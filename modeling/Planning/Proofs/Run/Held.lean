import Planning.Proofs.Phase.Tended
import Planning.Proofs.Phase.Tracked

/-!
# What an error leaves behind

Between two steps the working solution stays like it is, whatever is asked of it. An error in between leaves it like
that as well, unless a score is found wrong while a move is tried: then the move stays made.
-/

namespace Planning

open Checked RunState

variable {S F : Type} {k : ScoreKind} [PlanningSolution S k]
variable {B L : Type} {V : B → Type} {W : L → Type}
variable {g : Genuine S V W} {facts : S → F} {shadows : ShadowCascade S} {s t u : S} {mode : EnvironmentMode}

/-- A director with given listeners. -/
def Director.Heeds (shadows : ShadowCascade S) (dir : Director S k) : Prop := dir.shadows = shadows

namespace Genuine

/-- What an error leaves of a solution: a solution like it, or one that a move made of one like it, in a run that checks
the scores of moves. -/
inductive Leaves (g : Genuine S V W) (facts : S → F) (mode : EnvironmentMode) (s : S) : SolverError → S → Prop where
  /-- The solution is like before. -/
  | alike {e t} (h : g.Alike facts t s) : Leaves g facts mode s e t
  /-- The score with a move was found wrong, and the move was not taken back. -/
  | midway {m c} {dir dir' : Director S k} (hlike : g.Alike facts dir.solution s) (hmode : mode.assertsMoves = true)
      (hfails : dir.FailsMidway m c dir') : Leaves g facts mode s (.scoreCorruption c) dir'.solution

/-- What is left of a solution is left of those that are alike. -/
theorem Leaves.of_alike {e : SolverError} (h : g.Leaves (k := k) facts mode s e t) (hlike : g.Alike facts s u) :
    g.Leaves (k := k) facts mode u e t := by
  cases h with
  | alike h => exact .alike (h.trans hlike)
  | midway h hmode hfails => exact .midway (h.trans hlike) hmode hfails

end Genuine

namespace RunState

variable {r r' r'' : RunState S k}

/-- No step ends, and the working solution stays like it is. -/
structure Holds (g : Genuine S V W) (facts : S → F) (r r' : RunState S k) : Prop where
  /-- No step ends. -/
  rests : r.Rests RunEvent.endsStep r'
  /-- The run checks itself as before. -/
  mode : r'.mode = r.mode
  /-- The working solution is like before. -/
  alike : g.Alike facts r'.director.solution r.director.solution

omit [PlanningSolution S k] in
instance : IsPreorder (RunState S k) (Holds g facts) where
  refl r := ⟨refl_of _ r, rfl, .refl _⟩
  trans _ _ _ h h' := ⟨trans_of _ h.rests h'.rests, h'.mode.trans h.mode, h'.alike.trans h.alike⟩

omit [PlanningSolution S k] in
/-- What has the same best solution and the same director is held. -/
theorem Holds.of_eq (hbest : r'.best = r.best) (hhistory : r'.history = r.history) (hmode : r'.mode = r.mode)
    (hdirector : r'.director = r.director) : r.Holds g facts r' :=
  ⟨.of_eq hbest hhistory, hmode, by rw [hdirector]; exact .refl _⟩

/-- An error stops a run after steps that ended, and leaves the working solution as it was since. -/
structure Fails (g : Genuine S V W) (facts : S → F) (r : RunState S k) (e : SolverError) (r' : RunState S k) : Prop where
  /-- No step has ended since. -/
  rests : r.Rests RunEvent.endsStep r'
  /-- What is left of the working solution. -/
  leaves : g.Leaves (k := k) facts r.mode r.director.solution e r'.director.solution

/-- What holds a run fails with its working solution as it is. -/
theorem Holds.fails (h : r.Holds g facts r') (e : SolverError) : r.Fails g facts e r' := ⟨h.rests, .alike h.alike⟩

/-- A run that is held before an error is left as if it had not been held. -/
theorem Holds.trans_fails {e : SolverError} (h : r.Holds g facts r') (h' : r'.Fails g facts e r'') :
    r.Fails g facts e r'' := by
  refine ⟨trans_of _ h.rests h'.rests, ?_⟩
  rw [← h.mode]
  exact h'.leaves.of_alike h.alike

/-- A run that is noted after an error is left as it was. -/
theorem Fails.noted {e : SolverError} (h : r.Fails g facts e r') (hrests : r'.Rests RunEvent.endsStep r'')
    (hs : r''.director.solution = r'.director.solution) : r.Fails g facts e r'' :=
  ⟨trans_of _ h.rests hrests, by rw [hs]; exact h.leaves⟩

end RunState

namespace Running

variable {r : RunState S k} {α : Type} {x : Running S k α} {D : Director S k → Prop}

/-- A computation that tells of no end of a step holds the working solution. -/
abbrev Held (g : Genuine S V W) (facts : S → F) (D : Director S k → Prop) (x : Running S k α) : Prop :=
  Leads (Abides D) (Holds g facts) x

omit [PlanningSolution S k] in
/-- What is logged holds the working solution. -/
theorem held_logAt (hjournal : ∀ {dir : Director S k} journal, D dir → D { dir with journal := journal })
    (level : LogLevel) (e : Unit → LogEvent) : Held g facts D (logAt level e) := by
  intro r h
  have hnoted : Ends (Running.logAt level e) r (fun _ r' => r.Noted r') fun _ r' => r.Holds g facts r' :=
    .logAt fun r' hr' => hr'
  refine (((Steady.logAt hjournal level e) r h).and hnoted).mono (fun _ r' hr' => ⟨hr'.1.1, hr'.1.2, ?_, ?_⟩)
    fun _ _ => And.right
  · rw [hr'.2.eq]
  · rw [hr'.2.solution]
    exact .refl _

/-- A step that starts holds the working solution. -/
theorem held_stepStarted (hjournal : ∀ {dir : Director S k} journal, D dir → D { dir with journal := journal }) :
    Held g facts D (stepStarted : Running S k Unit) := by
  intro r h
  have hsteady : Steady D RunEvent.endsStep (stepStarted : Running S k Unit) :=
    Steady.stepStarted rfl hjournal fun _ => rfl
  have hnoted : Ends Running.stepStarted r (fun _ r' => r.Noted r') fun _ r' => r.Holds g facts r' := by
    simp only [stepStarted, ends_bind, ends_get]
    exact .tell fun r' hr' => hr'
  refine ((hsteady r h).and hnoted).mono (fun _ r' hr' => ⟨hr'.1.1, hr'.1.2, ?_, ?_⟩) fun _ _ => And.right
  · rw [hr'.2.eq]
  · rw [hr'.2.solution]
    exact .refl _

omit [PlanningSolution S k] in
/-- What is drawn holds the working solution. -/
theorem held_draw (y : Generator.Draw α) : Held g facts D (draw y : Running S k α) :=
  .draw fun _ _ h => ⟨⟨h.director, h.pending, h.asked⟩, .of_eq rfl rfl rfl rfl⟩

omit [PlanningSolution S k] in
/-- Counting moves holds the working solution. -/
theorem held_recordChoice (n : Nat) : Held g facts D (recordChoice n : Running S k Unit) :=
  .forM fun _ _ => .bind .get fun _ => .bind (.checked _) fun _ =>
    .modify fun _ h => ⟨⟨h.director, h.pending, h.asked⟩, .of_eq rfl rfl rfl rfl⟩

section Listeners

variable [∀ b, PlanningValue (V b)] [∀ b, DecidableEq (V b)] [∀ l, PlanningValue (W l)] [∀ l, DecidableEq (W l)]

/-- Directors with given listeners keep them. -/
theorem preserves_heeds (g : Genuine S V W) (shadows : ShadowCascade S) :
    g.Preserves (Director.Heeds (k := k) shadows) where
  journal _ h := h
  calculate h hd := by
    unfold Director.Heeds
    rw [(Director.calculate_solution hd).2]
    exact h
  assertScore h hd := by
    unfold Director.Heeds
    rw [(Director.assertScore_solution hd).2]
    exact h
  doMove _ h hd := (Director.shadows_doMove hd).trans h
  evaluate _ h hd := (Director.shadows_evaluate hd).trans h
  assign h hd := by
    obtain ⟨dir₁, h₁, hd⟩ := bind_eq_ok_iff.1 hd
    rw [Director.beforeVariableChanged, Director.forget_eq] at h₁
    obtain ⟨-, heq₁⟩ := Director.edit_eq h₁
    obtain ⟨-, -, heq⟩ := Director.afterVariableChanged_eq hd
    unfold Director.Heeds
    rw [heq, Director.trackAll, heq₁]
    exact h

variable [DecidableEq B] [DecidableEq L] (hreg : g.Regular facts shadows)
include hreg

/-- Checking the score after a step holds the working solution, even where it is found wrong. -/
theorem held_assertStep : Held g facts (Director.Heeds shadows) (assertStep : Running S k Unit) := by
  refine .bind .get fun _ => .ite (.bind (.direct fun r dir out hr hd => ?_) fun out => ?_) (.pure _)
  · obtain ⟨hs, -⟩ := Director.assertScore_solution hd
    refine ⟨hr.direct ((preserves_heeds g shadows).assertScore hr.director hd), .of_eq rfl rfl, rfl, ?_⟩
    exact Director.alike_of_stored hreg hs
  · cases out with
    | ok _ => exact .pure _
    | error e => exact .fail _

/-- Evaluating a move holds the working solution; an error leaves it like it was, or with the move made. -/
theorem ends_evaluate_held {m : Move S} (hm : g.Moves m) (h : r.Abides (Director.Heeds shadows)) :
    Ends (evaluate m) r (fun _ r' => r'.Abides (Director.Heeds shadows) ∧ r.Holds g facts r')
      fun e r' => ∀ err, e = .failed err → r.Fails g facts err r' := by
  have hsteady : Steady (Director.Heeds shadows) RunEvent.endsStep (evaluate m : Running S k (Score k)) :=
    Steady.evaluate (preserves_heeds g shadows) hm
  have hended : Ends (evaluate m) r
      (fun _ r' => r'.mode = r.mode ∧ g.Alike facts r'.director.solution r.director.solution)
      fun e r' => ∀ err, e = .failed err →
        g.Leaves (k := k) facts r.mode r.director.solution err r'.director.solution := by
    refine .evaluate (fun dir score r' hd hr' => ?_) (fun dir e hd err herr => ?_) fun f _ err herr => ?_
    · rcases Director.cases_evaluate hreg hm h.director hd with ⟨_, _, -, -, hlike⟩ | ⟨_, hout, -⟩ | ⟨_, hout, -⟩
      · exact ⟨by rw [hr'.eq], by rw [hr'.solution]; exact hlike⟩
      · cases hout
      · cases hout
    · cases herr
      rcases Director.cases_evaluate hreg hm h.director hd with ⟨_, _, hout, -⟩ | ⟨_, -, -, hlike⟩ |
        ⟨c, hout, hcheck, hlike | hfails⟩
      · cases hout
      · exact .alike hlike
      · exact .alike hlike
      · cases hout
        exact .midway (.refl _) hcheck hfails
    · cases herr
  refine ((hsteady r h).and hended).mono (fun _ r' hr' => ?_) fun e r' he err herr => ⟨he.1, he.2 err herr⟩
  exact ⟨hr'.1.1, hr'.1.2, hr'.2.1, hr'.2.2⟩

/-- Evaluating moves holds the working solution; an error leaves it like it was, or with one of them made. -/
theorem ends_evaluateAll_held {ms : List (Move S)} (hms : ∀ m ∈ ms, g.Moves m)
    (h : r.Abides (Director.Heeds shadows)) :
    Ends (evaluateAll ms) r (fun _ r' => r'.Abides (Director.Heeds shadows) ∧ r.Holds g facts r')
      fun e r' => ∀ err, e = .failed err → r.Fails g facts err r' := by
  induction ms generalizing r with
  | nil => exact ⟨h, refl_of _ r⟩
  | cons m ms ih =>
    obtain ⟨hm, hms⟩ := List.forall_mem_cons.1 hms
    simp only [evaluateAll, ends_bind, ends_pure]
    refine (ends_evaluate_held hreg hm h).mono (fun score r₁ hr₁ => ?_) fun _ _ => id
    obtain ⟨habides₁, hholds₁⟩ := hr₁
    refine (ih hms habides₁).mono (fun _ r₂ hr₂ => ⟨hr₂.1, trans_of _ hholds₁ hr₂.2⟩) fun e r₂ he err herr => ?_
    exact hholds₁.trans_fails (he err herr)

/-- Making the best of some moves fails where the working solution is like it was, or has a move that was tried; where
no move is made the working solution is held. -/
theorem ends_makeBest_held {ms : List (Move S)} (hms : ∀ m ∈ ms, g.Moves m)
    (h : r.Abides (Director.Heeds shadows)) :
    Ends (makeBest ms) r
      (fun made r' => r'.Abides (Director.Heeds shadows) ∧ (made = false → r.Holds g facts r'))
      fun e r' => ∀ err, e = .failed err → r.Fails g facts err r' := by
  have hfault : ∀ {e : Stop} {r' : RunState S k}, (∃ f, e = .faulted f) →
      ∀ err, e = .failed err → r.Fails g facts err r' := by
    intro e r' he err herr
    obtain ⟨f, rfl⟩ := he
    cases herr
  simp only [makeBest, ends_bind]
  refine ((ends_evaluateAll_held hreg hms h).and (gives_evaluateAll ms r)).mono (fun scored r₁ hr₁ => ?_)
    fun _ _ => And.left
  obtain ⟨⟨habides₁, hholds₁⟩, hscored⟩ := hr₁
  split
  · exact ⟨habides₁, fun _ => hholds₁⟩
  · rename_i m score hbest
    have hm := hms m (hscored _ (mem_of_firstBest hbest))
    simp only [ends_bind, ends_pure]
    refine (held_recordChoice _ r₁ habides₁).mono (fun _ r₂ hr₂ => ?_) fun e r₂ hholds err _ =>
      (trans_of _ hholds₁ hholds).fails err
    obtain ⟨habides₂, hholds₂⟩ := hr₂
    have hholds₂ := trans_of _ hholds₁ hholds₂
    rw [ends_make]
    refine ⟨fun dir hd => ?_, fun dir err hd => ?_, fun f _ => hfault ⟨f, rfl⟩⟩
    · have hmade := habides₂.direct ((preserves_heeds g shadows).doMove hm habides₂.director hd)
      have hP := preserves_heeds (k := k) g shadows
      have hcalculate : Steady (Director.Heeds shadows) RunEvent.isBest (calculate : Running S k (Score k)) :=
        Steady.calculate hP
      refine ((hcalculate _ hmade).and ends_calculate_fault).mono (fun score r₃ hr₃ => ?_) fun _ _ he => hfault he.2
      have hend : Ends (stepEnded score) r₃ (fun _ _ => True) fun e _ => ∃ f, e = .faulted f :=
        .stepEnded (fun _ _ _ _ _ => trivial) fun f _ _ => ⟨f, rfl⟩
      refine ((ends_stepEnded_right hP hr₃.1.1 score).and hend).mono (fun _ _ hr₄ => ⟨hr₄.1.1, fun hmade => ?_⟩)
        fun _ _ he => hfault he.2
      cases hmade
    · rcases Director.cases_doMove hd with ⟨_, -, -, rfl⟩ | ⟨_, -, hnone, -⟩
      · intro err' herr
        exact (trans_of _ hholds₂ (Holds.of_eq rfl rfl rfl rfl)).fails err'
      · cases hnone

end Listeners

end Running

end Planning
