import Planning.Phase.Basic
import Planning.Proofs.Director.Evaluate
import Planning.Proofs.Run.Basic

/-!
# Runs that keep a problem in order

Whatever is done in a run keeps the listeners of its director. Between the moves that are made and the changes of the
problem that are taken in, the working solution stays like it was: moves are evaluated and taken back, scores are
asked for, and a change that is refused leaves nothing behind.
-/

namespace Planning

open Checked

variable {S : Type} {k : ScoreKind}
variable {B L F : Type} {V : B → Type} {W : L → Type}
variable {g : Genuine S V W} {facts : S → F} {shadows : ShadowCascade S}

/-- A change of the problem keeps the listeners, and where it is refused it leaves the solution like it was. -/
def Genuine.Admits (g : Genuine S V W) (facts : S → F) (c : ProblemChange S k) : Prop :=
  ∀ dir dir' refusal, c.apply dir = .ok (dir', refusal) →
    dir'.shadows = dir.shadows ∧ (refusal ≠ none → g.Alike facts dir'.solution dir.solution)

namespace RunState

/-- A run with given listeners to which only admissible changes of the problem come. -/
structure Tended (g : Genuine S V W) (facts : S → F) (shadows : ShadowCascade S) (r : RunState S k) : Prop where
  /-- The director has the listeners. -/
  shadows : r.director.shadows = shadows
  /-- The changes that are waiting are admissible. -/
  pending : ∀ c ∈ r.pending, g.Admits facts c
  /-- The changes that the watch asks for are admissible. -/
  asked : ∀ c, r.Asks c → g.Admits facts c

/-- A run has the problem in order, and its working solution is like a given one. -/
structure Calm (g : Genuine S V W) (facts : S → F) (shadows : ShadowCascade S) (s : S) (r : RunState S k) :
    Prop where
  /-- The problem is in order. -/
  tended : r.Tended g facts shadows
  /-- The working solution is like the given one. -/
  alike : g.Alike facts r.director.solution s

variable {r r' : RunState S k} {s : S}

/-- What is noted keeps a problem in order. -/
theorem Tended.noted (h : r.Tended g facts shadows) (hn : r.Noted r') : r'.Tended g facts shadows where
  shadows := by rw [hn.director, h.shadows]
  pending c hc := (hn.pending c hc).elim (h.pending c) (h.asked c)
  asked c hc := h.asked c ((hn.asks c).1 hc)

/-- What is noted leaves a run calm. -/
theorem Calm.noted (h : r.Calm g facts shadows s) (hn : r.Noted r') : r'.Calm g facts shadows s :=
  ⟨h.tended.noted hn, by rw [hn.solution]; exact h.alike⟩

/-- A director that keeps the listeners, with a solution that is like the one before, leaves a run calm. -/
theorem Calm.direct (h : r.Calm g facts shadows s) {dir : Director S k} (hs : dir.shadows = r.director.shadows)
    (hlike : g.Alike facts dir.solution r.director.solution) : { r with director := dir }.Calm g facts shadows s :=
  ⟨⟨hs.trans h.tended.shadows, h.tended.pending, h.tended.asked⟩, hlike.trans h.alike⟩

/-- Counts and random numbers do not matter to a calm run. -/
theorem Calm.congr (h : r.Calm g facts shadows s) (hdir : r'.director = r.director) (hpending : r'.pending = r.pending)
    (hwatch : r'.watch = r.watch) : r'.Calm g facts shadows s := by
  refine ⟨⟨by rw [hdir, h.tended.shadows], by rw [hpending]; exact h.tended.pending, fun c hc => ?_⟩,
    by rw [hdir]; exact h.alike⟩
  unfold Asks at hc
  rw [hwatch] at hc
  exact h.tended.asked c hc

end RunState

namespace Running

open RunState

variable [PlanningSolution S k] {r : RunState S k} {s : S} {m : Move S} {E : Stop → RunState S k → Prop}

/-- A move that is evaluated leaves another director, and is reported if it gives a score. -/
theorem Ends.evaluate {Q : Score k → RunState S k → Prop}
    (hok : ∀ dir score r', r.director.evaluate m r.mode.assertsMoves = .ok (dir, .ok score) →
      { r with director := dir }.Noted r' → Q score r')
    (herror : ∀ dir e, r.director.evaluate m r.mode.assertsMoves = .ok (dir, .error e) →
      E (.failed e) { r with director := dir })
    (hfault : ∀ f, r.director.evaluate m r.mode.assertsMoves = .error f → E (.faulted f) r) :
    Ends (evaluate m) r Q E := by
  simp only [Running.evaluate, ends_bind, ends_get, ends_direct]
  refine ⟨fun dir out hd => ?_, hfault⟩
  cases out with
  | ok score =>
    simp only [ends_bind, ends_pure]
    exact .report fun r' hr' => hok dir score r' hd hr'
  | error e => exact herror dir e hd

omit [PlanningSolution S k] in
/-- A move that is made leaves another director, or stops the run. -/
@[simp] theorem ends_make {Q : Unit → RunState S k → Prop} : Ends (make m) r Q E ↔
    (∀ dir, r.director.doMove m = .ok (dir, .ok ()) → Q () { r with director := dir }) ∧
      (∀ dir err, r.director.doMove m = .ok (dir, .error err) →
        E (.failed (.moveApplication err)) { r with director := dir }) ∧
      ∀ f, r.director.doMove m = .error f → E (.faulted f) r := by
  simp only [make, ends_bind, ends_direct]
  constructor
  · rintro ⟨hok, herror⟩
    exact ⟨fun dir hd => hok dir _ hd, fun dir err hd => hok dir _ hd, herror⟩
  · rintro ⟨hok, hfail, herror⟩
    refine ⟨fun dir out hd => ?_, herror⟩
    cases out with
    | ok u => exact hok dir hd
    | error err => exact hfail dir err hd

variable [DecidableEq B] [DecidableEq L]

section Calm

variable (hreg : g.Regular facts shadows) (h : r.Calm g facts shadows s)
include hreg h

/-- Asking for the score leaves a run calm. -/
theorem ends_calculate_calm :
    Ends calculate r (fun _ r' => r'.Calm g facts shadows s) fun e _ => ∃ f, e = .faulted f := by
  rw [ends_calculate]
  refine ⟨fun dir score hd => ?_, fun f _ => ⟨f, rfl⟩⟩
  obtain ⟨hlike, hs⟩ := Director.calculate_alike hreg hd
  exact (h.direct hs hlike).congr rfl rfl rfl

/-- Checking the score leaves a run calm, even where it is found wrong. -/
theorem ends_assertStep_calm :
    Ends assertStep r (fun _ r' => r'.Calm g facts shadows s)
      fun e r' => (∃ f, e = .faulted f) ∨ ∃ c, e = .failed (.scoreCorruption c) ∧ r'.Calm g facts shadows s := by
  have hassert : ∀ dir out, r.director.assertScore = .ok (dir, out) →
      { r with director := dir }.Calm g facts shadows s := by
    intro dir out hd
    obtain ⟨hs, heq⟩ := Director.assertScore_solution hd
    exact h.direct (by rw [heq]) (Director.alike_of_stored hreg hs)
  simp only [ends_assertStep, ends_assertScore]
  exact ⟨fun _ => ⟨fun dir _ hd => hassert dir _ hd, fun dir c hd => .inr ⟨c, rfl, hassert dir _ hd⟩,
    fun f _ => .inl ⟨f, rfl⟩⟩, fun _ => h⟩

variable [∀ b, PlanningValue (V b)] [∀ b, DecidableEq (V b)] [∀ l, PlanningValue (W l)] [∀ l, DecidableEq (W l)]

/-- Evaluating a move leaves a run calm if it gives a score, and also where the move cannot be planned or the score is
found wrong after the move was taken back. -/
theorem ends_evaluate_calm (hm : g.Moves m) :
    Ends (evaluate m) r
      (fun _ r' => r'.Calm g facts shadows s ∧ ∃ e, m.plan r.director.solution = .ok e)
      fun e r' => (∃ f, e = .faulted f) ∨
        (∃ err, e = .failed (.moveApplication err) ∧ m.plan r.director.solution = .error err ∧
          r'.Calm g facts shadows s) ∨
        ∃ c, e = .failed (.scoreCorruption c) ∧ r.mode.assertsMoves = true ∧
          (r'.Calm g facts shadows s ∨ r.director.FailsMidway m c r'.director) := by
  refine .evaluate (fun dir score r' hd hr' => ?_) (fun dir e hd => .inr ?_) fun f _ => .inl ⟨f, rfl⟩
  · rcases Director.cases_evaluate hreg hm h.tended.shadows hd with ⟨_, e, -, hplan, hlike⟩ | ⟨err, hout, -⟩ |
      ⟨c, hout, -⟩
    · exact ⟨(h.direct (Director.shadows_evaluate hd) hlike).noted hr', e, hplan⟩
    · cases hout
    · cases hout
  · rcases Director.cases_evaluate hreg hm h.tended.shadows hd with ⟨_, e, hout, -⟩ | ⟨err, hout, hplan, hlike⟩ |
      ⟨c, hout, hcheck, hlike⟩
    · cases hout
    · cases hout
      exact .inl ⟨err, rfl, hplan, h.direct (Director.shadows_evaluate hd) hlike⟩
    · cases hout
      exact .inr ⟨c, rfl, hcheck, hlike.imp_left fun hlike => h.direct (Director.shadows_evaluate hd) hlike⟩

end Calm

omit [DecidableEq B] [DecidableEq L] in
/-- A step that ends leaves a run calm. -/
theorem ends_stepEnded_calm (h : r.Calm g facts shadows s) (score : Score k) :
    Ends (stepEnded score) r (fun _ r' => r'.Calm g facts shadows s) fun e _ => ∃ f, e = .faulted f := by
  refine .stepEnded (fun r' n r'' hr' hr'' => ?_) fun f _ _ => ⟨f, rfl⟩
  refine RunState.Calm.noted ?_ hr''
  exact (h.noted hr').congr rfl rfl rfl

omit [DecidableEq B] [DecidableEq L] in
/-- A solution that becomes the best one leaves a run calm. -/
theorem ends_setBest_calm (h : r.Calm g facts shadows s) (t : S) (score : Score k) :
    Ends (setBest t score) r (fun _ r' => r'.Calm g facts shadows s) E := by
  refine .setBest fun r' r'' hr' hr'' => ?_
  refine RunState.Calm.noted ?_ hr''
  exact (h.noted hr').congr rfl rfl rfl

omit [DecidableEq B] [DecidableEq L] in
/-- Keeping a better solution leaves a run calm. -/
theorem ends_updateBestWith_calm (h : r.Calm g facts shadows s) (score : Score k) :
    Ends (updateBestWith score) r (fun _ r' => r'.Calm g facts shadows s) E :=
  .updateBestWith (fun _ => ends_setBest_calm h _ score) fun _ => h

omit [PlanningSolution S k] [DecidableEq B] [DecidableEq L] in
/-- A change of the problem keeps it in order, and leaves the run calm if it is refused. -/
theorem ends_applyChange (h : r.Tended g facts shadows) {c : ProblemChange S k} (hc : g.Admits facts c) :
    Ends (applyChange c) r
      (fun made r' => r'.Tended g facts shadows ∧
        (made = false → ∀ s, r.Calm g facts shadows s → r'.Calm g facts shadows s))
      fun e _ => ∃ f, e = .faulted f := by
  simp only [applyChange, ends_bind, ends_direct]
  refine ⟨fun dir refusal hd => ?_, fun f _ => ⟨f, rfl⟩⟩
  obtain ⟨hs, hlike⟩ := hc _ _ _ hd
  have htended : { r with director := dir }.Tended g facts shadows :=
    ⟨hs.trans h.shadows, h.pending, h.asked⟩
  cases refusal with
  | none =>
    simp only [ends_bind, ends_pure]
    exact .report fun r' hr' => ⟨htended.noted hr', fun hmade => absurd hmade.symm Bool.false_ne_true⟩
  | some err =>
    have hlike := hlike (Option.some_ne_none err)
    simp only [ends_bind, ends_pure]
    exact .report fun r' hr' => ⟨htended.noted hr', fun _ s hcalm => (hcalm.direct hs hlike).noted hr'⟩

omit [DecidableEq B] [DecidableEq L] in
/-- Taking in changes of the problem keeps it in order, and leaves the run calm if none was made. -/
theorem ends_takeChanges [DecidableEq B] [DecidableEq L] (hreg : g.Regular facts shadows)
    (h : r.Calm g facts shadows s) :
    Ends takeChanges r
      (fun n r' => r'.Tended g facts shadows ∧ (n = 0 → r'.Calm g facts shadows s))
      fun e _ => ∃ f, e = .faulted f := by
  simp only [takeChanges, ends_bind, ends_get, ends_ite, ends_pure, ends_modify]
  refine ⟨fun _ => ⟨h.tended, fun _ => h⟩, fun _ => ?_⟩
  have hstart : { r with pending := [] }.Calm g facts shadows s :=
    ⟨⟨h.tended.shadows, fun _ hc => absurd hc List.not_mem_nil, h.tended.asked⟩, h.alike⟩
  -- As long as no change was made the run is calm.
  have hloop : Ends (r.pending.filterM applyChange) { r with pending := [] }
      (fun made r' => r'.Tended g facts shadows ∧ (made = [] → r'.Calm g facts shadows s))
      fun e _ => ∃ f, e = .faulted f := by
    refine .filterM (fun c hc made r' hr' => ?_) ⟨hstart.tended, fun _ => hstart⟩
    refine (ends_applyChange hr'.1 (h.tended.pending c hc)).mono (fun isMade r'' hr'' => ⟨hr''.1, ?_⟩)
      fun _ _ => id
    cases isMade with
    | true => exact fun hnil => absurd hnil (List.append_ne_nil_of_right_ne_nil _ (List.cons_ne_nil _ _))
    | false => exact fun hnil => hr''.2 rfl s (hr'.2 hnil)
  refine hloop.mono (fun made r' hr' => ⟨fun hnone => ?_, fun hsome => ?_⟩) fun _ _ => id
  · exact ⟨hr'.1, fun _ => hr'.2 (List.isEmpty_iff.1 hnone)⟩
  · have hcount : made.length ≠ 0 := fun hzero => hsome (List.isEmpty_iff.2 (List.length_eq_zero_iff.1 hzero))
    have hcalm : r'.Calm g facts shadows r'.director.solution := ⟨hr'.1, .refl _⟩
    refine (ends_calculate_calm hreg hcalm).mono (fun score r'' hr'' => ?_) fun _ _ => id
    refine (ends_setBest_calm hr'' _ score).mono (fun _ r₃ hr₃ => ?_) fun _ _ => id
    exact .report fun r₄ hr₄ => ⟨(hr₃.noted hr₄).tended, fun hzero => absurd hzero hcount⟩

end Running

end Planning
