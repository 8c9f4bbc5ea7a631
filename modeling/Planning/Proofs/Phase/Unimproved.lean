import Planning.Proofs.Phase.Tabu
import Planning.Proofs.Phase.Walk
import Planning.Proofs.Run.Unimproved

/-!
# Steps of phases without a better solution

Each of the phases counts its steps alike but for where it keeps a better solution: constructions do so behind all of
their steps and a local search behind the end of a step, but an exhaustive search before it. All of them keep the counts
of a run in order.
-/

namespace Planning

open RunState Running

variable {S : Type} {k : ScoreKind} [PlanningSolution S k] {before : List (RunEvent S k)} {r r' : RunState S k}

namespace Running

variable {α β : Type} {x : Running S k α} {f : α → Running S k β}

omit [PlanningSolution S k] in
/-- Something idles before the rest is done. -/
theorem Ends.idle {Q : β → RunState S k → Prop} (hx : Idle x)
    (h : ∀ a r', r.Idles r' → Ends (f a) r' Q fun _ _ => True) : Ends (x >>= f) r Q fun _ _ => True := by
  rw [ends_bind]
  exact (hx r trivial).mono (fun a r' hr' => h a r' hr'.2) fun _ _ _ => trivial

/-- Making the best of some moves completes a step, unless there is none. -/
theorem advances_stepWithBest (moves : List (Move S)) :
    Ends (stepWithBest moves) r (fun made r' => Advances 0 made r r') fun _ _ => True := by
  refine .idle (Idle.evaluateAll moves) fun scored r₁ hr₁ => ?_
  split
  · exact hr₁
  · refine .idle (Idle.recordChoice _) fun _ r₂ hr₂ => .idle (Idle.make _) fun _ r₃ hr₃ => ?_
    refine .idle Idle.calculate fun score r₄ hr₄ => ?_
    simp only [ends_bind, ends_pure]
    refine (ends_stepEnded_endsStep score).mono (fun _ r₅ hr₅ => ?_) fun _ _ => id
    refine (Idle.assertStep r₅ trivial).mono (fun _ r₆ hr₆ => ?_) fun _ _ _ => trivial
    exact .stays (trans_of _ (trans_of _ hr₁ hr₂) (trans_of _ hr₃ hr₄)) hr₅ hr₆.2

end Running

namespace Construction

variable {V : Type} [PlanningValue V] [DecidableEq V] (x : Construction S V k)

/-- The turn of an entity: a step with the best of its candidates, if it has any. -/
def attempt (e : Nat) : Running S k Bool := do
  stepStarted
  stepWithBest (← x.candidates e)

/-- The step of an entity is its turn, and is reported where it has no candidate. -/
theorem step_eq_attempt (e : Nat) : x.step e = (do
    if !(← x.attempt e) then
      logAt .debug fun _ => ⟨.debug,
        [("message", .shown "No candidate value"), ("event", .text "entity_skipped"), ("entity", .number e)]⟩) := by
  simp only [step, attempt, bind_assoc]

/-- The turn of an entity completes a step or idles. -/
theorem advances_attempt (e : Nat) : Ends (x.attempt e) r (fun made r' => Advances 0 made r r') fun _ _ => True := by
  have hcandidates : Idle (x.candidates e : Running S k _) := .bind .get fun _ => .bind (Idle.draw _) fun _ => .pure _
  refine .idle Idle.stepStarted fun _ r₁ hr₁ => .idle hcandidates fun moves r₂ hr₂ => ?_
  exact (advances_stepWithBest moves).mono (fun _ _ hr₃ => (trans_of _ hr₁ hr₂).advances hr₃) fun _ _ => id

theorem tallies_step (e : Nat) : Tallies before (x.step e) := by
  rw [step_eq_attempt]
  have hattempt : Tallies before (x.attempt e) := fun _ hr =>
    (x.advances_attempt e).mono (fun _ _ hr' => ⟨hr.advance hr', trivial⟩) fun _ _ => id
  exact .bind hattempt fun _ => .ite (Idle.logAt _ _).tallies (.pure _)

/-- A construction keeps the counts in order. -/
theorem tallies_run : Tallies before x.run := by
  have hall : ∀ es, Tallies before (x.stepAll es) := by
    intro es
    induction es with
    | nil => exact .pure _
    | cons e es ih => exact .bind .get fun _ => .ite (.pure _) (.bind (x.tallies_step e) fun _ => ih)
  exact .bind .get fun _ => .bind (.checked _) fun es => .bind (hall es) fun _ => tallies_updateBest.discard

end Construction

namespace Insertion

variable {V : Type} [PlanningValue V] [DecidableEq V] (x : Insertion S V k)

/-- The turn of an element: a step with the best of its insertions, if it has any. -/
def attempt (v : V) : Running S k Bool := do
  stepStarted
  let moves := x.insertions (← get).director.solution v
  stepWithBest (moves.map fun m => m.toMove x.planned)

/-- The turn of an element completes a step or idles. -/
theorem advances_attempt (v : V) : Ends (x.attempt v) r (fun made r' => Advances 0 made r r') fun _ _ => True := by
  refine .idle Idle.stepStarted fun _ r₁ hr₁ => ?_
  rw [ends_bind, ends_get]
  exact (advances_stepWithBest _).mono (fun _ _ hr₂ => hr₁.advances hr₂) fun _ _ => id

/-- An insertion keeps the counts in order. -/
theorem tallies_run : Tallies before x.run := by
  have hattempt : ∀ v, Tallies before (x.attempt v) := fun v _ hr =>
    (x.advances_attempt v).mono (fun _ _ hr' => ⟨hr.advance hr', trivial⟩) fun _ _ => id
  have hall : ∀ vs, Tallies before (x.stepAll vs) := by
    intro vs
    induction vs with
    | nil => exact .pure _
    | cons v vs ih =>
      have hnext : Tallies before (x.attempt v >>= fun made => if made then x.stepAll vs else pure ()) :=
        .bind (hattempt v) fun _ => .ite ih (.pure _)
      rw [attempt, bind_assoc] at hnext
      simp only [bind_assoc] at hnext
      exact .bind .get fun _ => .ite (.pure _) hnext
  exact .bind .get fun _ => .bind (.checked _) fun vs => .bind (hall vs) fun _ => tallies_updateBest.discard

end Insertion

namespace LocalSearch

variable (x : LocalSearch S k) {st : SearchState S k}

omit [PlanningSolution S k] in
theorem idle_accepted (a : Acceptor k) (last best score : Score k) (m : Move S) : Idle (accepted a last best score m) :=
  .bind .get fun _ => .bind (Idle.draw _) fun _ => .bind (Idle.recordMove _) fun _ => .pure _

omit [PlanningSolution S k] in
theorem idle_scanScored {a : Acceptor k} {last best : Score k} {f : Forager k} {isDone : Bool} {place : Nat}
    {ms : List (Move S × Option (Score k))} : Idle (scanScored a last best f isDone place ms) := by
  induction ms generalizing f isDone place with
  | nil => exact .pure _
  | cons y ms ih =>
    obtain ⟨m, score⟩ := y
    cases score with
    | none => exact ih
    | some score =>
      refine .ite (.bind (Idle.recordMove _) fun _ => ih) ?_
      exact .bind (idle_accepted _ _ _ _ _) fun _ => .ite ih ih

theorem idle_scan {a : Acceptor k} {last best : Score k} {f : Forager k} {place : Nat} {ms : List (Move S)} :
    Idle (scan a last best f place ms) := by
  induction ms generalizing f place with
  | nil => exact .pure _
  | cons m ms ih =>
    refine .bind .get fun _ => .ite ih (.bind (Idle.evaluate m) fun _ => ?_)
    exact .bind (idle_accepted _ _ _ _ _) fun _ => .ite (.ite (.pure _) ih) ih

/-- Picking a candidate idles. -/
theorem idle_forage (moves : List (Move S)) : Idle (x.forage st moves) := by
  refine .bind .get fun _ => .ite (.bind idle_scan fun _ => ?_) (.bind (.checked _) fun parts => ?_)
  · exact .bind (.pure _) fun _ => .bind (Idle.draw _) fun _ => .pure _
  · cases parts with
    | error e => exact .bind (.fail _) fun _ => .bind (Idle.draw _) fun _ => .pure _
    | ok parts => exact .bind idle_scanScored fun _ => .bind (.pure _) fun _ => .bind (Idle.draw _) fun _ => .pure _

omit [PlanningSolution S k] in
theorem idle_makeOnFork (m : Move S) (fork : Director S k) : Idle (makeOnFork m fork) := by
  refine .bind (.checked _) fun out => ?_
  obtain ⟨fork', result⟩ := out
  cases result with
  | ok _ => exact .pure _
  | error e => exact .fail _

/-- The picked move is made and the step ends; a better solution is kept behind its end. -/
theorem takes_finishStep (m : Move S) : Ends (finishStep st m) r (fun _ r' => StepTaken 0 r r') fun _ _ => True := by
  rw [finishStep, ends_bind, ends_get]
  refine .idle (Idle.make m) fun _ r₁ hr₁ => .idle (.mapM fun fork _ => idle_makeOnFork m fork) fun forks r₂ hr₂ => ?_
  refine .idle Idle.calculate fun score r₃ hr₃ => ?_
  have hbegin := trans_of _ (trans_of _ hr₁ hr₂) hr₃
  simp only [ends_bind, ends_discard, ends_pure]
  refine (ends_stepEnded_endsStep score).mono (fun _ r₄ hr₄ => ?_) fun _ _ => id
  refine (Idle.assertStep r₄ trivial).mono (fun _ r₅ hr₅ => ?_) fun _ _ _ => trivial
  refine (ends_updateBestWith_replaces score).mono (fun better r₆ hr₆ => ?_) fun _ _ => id
  cases better with
  | true => exact .behind hbegin hr₄ hr₅.2 hr₆ (refl_of _ _)
  | false => exact hr₆ ▸ .stays hbegin hr₄ hr₅.2

/-- The part of a step behind the changes of the problem completes the step, or idles where the search is over. -/
theorem advances_stepOn :
    Ends (x.stepOn st) r (fun st' r' => Advances 0 st'.isSome r r') fun _ _ => True := by
  simp only [stepOn, ends_bind, ends_get, ends_ite, ends_pure]
  refine ⟨fun _ => refl_of Idles r, fun _ => ?_⟩
  refine (Idle.stepStarted r trivial).mono (fun _ r₁ hr₁ => ?_) fun _ _ _ => trivial
  refine (Idle.draw _ r₁ trivial).mono (fun moves r₂ hr₂ => ?_) fun _ _ _ => trivial
  have hbegin := trans_of _ hr₁.2 hr₂.2
  refine ⟨fun _ => ?_, fun _ => ?_⟩
  · exact (Idle.report _ _ _ r₂ trivial).mono (fun _ _ hr₃ => trans_of Idles hbegin hr₃.2) fun _ _ _ => trivial
  · refine (x.idle_forage moves r₂ trivial).mono (fun out r₃ hr₃ => ?_) fun _ _ _ => trivial
    have hbegin := trans_of _ hbegin hr₃.2
    obtain ⟨st', picked⟩ := out
    cases picked with
    | none =>
      rw [ends_bind]
      exact (Idle.report _ _ _ r₃ trivial).mono (fun _ _ hr₄ => trans_of Idles hbegin hr₄.2) fun _ _ _ => trivial
    | some m =>
      simp only [ends_bind, ends_pure]
      exact (takes_finishStep m).mono (fun _ _ hr₄ => hbegin.step hr₄) fun _ _ => id

/-- Starting anew idles. -/
theorem idle_restart (st : SearchState S k) : Idle (x.restart st) :=
  .bind Idle.calculate fun _ => .bind .get fun _ => .pure _

theorem tallies_step (st : SearchState S k) : Tallies before (x.step st) := by
  have hstepOn : ∀ st, Tallies before (x.stepOn st) := fun _ _ hr =>
    x.advances_stepOn.mono (fun _ _ hr' => ⟨hr.advance hr', trivial⟩) fun _ _ => id
  rw [step_eq]
  refine .bind tallies_takeChanges fun _ => .ite ?_ ?_
  · exact .bind (.pure _) fun _ => hstepOn _
  · exact .bind (x.idle_restart st).tallies fun _ => hstepOn _

/-- The beginning of a local search keeps the counts in order. -/
theorem tallies_begin : Tallies before x.begin := by
  refine .bind .get fun _ => .bind Idle.calculate.tallies fun _ => .bind .get fun _ => ?_
  exact .ite (.bind tallies_updateBest.discard fun _ => .pure _) (.pure _)

/-- A local search keeps the counts in order. -/
theorem tallies_run : Tallies before x.run := by
  have hsteps : ∀ fuel st, Tallies before (x.steps fuel st) := by
    intro fuel
    induction fuel with
    | zero => exact fun _ => .throw _
    | succ fuel ih =>
      intro st
      refine .bind (x.tallies_step st) fun next => ?_
      cases next with
      | none => exact .pure _
      | some st' => exact ih st'
  refine .bind .get fun _ => .bind Idle.calculate.tallies fun _ => .bind .get fun _ => ?_
  exact .ite (.bind tallies_updateBest.discard fun _ => hsteps _ _) (hsteps _ _)

end LocalSearch

namespace ExhaustiveSearch

variable {V : Type} [DecidableEq V] (x : ExhaustiveSearch S V k) {entities : List Nat} {node : SearchNode V k}
variable {st : TreeState V k}

omit [PlanningSolution S k] in
/-- Going to a path idles. -/
theorem idle_moveTo (current target : List V) : Idle (x.moveTo entities current target : Running S k Unit) :=
  .bind (.forM fun _ _ => Idle.edit _) fun _ => .forM fun _ _ => Idle.edit _

omit [DecidableEq V] in
theorem idle_children (e : Nat) (best : Option (SearchNode V k)) (sequence : Nat) (vs : List V) :
    Idle (x.children e node best sequence vs) := by
  induction vs generalizing sequence with
  | nil => exact .pure _
  | cons v vs ih =>
    have hscore : Idle (x.scoreWith e v) := .bind (Idle.edit _) fun _ => .bind Idle.calculate fun _ =>
      .bind (Idle.edit _) fun _ => .bind (Idle.recordMove _) fun _ => .pure _
    exact .bind hscore fun _ => .ite (ih _) (.bind (.checked _) fun n => .bind (ih n) fun _ => .pure _)

/-- A node that is looked at completes a step; a better solution is kept before its end. -/
theorem takes_visit : Ends (x.visit entities node st) r (fun _ r' => StepTaken 1 r r') fun _ _ => True := by
  have hgo : Idle (x.goTo entities st node) := .bind Idle.stepStarted fun _ => x.idle_moveTo _ _
  cases he : entities[node.path.length]? with
  | none =>
    rw [visit_leaf he]
    refine .idle hgo fun _ r₁ hr₁ => ?_
    have hends : ∀ {r₂ : RunState S k}, (∀ r₃, r₂.EndsStep r₃ → StepTaken 1 r r₃) →
        Ends (stepEnded node.score) r₂ (fun _ r' => StepTaken 1 r r') fun _ _ => True := fun h =>
      (ends_stepEnded_endsStep _).mono (fun _ r₃ hr₃ => h r₃ hr₃) fun _ _ => id
    simp only [visitLeaf, ends_bind, ends_ite, ends_discard, ends_pure]
    refine ⟨fun _ => ?_, fun _ => hends fun r₃ hr₃ => .stays hr₁ hr₃ (refl_of _ _)⟩
    refine (ends_updateBestWith_replaces _).mono (fun better r₂ hr₂ => hends fun r₃ hr₃ => ?_) fun _ _ => id
    cases better with
    | true => exact .ahead hr₁ hr₂ hr₃ (refl_of _ _)
    | false => exact .stays hr₁ (hr₂ ▸ hr₃) (refl_of _ _)
  | some e =>
    rw [visit_inner he]
    refine .idle hgo fun _ r₁ hr₁ => ?_
    simp only [visitInner, ends_bind, ends_get]
    refine ((Leads.checked _ : Idle _) r₁ trivial).mono (fun values r₂ hr₂ => ?_) fun _ _ _ => trivial
    refine (x.idle_children e _ _ values r₂ trivial).mono (fun out r₃ hr₃ => ?_) fun _ _ _ => trivial
    refine (ends_stepEnded_endsStep _).mono (fun _ r₄ hr₄ => ?_) fun _ _ => id
    refine (Idle.assertStep r₄ trivial).mono (fun _ r₅ hr₅ => ?_) fun _ _ _ => trivial
    exact .stays (trans_of _ hr₁ (trans_of _ hr₂.2 hr₃.2)) hr₄ hr₅.2

theorem tallies_visit (node : SearchNode V k) (st : TreeState V k) : Tallies before (x.visit entities node st) :=
  fun _ hr => x.takes_visit.mono (fun _ _ hr' => ⟨hr.step hr', trivial⟩) fun _ _ => id

/-- An exhaustive search keeps the counts in order. -/
theorem tallies_run : Tallies before x.run := by
  have hvisits : ∀ entities fuel st, Tallies before (x.visits entities fuel st) := by
    intro entities fuel
    induction fuel with
    | zero => exact fun _ => .throw _
    | succ fuel ih =>
      intro st
      unfold visits
      split
      · exact .pure _
      · refine .bind (.bind .get fun _ => .pure _) fun _ => .ite (.pure _) (.ite (ih _) ?_)
        exact .bind (x.tallies_visit _ _) fun _ => ih _
  refine .bind .get fun _ => .ite (.pure _) (.ite (.bind (Idle.report _ _ _).tallies fun _ => .pure _) ?_)
  refine .bind Idle.calculate.tallies fun _ => .bind (hvisits _ _ _) fun _ => ?_
  refine .bind (x.idle_moveTo _ _).tallies fun _ => .bind Idle.calculate.tallies.discard fun _ => ?_
  exact (Idle.report _ _ _).tallies

end ExhaustiveSearch

end Planning
