import Planning.Phase.Construction
import Planning.Proofs.Phase.LocalSearch
import Planning.Proofs.Run.Track
import Planning.Proofs.Score.Order

/-!
# Phases that keep track of the best solution

Constructions and insertions leave the best solution alone while they go from entity to entity or from element to
element, and look at the working solution in the end. A local search looks at it at the end of each step. Between the
score that is asked for and the look at the solution only the stored score can change.
-/

namespace Planning

open Checked RunState

variable {S : Type} {k : ScoreKind} [PlanningSolution S k] {D : Director S k → Prop} {F : S → Score k}
variable {B L : Type} {V : B → Type} {W : L → Type}
variable [∀ b, PlanningValue (V b)] [∀ b, DecidableEq (V b)] [∀ l, PlanningValue (W l)] [∀ l, DecidableEq (W l)]
variable {g : Genuine S V W} {loud : RunEvent S k → Bool}

/-- The first of the best beats those in front of it and reaches those behind it. -/
theorem firstBest_first {α : Type} (l : List (α × Score k)) : FirstBest Prod.snd l (firstBest l) := by
  have hfold : ∀ (rest front : List (α × Score k)) best, FirstBest Prod.snd front (some best) →
      FirstBest Prod.snd (front ++ rest)
        (some (rest.foldl (fun best b => if b.2.beats best.2 then b else best) best)) := by
    intro rest
    induction rest with
    | nil =>
      intro front best h
      rwa [List.append_nil]
    | cons c rest ih =>
      intro front best h
      have hnext := h.concat c
      rw [Option.all_some, ← apply_ite some] at hnext
      rw [List.append_cons]
      exact ih _ _ hnext
  cases l with
  | nil => rfl
  | cons a rest =>
    have hnone : FirstBest Prod.snd ([] : List (α × Score k)) none := rfl
    exact hfold rest [a] a (hnone.concat a)

/-- The first of the best is one of them. -/
theorem mem_of_firstBest {α : Type} {l : List (α × Score k)} {a : α × Score k} (h : firstBest l = some a) : a ∈ l :=
  (h ▸ firstBest_first l : FirstBest Prod.snd l (some a)).mem

/-- The first of the best of things that are renamed is the first of the best with its new name. -/
theorem firstBest_map {α β : Type} (f : α → β) (l : List (α × Score k)) :
    firstBest (l.map fun p => (f p.1, p.2)) = (firstBest l).map fun p => (f p.1, p.2) := by
  have hfold : ∀ (rest : List (α × Score k)) (best : α × Score k),
      (rest.map fun p => (f p.1, p.2)).foldl (fun best b => if b.2.beats best.2 then b else best) (f best.1, best.2) =
        let p := rest.foldl (fun best b => if b.2.beats best.2 then b else best) best
        (f p.1, p.2) := by
    intro rest
    induction rest with
    | nil => exact fun _ => rfl
    | cons c rest ih =>
      intro best
      rw [List.map_cons, List.foldl_cons, List.foldl_cons]
      split
      · exact ih c
      · exact ih best
  cases l with
  | nil => rfl
  | cons a rest => exact congrArg some (hfold rest a)

namespace Running

/-- Evaluated moves are those that were to be evaluated. -/
theorem gives_evaluateAll (ms : List (Move S)) :
    Gives (fun scored => ∀ x ∈ scored, x.1 ∈ ms) (evaluateAll ms : Running S k _) := by
  induction ms with
  | nil => exact fun _ _ h => absurd h List.not_mem_nil
  | cons m ms ih =>
    intro r
    simp only [evaluateAll, ends_bind, ends_pure]
    refine (ends_trivial (evaluate m) r).mono (fun score r' _ => ?_) fun _ _ => id
    refine (ih r').mono (fun scored _ hscored x hx => ?_) fun _ _ => id
    rcases List.mem_cons.1 hx with rfl | hx
    · exact List.mem_cons_self
    · exact List.mem_cons_of_mem m (hscored x hx)

/-- The part of a step that makes the best of some moves, up to its end. -/
def makeBest (moves : List (Move S)) : Running S k Bool := do
  let scored ← evaluateAll moves
  match firstBest scored with
  | none => return false
  | some (m, _) =>
    recordChoice scored.length
    make m
    let score ← calculate
    stepEnded score
    return true

/-- A step makes the best of some moves and is checked once it has ended. -/
theorem stepWithBest_eq (moves : List (Move S)) : (stepWithBest moves : Running S k Bool) = (do
    let made ← makeBest moves
    if made then assertStep
    return made) := by
  unfold stepWithBest makeBest
  simp only [bind_assoc]
  congr 1
  funext scored
  cases firstBest scored <;> simp

/-- Making the best of some moves leaves the best solution alone. -/
theorem steady_makeBest (hD : g.Preserves D) (hqueued : loud .queued = false)
    (hstep : ∀ i score, loud (.stepEnded i score) = false) {moves : List (Move S)} (hm : ∀ m ∈ moves, g.Moves m) :
    Steady D loud (makeBest moves : Running S k Bool) := by
  refine (Steady.evaluateAll hD hm).bindOf (gives_evaluateAll moves) fun scored hscored => ?_
  split
  · exact .pure _
  · rename_i m score hbest
    have hm := hm m (hscored _ (mem_of_firstBest hbest))
    exact .bind (Steady.recordChoice _) fun _ => .bind (Steady.make hD hm) fun _ => .bind (Steady.calculate hD) fun score =>
      .bind (Steady.stepEnded hqueued hD.journal fun i => hstep i score) fun _ => .pure _

/-- A step that makes the best of some moves leaves the best solution alone. -/
theorem steady_stepWithBest (hD : g.Preserves D) {moves : List (Move S)} (hm : ∀ m ∈ moves, g.Moves m) :
    Steady D RunEvent.isBest (stepWithBest moves : Running S k Bool) := by
  rw [stepWithBest_eq]
  refine .bind (steady_makeBest hD rfl (fun _ _ => rfl) hm) fun made => ?_
  exact .ite (.bind (Steady.assertStep hD) fun _ => .pure _) (.pure _)

end Running

open Running

namespace Construction

variable {b : B} {x : Construction S (V b) k}

omit [PlanningSolution S k] in
/-- The changes that an entity may be given are moves of the variable. -/
theorem gives_candidates (hx : x.planned = g.basic b) (e : Nat) :
    Gives (fun moves => ∀ m ∈ moves, g.Moves m) (x.candidates e : Running S k _) := by
  intro r
  simp only [candidates, ends_bind, ends_get, ends_draw, ends_pure]
  refine ⟨fun values _ _ m hm => ?_, fun _ _ => trivial⟩
  obtain ⟨v, -, rfl⟩ := List.mem_map.1 (List.mem_filter.1 hm).1
  rw [hx]
  exact .basic b _

variable (hx : x.planned = g.basic b)
include hx

section Preserves

variable (hD : g.Preserves D)
include hD

/-- The step of an entity leaves the best solution alone. -/
theorem steady_step (e : Nat) : Steady D RunEvent.isBest (x.step e) := by
  refine .bind (Steady.stepStarted rfl hD.journal fun _ => rfl) fun _ => ?_
  have hcandidates : Steady D RunEvent.isBest (x.candidates e) :=
    .bind .get fun _ => .bind (Steady.draw _) fun _ => .pure _
  refine hcandidates.bindOf (gives_candidates hx e) fun moves hm => ?_
  refine .bind (steady_stepWithBest hD hm) fun made => ?_
  exact .ite (Steady.logAt hD.journal _ _) (.pure _)

/-- The steps of some entities leave the best solution alone. -/
theorem steady_stepAll (es : List Nat) : Steady D RunEvent.isBest (x.stepAll es) := by
  induction es with
  | nil => exact .pure _
  | cons e es ih => exact .bind .get fun _ => .ite (.pure _) (.bind (steady_step hx hD e) fun _ => ih)

end Preserves

/-- A construction keeps track of the best solution. -/
theorem track_run [LawfulSolution S k] (hD : g.Scores D F) : Leads (Abides D) (Track F) x.run := by
  refine .bind .get fun r => .bind (.checked _) fun entities => ?_
  exact .bind (steady_stepAll hx hD.toPreserves entities).track fun _ => (track_updateBest hD).discard

end Construction

namespace Insertion

variable {l : L} {x : Insertion S (W l) k}

variable (hx : x.planned = g.list l)
include hx

/-- The steps of some elements leave the best solution alone. -/
theorem steady_stepAll (hD : g.Preserves D) (vs : List (W l)) : Steady D RunEvent.isBest (x.stepAll vs) := by
  induction vs with
  | nil => exact .pure _
  | cons v vs ih =>
    refine .bind .get fun _ => .ite (.pure _) (.bind (Steady.stepStarted rfl hD.journal fun _ => rfl) fun _ => ?_)
    refine .bind .get fun r => .bind (steady_stepWithBest hD fun m hm => ?_) fun made => .ite ih (.pure _)
    obtain ⟨y, -, rfl⟩ := List.mem_map.1 hm
    rw [hx]
    exact .list l y

/-- An insertion keeps track of the best solution. -/
theorem track_run [LawfulSolution S k] (hD : g.Scores D F) : Leads (Abides D) (Track F) x.run := by
  refine .bind .get fun r => .bind (.checked _) fun elements => ?_
  exact .bind (steady_stepAll hx hD.toPreserves elements).track fun _ => (track_updateBest hD).discard

end Insertion

namespace LocalSearch

variable {x : LocalSearch S k} {st : SearchState S k} {m : Move S}

omit [PlanningSolution S k] in
/-- Asking the acceptor leaves the best solution alone. -/
theorem steady_accepted (a : Acceptor k) (last best score : Score k) (m : Move S) :
    Steady D loud (accepted a last best score m) :=
  .bind .get fun _ => .bind (Steady.draw _) fun _ => .bind (Steady.recordMove _) fun _ => .pure _

omit [PlanningSolution S k] in
/-- Going through candidates with scores leaves the best solution alone. -/
theorem steady_scanScored {a : Acceptor k} {last best : Score k} {f : Forager k} {isDone : Bool} {place : Nat}
    {ms : List (Move S × Option (Score k))} : Steady D loud (scanScored a last best f isDone place ms) := by
  induction ms generalizing f isDone place with
  | nil => exact .pure _
  | cons y ms ih =>
    obtain ⟨m, score⟩ := y
    cases score with
    | none => exact ih
    | some score =>
      refine .ite (.bind (Steady.recordMove _) fun _ => ih) ?_
      exact .bind (steady_accepted _ _ _ _ _) fun _ => .ite ih ih

section Preserves

variable (hD : g.Preserves D)
include hD

/-- Going through the candidates leaves the best solution alone. -/
theorem steady_scan {a : Acceptor k} {last best : Score k} {f : Forager k} {place : Nat} {ms : List (Move S)}
    (hms : ∀ m ∈ ms, g.Moves m) : Steady D loud (scan a last best f place ms) := by
  induction ms generalizing f place with
  | nil => exact .pure _
  | cons m ms ih =>
    obtain ⟨hm, hms⟩ := List.forall_mem_cons.1 hms
    refine .bind .get fun _ => .ite (ih hms) (.bind (Steady.evaluate hD hm) fun _ => ?_)
    exact .bind (steady_accepted _ _ _ _ _) fun _ => .ite (.ite (.pure _) (ih hms)) (ih hms)

/-- Picking a candidate leaves the best solution alone. -/
theorem steady_forage {moves : List (Move S)} (hm : ∀ m ∈ moves, g.Moves m) : Steady D loud (x.forage st moves) := by
  refine .bind .get fun _ => .ite (.bind (steady_scan hD hm) fun _ => ?_) (.bind (.checked _) fun parts => ?_)
  · exact .bind (.pure _) fun _ => .bind (Steady.draw _) fun _ => .pure _
  · cases parts with
    | error e => exact .bind (.fail _) fun _ => .bind (Steady.draw _) fun _ => .pure _
    | ok parts =>
      exact .bind steady_scanScored fun _ => .bind (.pure _) fun _ => .bind (Steady.draw _) fun _ => .pure _

/-- Starting anew leaves the best solution alone. -/
theorem steady_restart : Steady D loud (x.restart st) :=
  .bind (Steady.calculate hD) fun _ => .bind .get fun _ => .pure _

omit hD [PlanningSolution S k] in
/-- Making a move on the director of a thread leaves the best solution alone. -/
theorem steady_makeOnFork (m : Move S) (fork : Director S k) : Steady D loud (makeOnFork m fork) := by
  refine .bind (.checked _) fun out => ?_
  obtain ⟨fork', result⟩ := out
  cases result with
  | ok _ => exact .pure _
  | error e => exact .fail _

end Preserves

/-- What is picked is one of the candidates. -/
theorem gives_forage (moves : List (Move S)) :
    Gives (fun out => ∀ m, out.2 = some m → m ∈ moves) (x.forage st moves) := by
  have hpicked : ∀ (st' : SearchState S k) (y : Option (Nat × Score k)),
      Gives (fun out => ∀ m, out.2 = some m → m ∈ moves)
        (pure (st', y.bind fun z => moves[z.1]?) : Running S k (SearchState S k × Option (Move S))) := by
    intro st' y r m hm
    obtain ⟨z, -, hz⟩ := Option.bind_eq_some_iff.1 hm
    exact List.mem_of_getElem? hz
  refine .bind fun _ => ?_
  dsimp only
  split
  · exact .bind fun _ => .bind fun _ => .bind fun y => hpicked _ y
  · refine .bind fun parts => ?_
    cases parts with
    | error e => exact .bind fun _ => .bind fun y => hpicked _ y
    | ok parts => exact .bind fun _ => .bind fun _ => .bind fun y => hpicked _ y

section Chain

variable {R : RunState S k → RunState S k → Prop} [IsPreorder _ R] (hD : g.Preserves D)
variable (hquiet : ∀ r r', r.Rests RunEvent.isBest r' → R r r') (hx : g.Selects x.selector)
variable (hfinish : ∀ st m, g.Moves m → Leads (Abides D) R (finishStep st m))
include hD hquiet hx hfinish

/-- The part of a step behind the changes of the problem leads where the end of a step leads. -/
theorem leads_stepOn (st : SearchState S k) : Leads (Abides D) R (x.stepOn st) := by
  have hselected : ∀ s, Gives (fun moves => ∀ m ∈ moves, g.Moves m)
      (Running.draw (x.selector.moves s) : Running S k (List (Move S))) := by
    intro s r
    rw [ends_draw]
    exact ⟨fun moves gen hmoves m => hx.moves_of_mem hmoves, fun _ _ => trivial⟩
  refine .bind .get fun _ => .ite (.pure _) ?_
  refine .bind ((Steady.stepStarted rfl hD.journal fun _ => rfl).mono hquiet) fun _ => .bind .get fun r => ?_
  refine .bindOf ((Steady.draw _).mono hquiet) (hselected r.director.solution) fun moves hm => ?_
  refine .ite (.bind ((Steady.report hD.journal _ _ _).mono hquiet) fun _ => .pure _) ?_
  refine .bindOf ((steady_forage hD hm).mono hquiet) (gives_forage moves) fun out hout => ?_
  obtain ⟨st', picked⟩ := out
  cases picked with
  | none => exact .bind ((Steady.report hD.journal _ _ _).mono hquiet) fun _ => .pure _
  | some m => exact .bind (hfinish _ m (hm m (hout m rfl))) fun _ => .pure _

variable (htake : Leads (Abides D) R (takeChanges : Running S k Nat))
include htake

/-- A step of a local search leads where its end and changes of the problem lead. -/
theorem leads_step (st : SearchState S k) : Leads (Abides D) R (x.step st) := by
  rw [step_eq]
  refine .bind htake fun changes => .ite ?_ ?_
  · exact .bind (.pure _) fun _ => leads_stepOn hD hquiet hx hfinish _
  · exact .bind ((steady_restart hD).mono hquiet) fun _ => leads_stepOn hD hquiet hx hfinish _

/-- Any number of steps leads where the ends of steps and changes of the problem lead. -/
theorem leads_steps (fuel : Nat) (st : SearchState S k) : Leads (Abides D) R (x.steps fuel st) := by
  induction fuel generalizing st with
  | zero => exact .throw _
  | succ fuel ih =>
    refine .bind (leads_step hD hquiet hx hfinish htake st) fun next => ?_
    cases next with
    | none => exact .pure _
    | some st' => exact ih st'

/-- A local search leads where the ends of steps, changes of the problem and better solutions lead. -/
theorem leads_run (hupdate : Leads (Abides D) R (updateBest : Running S k Bool)) : Leads (Abides D) R x.run := by
  have hsteps := leads_steps hD hquiet hx hfinish htake
  refine .bind .get fun _ => .bind ((Steady.calculate hD).mono hquiet) fun score => .bind .get fun _ => ?_
  exact .ite (.bind hupdate.discard fun _ => hsteps _ _) (hsteps _ _)

end Chain

variable [LawfulSolution S k] (hD : g.Scores D F)
include hD

/-- A picked move is made, and the working solution becomes the best one if it is better. -/
theorem track_finishStep (hm : g.Moves m) : Leads (Abides D) (Track F) (finishStep st m) := by
  have hP := hD.toPreserves
  refine .bind .get fun _ => .bind (Steady.make hP hm).track fun _ => ?_
  refine .bind (.mapM fun fork _ => (steady_makeOnFork m fork).track) fun forks r h => ?_
  have hrested : ∀ {r' : RunState S k}, r.Rests RunEvent.isBest r' → Track F r r' := fun hrest => .single (.rest hrest)
  simp only [ends_bind, ends_discard, ends_pure]
  refine (ends_calculate_right hD h).mono (fun score r₁ hr₁ => ?_) fun _ _ => hrested
  obtain ⟨habides₁, hrest₁, hscore₁⟩ := hr₁
  refine (ends_stepEnded_right hP habides₁ score).mono (fun _ r₂ hr₂ => ?_) fun _ _ hrest =>
    hrested (trans_of _ hrest₁ hrest)
  obtain ⟨habides₂, hrest₂, hsame₂⟩ := hr₂
  have hrest₂ := trans_of _ hrest₁ hrest₂
  refine (ends_assertStep_right hD habides₂).mono (fun _ r₃ hr₃ => ?_) fun _ _ hrest =>
    hrested (trans_of _ hrest₂ hrest)
  obtain ⟨habides₃, hrest₃, hsame₃⟩ := hr₃
  -- The score was that of the working solution before the step ended and was checked.
  have hscore₃ : score = F r₃.director.solution := by rw [hsame₃, hsame₂, hscore₁]
  refine (ends_updateBestWith_track hD habides₃ hscore₃).mono (fun _ r₄ hr₄ => ⟨hr₄.1, ?_⟩) fun _ _ => id
  exact .trans (hrested (trans_of _ hrest₂ hrest₃)) hr₄.2

/-- A local search keeps track of the best solution. -/
theorem track_run (hx : g.Selects x.selector) : Leads (Abides D) (Track F) x.run :=
  leads_run hD.toPreserves (fun _ _ hrest => .single (.rest hrest)) hx (fun _ _ => track_finishStep hD)
    (track_takeChanges hD) (track_updateBest hD)

end LocalSearch

end Planning
