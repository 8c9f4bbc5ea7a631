import Planning.Phase.Basic
import Planning.Proofs.Director.InRange
import Planning.Proofs.Phase.Exhaustive
import Planning.Proofs.Phase.Tracked
import Planning.Proofs.Run.Steady
import Planning.Proofs.Solver.Best

/-!
# Directors that stay of a kind

A director is handed through a run by a few operations: it reports, is asked for the score, makes and evaluates moves,
gives values to entities and takes in changes of the problem. A kind of directors that each of them keeps is kept by
whatever a run does, also where it stops the run. Values are given to entities that exist and are in range for them.
-/

namespace Planning

open Checked

variable {S : Type} {k : ScoreKind} {C : ProblemChange S k → Prop} {D : Director S k → Prop}

/-- Directors stay of a kind where something is reported or the score is asked for. -/
structure Director.Lasting [PlanningSolution S k] (D : Director S k → Prop) : Prop where
  /-- What was reported is no matter. -/
  journal : ∀ {dir} journal, D dir → D { dir with journal := journal }
  /-- The score is asked for. -/
  calculate : ∀ {dir dir' score}, D dir → dir.calculate = .ok (dir', score) → D dir'
  /-- The score is checked. -/
  assertScore : ∀ {dir dir' out}, D dir → dir.assertScore = .ok (dir', out) → D dir'

section Confines

variable {B L : Type} {V : B → Type} {W : L → Type} [PlanningSolution S k]
variable [∀ b, PlanningValue (V b)] [∀ b, DecidableEq (V b)] [∀ l, PlanningValue (W l)] [∀ l, DecidableEq (W l)]

/-- A director of a kind stays of the kind, whatever a run does with it. -/
structure Genuine.Confines (g : Genuine S V W) (C : ProblemChange S k → Prop) (D : Director S k → Prop) : Prop extends
    Director.Lasting D where
  /-- A move is made. -/
  doMove : ∀ {m dir dir' result}, g.Moves m → D dir → dir.doMove m = .ok (dir', result) → D dir'
  /-- A move is evaluated. -/
  evaluate : ∀ {m dir dir' check out}, g.Moves m → D dir → dir.evaluate m check = .ok (dir', out) → D dir'
  /-- An entity is given a value that is in range, or none. -/
  assign : ∀ {b e v dir dir'}, D dir → e < (g.basic b).count dir.solution →
    (∀ w, v = some w → (g.basic b).range.contains dir.solution e w = true) →
    dir.assign (g.basic b) e v = .ok dir' → D dir'
  /-- A change of the problem is made, or refused. -/
  change : ∀ {c dir dir' refusal}, C c → D dir → c.apply dir = .ok (dir', refusal) → D dir'

end Confines

namespace RunState

variable {r r' : RunState S k}

/-- The director is of a kind, and the changes of the problem that may come are of a kind. -/
structure Expects (D : Director S k → Prop) (C : ProblemChange S k → Prop) (r : RunState S k) : Prop where
  /-- The director is of the kind. -/
  director : D r.director
  /-- The changes that are waiting are of the kind. -/
  pending : ∀ c ∈ r.pending, C c
  /-- The changes that the watch asks for are of the kind. -/
  asked : ∀ c, r.Asks c → C c

/-- The director stays of a kind. -/
def Stays (D : Director S k → Prop) (r r' : RunState S k) : Prop := D r.director → D r'.director

instance : IsPreorder (RunState S k) (Stays D) where
  refl _ h := h
  trans _ _ _ h h' hD := h' (h hD)

namespace Expects

/-- What is noted is no matter to the director. -/
theorem noted (hjournal : ∀ {dir : Director S k} journal, D dir → D { dir with journal := journal })
    (h : r.Expects D C) (hn : r.Noted r') : r'.Expects D C where
  director := by
    rw [hn.director]
    exact hjournal _ h.director
  pending c hc := (hn.pending c hc).elim (h.pending c) (h.asked c)
  asked c hc := h.asked c ((hn.asks c).1 hc)

/-- Another director of the kind does as well. -/
theorem direct (h : r.Expects D C) {dir : Director S k} (hdir : D dir) : { r with director := dir }.Expects D C :=
  ⟨hdir, h.pending, h.asked⟩

/-- Counts and random numbers are no matter to the director. -/
theorem congr (h : r.Expects D C) (hdir : r'.director = r.director) (hpending : r'.pending = r.pending)
    (hwatch : r'.watch = r.watch) : r'.Expects D C := by
  refine ⟨hdir ▸ h.director, hpending ▸ h.pending, fun c hc => h.asked c ?_⟩
  unfold Asks at hc ⊢
  rwa [hwatch] at hc

end Expects

end RunState

namespace Running

variable {α : Type} {x : Running S k α} {r : RunState S k}

/-- A computation keeps the kind of the director, and changes of the problem of other kinds do not come. -/
abbrev Confined (D : Director S k → Prop) (C : ProblemChange S k → Prop) (x : Running S k α) : Prop :=
  Leads (RunState.Expects D C) (RunState.Stays D) x

namespace Confined

/-- What the director does keeps its kind. -/
theorem direct {d : Director S k → Checked (Director S k × α)}
    (h : ∀ dir dir' a, D dir → d dir = .ok (dir', a) → D dir') : Confined D C (direct d) :=
  Leads.direct fun _ dir a hr hd => ⟨hr.direct (h _ dir a hr.director hd), fun hD => h _ dir a hD hd⟩

/-- A run whose counts change. -/
theorem count {g : RunState S k → RunState S k} (h : ∀ r, (g r).director = r.director ∧ (g r).pending = r.pending ∧
    (g r).watch = r.watch) : Confined D C (modify g : Running S k PUnit) := by
  refine .modify fun r hr => ?_
  obtain ⟨hdirector, hpending, hwatch⟩ := h r
  exact ⟨hr.congr hdirector hpending hwatch, fun hD => hdirector ▸ hD⟩

/-- What is drawn is no matter to the director. -/
theorem draw (y : Generator.Draw α) : Confined D C (draw y : Running S k α) :=
  Leads.draw fun _ _ hr => ⟨hr.congr rfl rfl rfl, id⟩

theorem recordMove (accepted : Bool) : Confined D C (recordMove accepted : Running S k Unit) :=
  .bind .get fun _ => .bind (.checked _) fun _ => count fun _ => ⟨rfl, rfl, rfl⟩

theorem recordChoice (n : Nat) : Confined D C (recordChoice n : Running S k Unit) :=
  .forM fun _ _ => recordMove _

section Journal

variable (hjournal : ∀ {dir : Director S k} journal, D dir → D { dir with journal := journal })
include hjournal

/-- A computation that is only noted. -/
theorem of_noted (h : ∀ r, Ends x r (fun _ r' => r.Noted r') fun _ _ => False) : Confined D C x := by
  intro r hr
  refine (h r).mono (fun _ r' hr' => ?_) fun _ _ => False.elim
  have hnoted := hr.noted hjournal hr'
  exact ⟨hnoted, fun _ => hnoted.director⟩

theorem logAt (level : LogLevel) (e : Unit → LogEvent) : Confined D C (logAt level e : Running S k Unit) :=
  of_noted hjournal fun _ => .logAt fun _ => id

theorem report (level : LogLevel) (name : String) (fields : Unit → List (String × LogValue)) :
    Confined D C (report level name fields : Running S k Unit) := logAt hjournal _ _

variable [PlanningSolution S k]

theorem tell (e : RunEvent S k) : Confined D C (tell e) := of_noted hjournal fun _ => .tell fun _ => id

theorem stepStarted : Confined D C (stepStarted : Running S k Unit) := .bind .get fun _ => tell hjournal _

theorem stepEnded (score : Score k) : Confined D C (stepEnded score : Running S k Unit) :=
  .bind .get fun _ => .bind (tell hjournal _) fun _ => .bind .get fun _ => .bind (.checked _) fun _ =>
    .bind (count fun _ => ⟨rfl, rfl, rfl⟩) fun _ => .bind .get fun _ => report hjournal _ _ _

theorem setBest (s : S) (score : Score k) : Confined D C (setBest s score) :=
  .bind .get fun _ => .bind (report hjournal _ _ _) fun _ => .bind (count fun _ => ⟨rfl, rfl, rfl⟩) fun _ =>
    tell hjournal _

theorem updateBestWith (score : Score k) : Confined D C (updateBestWith score : Running S k Bool) :=
  .bind .get fun _ => .ite (.bind (setBest hjournal _ _) fun _ => .pure _) (.pure _)

end Journal

section Lasting

variable [PlanningSolution S k] (hD : Director.Lasting D)
include hD

theorem calculate : Confined D C (calculate : Running S k (Score k)) :=
  .bind (count fun _ => ⟨rfl, rfl, rfl⟩) fun _ => direct fun _ _ _ => hD.calculate

theorem assertScore : Confined D C (assertScore : Running S k Unit) := by
  refine .bind (direct fun _ _ _ => hD.assertScore) fun out => ?_
  cases out with
  | ok _ => exact .pure _
  | error e => exact .fail _

theorem assertStep : Confined D C (assertStep : Running S k Unit) :=
  .bind .get fun _ => .ite (assertScore hD) (.pure _)

theorem updateBest : Confined D C (updateBest : Running S k Bool) :=
  .bind (calculate hD) fun _ => updateBestWith hD.journal _

end Lasting

section Confines

variable {B L : Type} {V : B → Type} {W : L → Type} [PlanningSolution S k]
variable [∀ b, PlanningValue (V b)] [∀ b, DecidableEq (V b)] [∀ l, PlanningValue (W l)] [∀ l, DecidableEq (W l)]
variable {g : Genuine S V W} (hD : g.Confines C D)
include hD

theorem make {m : Move S} (hm : g.Moves m) : Confined D C (make m : Running S k Unit) := by
  refine .bind (direct fun _ _ _ => hD.doMove hm) fun out => ?_
  cases out with
  | ok _ => exact .pure _
  | error e => exact .fail _

theorem evaluate {m : Move S} (hm : g.Moves m) : Confined D C (evaluate m : Running S k (Score k)) := by
  refine .bind .get fun _ => .bind (direct fun _ _ _ => hD.evaluate hm) fun out => ?_
  cases out with
  | ok score => exact .bind (report hD.journal _ _ _) fun _ => .pure _
  | error e => exact .fail _

theorem evaluateAll {ms : List (Move S)} (hms : ∀ m ∈ ms, g.Moves m) :
    Confined D C (evaluateAll ms : Running S k _) := by
  induction ms with
  | nil => exact .pure _
  | cons m ms ih =>
    obtain ⟨hm, hms⟩ := List.forall_mem_cons.1 hms
    exact .bind (evaluate hD hm) fun _ => .bind (ih hms) fun _ => .pure _

/-- A change of the problem of the expected kind keeps the kind of the director. -/
theorem applyChange {c : ProblemChange S k} (hc : C c) : Confined D C (applyChange c) := by
  refine .bind (direct fun _ _ _ => hD.change hc) fun refusal => ?_
  cases refusal with
  | none => exact .bind (report hD.journal _ _ _) fun _ => .pure _
  | some e => exact .bind (report hD.journal _ _ _) fun _ => .pure _

/-- Taking in changes of the problem keeps the kind of the director. -/
theorem takeChanges : Confined D C (takeChanges : Running S k Nat) := by
  intro r hr
  simp only [Running.takeChanges, ends_bind, ends_get, ends_ite, ends_pure, ends_modify]
  refine ⟨fun _ => ⟨hr, refl_of _ r⟩, fun _ => ?_⟩
  have hstart : { r with pending := [] }.Expects D C :=
    ⟨hr.director, fun _ hc => absurd hc List.not_mem_nil, hr.asked⟩
  have hloop : Confined D C (r.pending.filterM Running.applyChange) :=
    .filterM fun c hc => applyChange hD (hr.pending c hc)
  refine (hloop _ hstart).mono (fun made r₁ hr₁ => ⟨fun _ => hr₁, fun _ => ?_⟩) fun _ _ => id
  refine (calculate hD.toLasting r₁ hr₁.1).mono (fun score r₂ hr₂ => ?_) fun _ _ => trans_of _ hr₁.2
  have h₂ := trans_of _ hr₁.2 hr₂.2
  refine (setBest hD.journal _ score r₂ hr₂.1).mono (fun _ r₃ hr₃ => ?_) fun _ _ => trans_of _ h₂
  have h₃ := trans_of _ h₂ hr₃.2
  exact (report hD.journal _ _ _ r₃ hr₃.1).mono (fun _ _ hr₄ => ⟨hr₄.1, trans_of _ h₃ hr₄.2⟩) fun _ _ => trans_of _ h₃

end Confines

end Confined

end Running

end Planning

/-!
## What phases do to a director

Constructions and searches hand the director through moves that are made and evaluated. An exhaustive search gives
values to entities without asking whether they are in range: it took them from the ranges, which stay the same as long
as it goes on, since they are drawn from facts and it changes none.
-/

namespace Planning

open Checked RunState Running

variable {S T : Type} {k : ScoreKind} [PlanningSolution S k] {D : Director S k → Prop}
variable {C : ProblemChange S k → Prop} {B L : Type} {V : B → Type} {W : L → Type}
variable [∀ b, PlanningValue (V b)] [∀ b, DecidableEq (V b)] [∀ l, PlanningValue (W l)] [∀ l, DecidableEq (W l)]
variable {g : Genuine S V W} (hD : g.Confines C D)

section Moves

include hD

namespace Running

/-- A step that makes the best of some moves keeps the kind of the director. -/
theorem confined_stepWithBest {moves : List (Move S)} (hm : ∀ m ∈ moves, g.Moves m) :
    Confined D C (stepWithBest moves : Running S k Bool) := by
  refine (Confined.evaluateAll hD hm).bindOf (gives_evaluateAll moves) fun scored hscored => ?_
  split
  · exact .pure _
  · rename_i m score hbest
    have hm := hm m (hscored _ (mem_of_firstBest hbest))
    exact .bind (Confined.recordChoice _) fun _ => .bind (Confined.make hD hm) fun _ =>
      .bind (Confined.calculate hD.toLasting) fun _ => .bind (Confined.stepEnded hD.journal _) fun _ =>
        .bind (Confined.assertStep hD.toLasting) fun _ => .pure _

end Running

/-- A construction keeps the kind of the director. -/
theorem Construction.confined_run {b : B} {x : Construction S (V b) k} (hx : x.planned = g.basic b) :
    Confined D C x.run := by
  have hstep : ∀ e, Confined D C (x.step e) := by
    intro e
    refine .bind (Confined.stepStarted hD.journal) fun _ => ?_
    have hcandidates : Confined D C (x.candidates e) := .bind .get fun _ => .bind (Confined.draw _) fun _ => .pure _
    refine hcandidates.bindOf (gives_candidates hx e) fun moves hm => ?_
    exact .bind (confined_stepWithBest hD hm) fun made => .ite (Confined.logAt hD.journal _ _) (.pure _)
  have hsteps : ∀ es, Confined D C (x.stepAll es) := by
    intro es
    induction es with
    | nil => exact .pure _
    | cons e es ih => exact .bind .get fun _ => .ite (.pure _) (.bind (hstep e) fun _ => ih)
  exact .bind .get fun _ => .bind (.checked _) fun entities => .bind (hsteps entities) fun _ =>
    (Confined.updateBest hD.toLasting).discard

/-- An insertion keeps the kind of the director. -/
theorem Insertion.confined_run {l : L} {x : Insertion S (W l) k} (hx : x.planned = g.list l) :
    Confined D C x.run := by
  have hsteps : ∀ vs, Confined D C (x.stepAll vs) := by
    intro vs
    induction vs with
    | nil => exact .pure _
    | cons v vs ih =>
      refine .bind .get fun _ => .ite (.pure _) (.bind (Confined.stepStarted hD.journal) fun _ => ?_)
      refine .bind .get fun r => .bind (confined_stepWithBest hD fun m hm => ?_) fun made => .ite ih (.pure _)
      obtain ⟨y, -, rfl⟩ := List.mem_map.1 hm
      rw [hx]
      exact .list l y
  exact .bind .get fun _ => .bind (.checked _) fun elements => .bind (hsteps elements) fun _ =>
    (Confined.updateBest hD.toLasting).discard

namespace LocalSearch

variable {x : LocalSearch S k} {st : SearchState S k} {m : Move S}

omit hD [PlanningSolution S k] in
/-- Asking the acceptor is no matter to the director. -/
theorem confined_accepted (a : Acceptor k) (last best score : Score k) (m : Move S) :
    Confined D C (accepted a last best score m) :=
  .bind .get fun _ => .bind (Confined.draw _) fun _ => .bind (Confined.recordMove _) fun _ => .pure _

/-- Going through the candidates keeps the kind of the director. -/
theorem confined_scan {a : Acceptor k} {last best : Score k} {f : Forager k} {place : Nat} {ms : List (Move S)}
    (hms : ∀ m ∈ ms, g.Moves m) : Confined D C (scan a last best f place ms) := by
  induction ms generalizing f place with
  | nil => exact .pure _
  | cons m ms ih =>
    obtain ⟨hm, hms⟩ := List.forall_mem_cons.1 hms
    refine .bind .get fun _ => .ite (ih hms) (.bind (Confined.evaluate hD hm) fun _ => ?_)
    exact .bind (confined_accepted _ _ _ _ _) fun _ => .ite (.ite (.pure _) (ih hms)) (ih hms)

omit hD [PlanningSolution S k] in
/-- Going through candidates with scores is no matter to the director. -/
theorem confined_scanScored {a : Acceptor k} {last best : Score k} {f : Forager k} {isDone : Bool} {place : Nat}
    {ms : List (Move S × Option (Score k))} : Confined D C (scanScored a last best f isDone place ms) := by
  induction ms generalizing f isDone place with
  | nil => exact .pure _
  | cons y ms ih =>
    obtain ⟨m, score⟩ := y
    cases score with
    | none => exact ih
    | some score =>
      refine .ite (.bind (Confined.recordMove _) fun _ => ih) ?_
      exact .bind (confined_accepted _ _ _ _ _) fun _ => .ite ih ih

/-- Picking a candidate keeps the kind of the director. -/
theorem confined_forage {moves : List (Move S)} (hm : ∀ m ∈ moves, g.Moves m) : Confined D C (x.forage st moves) := by
  refine .bind .get fun _ => .ite (.bind (confined_scan hD hm) fun _ => ?_) (.bind (.checked _) fun parts => ?_)
  · exact .bind (.pure _) fun _ => .bind (Confined.draw _) fun _ => .pure _
  · cases parts with
    | error e => exact .bind (.fail _) fun _ => .bind (Confined.draw _) fun _ => .pure _
    | ok parts =>
      exact .bind confined_scanScored fun _ => .bind (.pure _) fun _ => .bind (Confined.draw _) fun _ => .pure _

omit hD [PlanningSolution S k] in
/-- Making a move on the director of a thread is no matter to the director of the run. -/
theorem confined_makeOnFork (m : Move S) (fork : Director S k) : Confined D C (makeOnFork m fork) := by
  refine .bind (.checked _) fun out => ?_
  obtain ⟨fork', result⟩ := out
  cases result with
  | ok _ => exact .pure _
  | error e => exact .fail _

/-- A picked move keeps the kind of the director. -/
theorem confined_finishStep (hm : g.Moves m) : Confined D C (finishStep st m) :=
  .bind .get fun _ => .bind (Confined.make hD hm) fun _ => .bind (.mapM fun _ _ => confined_makeOnFork m _) fun _ =>
    .bind (Confined.calculate hD.toLasting) fun _ => .bind (Confined.stepEnded hD.journal _) fun _ =>
      .bind (Confined.assertStep hD.toLasting) fun _ =>
        .bind (Confined.updateBestWith hD.journal _).discard fun _ => .pure _

/-- A step of a local search keeps the kind of the director. -/
theorem confined_step (hx : g.Selects x.selector) (st : SearchState S k) : Confined D C (x.step st) := by
  have hselected : ∀ s, Gives (fun moves => ∀ m ∈ moves, g.Moves m)
      (Running.draw (x.selector.moves s) : Running S k (List (Move S))) := by
    intro s r
    rw [ends_draw]
    exact ⟨fun moves gen hmoves m => hx.moves_of_mem hmoves, fun _ _ => trivial⟩
  have hstepOn : ∀ st, Confined D C (x.stepOn st) := by
    intro st
    refine .bind .get fun _ => .ite (.pure _) (.bind (Confined.stepStarted hD.journal) fun _ => .bind .get fun r => ?_)
    refine (Confined.draw _).bindOf (hselected r.director.solution) fun moves hm => ?_
    refine .ite (.bind (Confined.report hD.journal _ _ _) fun _ => .pure _) ?_
    refine (confined_forage hD hm).bindOf (gives_forage moves) fun out hout => ?_
    obtain ⟨st', picked⟩ := out
    cases picked with
    | none => exact .bind (Confined.report hD.journal _ _ _) fun _ => .pure _
    | some m => exact .bind (confined_finishStep hD (hm m (hout m rfl))) fun _ => .pure _
  rw [step_eq]
  refine .bind (Confined.takeChanges hD) fun changes => .ite (.bind (.pure _) fun _ => hstepOn _) ?_
  exact .bind (.bind (Confined.calculate hD.toLasting) fun _ => .bind .get fun _ => .pure _) fun _ => hstepOn _

/-- A local search keeps the kind of the director. -/
theorem confined_run (hx : g.Selects x.selector) : Confined D C x.run := by
  have hsteps : ∀ fuel st, Confined D C (x.steps fuel st) := by
    intro fuel
    induction fuel with
    | zero => exact fun _ => .throw _
    | succ fuel ih =>
      refine fun st => .bind (confined_step hD hx st) fun next => ?_
      cases next with
      | none => exact .pure _
      | some st' => exact ih st'
  refine .bind .get fun _ => .bind (Confined.calculate hD.toLasting) fun _ => .bind .get fun _ => ?_
  exact .ite (.bind (Confined.updateBest hD.toLasting).discard fun _ => hsteps _ _) (hsteps _ _)

end LocalSearch

end Moves

namespace ExhaustiveSearch

variable {facts : S → T} {shadows : ShadowCascade S} {f : T} {n : Nat} {b : B} {entities : List Nat}
variable {x : ExhaustiveSearch S (V b) k} {r : RunState S k} {e : Nat} {path : List (V b)}

/-- A director of a kind, whose solution has given facts and a given number of entities. -/
structure Fixed (g : Genuine S V W) (facts : S → T) (shadows : ShadowCascade S) (D : Director S k → Prop) (f : T) (b : B)
    (n : Nat) (dir : Director S k) : Prop where
  /-- The director is of the kind. -/
  kind : D dir
  /-- The director has the listeners. -/
  shadows : dir.shadows = shadows
  /-- The facts are the given ones. -/
  facts : facts dir.solution = f
  /-- There are as many entities. -/
  count : (g.basic b).count dir.solution = n

/-- A value is in range for an entity, as long as the facts are the given ones. -/
def Open (g : Genuine S V W) (facts : S → T) (f : T) (e : Nat) (v : V b) : Prop :=
  ∀ s, facts s = f → (g.basic b).range.contains s e v = true

/-- The values of a path are in range for the entities. -/
def Apt (g : Genuine S V W) (facts : S → T) (f : T) (entities : List Nat) (path : List (V b)) : Prop :=
  ∀ (i e : Nat) (v : V b), entities[i]? = some e → path[i]? = some v → Open g facts f e v

omit [PlanningSolution S k] [∀ b, PlanningValue (V b)] [∀ b, DecidableEq (V b)] [∀ l, PlanningValue (W l)]
  [∀ l, DecidableEq (W l)] in
/-- A path goes on with a value that is in range for the next entity. -/
theorem Apt.append (h : Apt g facts f entities path) (he : entities[path.length]? = some e) {v : V b}
    (hv : Open g facts f e v) : Apt g facts f entities (path ++ [v]) := by
  intro i e' w he' hw
  rw [List.getElem?_append] at hw
  split at hw
  · exact h i e' w he' hw
  · rename_i hi
    obtain ⟨hlt, hw⟩ := List.getElem?_eq_some_iff.1 hw
    rw [List.length_singleton] at hlt
    obtain rfl : i = path.length := by omega
    rw [he] at he'
    cases he'
    rw [List.getElem_singleton] at hw
    exact hw ▸ hv

/-- The open nodes and the best one of a search have values in range. -/
structure AptTree (g : Genuine S V W) (facts : S → T) (f : T) (entities : List Nat) (st : TreeState (V b) k) : Prop where
  /-- The open nodes have. -/
  frontier : ∀ a ∈ st.frontier, Apt g facts f entities a.path
  /-- The best one has. -/
  best : ∀ a ∈ st.best, Apt g facts f entities a.path

variable [DecidableEq B] [DecidableEq L] (hreg : g.Regular facts shadows)

include hreg in
omit [∀ b, PlanningValue (V b)] [∀ b, DecidableEq (V b)] [∀ l, PlanningValue (W l)] [∀ l, DecidableEq (W l)] in
/-- A stored score changes neither the facts nor the number of entities. -/
theorem Fixed.stored {dir dir' : Director S k} (h : Fixed g facts shadows D f b n dir) (hD : D dir')
    (hshadows : dir'.shadows = dir.shadows) (hs : dir'.solution = dir.solution ∨
      ∃ score, dir'.solution = PlanningSolution.withScore dir.solution score) : Fixed g facts shadows D f b n dir' := by
  have hlike := Director.alike_of_stored hreg hs
  have hcount : (g.basic b).count dir'.solution = (g.basic b).count dir.solution :=
    congrArg (fun c => c.valueCount b) hlike.content
  exact ⟨hD, hshadows.trans h.shadows, hlike.facts.trans h.facts, hcount.trans h.count⟩

include hreg in
omit [∀ b, PlanningValue (V b)] [∀ b, DecidableEq (V b)] [∀ l, PlanningValue (W l)] [∀ l, DecidableEq (W l)] in
/-- Asking for the score changes neither the facts nor the number of entities. -/
theorem lasting_fixed (hD : Director.Lasting D) : Director.Lasting (Fixed g facts shadows D f b n) where
  journal journal h := ⟨hD.journal journal h.kind, h.shadows, h.facts, h.count⟩
  calculate h hd := by
    obtain ⟨hs, heq⟩ := Director.calculate_solution hd
    exact h.stored hreg (hD.calculate h.kind hd) (by rw [heq]) (hs.imp_right fun hs => ⟨_, hs⟩)
  assertScore h hd := by
    obtain ⟨hs, heq⟩ := Director.assertScore_solution hd
    exact h.stored hreg (hD.assertScore h.kind hd) (by rw [heq]) hs

variable (hx : x.planned = g.basic b)
include hreg hD hx

/-- An entity is given a value that is in range, or none. -/
theorem confined_assign (he : e < n) {v : Option (V b)} (hv : ∀ w, v = some w → Open g facts f e w) :
    Confined (Fixed g facts shadows D f b n) C (x.assign e v : Running S k Unit) := by
  rw [assign_eq hx]
  refine Confined.direct fun dir dir' _ h hd => ?_
  obtain ⟨dir₁, h₁, hpure⟩ := bind_eq_ok_iff.1 hd
  cases hpure
  obtain ⟨hlike, hshadows⟩ := Director.alike_assign hreg h.shadows h₁
  have hlt : e < (g.basic b).count dir.solution := by rw [h.count]; exact he
  refine ⟨hD.assign h.kind hlt (fun w hw => hv w hw _ h.facts) h₁, hshadows, ?_, ?_⟩
  · rw [hlike.facts, hreg.governed.set_basic, h.facts]
  · have hset := congrArg (fun c => c.valueCount b) (hlike.content.trans (hreg.lawful.set_basic b dir.solution e v hlt))
    exact hset.trans h.count

variable (hlt : ∀ e ∈ entities, e < n)
include hlt

/-- The working solution goes from a path to another whose values are in range. -/
theorem confined_moveTo {current target : List (V b)} (htarget : Apt g facts f entities target) :
    Confined (Fixed g facts shadows D f b n) C (x.moveTo entities current target : Running S k Unit) := by
  refine .bind (.forM fun e he => ?_) fun _ => .forM fun y hy => ?_
  · have hmem := List.mem_of_mem_take (List.mem_of_mem_drop (List.mem_reverse.1 he))
    exact confined_assign hD hreg hx (hlt e hmem) fun w hw => absurd hw.symm (Option.some_ne_none w)
  · obtain ⟨i, hi, hget⟩ := List.mem_iff_getElem.1 (List.mem_of_mem_drop hy)
    obtain ⟨e, v⟩ := y
    rw [List.getElem_zip] at hget
    rw [List.length_zip] at hi
    obtain ⟨he, hv⟩ := Prod.mk.inj hget
    refine confined_assign hD hreg hx (hlt e (he ▸ List.getElem_mem _)) fun w hw => ?_
    cases hw
    exact htarget i e v (he ▸ List.getElem?_eq_getElem _) (hv ▸ List.getElem?_eq_getElem _)

variable {node : SearchNode (V b) k} {st : TreeState (V b) k}

omit hlt in
/-- The children of a node have one more value, which was to be tried. -/
theorem confined_children (he : e < n) {best : Option (SearchNode (V b) k)} {sequence : Nat} {vs : List (V b)}
    (hvs : ∀ v ∈ vs, Open g facts f e v) :
    Confined (Fixed g facts shadows D f b n) C (x.children e node best sequence vs : Running S k _) := by
  have hfixed := lasting_fixed (D := D) (f := f) (b := b) (n := n) hreg hD.toLasting
  induction vs generalizing sequence with
  | nil => exact .pure _
  | cons v vs ih =>
    obtain ⟨hv, hvs⟩ := List.forall_mem_cons.1 hvs
    have hassign : Confined (Fixed g facts shadows D f b n) C (x.assign e (some v) : Running S k Unit) :=
      confined_assign hD hreg hx he fun w hw => Option.some.inj hw ▸ hv
    have hscore : Confined (Fixed g facts shadows D f b n) C (x.scoreWith e v) :=
      .bind hassign fun _ => .bind (Confined.calculate hfixed) fun _ =>
        .bind (confined_assign hD hreg hx he fun w hw => absurd hw.symm (Option.some_ne_none w)) fun _ =>
          .bind (Confined.recordMove _) fun _ => .pure _
    refine .bind hscore fun score => .ite (ih hvs) (.bind (.checked _) fun n => ?_)
    exact .bind (ih hvs) fun _ => .pure _

omit hD hreg hlt hx [∀ b, PlanningValue (V b)] [∀ b, DecidableEq (V b)] [∀ l, PlanningValue (W l)]
  [∀ l, DecidableEq (W l)] [DecidableEq B] [DecidableEq L] in
/-- The children of a node have one more value, which was to be tried. -/
theorem gives_children {best : Option (SearchNode (V b) k)} {sequence : Nat} {vs : List (V b)} :
    Gives (fun out => ∀ a ∈ out.1, ∃ v ∈ vs, a.path = node.path ++ [v]) (x.children e node best sequence vs) := by
  induction vs generalizing sequence with
  | nil => exact fun _ _ ha => absurd ha List.not_mem_nil
  | cons v vs ih =>
    have hrest : ∀ {out : List (SearchNode (V b) k) × Nat}, (∀ a ∈ out.1, ∃ v ∈ vs, a.path = node.path ++ [v]) →
        ∀ a ∈ out.1, ∃ w ∈ v :: vs, a.path = node.path ++ [w] := by
      intro out hout a ha
      obtain ⟨w, hw, hpath⟩ := hout a ha
      exact ⟨w, List.mem_cons_of_mem v hw, hpath⟩
    refine .bind fun score r => ?_
    rw [ends_ite]
    refine ⟨fun _ => (ih r).mono (fun _ _ => hrest) fun _ _ => id, fun _ => ?_⟩
    simp only [ends_bind, ends_checked, ends_pure]
    refine ⟨fun sequence _ => (ih r).mono (fun out r' hout => ?_) fun _ _ => id, fun _ _ => trivial⟩
    exact List.forall_mem_cons.2 ⟨⟨v, List.mem_cons_self, rfl⟩, hrest hout⟩

omit hlt in
/-- An assignment of the first entities is looked at: its children have values of the range of the next entity. -/
theorem ends_visitInner_apt (hdraws : g.Draws facts) (hcoherent : g.Coherent) (he : entities[node.path.length]? = some e)
    (hlt : e < n) (hnode : Apt g facts f entities node.path) (hst : AptTree g facts f entities st)
    (h : r.Expects (Fixed g facts shadows D f b n) C) :
    Ends (x.visitInner e node st) r
      (fun st' r' => (r'.Expects (Fixed g facts shadows D f b n) C ∧ r.Stays (Fixed g facts shadows D f b n) r') ∧
        AptTree g facts f entities st')
      fun _ r' => r.Stays (Fixed g facts shadows D f b n) r' := by
  have hfixed := lasting_fixed (D := D) (f := f) (b := b) (n := n) hreg hD.toLasting
  simp only [visitInner, ends_bind, ends_get, ends_checked, ends_pure]
  refine ⟨fun values hvalues => ?_, fun _ _ => refl_of _ r⟩
  have hopen : ∀ v ∈ values, Open g facts f e v := by
    intro v hv s hs
    rw [hx] at hvalues
    rw [hdraws b s r.director.solution (hs.trans h.director.facts.symm)]
    exact hcoherent b _ e values v hvalues hv
  refine ((confined_children hD hreg hx hlt hopen r h).and (gives_children r)).mono (fun out r₁ hr₁ => ?_)
    fun _ _ => And.left
  obtain ⟨⟨hexpects₁, hstays₁⟩, hchildren⟩ := hr₁
  refine (Confined.stepEnded hfixed.journal node.score r₁ hexpects₁).mono (fun _ r₂ hr₂ => ?_) fun _ _ => trans_of _ hstays₁
  have hstays₂ := trans_of _ hstays₁ hr₂.2
  refine (Confined.assertStep hfixed r₂ hr₂.1).mono (fun _ r₃ hr₃ => ?_) fun _ _ => trans_of _ hstays₂
  refine ⟨⟨hr₃.1, trans_of _ hstays₂ hr₃.2⟩, fun a ha => ?_, hst.best⟩
  rcases SearchNode.mem_expand ha with ha | ha
  · obtain ⟨v, hv, hpath⟩ := hchildren a ha
    rw [hpath]
    exact hnode.append he (hopen v hv)
  · exact hst.frontier a ha

omit hD hx hlt [∀ b, PlanningValue (V b)] [∀ b, DecidableEq (V b)] [∀ l, PlanningValue (W l)] [∀ l, DecidableEq (W l)] in
/-- A complete assignment is looked at, and may be the best one from then on. -/
theorem ends_visitLeaf_apt (hD : Director.Lasting D) (hnode : Apt g facts f entities node.path)
    (hst : AptTree g facts f entities st) (h : r.Expects (Fixed g facts shadows D f b n) C) :
    Ends (visitLeaf node st) r
      (fun st' r' => (r'.Expects (Fixed g facts shadows D f b n) C ∧ r.Stays (Fixed g facts shadows D f b n) r') ∧
        AptTree g facts f entities st')
      fun _ r' => r.Stays (Fixed g facts shadows D f b n) r' := by
  have hfixed := lasting_fixed (D := D) (f := f) (b := b) (n := n) hreg hD
  have hend : ∀ {st' : TreeState (V b) k}, AptTree g facts f entities st' → ∀ {r₁ : RunState S k},
      r₁.Expects (Fixed g facts shadows D f b n) C → r.Stays (Fixed g facts shadows D f b n) r₁ →
      Ends (stepEnded node.score) r₁
        (fun _ r' => (r'.Expects (Fixed g facts shadows D f b n) C ∧ r.Stays (Fixed g facts shadows D f b n) r') ∧
          AptTree g facts f entities st')
        fun _ r' => r.Stays (Fixed g facts shadows D f b n) r' := by
    intro st' hst' r₁ hexpects hstays
    exact (Confined.stepEnded hfixed.journal node.score r₁ hexpects).mono
      (fun _ r₂ hr₂ => ⟨⟨hr₂.1, trans_of _ hstays hr₂.2⟩, hst'⟩) fun _ _ => trans_of _ hstays
  have hbest : AptTree g facts f entities { st with best := some node } :=
    ⟨hst.frontier, fun a ha => Option.some.inj ha ▸ hnode⟩
  simp only [visitLeaf, ends_bind, ends_ite, ends_discard, ends_pure]
  refine ⟨fun hbetter => ?_, fun hworse => ?_⟩
  · refine (Confined.updateBestWith hfixed.journal node.score r h).mono (fun _ r₁ hr₁ => ?_) fun _ _ => id
    rw [if_pos hbetter]
    exact hend hbest hr₁.1 hr₁.2
  · rw [if_neg hworse]
    exact hend hst h (refl_of _ r)

variable (hdraws : g.Draws facts) (hcoherent : g.Coherent)
include hdraws hcoherent

/-- A node with values in range is looked at. -/
theorem ends_visit_apt (hnode : Apt g facts f entities node.path) (hst : AptTree g facts f entities st)
    (h : r.Expects (Fixed g facts shadows D f b n) C) :
    Ends (x.visit entities node st) r
      (fun st' r' => (r'.Expects (Fixed g facts shadows D f b n) C ∧ r.Stays (Fixed g facts shadows D f b n) r') ∧
        AptTree g facts f entities st')
      fun _ r' => r.Stays (Fixed g facts shadows D f b n) r' := by
  have hfixed := lasting_fixed (D := D) (f := f) (b := b) (n := n) hreg hD.toLasting
  simp only [visit, ends_bind]
  refine (Confined.stepStarted hfixed.journal r h).mono (fun _ r₁ hr₁ => ?_) fun _ _ => id
  refine (confined_moveTo hD hreg hx hlt hnode r₁ hr₁.1).mono (fun _ r₂ hr₂ => ?_) fun _ _ => trans_of _ hr₁.2
  have hstays₂ := trans_of _ hr₁.2 hr₂.2
  have hmoved : AptTree g facts f entities { st with current := node.path, nodes := st.nodes + 1 } :=
    ⟨hst.frontier, hst.best⟩
  split
  · exact (ends_visitLeaf_apt hreg hD.toLasting hnode hmoved hr₂.1).mono
      (fun _ _ hr₃ => ⟨⟨hr₃.1.1, trans_of _ hstays₂ hr₃.1.2⟩, hr₃.2⟩) fun _ _ => trans_of _ hstays₂
  · rename_i e he
    exact (ends_visitInner_apt hD hreg hx hdraws hcoherent he (hlt e (List.mem_of_getElem? he)) hnode hmoved hr₂.1).mono
      (fun _ _ hr₃ => ⟨⟨hr₃.1.1, trans_of _ hstays₂ hr₃.1.2⟩, hr₃.2⟩) fun _ _ => trans_of _ hstays₂

/-- Nodes with values in range are looked at. -/
theorem ends_visits_apt {fuel : Nat} (hst : AptTree g facts f entities st)
    (h : r.Expects (Fixed g facts shadows D f b n) C) :
    Ends (x.visits entities fuel st) r
      (fun st' r' => (r'.Expects (Fixed g facts shadows D f b n) C ∧ r.Stays (Fixed g facts shadows D f b n) r') ∧
        AptTree g facts f entities st')
      fun _ r' => r.Stays (Fixed g facts shadows D f b n) r' := by
  induction fuel generalizing st r with
  | zero => exact refl_of (Stays (Fixed g facts shadows D f b n)) r
  | succ fuel ih =>
    unfold visits
    split
    · exact ⟨⟨h, refl_of _ r⟩, hst⟩
    · rename_i node rest hfrontier
      have hopen := hst.frontier
      rw [hfrontier] at hopen
      obtain ⟨hnode, hrest⟩ := List.forall_mem_cons.1 hopen
      have hnext : AptTree g facts f entities { st with frontier := rest } := ⟨hrest, hst.best⟩
      simp only [isStopped, ends_bind, ends_get, ends_pure, ends_ite]
      refine ⟨fun _ => ⟨⟨h, refl_of _ r⟩, hst⟩, fun _ => ⟨fun _ => ih hnext h, fun _ => ?_⟩⟩
      refine (ends_visit_apt hD hreg hx hlt hdraws hcoherent hnode hnext h).mono (fun st' r₁ hr₁ => ?_) fun _ _ => id
      obtain ⟨⟨hexpects₁, hstays₁⟩, hst'⟩ := hr₁
      exact (ih hst' hexpects₁).mono (fun _ _ hr₂ => ⟨⟨hr₂.1.1, trans_of _ hstays₁ hr₂.1.2⟩, hr₂.2⟩)
        fun _ _ => trans_of _ hstays₁

/-- The search through the values of some entities. -/
theorem confined_search : Confined (Fixed g facts shadows D f b n) C (x.search entities) := by
  have hfixed := lasting_fixed (D := D) (f := f) (b := b) (n := n) hreg hD.toLasting
  intro r h
  simp only [search, ends_bind, ends_discard]
  refine (Confined.calculate hfixed r h).mono (fun score r₁ hr₁ => ?_) fun _ _ => id
  have hroot : AptTree g facts f entities ({ frontier := [⟨[], score, 0⟩] } : TreeState (V b) k) := by
    refine ⟨List.forall_mem_singleton.2 fun i e v _ hv => ?_, fun a ha => absurd ha.symm (Option.some_ne_none a)⟩
    cases hv
  refine (ends_visits_apt hD hreg hx hlt hdraws hcoherent hroot hr₁.1).mono (fun st r₂ hr₂ => ?_) fun _ _ => trans_of _ hr₁.2
  obtain ⟨⟨hexpects₂, hstays₂⟩, hst⟩ := hr₂
  have hstays₂ := trans_of _ hr₁.2 hstays₂
  have htarget : Apt g facts f entities ((st.best.map SearchNode.path).getD []) := by
    cases hbest : st.best with
    | none =>
      intro i e v _ hv
      cases hv
    | some a => exact hst.best a hbest
  have hend : Confined (Fixed g facts shadows D f b n) C (do
      x.moveTo entities st.current ((st.best.map SearchNode.path).getD [])
      discard Running.calculate
      Running.report .debug "exhaustive_search_done" fun _ => [("nodes", .number st.nodes),
        ("best_score", .shown (Text.optional (fun b => b.score.debugText) st.best))]) :=
    .bind (confined_moveTo hD hreg hx hlt htarget) fun _ => .bind (Confined.calculate hfixed).discard fun _ =>
      Confined.report hfixed.journal _ _ _
  have hends := (hend r₂ hexpects₂).mono (fun _ _ hr₃ => And.intro hr₃.1 (trans_of _ hstays₂ hr₃.2))
    fun _ _ => trans_of _ hstays₂
  simpa only [ends_bind, ends_discard] using hends

omit hlt in
/-- An exhaustive search keeps the kind of the director. -/
theorem confined_run (hshadows : ∀ {dir}, D dir → dir.shadows = shadows) : Confined D C x.run := by
  intro r h
  simp only [run, ends_bind, ends_get, ends_ite, ends_pure]
  refine ⟨fun _ => ⟨h, refl_of _ r⟩, fun _ => ⟨fun _ => ?_, fun _ => ?_⟩⟩
  · exact Confined.report hD.journal _ _ _ r h
  · have hfixed : r.Expects (Fixed g facts shadows D (facts r.director.solution) b
        ((g.basic b).count r.director.solution)) C :=
      ⟨⟨h.director, hshadows h.director, rfl, rfl⟩, h.pending, h.asked⟩
    have hlt : ∀ e ∈ x.planned.unassigned r.director.solution, e < (g.basic b).count r.director.solution := by
      rw [hx]
      exact (vacant_unassigned (g := g) b r.director.solution).lt
    have hsearch := confined_search hD hreg hx hlt hdraws hcoherent (C := C) r hfixed
    refine hsearch.mono (fun _ r' hr' => ⟨⟨hr'.1.director.kind, hr'.1.pending, hr'.1.asked⟩, fun _ => hr'.1.director.kind⟩)
      fun _ r' hstays _ => (hstays hfixed.director).kind

end ExhaustiveSearch

end Planning
