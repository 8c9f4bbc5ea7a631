import Planning.Proofs.Phase.Exhaustive
import Planning.Proofs.Phase.Tracked
import Planning.Proofs.Run.Held
import Planning.Proofs.Run.Leads

/-!
# Best solutions and boundaries of steps

A run that has a best solution has one from then on, whatever its scores are. A local search has one from its first
step on.
-/

namespace Planning

open Checked RunState Running

variable {S : Type} {k : ScoreKind} [PlanningSolution S k] {D : Director S k → Prop}
variable {B L : Type} {V : B → Type} {W : L → Type}
variable [∀ b, PlanningValue (V b)] [∀ b, DecidableEq (V b)] [∀ l, PlanningValue (W l)] [∀ l, DecidableEq (W l)]
variable {g : Genuine S V W} {r r' : RunState S k}

namespace RunState

/-- A run that has a best solution has one again. -/
def Keeps (r r' : RunState S k) : Prop := r.best.isSome = true → r'.best.isSome = true

omit [PlanningSolution S k] in
instance : IsPreorder (RunState S k) Keeps where
  refl _ h := h
  trans _ _ _ h h' hr := h' (h hr)

omit [PlanningSolution S k] in
/-- A best solution that stays is kept. -/
theorem Rests.keeps {loud : RunEvent S k → Bool} (h : r.Rests loud r') : r.Keeps r' := by
  unfold Keeps
  rw [h.best]
  exact id

omit [PlanningSolution S k] in
/-- A best solution that is there is kept. -/
theorem keeps_of_best {b : BestSolution S k} (h : r'.best = some b) : r.Keeps r' := by
  unfold Keeps
  rw [h]
  exact fun _ => rfl

end RunState

namespace Running

variable (hD : g.Preserves D)
include hD

/-- A better solution becomes the best one. -/
theorem keeps_updateBestWith (score : Score k) :
    Leads (Abides D) Keeps (updateBestWith score : Running S k Bool) := by
  intro r h
  refine .updateBestWith (fun _ => ?_) fun _ => ⟨h, refl_of _ r⟩
  exact (ends_setBest hD.journal h _ score).mono (fun _ r' hr' => ⟨hr'.1, keeps_of_best hr'.2.1⟩) fun _ _ => id

theorem keeps_updateBest : Leads (Abides D) Keeps (updateBest : Running S k Bool) := by
  have hsteady : Steady D RunEvent.isBest (calculate : Running S k _) := Steady.calculate hD
  exact .bind (hsteady.mono fun _ _ => Rests.keeps) fun _ => keeps_updateBestWith hD _

/-- Once the working solution was looked at there is a best solution. -/
theorem ends_updateBest_some (h : r.Abides D) :
    Ends updateBest r (fun _ r' => r'.Abides D ∧ r'.best.isSome = true) fun e _ => ∃ f, e = .faulted f := by
  simp only [updateBest, ends_bind]
  have hsteady : Steady D RunEvent.isBest (calculate : Running S k _) := Steady.calculate hD
  refine ((hsteady r h).and ends_calculate_fault).mono (fun score r' hr' => ?_) fun _ _ => And.right
  refine .updateBestWith (fun _ => ?_) fun hworse => ⟨hr'.1.1, ?_⟩
  · refine (ends_setBest hD.journal hr'.1.1 _ score).mono (fun _ r'' hr'' => ⟨hr''.1, ?_⟩) fun _ _ => id
    rw [hr''.2.1]
    rfl
  · unfold improvesWith at hworse
    cases hbest : r'.best with
    | none =>
      rw [hbest] at hworse
      cases hworse
    | some b => rfl

/-- After changes of the problem the working solution becomes the best one. -/
theorem keeps_takeChanges : Leads (Abides D) Keeps (takeChanges : Running S k Nat) := by
  intro r h
  refine (ends_takeChanges_best hD (P := fun _ _ => True) (fun r hr => ?_) h).mono (fun n r' hr' => ?_)
    fun _ _ => Rests.keeps
  · exact (Steady.calculate hD r hr).mono (fun _ _ hr' => ⟨hr'.1, hr'.2, trivial⟩) fun _ _ => id
  · obtain ⟨habides, hrest | ⟨-, s, score, -, hbest, -⟩⟩ := hr'
    · exact ⟨habides, hrest.keeps⟩
    · exact ⟨habides, keeps_of_best hbest⟩

end Running

omit [PlanningSolution S k] in
/-- What is steady keeps a best solution. -/
theorem Running.Leads.keeps {α : Type} {x : Running S k α} (h : Steady D RunEvent.isBest x) :
    Leads (Abides D) Keeps x := h.mono fun _ _ => Rests.keeps

namespace ExhaustiveSearch

variable {U : Type} [DecidableEq U]

/-- A node is looked at, up to the end of its step. -/
def look (x : ExhaustiveSearch S U k) (entities : List Nat) (node : SearchNode U k) (st : TreeState U k) :
    Running S k (TreeState U k) := do
  stepStarted
  x.moveTo entities st.current node.path
  let st := { st with current := node.path, nodes := st.nodes + 1 }
  match entities[node.path.length]? with
  | none => visitLeaf node st
  | some e =>
    let values ← checked (x.planned.range.values (← get).director.solution e)
    let (children, sequence) ← x.children e node st.best st.sequence values
    stepEnded node.score
    return { st with frontier := SearchNode.expand x.exploration children st.frontier, sequence := sequence }

/-- A node is looked at, and the score is checked after it if it was no leaf. -/
theorem visit_eq (x : ExhaustiveSearch S U k) (entities : List Nat) (node : SearchNode U k) (st : TreeState U k) : x.visit entities node st = (do
    let st' ← x.look entities node st
    if entities[node.path.length]?.isSome then assertStep
    return st') := by
  simp only [visit, look, bind_assoc]
  refine bind_congr fun _ => bind_congr fun _ => ?_
  cases entities[node.path.length]? <;> simp [visitInner]

end ExhaustiveSearch

variable (hD : g.Preserves D)
include hD

/-- A construction keeps a best solution. -/
theorem Construction.keeps_run {b : B} {x : Construction S (V b) k} (hx : x.planned = g.basic b) :
    Leads (Abides D) Keeps x.run := by
  refine .bind .get fun r => .bind (.checked _) fun entities => ?_
  exact .bind (steady_stepAll hx hD entities).keeps fun _ => (keeps_updateBest hD).discard

/-- An insertion keeps a best solution. -/
theorem Insertion.keeps_run {l : L} {x : Insertion S (W l) k} (hx : x.planned = g.list l) :
    Leads (Abides D) Keeps x.run := by
  refine .bind .get fun r => .bind (.checked _) fun elements => ?_
  exact .bind (steady_stepAll hx hD elements).keeps fun _ => (keeps_updateBest hD).discard

namespace LocalSearch

variable {x : LocalSearch S k} {st : SearchState S k} {m : Move S}

/-- A picked move is made, and a best solution is kept. -/
theorem keeps_finishStep (hm : g.Moves m) : Leads (Abides D) Keeps (finishStep st m) := by
  refine .bind .get fun _ => .bind (Steady.make hD hm).keeps fun _ => ?_
  refine .bind (.mapM fun fork _ => (steady_makeOnFork m fork).keeps) fun forks => ?_
  refine .bind (Steady.calculate hD).keeps fun score => ?_
  refine .bind (Steady.stepEnded rfl hD.journal fun _ => rfl).keeps fun _ => ?_
  exact .bind (Steady.assertStep hD).keeps fun _ => .bind (keeps_updateBestWith hD score).discard fun _ => .pure _

/-- A local search keeps a best solution. -/
theorem keeps_run (hx : g.Selects x.selector) : Leads (Abides D) Keeps x.run :=
  leads_run hD (fun _ _ => Rests.keeps) hx (fun _ _ => keeps_finishStep hD) (keeps_takeChanges hD) (keeps_updateBest hD)

/-- A local search that fails has a best solution. -/
theorem ends_run_some (hx : g.Selects x.selector) (h : r.Abides D) :
    Ends x.run r (fun _ _ => True) fun e r' => (∃ f, e = .faulted f) ∨ r'.best.isSome = true := by
  have hsteps : ∀ st (r : RunState S k), r.Abides D → r.best.isSome = true →
      Ends (x.steps (maxCount + 1) st) r (fun _ _ => True) fun e r' => (∃ f, e = .faulted f) ∨ r'.best.isSome = true := by
    intro st r hr hbest
    have hkeeps := leads_steps hD (fun _ _ => Rests.keeps) hx (fun _ _ => keeps_finishStep hD) (keeps_takeChanges hD)
      (maxCount + 1) st r hr
    exact hkeeps.mono (fun _ _ _ => trivial) fun _ _ hkept => .inr (hkept hbest)
  have hsteady : Steady D RunEvent.isBest (calculate : Running S k _) := Steady.calculate hD
  simp only [run, ends_bind, ends_get, ends_ite, ends_discard]
  refine ((hsteady r h).and ends_calculate_fault).mono (fun score r₁ hr₁ => ⟨fun _ => ?_, fun hsome => ?_⟩)
    fun _ _ he => .inl he.2
  · exact (ends_updateBest_some hD hr₁.1.1).mono (fun _ r₂ hr₂ => hsteps _ r₂ hr₂.1 hr₂.2) fun _ _ => .inl
  · refine hsteps _ r₁ hr₁.1.1 ?_
    rwa [Option.isNone_iff_eq_none, ← ne_eq, Option.ne_none_iff_isSome] at hsome

end LocalSearch

namespace ExhaustiveSearch

variable {b : B} {x : ExhaustiveSearch S (V b) k} (hx : x.planned = g.basic b)
include hx

/-- The children of a node leave the best solution alone. -/
theorem steady_children (e : Nat) (node : SearchNode (V b) k) (best : Option (SearchNode (V b) k)) (sequence : Nat)
    (vs : List (V b)) : Steady D RunEvent.isBest (x.children e node best sequence vs) := by
  induction vs generalizing sequence with
  | nil => exact .pure _
  | cons v vs ih =>
    have hscore : Steady D RunEvent.isBest (x.scoreWith e v) :=
      .bind (steady_assign hx hD e _) fun _ => .bind (Steady.calculate hD) fun _ =>
        .bind (steady_assign hx hD e _) fun _ => .bind (Steady.recordMove _) fun _ => .pure _
    refine .bind hscore fun score => .ite (ih sequence) (.bind (.checked _) fun n => ?_)
    exact .bind (ih n) fun _ => .pure _

/-- A node that is looked at keeps a best solution. -/
theorem keeps_look (entities : List Nat) (node : SearchNode (V b) k) (st : TreeState (V b) k) :
    Leads (Abides D) Keeps (x.look entities node st) := by
  have hended : ∀ score, Leads (Abides D) Keeps (stepEnded score : Running S k Unit) :=
    fun _ => (Steady.stepEnded rfl hD.journal fun _ => rfl).keeps
  refine .bind (Steady.stepStarted rfl hD.journal fun _ => rfl).keeps fun _ => ?_
  refine .bind (steady_moveTo hx hD _ _ _).keeps fun _ => ?_
  dsimp only
  split
  · refine .ite (.bind (keeps_updateBestWith hD _).discard fun _ => ?_) ?_
    · exact .bind (hended _) fun _ => .pure _
    · exact .bind (hended _) fun _ => .pure _
  · refine .bind .get fun _ => .bind (.checked _) fun values => .bind (steady_children hD hx _ _ _ _ _).keeps fun out => ?_
    exact .bind (hended _) fun _ => .pure _

/-- An exhaustive search keeps a best solution. -/
theorem keeps_run : Leads (Abides D) Keeps x.run := by
  have hvisits : ∀ entities fuel st, Leads (Abides D) Keeps (x.visits entities fuel st) := by
    intro entities fuel
    induction fuel with
    | zero => exact fun _ => .throw _
    | succ fuel ih =>
      intro st
      unfold visits
      split
      · exact .pure _
      · refine .bind (.bind .get fun _ => .pure _) fun _ => .ite (.pure _) (.ite (ih _) ?_)
        rw [visit_eq, bind_assoc]
        refine .bind (keeps_look hD hx _ _ _) fun st' => .bind (.ite ?_ ?_) fun _ => ih _
        · exact .bind (Steady.assertStep hD).keeps fun _ => .pure _
        · exact .pure _
  refine .bind .get fun _ => .ite (.pure _) (.ite (.bind (Steady.report hD.journal _ _ _).keeps fun _ => .pure _) ?_)
  refine .bind (Steady.calculate hD).keeps fun _ => .bind (hvisits _ _ _) fun _ => ?_
  refine .bind (steady_moveTo hx hD _ _ _).keeps fun _ => .bind (Steady.calculate hD).keeps.discard fun _ => ?_
  exact (Steady.report hD.journal _ _ _).keeps

end ExhaustiveSearch

end Planning

/-!
## Boundaries of steps

A phase stands at the boundary of a step before the step begins and once it has ended, which is before its score is
checked. Where a phase fails its working solution is the one of the last boundary, or a move that was tried is made on
it.
-/

namespace Planning

open Checked RunState Running

variable {S F : Type} {k : ScoreKind} [PlanningSolution S k]

/-- Steps for items one after another, each of which makes the best of the moves for its item. -/
structure Pace (S σ : Type) (k : ScoreKind) where
  /-- There are no more steps. -/
  halts : RunState S k → Bool
  /-- The moves for an item. -/
  moves : σ → Running S k (List (Move S))
  /-- What follows once a move was made for an item, or none: whether there are more steps. -/
  finish : σ → Bool → Running S k Bool

namespace Pace

variable {σ : Type} (p : Pace S σ k)

/-- A step up to its end: whether a move was made. -/
def stride (a : σ) : Running S k Bool := do
  stepStarted
  makeBest (← p.moves a)

/-- A step, the check of its score, and what follows. -/
def step (a : σ) : Running S k Bool := do
  let made ← p.stride a
  if made then assertStep
  p.finish a made

/-- The steps for some items. -/
def loop : List σ → Running S k Unit
  | [] => return ()
  | a :: as => do
    if p.halts (← get) then return ()
    if ← p.step a then loop as

variable {p}

/-- Where the steps stand: the run before a step, and the items that are left then. -/
inductive Between (p : Pace S σ k) (as₀ : List σ) (r₀ : RunState S k) : List σ → RunState S k → Prop where
  /-- Nothing is done yet. -/
  | start : Between p as₀ r₀ as₀ r₀
  /-- A step is done, and there are more. -/
  | next {a as r r'} (h : Between p as₀ r₀ (a :: as) r) (hgo : p.halts r = false) (hstep : p.step a r = .ok true r') :
    Between p as₀ r₀ as r'

/-- The boundaries of steps. -/
inductive Boundary (p : Pace S σ k) (as₀ : List σ) (r₀ : RunState S k) : RunState S k → Prop where
  /-- A step has not begun. -/
  | between {as r} (h : p.Between as₀ r₀ as r) : Boundary p as₀ r₀ r
  /-- A step has ended, and its score is not checked yet. -/
  | ended {a as r r'} (h : p.Between as₀ r₀ (a :: as) r) (hgo : p.halts r = false) (hstride : p.stride a r = .ok true r') :
    Boundary p as₀ r₀ r'

variable {B L : Type} {V : B → Type} {W : L → Type} [DecidableEq B] [DecidableEq L]
variable [∀ b, PlanningValue (V b)] [∀ b, DecidableEq (V b)] [∀ l, PlanningValue (W l)] [∀ l, DecidableEq (W l)]
variable {g : Genuine S V W} {facts : S → F} {shadows : ShadowCascade S} {r₀ r : RunState S k} {as₀ as : List σ}

/-- The steps make moves of genuine variables, and do nothing else to the working solution. -/
structure Plans (p : Pace S σ k) (g : Genuine S V W) (facts : S → F) (shadows : ShadowCascade S) : Prop where
  /-- Finding moves holds the working solution. -/
  held_moves : ∀ a, Held g facts (Director.Heeds shadows) (p.moves a)
  /-- The moves are moves of the genuine variables. -/
  gives_moves : ∀ a, Gives (fun ms => ∀ m ∈ ms, g.Moves m) (p.moves a)
  /-- What follows holds the working solution. -/
  held_finish : ∀ a made, Held g facts (Director.Heeds shadows) (p.finish a made)

variable (hreg : g.Regular facts shadows) (hp : p.Plans g facts shadows)
include hreg hp

/-- A step that fails before its end fails where the run was, or with a move that was tried; without a move it leaves the
working solution held. -/
theorem ends_stride (a : σ) (h : r.Abides (Director.Heeds shadows)) :
    Ends (p.stride a) r
      (fun made r' => r'.Abides (Director.Heeds shadows) ∧ (made = false → r.Holds g facts r'))
      fun e r' => ∀ err, e = .failed err → r.Fails g facts err r' := by
  have hP := preserves_heeds (k := k) g shadows
  have hstarted : Held g facts (Director.Heeds shadows) (stepStarted : Running S k Unit) := held_stepStarted hP.journal
  simp only [stride, ends_bind]
  refine (hstarted r h).mono (fun _ r₁ hr₁ => ?_) fun e r' hholds err _ => hholds.fails err
  obtain ⟨habides₁, hholds₁⟩ := hr₁
  refine ((hp.held_moves a r₁ habides₁).and (hp.gives_moves a r₁)).mono (fun ms r₂ hr₂ => ?_) fun e r' he err _ =>
    (trans_of _ hholds₁ he.1).fails err
  obtain ⟨⟨habides₂, hholds₂⟩, hms⟩ := hr₂
  have hholds₂ := trans_of _ hholds₁ hholds₂
  exact (ends_makeBest_held hreg hms habides₂).mono (fun _ _ hr' => ⟨hr'.1, fun hmade => trans_of _ hholds₂ (hr'.2 hmade)⟩)
    fun _ _ he err herr => hholds₂.trans_fails (he err herr)

/-- Steps for items fail at the boundary of a step, or with a move that was tried. -/
theorem ends_loop (h : r.Abides (Director.Heeds shadows)) (hr : p.Between as₀ r₀ as r) :
    Ends (p.loop as) r (fun _ r' => r'.Abides (Director.Heeds shadows))
      fun e r' => ∀ err, e = .failed err → ∃ r₁, p.Boundary as₀ r₀ r₁ ∧ r₁.Fails g facts err r' := by
  induction as generalizing r with
  | nil => exact h
  | cons a as ih =>
    simp only [loop, ends_bind, ends_get, ends_ite, ends_pure]
    refine ⟨fun _ => h, fun hgo => ?_⟩
    have hgo : p.halts r = false := by simpa using hgo
    have hstep : Ends (p.step a) r (fun _ r' => r'.Abides (Director.Heeds shadows))
        fun e r' => ∀ err, e = .failed err → ∃ r₁, p.Boundary as₀ r₀ r₁ ∧ r₁.Fails g facts err r' := by
      simp only [step, ends_bind]
      refine (ends_stride hreg hp a h).eq.mono (fun made r₁ hr₁ => ?_) fun e r' he err herr =>
        ⟨r, .between hr, he err herr⟩
      obtain ⟨⟨habides₁, hskipped⟩, hstride⟩ := hr₁
      cases made with
      | true =>
        have hboundary : p.Boundary as₀ r₀ r₁ := .ended hr hgo hstride
        rw [if_pos rfl, ends_bind]
        refine (held_assertStep hreg r₁ habides₁).mono (fun _ r₂ hr₂ => ?_) fun e r' hholds err _ =>
          ⟨r₁, hboundary, hholds.fails err⟩
        refine (hp.held_finish a true r₂ hr₂.1).mono (fun _ _ => And.left) fun e r' hholds err _ => ?_
        exact ⟨r₁, hboundary, (trans_of _ hr₂.2 hholds).fails err⟩
      | false =>
        refine (hp.held_finish a false r₁ habides₁).mono (fun _ _ => And.left) fun e r' hholds err _ => ?_
        exact ⟨r, .between hr, (trans_of _ (hskipped rfl) hholds).fails err⟩
    refine hstep.eq.mono (fun go r₁ hr₁ => ⟨fun hmore => ?_, fun _ => hr₁.1⟩) fun _ _ => id
    obtain ⟨habides₁, heq⟩ := hr₁
    rw [hmore] at heq
    exact ih habides₁ (.next hr hgo heq)

end Pace

variable {B L : Type} {V : B → Type} {W : L → Type} [DecidableEq B] [DecidableEq L]
variable [∀ b, PlanningValue (V b)] [∀ b, DecidableEq (V b)] [∀ l, PlanningValue (W l)] [∀ l, DecidableEq (W l)]
variable {g : Genuine S V W} {facts : S → F} {shadows : ShadowCascade S} {r₀ r : RunState S k}

namespace Construction

variable {b : B} {x : Construction S (V b) k}

/-- A construction gives values to one entity after another. -/
def pace (x : Construction S (V b) k) : Pace S Nat k where
  halts r := r.isPhaseTerminated x.termination
  moves := x.candidates
  finish e made := do
    if !made then
      logAt .debug fun _ => ⟨.debug, [("message", .shown "No candidate value"), ("event", .text "entity_skipped"),
        ("entity", .number e)]⟩
    return true

omit [DecidableEq B] in
/-- A construction takes the steps of its pace. -/
theorem stepAll_eq (es : List Nat) : x.stepAll es = x.pace.loop es := by
  induction es with
  | nil => rfl
  | cons e es ih =>
    simp only [stepAll, Pace.loop, Pace.step, Pace.stride, step, pace, stepWithBest_eq, ih, bind_assoc]
    refine bind_congr fun r => ?_
    split
    · rfl
    · refine bind_congr fun _ => bind_congr fun moves => bind_congr fun made => ?_
      cases made <;> simp

variable (hx : x.planned = g.basic b)
include hx

omit [DecidableEq B] [DecidableEq L] in
/-- The steps of a construction make moves of its variable. -/
theorem plans_pace : x.pace.Plans g facts shadows where
  held_moves _ := .bind .get fun _ => .bind (held_draw _) fun _ => .pure _
  gives_moves := gives_candidates hx
  held_finish _ _ :=
    .ite (.bind (held_logAt (D := Director.Heeds shadows) (fun _ h => h) _ _) fun _ => .pure _) (.pure _)

/-- Where a construction fails its working solution is the one of the last boundary, or a move that was tried is made
on it. In the end it has a best solution. -/
theorem ends_run_boundary (hreg : g.Regular facts shadows) (h : r.Abides (Director.Heeds shadows)) :
    Ends x.run r (fun _ _ => True) fun e r' => ∀ err, e = .failed err → ∃ entities,
      x.planned.unassignedSorted x.kind.sortsEntities r.director.solution = .ok entities ∧
        ∃ r₁, x.pace.Boundary entities r r₁ ∧ r₁.Fails g facts err r' := by
  simp only [run, ends_bind, ends_get, ends_checked, stepAll_eq, ends_discard]
  refine ⟨fun entities hentities => ?_, fun f _ err herr => by cases herr⟩
  refine (Pace.ends_loop hreg (plans_pace hx) h .start).mono (fun _ r' hr' => ?_) fun e r' he err herr =>
    ⟨entities, hentities, he err herr⟩
  refine (ends_updateBest_some (preserves_heeds g shadows) hr').mono (fun _ _ _ => trivial) fun e _ he err herr => ?_
  obtain ⟨f, rfl⟩ := he
  cases herr

end Construction

namespace Insertion

variable {l : L} {x : Insertion S (W l) k}

/-- An insertion puts one element after another into a list, as long as there is a place. -/
def pace (x : Insertion S (W l) k) : Pace S (W l) k where
  halts r := r.isPhaseTerminated x.termination
  moves v := do return (x.insertions (← get).director.solution v).map fun m => m.toMove x.planned
  finish _ made := return made

omit [DecidableEq L] in
/-- An insertion takes the steps of its pace. -/
theorem stepAll_eq (vs : List (W l)) : x.stepAll vs = x.pace.loop vs := by
  induction vs with
  | nil => rfl
  | cons v vs ih =>
    simp only [stepAll, Pace.loop, Pace.step, Pace.stride, pace, stepWithBest_eq, ih, bind_assoc, pure_bind]

variable (hx : x.planned = g.list l)
include hx

omit [DecidableEq B] [DecidableEq L] in
/-- The steps of an insertion make moves of its variable. -/
theorem plans_pace : x.pace.Plans g facts shadows where
  held_moves _ := .bind .get fun _ => .pure _
  gives_moves v := .bind fun r r' m hm => by
    obtain ⟨y, -, rfl⟩ := List.mem_map.1 hm
    rw [hx]
    exact .list l y
  held_finish _ _ := .pure _

/-- Where an insertion fails its working solution is the one of the last boundary, or a move that was tried is made on
it. -/
theorem ends_run_boundary (hreg : g.Regular facts shadows) (h : r.Abides (Director.Heeds shadows)) :
    Ends x.run r (fun _ _ => True) fun e r' => ∀ err, e = .failed err → ∃ elements,
      x.planned.unassigned r.director.solution = .ok elements ∧
        ∃ r₁, x.pace.Boundary elements r r₁ ∧ r₁.Fails g facts err r' := by
  simp only [run, ends_bind, ends_get, ends_checked, stepAll_eq, ends_discard]
  refine ⟨fun elements helements => ?_, fun f _ err herr => by cases herr⟩
  refine (Pace.ends_loop hreg (plans_pace hx) h .start).mono (fun _ r' hr' => ?_) fun e r' he err herr =>
    ⟨elements, helements, he err herr⟩
  refine (ends_updateBest_some (preserves_heeds g shadows) hr').mono (fun _ _ _ => trivial) fun e _ he err herr => ?_
  obtain ⟨f, rfl⟩ := he
  cases herr

end Insertion

namespace ExhaustiveSearch

variable {b : B} {x : ExhaustiveSearch S (V b) k} {entities : List Nat} {st₀ st : TreeState (V b) k}

/-- Where a search stands: the run before a node is looked at, and what the search keeps then. -/
inductive Between (x : ExhaustiveSearch S (V b) k) (entities : List Nat) (st₀ : TreeState (V b) k) (r₀ : RunState S k) :
    TreeState (V b) k → RunState S k → Prop where
  /-- Nothing is done yet. -/
  | start : Between x entities st₀ r₀ st₀ r₀
  /-- A node is left out. -/
  | prune {st node rest r} (h : Between x entities st₀ r₀ st r) (hnext : st.frontier = node :: rest)
      (hprune : x.prunes st.best node.score = true) : Between x entities st₀ r₀ { st with frontier := rest } r
  /-- A node was looked at. -/
  | next {st st' node rest r r'} (h : Between x entities st₀ r₀ st r) (hnext : st.frontier = node :: rest)
      (hkeep : x.prunes st.best node.score = false)
      (hvisit : x.visit entities node { st with frontier := rest } r = .ok st' r') : Between x entities st₀ r₀ st' r'

/-- The ends of steps whose score is not checked yet. -/
inductive Boundary (x : ExhaustiveSearch S (V b) k) (entities : List Nat) (st₀ : TreeState (V b) k)
    (r₀ : RunState S k) : RunState S k → Prop where
  /-- A node was looked at. -/
  | ended {st st' node rest r r'} (h : Between x entities st₀ r₀ st r) (hnext : st.frontier = node :: rest)
      (hkeep : x.prunes st.best node.score = false)
      (hlook : x.look entities node { st with frontier := rest } r = .ok st' r') : Boundary x entities st₀ r₀ r'

section Faults

variable {U : Type} {x : ExhaustiveSearch S U k}

omit [PlanningSolution S k] in
/-- Giving an entity a value can only fault. -/
theorem unfailing_assign (e : Nat) (v : Option U) : Unfailing (x.assign e v : Running S k Unit) := by
  unfold assign Running.edit
  exact .direct _

omit [PlanningSolution S k] in
/-- Going from a path to another can only fault. -/
theorem unfailing_moveTo [DecidableEq U] (entities : List Nat) (current target : List U) :
    Unfailing (x.moveTo entities current target : Running S k Unit) :=
  .bind (.forM fun _ _ => unfailing_assign _ _) fun _ => .forM fun _ _ => unfailing_assign _ _

/-- Making the children of a node can only fault. -/
theorem unfailing_children (e : Nat) (node : SearchNode U k) (best : Option (SearchNode U k)) (sequence : Nat)
    (vs : List U) : Unfailing (x.children e node best sequence vs) := by
  induction vs generalizing sequence with
  | nil => exact .pure _
  | cons v vs ih =>
    have hscore : Unfailing (x.scoreWith e v) :=
      .bind (unfailing_assign _ _) fun _ => .bind .calculate fun _ => .bind (unfailing_assign _ _) fun _ =>
        .bind (.recordMove _) fun _ => .pure _
    exact .bind hscore fun _ => .ite (ih _) (.bind (.checked _) fun _ => .bind (ih _) fun _ => .pure _)

/-- Looking at a node can only fault. -/
theorem unfailing_look [DecidableEq U] (entities : List Nat) (node : SearchNode U k) (st : TreeState U k) :
    Unfailing (x.look entities node st) := by
  refine .bind .stepStarted fun _ => .bind (unfailing_moveTo _ _ _) fun _ => ?_
  dsimp only
  split
  · refine .ite (.bind (Unfailing.updateBestWith _).discard fun _ => ?_) ?_
    · exact .bind (.stepEnded _) fun _ => .pure _
    · exact .bind (.stepEnded _) fun _ => .pure _
  · exact .bind .get fun _ => .bind (.checked _) fun _ => .bind (unfailing_children _ _ _ _ _) fun _ =>
      .bind (.stepEnded _) fun _ => .pure _

end Faults

variable (hreg : g.Regular facts shadows) (hx : x.planned = g.basic b)
include hreg hx

/-- Looking at nodes fails at the boundary of a step. -/
theorem ends_visits_boundary {fuel : Nat} (h : r.Abides (Director.Heeds shadows)) (hr : x.Between entities st₀ r₀ st r) :
    Ends (x.visits entities fuel st) r (fun _ _ => True)
      fun e r' => ∀ err, e = .failed err → ∃ r₁, x.Boundary entities st₀ r₀ r₁ ∧ r₁.Fails g facts err r' := by
  induction fuel generalizing st r with
  | zero => exact fun err herr => by cases herr
  | succ fuel ih =>
    unfold visits
    split
    · trivial
    · rename_i node rest hnext
      simp only [isStopped, ends_bind, ends_get, ends_pure, ends_ite]
      refine ⟨fun _ => trivial, fun _ => ⟨fun hprune => ?_, fun hkeep => ?_⟩⟩
      · exact ih h (.prune hr hnext hprune)
      · have hkeep : x.prunes st.best node.score = false := by simpa using hkeep
        have hvisit : Ends (x.visit entities node { st with frontier := rest }) r
            (fun _ r' => r'.Abides (Director.Heeds shadows))
            fun e r' => ∀ err, e = .failed err → ∃ r₁, x.Boundary entities st₀ r₀ r₁ ∧ r₁.Fails g facts err r' := by
          rw [visit_eq, ends_bind]
          have hkept := keeps_look (preserves_heeds g shadows) hx entities node { st with frontier := rest } r h
          refine (hkept.and (unfailing_look entities node _ r)).eq.mono (fun st' r₁ hr₁ => ?_) fun e _ he err herr => ?_
          · obtain ⟨⟨⟨habides₁, -⟩, -⟩, hlook⟩ := hr₁
            have hboundary : x.Boundary entities st₀ r₀ r₁ := .ended hr hnext hkeep hlook
            simp only [ends_ite, ends_bind, ends_pure]
            refine ⟨fun _ => ?_, fun _ => habides₁⟩
            refine (held_assertStep hreg r₁ habides₁).mono (fun _ _ hr₂ => hr₂.1) fun e r' hholds err _ => ?_
            exact ⟨r₁, hboundary, hholds.fails err⟩
          · obtain ⟨f, rfl⟩ := he.2
            cases herr
        exact hvisit.eq.mono (fun st' r' hr' => ih hr'.1 (.next hr hnext hkeep hr'.2)) fun _ _ => id

/-- Where a search fails its working solution is the one of the last boundary. -/
theorem ends_run_boundary (h : r.Abides (Director.Heeds shadows)) :
    Ends x.run r (fun _ _ => True) fun e r' => ∀ err, e = .failed err → ∃ score r₀, calculate r = .ok score r₀ ∧
      ∃ r₁, x.Boundary (x.planned.unassigned r.director.solution) { frontier := [⟨[], score, 0⟩] } r₀ r₁ ∧
        r₁.Fails g facts err r' := by
  have hP := preserves_heeds (k := k) g shadows
  have hcalculate : Steady (Director.Heeds shadows) RunEvent.isBest (calculate : Running S k (Score k)) :=
    Steady.calculate hP
  have hfault : ∀ {e : Stop} {P : SolverError → Prop}, (∃ f, e = .faulted f) → ∀ err, e = .failed err → P err := by
    rintro e P ⟨f, rfl⟩ err herr
    cases herr
  simp only [run, ends_bind, ends_get, ends_ite, ends_pure]
  refine ⟨fun _ => trivial, fun _ => ⟨fun _ => .report fun _ _ => trivial, fun _ => ?_⟩⟩
  simp only [search, ends_bind, ends_discard]
  refine ((hcalculate r h).and ends_calculate_fault).eq.mono (fun score r₀ hr₀ => ?_) fun _ _ he => hfault he.2
  obtain ⟨⟨⟨habides₀, -⟩, -⟩, hscore⟩ := hr₀
  refine (ends_visits_boundary hreg hx habides₀ .start).mono (fun st r₁ _ => ?_) fun e r' he err herr =>
    ⟨score, r₀, hscore, he err herr⟩
  refine (unfailing_moveTo _ _ _ r₁).mono (fun _ r₂ _ => ?_) fun _ _ => hfault
  exact (Unfailing.calculate r₂).mono (fun _ _ _ => .report fun _ _ => trivial) fun _ _ => hfault

end ExhaustiveSearch

end Planning
