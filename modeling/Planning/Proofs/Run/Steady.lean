import Planning.Phase.Basic
import Planning.Proofs.Move.Undo
import Planning.Proofs.Run.Leads

/-!
# What leaves the best solution alone

Most of what is done in a run leaves the best solution alone, and tells who watches the run nothing of some loud kind:
that a better solution was found, or that a step ended. The director stays of the same kind, whatever is done with it.
Such computations are steady, and what is made of steady computations is steady.
-/

namespace Planning

variable {S : Type} {k : ScoreKind} {D : Director S k → Prop} {loud : RunEvent S k → Bool}

namespace RunEvent

/-- A solution becomes the best one. -/
def isBest : RunEvent S k → Bool
  | best _ _ => true
  | _ => false

/-- A step ends. -/
def endsStep : RunEvent S k → Bool
  | stepEnded _ _ => true
  | _ => false

end RunEvent

/-- A change of the problem keeps directors of a kind. -/
def ProblemChange.Upholds (D : Director S k → Prop) (c : ProblemChange S k) : Prop :=
  ∀ dir dir' refusal, D dir → c.apply dir = .ok (dir', refusal) → D dir'

/-- The director that gives a value to an entity, or none, and announces that. -/
def Director.assign {V : Type} (x : BasicVariable S V) (e : Nat) (v : Option V) (dir : Director S k) :
    Checked (Director S k) := do
  let dir ← dir.beforeVariableChanged.edit fun s => .ok (x.set s e v)
  dir.afterVariableChanged (x.entityClass, e) x.name

section Preserves

variable {B L : Type} {V : B → Type} {W : L → Type} [PlanningSolution S k]
variable [∀ b, PlanningValue (V b)] [∀ b, DecidableEq (V b)] [∀ l, PlanningValue (W l)] [∀ l, DecidableEq (W l)]

/-- A director of a kind stays of the kind, whatever is done with it in a run. -/
structure Genuine.Preserves (g : Genuine S V W) (D : Director S k → Prop) : Prop where
  /-- What was reported is no matter. -/
  journal : ∀ {dir} journal, D dir → D { dir with journal := journal }
  /-- The score is asked for. -/
  calculate : ∀ {dir dir' score}, D dir → dir.calculate = .ok (dir', score) → D dir'
  /-- The score is checked. -/
  assertScore : ∀ {dir dir' out}, D dir → dir.assertScore = .ok (dir', out) → D dir'
  /-- A move is made. -/
  doMove : ∀ {m dir dir' result}, g.Moves m → D dir → dir.doMove m = .ok (dir', result) → D dir'
  /-- A move is evaluated. -/
  evaluate : ∀ {m dir dir' check out}, g.Moves m → D dir → dir.evaluate m check = .ok (dir', out) → D dir'
  /-- A value is given to an entity. -/
  assign : ∀ {b e v dir dir'}, D dir → dir.assign (g.basic b) e v = .ok dir' → D dir'

end Preserves

namespace RunState

variable {r r' r'' : RunState S k}

/-- The best solution stays, and nothing loud happens. -/
structure Rests (loud : RunEvent S k → Bool) (r r' : RunState S k) : Prop where
  /-- The best solution is the same. -/
  best : r'.best = r.best
  /-- What happened is not loud. -/
  history : ∃ told, r'.history = told ++ r.history ∧ ∀ e ∈ told, loud e = false

namespace Rests

/-- A run rests as long as it has the same best solution and the same history. -/
theorem of_eq (hbest : r'.best = r.best) (hhistory : r'.history = r.history) : r.Rests loud r' :=
  ⟨hbest, [], hhistory, fun _ h => absurd h List.not_mem_nil⟩

/-- Something happens that is not loud. -/
theorem told {e : RunEvent S k} (he : loud e = false) (hbest : r'.best = r.best)
    (hhistory : r'.history = e :: r.history) : r.Rests loud r' :=
  ⟨hbest, [e], hhistory, fun _ h => List.mem_singleton.1 h ▸ he⟩

/-- Where everything is loud nothing happened. -/
theorem history_eq (h : r.Rests (fun _ => true) r') : r'.history = r.history := by
  obtain ⟨told, htold, hquiet⟩ := h.history
  cases told with
  | nil => exact htold
  | cons e told => exact absurd (hquiet e List.mem_cons_self).symm Bool.false_ne_true

instance : IsPreorder (RunState S k) (Rests loud) where
  refl _ := of_eq rfl rfl
  trans r r' r'' h h' := by
    obtain ⟨told, htold, hquiet⟩ := h.history
    obtain ⟨told', htold', hquiet'⟩ := h'.history
    refine ⟨h'.best.trans h.best, told' ++ told, by rw [htold', htold, List.append_assoc], fun e he => ?_⟩
    exact (List.mem_append.1 he).elim (hquiet' e) (hquiet e)

end Rests

/-- The director is of a kind, and changes of the problem that may come keep it so. -/
structure Abides (D : Director S k → Prop) (r : RunState S k) : Prop where
  /-- The director is of the kind. -/
  director : D r.director
  /-- The changes that are waiting keep the kind. -/
  pending : ∀ c ∈ r.pending, c.Upholds D
  /-- The changes that the watch asks for keep the kind. -/
  asked : ∀ c, r.Asks c → c.Upholds D

/-- Another director of the kind does as well. -/
theorem Abides.direct (h : r.Abides D) {dir : Director S k} (hdir : D dir) : { r with director := dir }.Abides D :=
  ⟨hdir, h.pending, h.asked⟩

/-- What is noted is no matter to the director. -/
theorem Abides.noted (hjournal : ∀ {dir : Director S k} journal, D dir → D { dir with journal := journal })
    (h : r.Abides D) (hn : r.Noted r') : r'.Abides D where
  director := by
    rw [hn.director]
    exact hjournal _ h.director
  pending c hc := (hn.pending c hc).elim (h.pending c) (h.asked c)
  asked c hc := h.asked c ((hn.asks c).1 hc)

end RunState

namespace Running

variable {α : Type} {x : Running S k α} {r : RunState S k}

/-- A computation keeps the kind of the director, leaves the best solution alone and tells nothing loud. -/
abbrev Steady (D : Director S k → Prop) (loud : RunEvent S k → Bool) (x : Running S k α) : Prop :=
  Leads (RunState.Abides D) (RunState.Rests loud) x

namespace Steady

/-- What the director does keeps its kind. -/
theorem direct {d : Director S k → Checked (Director S k × α)}
    (h : ∀ dir dir' a, D dir → d dir = .ok (dir', a) → D dir') : Steady D loud (direct d) :=
  Leads.direct fun _ dir a hr hd => ⟨hr.direct (h _ dir a hr.director hd), .of_eq rfl rfl⟩

/-- What is drawn is no matter to the director. -/
theorem draw (y : Generator.Draw α) : Steady D loud (draw y : Running S k α) :=
  Leads.draw fun _ _ hr => ⟨⟨hr.director, hr.pending, hr.asked⟩, .of_eq rfl rfl⟩

/-- A run whose counts change. -/
theorem count {g : RunState S k → RunState S k} (h : ∀ r, (g r).director = r.director ∧ (g r).pending = r.pending ∧
    (g r).watch = r.watch ∧ (g r).best = r.best ∧ (g r).history = r.history) :
    Steady D loud (modify g : Running S k PUnit) := by
  refine .modify fun r hr => ?_
  obtain ⟨hdirector, hpending, hwatch, hbest, hhistory⟩ := h r
  refine ⟨⟨hdirector ▸ hr.director, hpending ▸ hr.pending, fun c hc => hr.asked c ?_⟩, .of_eq hbest hhistory⟩
  unfold RunState.Asks at hc ⊢
  rwa [hwatch] at hc

theorem recordMove (accepted : Bool) : Steady D loud (recordMove accepted : Running S k Unit) :=
  .bind .get fun _ => .bind (.checked _) fun _ => count fun _ => ⟨rfl, rfl, rfl, rfl, rfl⟩

theorem recordChoice (n : Nat) : Steady D loud (recordChoice n : Running S k Unit) :=
  .forM fun _ _ => recordMove _

theorem start : Steady D loud (start : Running S k Unit) := count fun _ => ⟨rfl, rfl, rfl, rfl, rfl⟩

theorem startPhase (place : Nat) (kind : String) : Steady D loud (startPhase place kind : Running S k Unit) :=
  count fun _ => ⟨rfl, rfl, rfl, rfl, rfl⟩

theorem endPhase : Steady D loud (endPhase : Running S k Unit) := count fun _ => ⟨rfl, rfl, rfl, rfl, rfl⟩

section Journal

variable (hjournal : ∀ {dir : Director S k} journal, D dir → D { dir with journal := journal })
include hjournal

/-- What is logged did not happen to the best solution. -/
theorem logAt (level : LogLevel) (e : Unit → LogEvent) : Steady D loud (logAt level e : Running S k Unit) :=
  .bind .get fun _ => .ite
    (.modify fun _ hr => ⟨⟨hjournal [] hr.director, hr.pending, hr.asked⟩, .of_eq rfl rfl⟩) (.pure _)

theorem report (level : LogLevel) (name : String) (fields : Unit → List (String × LogValue)) :
    Steady D loud (report level name fields : Running S k Unit) := logAt hjournal _ _

/-- A change of the problem that keeps the kind of the director is made. -/
theorem applyChange {c : ProblemChange S k} (hc : c.Upholds D) : Steady D loud (applyChange c) := by
  refine .bind (direct fun dir dir' refusal => hc dir dir' refusal) fun refusal => ?_
  cases refusal with
  | none => exact .bind (report hjournal _ _ _) fun _ => .pure _
  | some e => exact .bind (report hjournal _ _ _) fun _ => .pure _

end Journal

/-- What is logged did not happen to the best solution, whatever the director is. -/
theorem rests_logAt (level : LogLevel) (e : Unit → LogEvent) :
    Leads (fun _ => True) (RunState.Rests loud) (Running.logAt level e : Running S k Unit) :=
  .bind .get fun _ => .ite (.modify fun _ _ => ⟨trivial, .of_eq rfl rfl⟩) (.pure _)

section Tell

variable [PlanningSolution S k] (hqueued : loud .queued = false)
include hqueued

omit [PlanningSolution S k] in
/-- What is asked for from outside is noted. -/
theorem rests_request (q : Request S k) : Leads (fun _ => True) (RunState.Rests loud) (request q) := by
  cases q with
  | change c => exact .modify fun _ _ => ⟨trivial, .told hqueued rfl rfl⟩
  | stop => exact .modify fun _ _ => ⟨trivial, .of_eq rfl rfl⟩

/-- What happens and is not loud leaves the best solution alone. -/
theorem rests_tell {e : RunEvent S k} (he : loud e = false) :
    Leads (fun _ => True) (RunState.Rests loud) (tell e) := by
  unfold Running.tell
  refine .bind (.modify fun _ _ => ⟨trivial, .told he rfl rfl⟩) fun _ => .bind .get fun r => ?_
  dsimp only
  split
  · split
    · refine .bind (.forM fun _ _ => rests_request hqueued _) fun _ => ?_
      split
      · exact rests_logAt _ _
      · exact .pure _
    · split
      · exact rests_logAt _ _
      · exact .pure _
  · exact .pure _

variable (hjournal : ∀ {dir : Director S k} journal, D dir → D { dir with journal := journal })
include hjournal

/-- What happens and is not loud keeps the kind of the director too. -/
theorem tell {e : RunEvent S k} (he : loud e = false) : Steady D loud (tell e) := by
  intro r hr
  have hnoted : Ends (Running.tell e) r (fun _ r' => r.Noted r') fun _ _ => True := .tell fun _ => id
  refine (hnoted.and (rests_tell hqueued he r trivial)).mono (fun _ r' hr' => ?_) fun _ _ => And.right
  exact ⟨hr.noted hjournal hr'.1, hr'.2.2⟩

theorem stepStarted (h : ∀ i, loud (.stepStarted i) = false) :
    Steady D loud (stepStarted : Running S k Unit) :=
  .bind .get fun _ => tell hqueued hjournal (h _)

/-- A step that ends leaves the best solution alone. -/
theorem stepEnded {score : Score k} (h : ∀ i, loud (.stepEnded i score) = false) :
    Steady D loud (stepEnded score : Running S k Unit) :=
  .bind .get fun _ => .bind (tell hqueued hjournal (h _)) fun _ => .bind .get fun _ => .bind (.checked _) fun _ =>
    .bind (count fun _ => ⟨rfl, rfl, rfl, rfl, rfl⟩) fun _ => .bind .get fun _ => report hjournal _ _ _

end Tell

section Moves

variable {B L : Type} {V : B → Type} {W : L → Type} [PlanningSolution S k]
variable [∀ b, PlanningValue (V b)] [∀ b, DecidableEq (V b)] [∀ l, PlanningValue (W l)] [∀ l, DecidableEq (W l)]
variable {g : Genuine S V W} (hD : g.Preserves D)
include hD

theorem calculate : Steady D loud (calculate : Running S k (Score k)) :=
  .bind (count fun _ => ⟨rfl, rfl, rfl, rfl, rfl⟩) fun _ => direct fun _ _ _ => hD.calculate

theorem assertScore : Steady D loud (assertScore : Running S k Unit) := by
  refine .bind (direct fun _ _ _ => hD.assertScore) fun out => ?_
  cases out with
  | ok _ => exact .pure _
  | error e => exact .fail _

theorem assertStep : Steady D loud (assertStep : Running S k Unit) :=
  .bind .get fun _ => .ite (assertScore hD) (.pure _)

/-- Making a move leaves the best solution alone. -/
theorem make {m : Move S} (hm : g.Moves m) : Steady D loud (make m : Running S k Unit) := by
  refine .bind (direct fun _ _ _ => hD.doMove hm) fun out => ?_
  cases out with
  | ok _ => exact .pure _
  | error e => exact .fail _

/-- Evaluating a move leaves the best solution alone. -/
theorem evaluate {m : Move S} (hm : g.Moves m) : Steady D loud (evaluate m : Running S k (Score k)) := by
  refine .bind .get fun _ => .bind (direct fun _ _ _ => hD.evaluate hm) fun out => ?_
  cases out with
  | ok score => exact .bind (report hD.journal _ _ _) fun _ => .pure _
  | error e => exact .fail _

theorem evaluateAll {ms : List (Move S)} (hms : ∀ m ∈ ms, g.Moves m) :
    Steady D loud (evaluateAll ms : Running S k _) := by
  induction ms with
  | nil => exact .pure _
  | cons m ms ih =>
    obtain ⟨hm, hms⟩ := List.forall_mem_cons.1 hms
    exact .bind (evaluate hD hm) fun _ => .bind (ih hms) fun _ => .pure _

end Moves

end Steady

end Running

end Planning
