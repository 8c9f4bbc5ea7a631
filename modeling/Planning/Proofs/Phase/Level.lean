import Planning.Proofs.Phase.Exhaustive
import Planning.Proofs.Phase.Tended
import Planning.Proofs.Run.Track
import Planning.Proofs.Score.Order

/-!
# Runs that climb and runs that stay level

What a run tells contains the scores of the steps that ended. A run climbs as long as none of them is worse than the one
before; it ascends if it climbs between changes of the problem, after each of which it starts from the score that the
working solution has then.
-/

namespace Planning

open RunState

variable {S : Type} {k : ScoreKind}

/-- The score of a step that ends. -/
def RunEvent.stepScore? : RunEvent S k → Option (Score k)
  | stepEnded _ score => some score
  | _ => none

/-- The scores of the steps that ended, in their order; what was told last comes first. -/
def stepScores (told : List (RunEvent S k)) : List (Score k) := told.reverse.filterMap RunEvent.stepScore?

/-- What is told behind something else. -/
theorem stepScores_append (later told : List (RunEvent S k)) :
    stepScores (later ++ told) = stepScores told ++ stepScores later := by
  rw [stepScores, List.reverse_append, List.filterMap_append]
  rfl

/-- Where no step ended there are no scores. -/
theorem stepScores_eq_nil {told : List (RunEvent S k)} (h : ∀ e ∈ told, e.endsStep = false) : stepScores told = [] := by
  rw [stepScores, List.filterMap_eq_nil_iff]
  intro e he
  have hquiet := h e (List.mem_reverse.1 he)
  cases e <;> first | rfl | cases hquiet

/-- From a first score to a last one no score is worse than the one before. -/
def Score.Ascending : Score k → List (Score k) → Score k → Prop
  | a, [], b => a = b
  | a, c :: l, b => c.reaches a = true ∧ Ascending c l b

/-- Scores that go on from the last one. -/
theorem Score.Ascending.append {a b c : Score k} {l l' : List (Score k)} (h : Ascending a l b) (h' : Ascending b l' c) :
    Ascending a (l ++ l') c := by
  induction l generalizing a with
  | nil =>
    cases h
    exact h'
  | cons d l ih => exact ⟨h.1, ih h.2⟩

namespace RunState

/-- From a first score to a last one no step that ends is worse than the one before. -/
def Climbs (a : Score k) (r : RunState S k) (b : Score k) (r' : RunState S k) : Prop :=
  ∃ told, r'.history = told ++ r.history ∧ Score.Ascending a (stepScores told) b

/-- No step ends. -/
def Lingers (r r' : RunState S k) : Prop := ∃ told, r'.history = told ++ r.history ∧ ∀ e ∈ told, e.endsStep = false

/-- A way of a run goes uphill: steps end and none of them is worse than the one before, or changes of the problem are
made and the score is that of the working solution then. -/
inductive Uphill [PlanningSolution S k] (F : S → Score k) : Score k × RunState S k → Score k × RunState S k → Prop where
  /-- Steps end. -/
  | climb {a r b r'} (h : Climbs a r b r') : Uphill F (a, r) (b, r')
  /-- Changes are made, and no step ends meanwhile. -/
  | change {a r r' n} (hmade : Running.takeChanges r = .ok (n + 1) r') (hquiet : r.Lingers r') :
      Uphill F (a, r) (F r'.director.solution, r')

variable {a b c : Score k} {r r' r'' : RunState S k}

/-- A step ends. -/
theorem Climbs.step {i : Nat} (hb : b.reaches a = true) (h : r'.history = .stepEnded i b :: r.history) :
    Climbs a r b r' := ⟨[.stepEnded i b], h, hb, rfl⟩

theorem Climbs.trans (h : Climbs a r b r') (h' : Climbs b r' c r'') : Climbs a r c r'' := by
  obtain ⟨told, htold, hscores⟩ := h
  obtain ⟨told', htold', hscores'⟩ := h'
  refine ⟨told' ++ told, by rw [htold', htold, List.append_assoc], ?_⟩
  rw [stepScores_append]
  exact hscores.append hscores'

instance : IsPreorder (RunState S k) Lingers where
  refl _ := ⟨[], rfl, fun _ h => absurd h List.not_mem_nil⟩
  trans _ _ _ h h' := by
    obtain ⟨told, htold, hquiet⟩ := h
    obtain ⟨told', htold', hquiet'⟩ := h'
    refine ⟨told' ++ told, by rw [htold', htold, List.append_assoc], fun e he => ?_⟩
    exact (List.mem_append.1 he).elim (hquiet' e) (hquiet e)

/-- Nothing is told. -/
theorem Lingers.of_eq (h : r'.history = r.history) : r.Lingers r' := ⟨[], h, fun _ h => absurd h List.not_mem_nil⟩

/-- Something is told that ends no step. -/
theorem Lingers.told {e : RunEvent S k} (he : e.endsStep = false) (h : r'.history = e :: r.history) : r.Lingers r' :=
  ⟨[e], h, fun _ h => List.mem_singleton.1 h ▸ he⟩

/-- A run that rests but for steps lingers. -/
theorem Rests.lingers (h : r.Rests RunEvent.endsStep r') : r.Lingers r' := h.history

/-- Where no step ends the score stays. -/
theorem Lingers.climbs (h : r.Lingers r') : Climbs a r a r' := by
  obtain ⟨told, htold, hquiet⟩ := h
  refine ⟨told, htold, ?_⟩
  rw [stepScores_eq_nil hquiet]
  rfl

/-- Between changes of the problem no step that ends is worse than the one before, and the first is no worse than the
score that there was before; after changes that is the score of the working solution then. -/
def Ascent [PlanningSolution S k] (F : S → Score k) (a : Score k) (r : RunState S k) (b : Score k)
    (r' : RunState S k) : Prop := Relation.ReflTransGen (Uphill F) (a, r) (b, r')

variable [PlanningSolution S k] {F : S → Score k}

/-- A run that climbs ascends. -/
theorem Climbs.ascent (h : Climbs a r b r') : Ascent F a r b r' := .single (.climb h)

/-- A run that ascends and ascends again. -/
theorem Ascent.trans (h : Ascent F a r b r') (h' : Ascent F b r' c r'') : Ascent F a r c r'' :=
  Relation.ReflTransGen.trans h h'

end RunState

namespace Running

variable [PlanningSolution S k] {r : RunState S k} {D : Director S k → Prop} {E : Stop → RunState S k → Prop}

/-- A step that ends is told. -/
theorem ends_tell_step {a b : Score k} (hb : b.reaches a = true) (i : Nat) :
    Ends (tell (.stepEnded i b)) r (fun _ r' => Climbs a r b r') E := by
  have hstep : Climbs a r b { r with history := .stepEnded i b :: r.history } := .step hb rfl
  simp only [tell, ends_bind, ends_modify, ends_get]
  have hlog : ∀ {r' : RunState S k} {level} {logged : Unit → LogEvent}, Climbs a r b r' →
      Ends (logAt level logged) r' (fun _ r'' => Climbs a r b r'') E :=
    fun h => ends_logAt_same.mono (fun _ _ h' => h.trans (Lingers.of_eq h'.2).climbs) fun _ _ => id
  split
  · rename_i w hw
    have hloop : Ends ((w.requests.filter fun q => q.1 == i).forM fun q => request q.2)
        { r with history := .stepEnded i b :: r.history } (fun _ r' => Climbs a r b r') E := by
      refine .forM (fun q _ r' hr' => ?_) hstep
      cases q.2 with
      | change c => exact hr'.trans (Lingers.told rfl rfl).climbs
      | stop => exact hr'.trans (Lingers.of_eq rfl).climbs
    rw [ends_bind]
    refine hloop.mono (fun _ r' hr' => ?_) fun _ _ => id
    split
    · exact hlog hr'
    · exact hr'
  · exact hstep

/-- A step that ends no worse than the one before. -/
theorem ends_stepEnded_climbs {a b : Score k} (hb : b.reaches a = true) :
    Ends (stepEnded b) r (fun _ r' => Climbs a r b r') fun _ r' => Climbs a r b r' := by
  simp only [stepEnded, report, ends_bind, ends_get]
  refine (ends_tell_step hb _).mono (fun _ r₁ hr₁ => ?_) fun _ _ => id
  simp only [ends_checked, ends_modify]
  refine ⟨fun n _ => ?_, fun _ _ => hr₁⟩
  exact ends_logAt_same.mono (fun _ r₂ hr₂ => hr₁.trans (Lingers.of_eq hr₂.2).climbs) fun _ _ => id

variable (hjournal : ∀ {dir : Director S k} journal, D dir → D { dir with journal := journal })
include hjournal

/-- A solution that becomes the best one ends no step. -/
theorem lingers_setBest (s : S) (score : Score k) : Leads (Abides D) Lingers (setBest s score) := by
  intro r h
  exact (ends_setBest hjournal h s score).mono (fun _ r' hr' => ⟨hr'.1, .told rfl hr'.2.2⟩) fun _ _ => id

end Running

end Planning

/-!
## Runs that stay level

A director takes back what it tries. Where solutions that it cannot tell apart have the same score and come out alike
when the same move is made in them, the score of a move that was tried is the score after the move is made. Between
steps the working solution of a run stays level with a given one, whatever is asked of it.
-/

namespace Planning

open Checked RunState

variable {S : Type} {k : ScoreKind} [PlanningSolution S k] {D : Director S k → Prop} {F : S → Score k}
variable {R : S → S → Prop} {B L : Type} {V : B → Type} {W : L → Type}
variable [∀ b, PlanningValue (V b)] [∀ b, DecidableEq (V b)] [∀ l, PlanningValue (W l)] [∀ l, DecidableEq (W l)]
variable {g : Genuine S V W} {m : Move S} {s : S} {score : Score k}

/-- Directors of a kind give their solutions the scores of a function, take back what they try, and come to the same
when they do it again: they tell solutions apart no more than a relation does. -/
structure Genuine.Repeats (g : Genuine S V W) (D : Director S k → Prop) (F : S → Score k) (R : S → S → Prop) : Prop
    extends g.Scores D F where
  /-- Solutions that are not told apart are the same in some respect. -/
  equivalence : Equivalence R
  /-- A stored score does not tell solutions apart. -/
  unscored : ∀ s score, R (PlanningSolution.withScore s score) s
  /-- What is recorded is no matter. -/
  record : ∀ {dir}, D dir → D dir.record
  /-- Solutions that are not told apart have the same score. -/
  settled : ∀ {dir dir'}, D dir → D dir' → R dir.solution dir'.solution → F dir.solution = F dir'.solution
  /-- A move that was evaluated is taken back. -/
  undone : ∀ {m dir dir' check score}, g.Moves m → D dir → dir.evaluate m check = .ok (dir', .ok score) →
    R dir'.solution dir.solution
  /-- A move comes to the same in solutions that are not told apart. -/
  repeated : ∀ {m dir dir' fork fork'}, g.Moves m → D dir → D fork → R dir.solution fork.solution →
    dir.doMove m = .ok (dir', .ok ()) → fork.doMove m = .ok (fork', .ok ()) → R dir'.solution fork'.solution

/-- A change of the problem that is refused leaves no trace. -/
def ProblemChange.Spares (R : S → S → Prop) (c : ProblemChange S k) : Prop :=
  ∀ dir dir' e, c.apply dir = .ok (dir', some e) → R dir'.solution dir.solution

/-- A score is that of every solution that comes of a move in a given one. -/
def Move.Yields (D : Director S k → Prop) (F : S → Score k) (R : S → S → Prop) (s : S) (m : Move S) (score : Score k) :
    Prop :=
  ∀ dir dir', D dir → R dir.solution s → dir.doMove m = .ok (dir', .ok ()) → F dir'.solution = score

namespace Director

variable {dir dir' : Director S k} {check : Bool}

/-- A score, checked or not, is one that is asked for. -/
theorem exists_calculate_of_scored (h : dir.scored check = .ok (dir', .ok score)) :
    ∃ dir₁, dir.calculate = .ok (dir₁, score) := by
  unfold scored at h
  split at h
  · obtain ⟨⟨dir₁, score₁⟩, h₁, h⟩ := bind_eq_ok_iff.1 h
    refine ⟨dir₁, ?_⟩
    dsimp only at h
    split at h
    · cases h
      exact h₁
    · obtain ⟨⟨fresh, scratch⟩, -, h⟩ := bind_eq_ok_iff.1 h
      dsimp only at h
      split at h
      · cases h
        exact h₁
      · cases h
  · obtain ⟨⟨dir₁, score₁⟩, h₁, h⟩ := bind_eq_ok_iff.1 h
    cases h
    exact ⟨dir', h₁⟩

/-- The score of a move is asked for once the move is made. -/
theorem exists_of_evaluate (h : dir.evaluate m check = .ok (dir', .ok score)) :
    ∃ dir₁ dir₂, dir.record.doMove m = .ok (dir₁, .ok ()) ∧ dir₁.calculate = .ok (dir₂, score) := by
  obtain ⟨⟨dir₁, result⟩, hmove, h⟩ := bind_eq_ok_iff.1 h
  cases result with
  | error err =>
    obtain ⟨dir₂, -, h⟩ := bind_eq_ok_iff.1 h
    cases h
  | ok u =>
    obtain ⟨⟨dir₂, scored⟩, hscored, h⟩ := bind_eq_ok_iff.1 h
    cases scored with
    | error c => cases h
    | ok score' =>
      obtain ⟨dir₃, hcalculate⟩ := exists_calculate_of_scored hscored
      refine ⟨dir₁, dir₃, hmove, ?_⟩
      obtain ⟨dir₄, -, h⟩ := bind_eq_ok_iff.1 h
      split at h
      · cases h
        exact hcalculate
      · obtain ⟨⟨dir₅, asserted⟩, -, h⟩ := bind_eq_ok_iff.1 h
        cases asserted with
        | error c => cases h
        | ok _ =>
          cases h
          exact hcalculate

end Director

/-- The score of a move that was evaluated is what the move yields. -/
theorem Genuine.Repeats.yields (hD : g.Repeats D F R) (hm : g.Moves m) {dir dir' : Director S k} {check : Bool}
    (hdir : D dir) (hlike : R dir.solution s) (h : dir.evaluate m check = .ok (dir', .ok score)) :
    m.Yields D F R s score := by
  obtain ⟨dir₁, dir₂, hmove, hcalculate⟩ := Director.exists_of_evaluate h
  have hrecord := hD.record hdir
  have hdir₁ := hD.doMove hm hrecord hmove
  intro fork fork' hfork hs hmove'
  rw [hD.right hdir₁ hcalculate]
  have hforks : R fork.solution dir.record.solution := hD.equivalence.trans hs (hD.equivalence.symm hlike)
  exact hD.settled (hD.doMove hm hfork hmove') hdir₁ (hD.repeated hm hfork hrecord hforks hmove' hmove)

/-- Where what the genuine variables hold settles the scores, directors repeat what they do: moves are taken back as far as
the genuine variables are concerned. -/
theorem Genuine.repeats_of_settles {T : Type} {facts : S → T} {shadows : ShadowCascade S} [DecidableEq B]
    [DecidableEq L] (hreg : g.Regular facts shadows) (hD : ExhaustiveSearch.Settles g facts shadows D F)
    (hrecord : ∀ {dir}, D dir → D dir.record) : g.Repeats D F (g.Alike facts) where
  toScores := hD.toScores
  equivalence := ⟨.refl, .symm, .trans⟩
  unscored s score := ⟨hreg.apart.score s score, hreg.governed.score s score⟩
  record := hrecord
  settled := hD.settled
  undone hm hdir h := by
    rcases Director.cases_evaluate hreg hm (hD.shadows hdir) h with ⟨_, _, -, -, hlike⟩ | ⟨_, hout, -⟩ | ⟨_, hout, -⟩
    · exact hlike
    · cases hout
    · cases hout
  repeated hm hdir hfork hlike hmove hmove' :=
    (Director.doMove_alike hreg hm (hD.shadows hdir) (hD.shadows hfork) hlike hmove hmove').2.1

namespace RunState

variable {r r' : RunState S k}

/-- The director of a run is of a kind, its working solution is not told apart from a given one, and changes of the
problem that are refused leave no trace. -/
structure Level (D : Director S k → Prop) (R : S → S → Prop) (s : S) (r : RunState S k) : Prop where
  /-- The director is of the kind. -/
  abides : r.Abides D
  /-- The changes that are waiting leave no trace if they are refused. -/
  pending : ∀ c ∈ r.pending, c.Spares R
  /-- The changes that the watch asks for leave no trace if they are refused. -/
  asked : ∀ c, r.Asks c → c.Spares R
  /-- The working solution is not told apart from the given one. -/
  like : R r.director.solution s

omit [PlanningSolution S k] in
/-- What is noted keeps a run level. -/
theorem Level.noted (hjournal : ∀ {dir : Director S k} journal, D dir → D { dir with journal := journal })
    (h : r.Level D R s) (hn : r.Noted r') : r'.Level D R s where
  abides := h.abides.noted hjournal hn
  pending c hc := (hn.pending c hc).elim (h.pending c) (h.asked c)
  asked c hc := h.asked c ((hn.asks c).1 hc)
  like := by
    rw [hn.solution]
    exact h.like

omit [PlanningSolution S k] in
/-- Another director of the kind keeps a run level with its solution. -/
theorem Level.direct {t : S} (h : r.Level D R s) {dir : Director S k} (hdir : D dir) (hlike : R dir.solution t) :
    { r with director := dir }.Level D R t :=
  ⟨h.abides.direct hdir, h.pending, h.asked, hlike⟩

omit [PlanningSolution S k] in
/-- Counts and random numbers are no matter. -/
theorem Level.congr (h : r.Level D R s) (hdir : r'.director = r.director) (hpending : r'.pending = r.pending)
    (hwatch : r'.watch = r.watch) : r'.Level D R s := by
  have hasks : ∀ c, r'.Asks c → r.Asks c := by
    intro c hc
    unfold Asks at hc ⊢
    rwa [hwatch] at hc
  refine ⟨⟨hdir ▸ h.abides.director, hpending ▸ h.abides.pending, fun c hc => h.abides.asked c (hasks c hc)⟩,
    hpending ▸ h.pending, fun c hc => h.asked c (hasks c hc), ?_⟩
  rw [hdir]
  exact h.like

end RunState

namespace Running

variable {r : RunState S k}

section Preserves

variable (hjournal : ∀ {dir : Director S k} journal, D dir → D { dir with journal := journal }) (h : r.Level D R s)
include hjournal h

omit [PlanningSolution S k] in
/-- What is logged keeps a run level. -/
theorem ends_report_level (level : LogLevel) (name : String) (fields : Unit → List (String × LogValue)) :
    Ends (report level name fields) r (fun _ r' => r'.Level D R s ∧ r.Lingers r') fun _ r' => r.Lingers r' := by
  have hnoted : Ends (report level name fields) r (fun _ r' => r.Noted r') fun _ _ => True := .report fun _ => id
  refine (hnoted.and (ends_logAt_same (E := fun _ r' => r.Lingers r'))).mono (fun _ r' hr' => ?_) fun _ _ => And.right
  exact ⟨h.noted hjournal hr'.1, .of_eq hr'.2.2⟩

/-- A step that starts keeps a run level. -/
theorem ends_stepStarted_level :
    Ends stepStarted r (fun _ r' => r'.Level D R s ∧ r.Lingers r' ∧ r'.director.solution = r.director.solution)
      fun _ r' => r.Lingers r' := by
  have hnoted : Ends stepStarted r (fun _ r' => r.Noted r') fun _ _ => True := by
    simp only [stepStarted, ends_bind, ends_get]
    exact .tell fun _ => id
  have hsteady : Steady D RunEvent.endsStep (stepStarted : Running S k Unit) :=
    Steady.stepStarted rfl hjournal fun _ => rfl
  refine (hnoted.and (hsteady r h.abides)).mono (fun _ r' hr' => ?_) fun _ _ he => he.2.lingers
  exact ⟨h.noted hjournal hr'.1, hr'.2.2.lingers, hr'.1.solution⟩

/-- A step that ends no worse than the one before keeps a run level. -/
theorem ends_stepEnded_level {a b : Score k} (hb : b.reaches a = true) :
    Ends (stepEnded b) r (fun _ r' => r'.Level D R s ∧ Climbs a r b r') fun _ r' => Climbs a r b r' := by
  have hlevel : Ends (stepEnded b) r (fun _ r' => r'.Level D R s) fun _ _ => True := by
    refine .stepEnded (fun r₁ n r₂ hr₁ hr₂ => ?_) fun _ _ _ => trivial
    refine RunState.Level.noted hjournal ?_ hr₂
    exact (h.noted hjournal hr₁).congr rfl rfl rfl
  exact (hlevel.and (ends_stepEnded_climbs hb)).mono (fun _ _ => id) fun _ _ => And.right

/-- A solution that becomes the best one keeps a run level. -/
theorem ends_setBest_level (t : S) (score : Score k) :
    Ends (setBest t score) r (fun _ r' => r'.Level D R s ∧ r.Lingers r') fun _ r' => r.Lingers r' := by
  have hlevel : Ends (setBest t score) r (fun _ r' => r'.Level D R s) fun _ _ => True := by
    refine .setBest fun r₁ r₂ hr₁ hr₂ => ?_
    refine RunState.Level.noted hjournal ?_ hr₂
    exact (h.noted hjournal hr₁).congr rfl rfl rfl
  refine (hlevel.and (lingers_setBest hjournal t score r h.abides)).mono (fun _ _ hr' => ⟨hr'.1, hr'.2.2⟩)
    fun _ _ => And.right

/-- Keeping a better solution keeps a run level. -/
theorem ends_updateBestWith_level (score : Score k) :
    Ends (updateBestWith score) r (fun _ r' => r'.Level D R s ∧ r.Lingers r') fun _ r' => r.Lingers r' :=
  .updateBestWith (fun _ => ends_setBest_level hjournal h _ score) fun _ => ⟨h, refl_of _ r⟩

end Preserves

variable (hD : g.Repeats D F R)
include hD

/-- A stored score does not tell a solution apart from what it was. -/
theorem like_of_stored {s s' : S} (h : s' = s ∨ ∃ score, s' = PlanningSolution.withScore s score) : R s' s := by
  rcases h with rfl | ⟨score, rfl⟩
  · exact hD.equivalence.refl _
  · exact hD.unscored s score

/-- Asking for the score keeps a run level and gives the score of the working solution. -/
theorem ends_calculate_level (h : r.Level D R s) :
    Ends calculate r (fun score r' => r'.Level D R s ∧ r.Lingers r' ∧ score = F r'.director.solution)
      fun _ r' => r.Lingers r' := by
  have hlevel : Ends calculate r (fun _ r' => r'.Level D R s) fun _ _ => True := by
    rw [ends_calculate]
    refine ⟨fun dir score hd => ?_, fun _ _ => trivial⟩
    obtain ⟨hs, -⟩ := Director.calculate_solution hd
    have hlike := like_of_stored hD (hs.imp_right fun hs => ⟨score, hs⟩)
    have hdirect := h.direct (hD.calculate h.abides.director hd) (hD.equivalence.trans hlike h.like)
    exact hdirect.congr rfl rfl rfl
  refine (hlevel.and (ends_calculate_right hD.toScores h.abides)).mono (fun _ _ hr' => ?_) fun _ _ he => he.2.lingers
  exact ⟨hr'.1, hr'.2.2.1.lingers, hr'.2.2.2⟩

/-- Checking the score after a step keeps a run level. -/
theorem ends_assertStep_level (h : r.Level D R s) :
    Ends assertStep r (fun _ r' => r'.Level D R s ∧ r.Lingers r') fun _ r' => r.Lingers r' := by
  have hlevel : Ends assertStep r (fun _ r' => r'.Level D R s) fun _ _ => True := by
    simp only [ends_assertStep, ends_assertScore]
    refine ⟨fun _ => ⟨fun dir score hd => ?_, fun _ _ _ => trivial, fun _ _ => trivial⟩, fun _ => h⟩
    have hlike := like_of_stored hD (Director.assertScore_solution hd).1
    exact h.direct (hD.assertScore h.abides.director hd) (hD.equivalence.trans hlike h.like)
  have hsteady : Steady D RunEvent.endsStep (assertStep : Running S k Unit) := Steady.assertStep hD.toPreserves
  exact (hlevel.and (hsteady r h.abides)).mono (fun _ _ hr' => ⟨hr'.1, hr'.2.2.lingers⟩) fun _ _ he => he.2.lingers

/-- Evaluating a move keeps a run level and gives the score that the move yields. -/
theorem ends_evaluate_level (h : r.Level D R s) (hm : g.Moves m) :
    Ends (evaluate m) r (fun score r' => (r'.Level D R s ∧ r.Lingers r') ∧ m.Yields D F R s score)
      fun _ r' => r.Lingers r' := by
  have hlevel : Ends (evaluate m) r (fun score r' => r'.Level D R s ∧ m.Yields D F R s score) fun _ _ => True := by
    refine .evaluate (fun dir score r' hd hr' => ?_) (fun _ _ _ => trivial) fun _ _ => trivial
    have hlike := hD.equivalence.trans (hD.undone hm h.abides.director hd) h.like
    have hdirect := h.direct (hD.evaluate hm h.abides.director hd) hlike
    exact ⟨hdirect.noted hD.journal hr', hD.yields hm h.abides.director h.like hd⟩
  have hsteady : Steady D RunEvent.endsStep (evaluate m : Running S k (Score k)) := Steady.evaluate hD.toPreserves hm
  refine (hlevel.and (hsteady r h.abides)).mono (fun _ _ hr' => ?_) fun _ _ he => he.2.lingers
  exact ⟨⟨hr'.1.1, hr'.2.2.lingers⟩, hr'.1.2⟩

/-- A change of the problem keeps a run level with some solution, and with the same one if it is refused. -/
theorem ends_applyChange_level (h : r.Level D R s) {c : ProblemChange S k} (hupholds : c.Upholds D)
    (hspares : c.Spares R) :
    Ends (applyChange c) r (fun made r' => (∃ t, r'.Level D R t ∧ (made = false → t = s)) ∧ r.Lingers r')
      fun _ r' => r.Lingers r' := by
  simp only [applyChange, ends_bind, ends_direct]
  refine ⟨fun dir refusal hd => ?_, fun _ _ => refl_of _ r⟩
  have hdir := hupholds _ _ _ h.abides.director hd
  cases refusal with
  | none =>
    simp only [ends_bind, ends_pure]
    have hdirect := h.direct hdir (hD.equivalence.refl dir.solution)
    refine (ends_report_level hD.journal hdirect _ _ _).mono (fun _ r' hr' => ?_) fun _ _ => id
    exact ⟨⟨_, hr'.1, fun hmade => absurd hmade.symm Bool.false_ne_true⟩, hr'.2⟩
  | some e =>
    simp only [ends_bind, ends_pure]
    have hdirect := h.direct hdir (hD.equivalence.trans (hspares _ _ _ hd) h.like)
    refine (ends_report_level hD.journal hdirect _ _ _).mono (fun _ r' hr' => ?_) fun _ _ => id
    exact ⟨⟨s, hr'.1, fun _ => rfl⟩, hr'.2⟩

/-- Taking in changes of the problem keeps a run level with some solution, and with the same one if none was made. -/
theorem ends_takeChanges_level (h : r.Level D R s) :
    Ends takeChanges r (fun n r' => (∃ t, r'.Level D R t ∧ (n = 0 → t = s)) ∧ r.Lingers r')
      fun _ r' => r.Lingers r' := by
  simp only [takeChanges, ends_bind, ends_get, ends_ite, ends_pure, ends_modify]
  refine ⟨fun _ => ⟨⟨s, h, fun _ => rfl⟩, refl_of _ r⟩, fun _ => ?_⟩
  have hstart : { r with pending := [] }.Level D R s :=
    ⟨⟨h.abides.director, fun _ hc => absurd hc List.not_mem_nil, h.abides.asked⟩,
      fun _ hc => absurd hc List.not_mem_nil, h.asked, h.like⟩
  -- As long as no change was made the run is level with the given solution.
  have hloop : Ends (r.pending.filterM applyChange) { r with pending := [] }
      (fun made r' => (∃ t, r'.Level D R t ∧ (made = [] → t = s)) ∧ r.Lingers r') fun _ r' => r.Lingers r' := by
    refine .filterM (fun c hc made r₁ hr₁ => ?_) ⟨⟨s, hstart, fun _ => rfl⟩, .of_eq rfl⟩
    obtain ⟨⟨t, ht, hsame⟩, hlingers⟩ := hr₁
    refine (ends_applyChange_level hD ht (h.abides.pending c hc) (h.pending c hc)).mono (fun isMade r₂ hr₂ => ?_)
      fun _ _ => trans_of _ hlingers
    obtain ⟨⟨u, hu, hrefused⟩, hlingers₂⟩ := hr₂
    refine ⟨⟨u, hu, fun hnil => ?_⟩, trans_of _ hlingers hlingers₂⟩
    cases isMade with
    | true => exact absurd hnil (List.append_ne_nil_of_right_ne_nil _ (List.cons_ne_nil _ _))
    | false => exact (hrefused rfl).trans (hsame hnil)
  refine hloop.mono (fun made r₁ hr₁ => ⟨fun hnone => ?_, fun hsome => ?_⟩) fun _ _ => id
  · obtain ⟨⟨t, ht, hsame⟩, hlingers⟩ := hr₁
    exact ⟨⟨t, ht, fun _ => hsame (List.isEmpty_iff.1 hnone)⟩, hlingers⟩
  · have hcount : made.length ≠ 0 := fun hzero => hsome (List.isEmpty_iff.2 (List.length_eq_zero_iff.1 hzero))
    obtain ⟨⟨t, ht, -⟩, hlingers₁⟩ := hr₁
    refine (ends_calculate_level hD ht).mono (fun score r₂ hr₂ => ?_) fun _ _ => trans_of _ hlingers₁
    obtain ⟨hlevel₂, hlingers₂, -⟩ := hr₂
    have hlingers₂ := trans_of _ hlingers₁ hlingers₂
    refine (ends_setBest_level hD.journal hlevel₂ _ score).mono (fun _ r₃ hr₃ => ?_) fun _ _ => trans_of _ hlingers₂
    obtain ⟨hlevel₃, hlingers₃⟩ := hr₃
    have hlingers₃ := trans_of _ hlingers₂ hlingers₃
    refine (ends_report_level hD.journal hlevel₃ _ _ _).mono (fun _ r₄ hr₄ => ?_) fun _ _ => trans_of _ hlingers₃
    exact ⟨⟨t, hr₄.1, fun hzero => absurd hzero hcount⟩, trans_of _ hlingers₃ hr₄.2⟩

end Running

end Planning
