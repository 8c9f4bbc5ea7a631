import Planning.Proofs.Director.Evaluate
import Planning.Proofs.Run.Steady

/-!
# How the best solution of a run changes

The best solution of a run comes with the score that it has from scratch and that is stored in it. It is replaced by
one that is better, by the working solution after changes of the problem, and in no other way; each replacement is told
to who watches the run.
-/

namespace Planning

open Checked

variable {S : Type} {k : ScoreKind} [PlanningSolution S k] {D : Director S k → Prop} {F : S → Score k}

/-- Solutions of which a score that is stored can be read and changes nothing else that is asked of solutions. -/
class LawfulSolution (S : Type) (k : ScoreKind) [PlanningSolution S k] : Prop where
  /-- A stored score is read. -/
  score_withScore : ∀ (s : S) (score : Score k), PlanningSolution.score (PlanningSolution.withScore s score) = some score
  /-- A stored score leaves nothing open and closes nothing. -/
  isInitialized_withScore : ∀ (s : S) (score : Score k),
    PlanningSolution.isInitialized (PlanningSolution.withScore s score) = PlanningSolution.isInitialized s

section Scores

variable {B L : Type} {V : B → Type} {W : L → Type}
variable [∀ b, PlanningValue (V b)] [∀ b, DecidableEq (V b)] [∀ l, PlanningValue (W l)] [∀ l, DecidableEq (W l)]

/-- Directors of a kind give their solutions the scores that they have from scratch. -/
structure Genuine.Scores (g : Genuine S V W) (D : Director S k → Prop) (F : S → Score k) : Prop extends
    g.Preserves D where
  /-- The score that is asked for is that of the working solution. -/
  right : ∀ {dir dir' score}, D dir → dir.calculate = .ok (dir', score) → score = F dir.solution
  /-- A stored score does not count. -/
  stored : ∀ s score, F (PlanningSolution.withScore s score) = F s

end Scores

namespace BestSolution

/-- The score is the one that the solution has from scratch, and it is stored in the solution. -/
structure Right (F : S → Score k) (b : BestSolution S k) : Prop where
  /-- The score is that of the solution. -/
  score : b.score = F b.solution
  /-- The score is stored. -/
  stored : PlanningSolution.score b.solution = some b.score

/-- A solution is better than another: it is initialized and the other is not, or both are or are not and its score is
better. -/
def Exceeds (b a : BestSolution S k) : Prop :=
  (PlanningSolution.isInitialized b.solution = true ∧ PlanningSolution.isInitialized a.solution = false) ∨
    PlanningSolution.isInitialized b.solution = PlanningSolution.isInitialized a.solution ∧
      b.score.beats a.score = true

/-- What is better than an initialized solution is initialized. -/
theorem Exceeds.isInitialized {a b : BestSolution S k} (h : b.Exceeds a)
    (ha : PlanningSolution.isInitialized a.solution = true) : PlanningSolution.isInitialized b.solution = true := by
  rcases h with ⟨hb, -⟩ | ⟨hb, -⟩
  · exact hb
  · rw [hb, ha]

end BestSolution

namespace RunState

/-- What may happen to the best solution of a run: nothing, that a better one replaces it, or that the working solution
replaces it after changes of the problem. -/
inductive Turn (F : S → Score k) : RunState S k → RunState S k → Prop where
  /-- The best solution stays, and none is told. -/
  | rest {r r'} (h : r.Rests RunEvent.isBest r') : Turn F r r'
  /-- A better solution becomes the best one and is told. -/
  | improve {r r' b} (hbest : r'.best = some b) (htold : r'.history = .best b.solution b.score :: r.history)
      (hright : b.Right F) (hbetter : ∀ a, r.best = some a → b.Exceeds a) : Turn F r r'
  /-- Changes of the problem are made; the working solution becomes the best one and is told. -/
  | change {r r' b n} (hmade : Running.takeChanges r = .ok (n + 1) r') (hbest : r'.best = some b)
      (htold : r'.history = .best b.solution b.score :: r.history) (hright : b.Right F) : Turn F r r'

variable {r r' : RunState S k}

/-- What happens to the best solution of a run, one thing after another. -/
abbrev Track (F : S → Score k) : RunState S k → RunState S k → Prop := Relation.ReflTransGen (Turn F)

/-- The best solution, if there is one, has the right score. -/
def Right (F : S → Score k) (r : RunState S k) : Prop := ∀ b, r.best = some b → b.Right F

/-- Whatever happens the best solution has the right score. -/
theorem Track.right (h : Track F r r') (hr : r.Right F) : r'.Right F := by
  induction h with
  | refl => exact hr
  | tail _ hturn ih =>
    intro b hb
    cases hturn with
    | rest hrest => exact ih b (hrest.best ▸ hb)
    | improve hbest _ hright _ =>
      rw [hbest] at hb
      cases hb
      exact hright
    | change _ hbest _ hright =>
      rw [hbest] at hb
      cases hb
      exact hright

/-- Each solution that was told to be the best one came with the right score. -/
theorem Track.told (h : Track F r r') : ∃ told, r'.history = told ++ r.history ∧
    ∀ s score, .best s score ∈ told → BestSolution.Right F ⟨s, score⟩ := by
  induction h with
  | refl => exact ⟨[], rfl, fun _ _ hmem => absurd hmem List.not_mem_nil⟩
  | tail _ hturn ih =>
    obtain ⟨told, hhistory, htold⟩ := ih
    have hone : ∀ {r₁ r₂ : RunState S k} {b : BestSolution S k}, r₁.history = told ++ r.history →
        r₂.history = .best b.solution b.score :: r₁.history → b.Right F →
        ∃ told, r₂.history = told ++ r.history ∧ ∀ s score, .best s score ∈ told → BestSolution.Right F ⟨s, score⟩ := by
      intro r₁ r₂ b h₁ h₂ hright
      refine ⟨.best b.solution b.score :: told, by rw [h₂, h₁, List.cons_append], fun s score hmem => ?_⟩
      rcases List.mem_cons.1 hmem with heq | hmem
      · obtain ⟨rfl, rfl⟩ := RunEvent.best.inj heq
        exact hright
      · exact htold s score hmem
    cases hturn with
    | rest hrest =>
      obtain ⟨told', hhistory', hquiet⟩ := hrest.history
      refine ⟨told' ++ told, by rw [hhistory', hhistory, List.append_assoc], fun s score hmem => ?_⟩
      rcases List.mem_append.1 hmem with hmem | hmem
      · exact absurd (hquiet _ hmem).symm Bool.false_ne_true
      · exact htold s score hmem
    | improve _ hnew hright _ => exact hone hhistory hnew hright
    | change _ _ hnew hright => exact hone hhistory hnew hright

end RunState

namespace Running

open RunState

variable {r : RunState S k} {E : Stop → RunState S k → Prop} {α : Type} {x : Running S k α}
variable {loud : RunEvent S k → Bool}

omit [PlanningSolution S k] in
/-- What is logged leaves the run as it is, but for the log and what the director reported. -/
theorem ends_logAt_eq {level : LogLevel} {e : Unit → LogEvent} :
    Ends (logAt level e) r (fun _ r' => r' = { r with
      director := { r.director with journal := r'.director.journal }, log := r'.log }) E := by
  simp only [logAt, ends_bind, ends_get, ends_ite, ends_modify, ends_pure]
  exact ⟨fun _ => rfl, fun _ => trivial⟩

omit [PlanningSolution S k] in
/-- What is logged is no event. -/
theorem ends_logAt_same {level : LogLevel} {e : Unit → LogEvent} :
    Ends (logAt level e) r (fun _ r' => r'.best = r.best ∧ r'.history = r.history) E := by
  refine ends_logAt_eq.mono (fun _ r' hr' => ?_) fun _ _ => id
  rw [hr']
  exact ⟨rfl, rfl⟩

/-- A best solution that is told is an event. -/
theorem ends_tell_best {s : S} {score : Score k} :
    Ends (tell (.best s score)) r (fun _ r' => r'.best = r.best ∧ r'.history = .best s score :: r.history) E := by
  simp only [tell, ends_bind, ends_modify, ends_get]
  split
  · split
    · exact ends_logAt_same
    · exact ⟨rfl, rfl⟩
  · exact ⟨rfl, rfl⟩

/-- A solution that becomes the best one is kept with its score and told. -/
theorem ends_setBest (hjournal : ∀ {dir : Director S k} journal, D dir → D { dir with journal := journal })
    (h : r.Abides D) (s : S) (score : Score k) :
    Ends (setBest s score) r (fun _ r' => r'.Abides D ∧
      r'.best = some ⟨PlanningSolution.withScore s score, score⟩ ∧
      r'.history = .best (PlanningSolution.withScore s score) score :: r.history) E := by
  have hnoted : Ends (setBest s score) r (fun _ r' => r'.Abides D) E := by
    refine .setBest fun r' r'' hr' hr'' => Abides.noted hjournal ?_ hr''
    have hr' := h.noted hjournal hr'
    exact ⟨hr'.director, hr'.pending, hr'.asked⟩
  have hkept : Ends (setBest s score) r (fun _ r' =>
      r'.best = some ⟨PlanningSolution.withScore s score, score⟩ ∧
        r'.history = .best (PlanningSolution.withScore s score) score :: r.history) E := by
    simp only [setBest, report, ends_bind, ends_get, ends_modify]
    refine ends_logAt_same.mono (fun _ r' hr' => ?_) fun _ _ => id
    refine ends_tell_best.mono (fun _ r'' hr'' => ?_) fun _ _ => id
    exact ⟨hr''.1, by rw [hr''.2, hr'.2]⟩
  exact (hnoted.and hkept).mono (fun _ _ => id) fun _ _ => And.left

variable {B L : Type} {V : B → Type} {W : L → Type}
variable [∀ b, PlanningValue (V b)] [∀ b, DecidableEq (V b)] [∀ l, PlanningValue (W l)] [∀ l, DecidableEq (W l)]
variable {g : Genuine S V W}

/-- What is steady tracks. -/
theorem Leads.track (h : Steady D RunEvent.isBest x) : Leads (Abides D) (Track F) x :=
  h.mono fun _ _ hrest => .single (.rest hrest)

omit [∀ b, PlanningValue (V b)] [∀ b, DecidableEq (V b)] [∀ l, PlanningValue (W l)] [∀ l, DecidableEq (W l)] in
/-- Asking for the score changes the stored score at most. -/
theorem ends_calculate_stored :
    Ends calculate r (fun _ r' => r'.director.solution = r.director.solution ∨
      ∃ score, r'.director.solution = PlanningSolution.withScore r.director.solution score) fun _ _ => True := by
  rw [ends_calculate]
  exact ⟨fun dir score hd => (Director.calculate_solution hd).1.imp_right fun hs => ⟨score, hs⟩, fun _ _ => trivial⟩

omit [∀ b, PlanningValue (V b)] [∀ b, DecidableEq (V b)] [∀ l, PlanningValue (W l)] [∀ l, DecidableEq (W l)] in
/-- Checking the score after a step changes the stored score at most. -/
theorem ends_assertStep_stored :
    Ends assertStep r (fun _ r' => r'.director.solution = r.director.solution ∨
      ∃ score, r'.director.solution = PlanningSolution.withScore r.director.solution score) fun _ _ => True := by
  simp only [ends_assertStep, ends_assertScore]
  exact ⟨fun _ => ⟨fun dir score hd => (Director.assertScore_solution hd).1, fun _ _ _ => trivial,
    fun _ _ => trivial⟩, fun _ => .inl trivial⟩

omit [∀ b, PlanningValue (V b)] [∀ b, DecidableEq (V b)] [∀ l, PlanningValue (W l)] [∀ l, DecidableEq (W l)] in
/-- A stored score leaves the score of the working solution what it is. -/
theorem score_stored (hstored : ∀ s score, F (PlanningSolution.withScore s score) = F s) {s s' : S}
    (h : s' = s ∨ ∃ score, s' = PlanningSolution.withScore s score) : F s' = F s := by
  rcases h with rfl | ⟨score, rfl⟩
  · rfl
  · exact hstored s score

/-- Asking for the score gives the score of the working solution, which it stores. -/
theorem ends_calculate_right (hD : g.Scores D F) (h : r.Abides D) :
    Ends calculate r (fun score r' => r'.Abides D ∧ r.Rests loud r' ∧ score = F r'.director.solution)
      fun _ r' => r.Rests loud r' := by
  rw [ends_calculate]
  refine ⟨fun dir score hd => ⟨⟨hD.calculate h.director hd, h.pending, h.asked⟩, .of_eq rfl rfl, ?_⟩,
    fun _ _ => .of_eq rfl rfl⟩
  obtain ⟨hs, -⟩ := Director.calculate_solution hd
  rw [score_stored hD.stored (hs.imp_right fun hs => ⟨score, hs⟩)]
  exact hD.right h.director hd

/-- Checking the score after a step leaves the score of the working solution what it is. -/
theorem ends_assertStep_right (hD : g.Scores D F) (h : r.Abides D) :
    Ends assertStep r (fun _ r' => r'.Abides D ∧ r.Rests loud r' ∧ F r'.director.solution = F r.director.solution)
      fun _ r' => r.Rests loud r' := by
  refine ((Steady.assertStep hD.toPreserves r h).and ends_assertStep_stored).mono (fun _ r' hr' => ?_)
    fun _ _ => And.left
  exact ⟨hr'.1.1, hr'.1.2, score_stored hD.stored hr'.2⟩

omit [∀ b, PlanningValue (V b)] [∀ b, DecidableEq (V b)] [∀ l, PlanningValue (W l)] [∀ l, DecidableEq (W l)] in
/-- The working solution that becomes the best one stays what it is. -/
theorem ends_updateBestWith_same {score : Score k} :
    Ends (updateBestWith score) r (fun _ r' => r'.director.solution = r.director.solution) E :=
  .updateBestWith (fun _ => .setBest fun _ _ hr₁ hr₂ => hr₂.solution.trans hr₁.solution) fun _ => rfl

/-- A step that starts leaves the working solution alone. -/
theorem ends_stepStarted_right (hD : g.Preserves D) (h : r.Abides D) :
    Ends stepStarted r
      (fun _ r' => r'.Abides D ∧ r.Rests RunEvent.isBest r' ∧ r'.director.solution = r.director.solution)
      fun _ r' => r.Rests RunEvent.isBest r' := by
  have hsame : Ends stepStarted r (fun _ r' => r'.director.solution = r.director.solution) fun _ _ => True := by
    simp only [stepStarted, ends_bind, ends_get]
    exact .tell fun r' hr' => hr'.solution
  refine ((Steady.stepStarted rfl hD.journal (fun _ => rfl) r h).and hsame).mono (fun _ r' hr' => ?_) fun _ _ => And.left
  exact ⟨hr'.1.1, hr'.1.2, hr'.2⟩

/-- A step that ends leaves the working solution alone. -/
theorem ends_stepEnded_right (hD : g.Preserves D) (h : r.Abides D) (score : Score k) :
    Ends (stepEnded score) r
      (fun _ r' => r'.Abides D ∧ r.Rests RunEvent.isBest r' ∧ r'.director.solution = r.director.solution)
      fun _ r' => r.Rests RunEvent.isBest r' := by
  have hsame : Ends (stepEnded score) r (fun _ r' => r'.director.solution = r.director.solution)
      fun _ _ => True := .stepEnded (fun r₁ n r₂ hr₁ hr₂ => hr₂.solution.trans hr₁.solution) fun _ _ _ => trivial
  refine ((Steady.stepEnded rfl hD.journal (fun _ => rfl) r h).and hsame).mono (fun _ r' hr' => ?_) fun _ _ => And.left
  exact ⟨hr'.1.1, hr'.1.2, hr'.2⟩

/-- Changes of the problem that are taken in leave the best solution alone if none is made; otherwise the working
solution becomes the best one with its score, whatever is known of that. -/
theorem ends_takeChanges_best (hD : g.Preserves D) {P : Score k → S → Prop}
    (hcalculate : ∀ r, r.Abides D → Ends calculate r
      (fun score r' => r'.Abides D ∧ r.Rests (fun _ => true) r' ∧ P score r'.director.solution)
      fun _ r' => r.Rests (fun _ => true) r') (h : r.Abides D) :
    Ends takeChanges r (fun n r' => r'.Abides D ∧ (r.Rests RunEvent.isBest r' ∨ n ≠ 0 ∧ ∃ s score, P score s ∧
      r'.best = some ⟨PlanningSolution.withScore s score, score⟩ ∧
      r'.history = .best (PlanningSolution.withScore s score) score :: r.history))
      fun _ r' => r.Rests RunEvent.isBest r' := by
  simp only [takeChanges, ends_bind, ends_get, ends_ite, ends_pure, ends_modify]
  refine ⟨fun _ => ⟨h, .inl (refl_of _ r)⟩, fun _ => ?_⟩
  have hstart : { r with pending := [] }.Abides D :=
    ⟨h.director, fun _ hc => absurd hc List.not_mem_nil, h.asked⟩
  have hloop : Steady D (fun _ => true) (r.pending.filterM applyChange) :=
    .filterM fun c hc => Steady.applyChange hD.journal (h.pending c hc)
  -- Until the working solution becomes the best one nothing at all is told.
  have hsilent : ∀ {r' : RunState S k}, { r with pending := [] }.Rests (fun _ => true) r' →
      r.Rests RunEvent.isBest r' :=
    fun hrest => ⟨hrest.best, [], hrest.history_eq, fun _ he => absurd he List.not_mem_nil⟩
  refine (hloop _ hstart).mono (fun made r₁ hr₁ => ⟨fun _ => ⟨hr₁.1, .inl (hsilent hr₁.2)⟩, fun hsome => ?_⟩)
    fun _ _ => hsilent
  refine (hcalculate r₁ hr₁.1).mono (fun score r₂ hr₂ => ?_) fun _ _ hrest => hsilent (trans_of _ hr₁.2 hrest)
  obtain ⟨habides, hrest, hscore⟩ := hr₂
  have hhistory : r₂.history = r.history := hrest.history_eq.trans hr₁.2.history_eq
  refine (ends_setBest hD.journal habides _ score).mono (fun _ r₃ hr₃ => ?_) fun _ _ => id
  have habides₃ : Ends (report .debug "problem_changes_applied" fun _ =>
      [("count", .number made.length), ("score", .shown score.text)]) r₃ (fun _ r₄ => r₄.Abides D)
      fun _ r' => r.Rests RunEvent.isBest r' := .report fun r₄ hr₄ => hr₃.1.noted hD.journal hr₄
  refine (habides₃.and (ends_logAt_same (E := fun _ _ => True))).mono (fun _ r₄ hr₄ => ⟨hr₄.1, .inr ?_⟩)
    fun _ _ => And.left
  obtain ⟨-, hbest, htold⟩ := hr₄
  refine ⟨fun hzero => hsome (List.isEmpty_iff.2 (List.length_eq_zero_iff.1 hzero)), _, score, hscore,
    hbest.trans hr₃.2.1, ?_⟩
  rw [htold, hr₃.2.2, hhistory]

variable [LawfulSolution S k]

omit [∀ b, PlanningValue (V b)] [∀ b, DecidableEq (V b)] [∀ l, PlanningValue (W l)] [∀ l, DecidableEq (W l)] in
/-- A solution with its score from scratch becomes the best one with it. -/
theorem right_withScore (hstored : ∀ s score, F (PlanningSolution.withScore s score) = F s) {s : S} {score : Score k}
    (h : score = F s) : BestSolution.Right F ⟨PlanningSolution.withScore s score, score⟩ where
  score := by rw [hstored, h]
  stored := LawfulSolution.score_withScore s score

omit [∀ b, PlanningValue (V b)] [∀ b, DecidableEq (V b)] [∀ l, PlanningValue (W l)] [∀ l, DecidableEq (W l)] in
/-- A score that improves a run is better than the best one. -/
theorem exceeds_of_improvesWith {score : Score k} (h : r.improvesWith score = true) {a : BestSolution S k}
    (ha : r.best = some a) :
    BestSolution.Exceeds ⟨PlanningSolution.withScore r.director.solution score, score⟩ a := by
  have hinitialized : r.bestInitialized = PlanningSolution.isInitialized a.solution := by
    rw [bestInitialized, ha]
    rfl
  unfold improvesWith at h
  rw [ha] at h
  rw [hinitialized] at h
  unfold BestSolution.Exceeds
  rw [LawfulSolution.isInitialized_withScore]
  cases hr : PlanningSolution.isInitialized r.director.solution <;>
    cases hb : PlanningSolution.isInitialized a.solution <;> simp_all

variable (hD : g.Scores D F)
include hD

/-- With its score from scratch the working solution becomes the best one if it is better. -/
theorem ends_updateBestWith_track {score : Score k} (h : r.Abides D) (hscore : score = F r.director.solution) :
    Ends (updateBestWith score) r (fun _ r' => r'.Abides D ∧ Track F r r') E := by
  refine .updateBestWith (fun hbetter => ?_) fun _ => ⟨h, .refl⟩
  refine (ends_setBest hD.journal h _ score).mono (fun _ r' hr' => ⟨hr'.1, .single ?_⟩) fun _ _ => id
  exact .improve hr'.2.1 hr'.2.2 (right_withScore hD.stored hscore) fun a => exceeds_of_improvesWith hbetter

/-- The working solution becomes the best one if it is better. -/
theorem track_updateBest : Leads (Abides D) (Track F) (updateBest : Running S k Bool) := by
  intro r h
  simp only [updateBest, ends_bind]
  refine (ends_calculate_right hD h).mono (fun score r' hr' => ?_) fun _ _ hrest => .single (.rest hrest)
  obtain ⟨habides, hrest, hscore⟩ := hr'
  refine (ends_updateBestWith_track hD habides hscore).mono (fun _ r'' hr'' => ⟨hr''.1, ?_⟩) fun _ _ => id
  exact .trans (.single (.rest hrest)) hr''.2

/-- Taking in changes of the problem leaves the best solution alone if none is made, and replaces it otherwise. -/
theorem track_takeChanges : Leads (Abides D) (Track F) (takeChanges : Running S k Nat) := by
  intro r h
  have hmade := ends_takeChanges_best hD.toPreserves (P := fun score s => score = F s)
    (fun _ h => ends_calculate_right hD h) h
  refine hmade.eq.mono (fun n r' hr' => ?_) fun _ _ hrest => .single (.rest hrest)
  obtain ⟨⟨habides, hrest | ⟨hn, s, score, hscore, hbest, htold⟩⟩, heq⟩ := hr'
  · exact ⟨habides, .single (.rest hrest)⟩
  · obtain ⟨n, rfl⟩ := Nat.exists_eq_succ_of_ne_zero hn
    exact ⟨habides, .single (.change heq hbest htold (right_withScore hD.stored hscore))⟩

end Running

end Planning
