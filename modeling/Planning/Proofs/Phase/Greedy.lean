import Planning.Proofs.Director.Atomic
import Planning.Proofs.Director.Congruence
import Planning.Proofs.Phase.BranchAndBound
import Planning.Proofs.Phase.Level
import Planning.Proofs.Run.Held
import Planning.Proofs.Run.Leads

/-!
# Steps that make the best of some moves

A step evaluates its moves one after another and makes the first one with the best score. The score of a move is that of
what the genuine variables hold once the move is made. Where directors can be depended on, nothing stops such a step but
a count that gets too great.
-/

namespace Planning

open Checked RunState Running

variable {S T : Type} {k : ScoreKind} {D : Director S k → Prop} {F : S → Score k} {B L : Type} {V : B → Type}
variable {W : L → Type} {g : Genuine S V W} {facts : S → T} {shadows : ShadowCascade S}

namespace Genuine

/-- A score is that of solutions with some facts whose genuine variables hold something. -/
def ScoreOf (g : Genuine S V W) (facts : S → T) (D : Director S k → Prop) (F : S → Score k) (c : Content V W) (f : T)
    (score : Score k) : Prop :=
  ∃ dir, D dir ∧ g.content dir.solution = c ∧ facts dir.solution = f ∧ F dir.solution = score

section Moves

variable [∀ b, PlanningValue (V b)] [∀ b, DecidableEq (V b)] [∀ l, PlanningValue (W l)] [∀ l, DecidableEq (W l)]

/-- A move can be made in a solution, and what the genuine variables hold then. -/
def LeadsTo (g : Genuine S V W) (s : S) (m : Move S) (c : Content V W) : Prop :=
  g.Moves m ∧ ∃ e s', m.plan s = .ok e ∧ e.apply s = .ok s' ∧ g.content s' = c

/-- Directors of a kind make the moves that can be planned and take back those that they try, calculate scores and check
them without fault, and find no score wrong. -/
structure Dependable [PlanningSolution S k] (g : Genuine S V W) (D : Director S k → Prop) : Prop where
  /-- The score is asked for. -/
  calculate : ∀ {dir}, D dir → ∃ dir' score, dir.calculate = .ok (dir', score)
  /-- The score is checked. -/
  assertScore : ∀ {dir}, D dir → ∃ dir' score, dir.assertScore = .ok (dir', .ok score)
  /-- A move is made. -/
  doMove : ∀ {m dir e}, g.Moves m → D dir → m.plan dir.solution = .ok e → ∃ dir', dir.doMove m = .ok (dir', .ok ())
  /-- A move is evaluated. -/
  evaluate : ∀ {m dir e} check, g.Moves m → D dir → m.plan dir.solution = .ok e →
    ∃ dir' score, dir.evaluate m check = .ok (dir', .ok score)

/-- What stops a run is a mishap, and where directors can be depended on only a count that gets too great. -/
structure Excuses [PlanningSolution S k] (g : Genuine S V W) (D : Director S k → Prop) (exceeds : Prop) (e : Stop) :
    Prop where
  /-- The run is stopped by a mishap. -/
  mishap : e.IsMishap
  /-- A count gets too great. -/
  overflow : g.Dependable D → e = .faulted .overflow ∧ exceeds

/-- Another count may get too great as well. -/
theorem Excuses.mono [PlanningSolution S k] {exceeds exceeds' : Prop} {e : Stop}
    (h : g.Excuses D exceeds e) (himp : exceeds → exceeds') : g.Excuses D exceeds' e :=
  ⟨h.mishap, fun hsafe => (h.overflow hsafe).imp_right himp⟩

variable [PlanningSolution S k]

/-- A move that leads somewhere can be planned in solutions that are alike. -/
theorem LeadsTo.exists_plan {s t : S} {m : Move S} {c : Content V W} (h : g.LeadsTo s m c)
    (hgov : g.Governed facts shadows) (hlike : g.Alike facts t s) : ∃ e, m.plan t = .ok e := by
  obtain ⟨hm, e, _, hplan, -⟩ := h
  exact hm.exists_plan_alike hgov hlike.symm ⟨e, hplan⟩

variable [DecidableEq B] [DecidableEq L]

/-- A move that is made leads where it does in solutions that are alike. -/
theorem LeadsTo.of_doMove {s : S} {m : Move S} {c : Content V W} (h : g.LeadsTo s m c)
    (hreg : g.Regular facts shadows) {dir dir' : Director S k} (hshadows : dir.shadows = shadows)
    (hlike : g.Alike facts dir.solution s) (hd : dir.doMove m = .ok (dir', .ok ())) :
    g.content dir'.solution = c ∧ facts dir'.solution = facts s := by
  obtain ⟨hm, e, s', hplan, happly, rfl⟩ := h
  obtain ⟨err, -, herr, -⟩ | ⟨edit, hplan₁, -, hperform⟩ := Director.cases_doMove hd
  · cases herr
  obtain ⟨t, happly₁, hlike₁, -⟩ := Director.perform_alike hreg hshadows hperform
  have hsame := hlike₁.trans (hm.apply_alike hreg.lawful hreg.governed hplan₁ hplan hlike happly₁ happly)
  exact ⟨hsame.content, hsame.facts.trans ((hm.facts_eq hreg.governed hplan).1 _ _ happly)⟩

/-- Directors that score in full can be depended on, if neither their listeners nor their scores fault. -/
theorem dependable_full (hreg : g.Regular facts shadows) {f : S → Checked (Score k)}
    (hstored : ∀ s score, f (PlanningSolution.withScore s score) = f s) (hf : ∀ s, ∃ score, f s = .ok score)
    (hlisteners : ∀ e ∈ shadows, ∀ s x, ∃ r, e.listener.update s x = .ok r) :
    g.Dependable (Director.Full f shadows) := by
  have hmove : ∀ {m : Move S} {dir : Director S k} {e}, g.Moves m → dir.Full f shadows → m.plan dir.solution = .ok e →
      ∃ dir', dir.doMove m = .ok (dir', .ok ()) := by
    intro m dir e hm h hplan
    obtain ⟨known, hscoring⟩ := h.exists_known
    have hfull : dir.isIncremental = false := by rw [Director.isIncremental, hscoring]
    obtain ⟨⟨dir', result⟩, hd⟩ := Director.exists_doMove_of_full hreg.lawful hm hfull (h.shadows ▸ hlisteners)
    obtain ⟨err, hrefused, -⟩ | ⟨_, -, rfl, -⟩ := Director.cases_doMove hd
    · cases hrefused.symm.trans hplan
    · exact ⟨dir', hd⟩
  have htotal : ∀ e ∈ shadows, ∀ s x, True → ∃ s' changed, e.listener.update s x = .ok (s', changed) ∧ True := by
    intro e he s x _
    obtain ⟨⟨s', changed⟩, h⟩ := hlisteners e he s x
    exact ⟨s', changed, h, trivial⟩
  refine ⟨fun h => h.exists_calculate (hf _), fun h => h.exists_assertScore hstored (hf _), hmove, ?_⟩
  intro m dir e check hm h hplan
  have hrecord : dir.record.Full f shadows := ⟨h.shadows, h.scoring⟩
  obtain ⟨dir₁, hd₁⟩ := hmove hm hrecord hplan
  obtain ⟨dir₂, score, hscored⟩ := (hrecord.doMove hd₁).exists_scored hstored (hf _) check
  have hfull₂ := (hrecord.doMove hd₁).scored hstored hscored
  -- The move is taken back where the genuine variables hold what it left them with.
  obtain ⟨err, -, herr, -⟩ | ⟨e', hplan', -, hperform⟩ := Director.cases_doMove hd₁
  · cases herr
  cases hplan.symm.trans hplan'
  obtain ⟨s, happly, hlike₁, -⟩ := Director.perform_alike hreg hrecord.shadows hperform
  obtain ⟨hstoredScore, heq⟩ := Director.scored_solution hscored
  have hlike₂ := (Director.alike_of_stored hreg hstoredScore).trans hlike₁
  obtain ⟨t, hundo, -⟩ := hm.reversible hreg.lawful hplan s happly dir₂.solution hlike₂.content
  obtain ⟨modified, rs, hrecordings⟩ := Director.exists_recordings_perform hperform
  have hrecordings₂ : dir₂.recordings = ⟨[e.undo], modified⟩ :: rs := by rw [heq, hrecordings]
  obtain ⟨known, hscoring₂⟩ := hfull₂.exists_known
  obtain ⟨t', hcascade⟩ := ShadowCascade.exists_cascadeAll htotal (fun _ => none) (s := t) trivial modified
  obtain ⟨dir₃, hd₃⟩ := Director.exists_undoRecording hscoring₂ hrecordings₂
    (bind_eq_ok_iff.2 ⟨t, hundo, rfl⟩) (hfull₂.shadows.symm ▸ hcascade)
  obtain ⟨dir₄, score', hd₄⟩ := (hfull₂.undoRecording hd₃).exists_assertScore hstored (hf _)
  cases check with
  | false => exact ⟨_, score, Director.evaluate_eq_ok_iff.2 ⟨dir₁, dir₂, dir₃, hd₁, hscored, hd₃, fun _ => rfl,
      fun h => absurd h Bool.false_ne_true⟩⟩
  | true =>
    exact ⟨_, score, Director.evaluate_eq_ok_iff.2
      ⟨dir₁, dir₂, dir₃, hd₁, hscored, hd₃, fun h => absurd h.symm Bool.false_ne_true,
        fun _ => ⟨dir₄, score', hd₄, rfl⟩⟩⟩

end Moves

end Genuine

namespace Running

variable {α : Type}

/-- A computation leaves the working solution like it was, and stops the run only by a mishap. -/
def Quiet (g : Genuine S V W) (facts : S → T) (D : Director S k → Prop) (x : Running S k α) : Prop :=
  ∀ r, r.Abides D → Ends x r (fun _ r' => r'.Abides D ∧ g.Alike facts r'.director.solution r.director.solution)
    fun e _ => e.IsMishap

namespace Quiet

/-- Counting moves is quiet. -/
theorem recordChoice (n : Nat) : Quiet g facts D (recordChoice n : Running S k Unit) := by
  intro r h
  have hfaults : Unfailing (Running.recordChoice n : Running S k Unit) := .forM fun _ _ => .recordMove _
  exact ((held_recordChoice n r h).and (hfaults r)).mono (fun _ _ hr' => ⟨hr'.1.1, hr'.1.2.alike⟩) fun _ _ he => .inl he.2

end Quiet

/-- As many moves are counted as there were to choose from, unless there are too many. -/
theorem ends_recordChoice_counts (n : Nat) (r : RunState S k) :
    Ends (recordChoice n) r (fun _ r' => r'.moves = r.moves + n ∧ r'.steps = r.steps)
      fun e _ => e = .faulted .overflow ∧ maxCount < r.moves + n := by
  have hall : ∀ (l : List Nat) (r : RunState S k), Ends (l.forM fun i => recordMove (i == 0)) r
      (fun _ r' => r'.moves = r.moves + l.length ∧ r'.steps = r.steps)
      fun e _ => e = .faulted .overflow ∧ maxCount < r.moves + l.length := by
    intro l
    induction l with
    | nil => exact fun _ => ⟨rfl, rfl⟩
    | cons i l ih =>
      intro r
      change Ends (recordMove (i == 0) >>= fun _ => l.forM fun i => recordMove (i == 0)) r _ _
      rw [ends_bind, ends_recordMove, List.length_cons]
      refine ⟨fun n hn => ?_, fun f hf => ?_⟩
      · obtain ⟨-, rfl⟩ := ite_eq_ok_iff.1 hn
        refine (ih _).mono (fun _ r' hr' => ⟨?_, hr'.2⟩) fun e _ he => ⟨he.1, ?_⟩
        · rw [hr'.1]
          exact Nat.add_right_comm ..
        · have hlt : maxCount < r.moves + 1 + l.length := he.2
          omega
      · obtain ⟨hlt, rfl⟩ := counted_eq_error_iff.1 hf
        exact ⟨rfl, by omega⟩
  have hrange := hall (List.range n) r
  rwa [List.length_range] at hrange

variable [PlanningSolution S k]
variable [∀ b, PlanningValue (V b)] [∀ b, DecidableEq (V b)] [∀ l, PlanningValue (W l)] [∀ l, DecidableEq (W l)]
variable {r : RunState S k} {s : S} {m : Move S} {c : Content V W}

namespace Quiet

/-- A step that ends is quiet. -/
theorem stepEnded (hD : g.Preserves D) (score : Score k) :
    Quiet g facts D (stepEnded score : Running S k Unit) := by
  refine fun r h => .stepEnded (fun r₁ n r₂ hr₁ hr₂ => ?_) fun f _ _ => .inl ⟨f, rfl⟩
  have h₁ := h.noted hD.journal hr₁
  have h₂ : { r₁ with steps := n, statistics := r₁.statistics.recordStep }.Abides D :=
    ⟨h₁.director, h₁.pending, h₁.asked⟩
  refine ⟨h₂.noted hD.journal hr₂, ?_⟩
  rw [hr₂.solution, hr₁.solution]
  exact .refl _

end Quiet

variable [DecidableEq B] [DecidableEq L]

namespace Quiet

variable (hreg : g.Regular facts shadows) (hD : g.Preserves D)
include hreg hD

/-- Asking for the score is quiet. -/
theorem calculate : Quiet g facts D (calculate : Running S k (Score k)) := by
  intro r h
  rw [ends_calculate]
  refine ⟨fun dir score hd => ?_, fun f _ => .inl ⟨f, rfl⟩⟩
  exact ⟨⟨hD.calculate h.director hd, h.pending, h.asked⟩, (Director.calculate_alike hreg hd).1⟩

/-- Checking the score after a step is quiet. -/
theorem assertStep : Quiet g facts D (assertStep : Running S k Unit) := by
  intro r h
  simp only [ends_assertStep, ends_assertScore]
  refine ⟨fun _ => ⟨fun dir score hd => ?_, fun dir c _ => .inr ⟨c, rfl⟩, fun f _ => .inl ⟨f, rfl⟩⟩,
    fun _ => ⟨h, .refl _⟩⟩
  exact ⟨h.direct (hD.assertScore h.director hd), Director.alike_of_stored hreg (Director.assertScore_solution hd).1⟩

/-- Looking at the working solution is quiet. -/
theorem updateBest : Quiet g facts D (updateBest : Running S k Bool) := by
  intro r h
  simp only [Running.updateBest, ends_bind]
  refine (calculate hreg hD r h).mono (fun score r₁ hr₁ => ?_) fun _ _ => id
  have habides : Ends (updateBestWith score) r₁ (fun _ r₂ => r₂.Abides D) fun e _ => e.IsMishap :=
    .updateBestWith (fun _ => (ends_setBest hD.journal hr₁.1 _ score).mono (fun _ _ => And.left) fun _ _ => id)
      fun _ => hr₁.1
  have hsame : Ends (updateBestWith score) r₁ (fun _ r₂ => r₂.director.solution = r₁.director.solution)
      fun _ _ => True := ends_updateBestWith_same
  refine (habides.and hsame).mono (fun _ r₂ hr₂ => ⟨hr₂.1, ?_⟩) fun _ _ => And.left
  rw [hr₂.2]
  exact hr₁.2

end Quiet

section Rated

variable (hreg : g.Regular facts shadows) (hD : ExhaustiveSearch.Settles g facts shadows D F)
variable (hrecord : ∀ {dir}, D dir → D dir.record)
include hreg hD

/-- Making a move leaves the genuine variables with what it leads to. -/
theorem ends_make_leadsTo (h : r.Abides D) (hm : g.LeadsTo s m c) (hlike : g.Alike facts r.director.solution s) :
    Ends (make m) r
      (fun _ r' => r'.Abides D ∧ g.content r'.director.solution = c ∧ facts r'.director.solution = facts s ∧
        r.SameCounts r')
      fun e _ => g.Excuses D False e := by
  obtain ⟨edit, hplan⟩ := hm.exists_plan hreg.governed hlike
  rw [ends_make]
  refine ⟨fun dir hd => ?_, fun dir err hd => ?_, fun f hf => ⟨.inl ⟨f, rfl⟩, fun hsafe => ?_⟩⟩
  · obtain ⟨hcontent, hfacts⟩ := hm.of_doMove hreg (hD.shadows h.director) hlike hd
    exact ⟨h.direct (hD.doMove hm.1 h.director hd), hcontent, hfacts, rfl, rfl⟩
  · obtain ⟨_, hrefused, -⟩ | ⟨_, -, hout, -⟩ := Director.cases_doMove hd
    · cases hrefused.symm.trans hplan
    · cases hout
  · obtain ⟨dir, hd⟩ := hsafe.doMove hm.1 h.director hplan
    cases hf.symm.trans hd

include hrecord

/-- Evaluating a move leaves the working solution like it was, and gives the score of what the move leads to. -/
theorem ends_evaluate_scoreOf (h : r.Abides D) (hm : g.LeadsTo s m c) (hlike : g.Alike facts r.director.solution s) :
    Ends (evaluate m) r
      (fun score r' => (r'.Abides D ∧ g.Alike facts r'.director.solution s ∧ r.SameCounts r') ∧
        g.ScoreOf facts D F c (facts s) score)
      fun e _ => g.Excuses D False e := by
  obtain ⟨edit, hplan⟩ := hm.exists_plan hreg.governed hlike
  have hsure : ∀ {y : Checked (Director S k × Except SolverError (Score k))} {e : Stop},
      r.director.evaluate m r.mode.assertsMoves = y → e.IsMishap → (∀ dir score, y ≠ .ok (dir, .ok score)) →
      g.Excuses D False e := by
    intro y e hy hmishap hne
    refine ⟨hmishap, fun hsafe => ?_⟩
    obtain ⟨dir, score, hd⟩ := hsafe.evaluate r.mode.assertsMoves hm.1 h.director hplan
    exact absurd (hy.symm.trans hd) (hne dir score)
  refine .evaluate (fun dir score r' hd hr' => ?_) (fun dir err hd => ?_)
    fun f hf => hsure hf (.inl ⟨f, rfl⟩) fun _ _ h => by cases h
  · have hdir := h.direct (hD.evaluate hm.1 h.director hd)
    obtain ⟨_, _, -, -, hback⟩ | ⟨_, hout, -⟩ | ⟨_, hout, -⟩ :=
      Director.cases_evaluate hreg hm.1 (hD.shadows h.director) hd
    · obtain ⟨dir₁, dir₂, hmove, hcalculate⟩ := Director.exists_of_evaluate hd
      have hrecorded := hrecord h.director
      have hdir₁ := hD.doMove hm.1 hrecorded hmove
      obtain ⟨hcontent, hfacts⟩ := hm.of_doMove hreg (hD.shadows hrecorded) hlike hmove
      refine ⟨⟨hdir.noted hD.journal hr', ?_, ?_⟩, dir₁, hdir₁, hcontent, hfacts, (hD.right hdir₁ hcalculate).symm⟩
      · rw [hr'.solution]
        exact hback.trans hlike
      · exact ⟨hr'.sameCounts.moves, hr'.sameCounts.steps⟩
    · cases hout
    · cases hout
  · obtain ⟨_, _, hout, -⟩ | ⟨refusal, -, hrefused, -⟩ | ⟨c, hout, -⟩ :=
      Director.cases_evaluate hreg hm.1 (hD.shadows h.director) hd
    · cases hout
    · cases hrefused.symm.trans hplan
    · cases hout
      exact hsure hd (.inr ⟨c, rfl⟩) fun _ _ h => by cases h

section Choices

variable {P : Type} {ps : List P} {move : P → Move S} {result : P → Content V W}

/-- Evaluating moves leaves the working solution like it was, and gives the scores of what they lead to. -/
theorem ends_evaluateAll_scoreOf (h : r.Abides D) (hlike : g.Alike facts r.director.solution s)
    (hps : ∀ p ∈ ps, g.LeadsTo s (move p) (result p)) :
    Ends (evaluateAll (ps.map move)) r
      (fun scored r' => (r'.Abides D ∧ g.Alike facts r'.director.solution s ∧ r.SameCounts r') ∧
        ∃ rated : List (P × Score k), scored = rated.map (fun p => (move p.1, p.2)) ∧ rated.map Prod.fst = ps ∧
          ∀ p ∈ rated, g.ScoreOf facts D F (result p.1) (facts s) p.2)
      fun e _ => g.Excuses D False e := by
  induction ps generalizing r with
  | nil => exact ⟨⟨h, hlike, rfl, rfl⟩, [], rfl, rfl, fun _ hp => absurd hp List.not_mem_nil⟩
  | cons p ps ih =>
    obtain ⟨hp, hps⟩ := List.forall_mem_cons.1 hps
    simp only [List.map_cons, evaluateAll, ends_bind, ends_pure]
    refine (ends_evaluate_scoreOf hreg hD hrecord h hp hlike).mono (fun score r₁ hr₁ => ?_) fun _ _ => id
    obtain ⟨⟨habides₁, hlike₁, hcounts₁⟩, hscore⟩ := hr₁
    refine (ih habides₁ hlike₁ hps).mono (fun scored r₂ hr₂ => ?_) fun _ _ => id
    obtain ⟨⟨habides₂, hlike₂, hcounts₂⟩, rated, rfl, hrated, hscores⟩ := hr₂
    exact ⟨⟨habides₂, hlike₂, hcounts₁.trans hcounts₂⟩, (p, score) :: rated, rfl, by rw [List.map_cons, hrated],
      List.forall_mem_cons.2 ⟨hscore, hscores⟩⟩

/-- A step makes the first of its moves with the best score; without any it leaves the working solution like it was. The
moves and the step are counted. -/
theorem ends_stepWithBest_rated (h : r.Abides D)
    (hps : ∀ p ∈ ps, g.LeadsTo r.director.solution (move p) (result p)) :
    Ends (stepWithBest (ps.map move)) r
      (fun made r' => r'.Abides D ∧ ∃ (rated : List (P × Score k)) (best : Option (P × Score k)),
        rated.map Prod.fst = ps ∧
        (∀ p ∈ rated, g.ScoreOf facts D F (result p.1) (facts r.director.solution) p.2) ∧
        FirstBest Prod.snd rated best ∧ made = best.isSome ∧
        g.content r'.director.solution = best.elim (g.content r.director.solution) (fun p => result p.1) ∧
        facts r'.director.solution = facts r.director.solution ∧
        (made = true → r'.moves = r.moves + ps.length ∧ r'.steps = r.steps + 1))
      fun e _ => g.Excuses D (maxCount < r.moves + ps.length ∨ maxCount < r.steps + 1) e := by
  have hP := hD.toPreserves
  simp only [stepWithBest, ends_bind]
  refine (ends_evaluateAll_scoreOf hreg hD hrecord h (.refl _) hps).mono (fun scored r₁ hr₁ => ?_)
    fun _ _ he => he.mono False.elim
  obtain ⟨⟨habides₁, hlike₁, hcounts₁⟩, rated, rfl, hrated, hscores⟩ := hr₁
  have hlength : rated.length = ps.length := by rw [← hrated, List.length_map]
  rw [firstBest_map move]
  have hfirst := firstBest_first rated
  cases hbest : firstBest rated with
  | none =>
    rw [hbest] at hfirst
    exact ⟨habides₁, rated, none, hrated, hscores, hfirst, rfl, hlike₁.content, hlike₁.facts,
      fun h => absurd h Bool.false_ne_true⟩
  | some p =>
    rw [hbest] at hfirst
    have hmem : p.1 ∈ ps := by
      rw [← hrated]
      exact List.mem_map_of_mem hfirst.mem
    simp only [Option.map_some, ends_bind]
    rw [List.length_map, hlength]
    have hcounted : Quiet g facts D (recordChoice ps.length : Running S k Unit) := Quiet.recordChoice _
    refine ((hcounted r₁ habides₁).and (ends_recordChoice_counts ps.length r₁)).mono (fun _ r₂ hr₂ => ?_)
      fun e _ he => ⟨he.1, fun _ => ⟨he.2.1, .inl (hcounts₁.moves ▸ he.2.2)⟩⟩
    obtain ⟨⟨habides₂, hlike₂⟩, hmoves₂, hsteps₂⟩ := hr₂
    refine (ends_make_leadsTo hreg hD habides₂ (hps p.1 hmem) (hlike₂.trans hlike₁)).mono (fun _ r₃ hr₃ => ?_)
      fun _ _ he => he.mono False.elim
    obtain ⟨habides₃, hcontent₃, hfacts₃, hcounts₃⟩ := hr₃
    refine ((Quiet.calculate hreg hP r₃ habides₃).and ends_calculate_counts).mono (fun score r₄ hr₄ => ?_)
      fun e _ he => ⟨he.1, fun hsafe => absurd (hsafe.calculate habides₃.director) he.2⟩
    obtain ⟨⟨habides₄, hlike₄⟩, hcounts₄⟩ := hr₄
    have hsteps₄ : r₄.steps = r.steps := by rw [hcounts₄.steps, hcounts₃.steps, hsteps₂, hcounts₁.steps]
    have hended : Quiet g facts D (stepEnded score : Running S k Unit) := Quiet.stepEnded hP score
    refine ((hended r₄ habides₄).and (ends_stepEnded_counts score)).mono (fun _ r₅ hr₅ => ?_)
      fun e _ he => ⟨he.1, fun _ => ⟨he.2.1, .inr (hsteps₄ ▸ he.2.2)⟩⟩
    obtain ⟨⟨habides₅, hlike₅⟩, hmoves₅, hsteps₅⟩ := hr₅
    refine ((Quiet.assertStep hreg hP r₅ habides₅).and ends_assertStep_counts).mono (fun _ r₆ hr₆ => ?_)
      fun e _ he => ⟨he.1, fun hsafe => absurd (hsafe.assertScore habides₅.director) he.2⟩
    obtain ⟨⟨habides₆, hlike₆⟩, hcounts₆⟩ := hr₆
    have hlike := (hlike₆.trans hlike₅).trans hlike₄
    refine ⟨habides₆, rated, some p, hrated, hscores, hfirst, rfl, hlike.content.trans hcontent₃,
      hlike.facts.trans hfacts₃, fun _ => ⟨?_, ?_⟩⟩
    · rw [hcounts₆.moves, hmoves₅, hcounts₄.moves, hcounts₃.moves, hmoves₂, hcounts₁.moves]
    · rw [hcounts₆.steps, hsteps₅, hsteps₄]

end Choices

end Rated

omit [∀ b, PlanningValue (V b)] [∀ b, DecidableEq (V b)] [∀ l, PlanningValue (W l)] [∀ l, DecidableEq (W l)]
  [DecidableEq B] [DecidableEq L] in
/-- Only the score may stop a run that looks at the working solution. -/
theorem ends_updateBest_scored :
    Ends updateBest r (fun _ _ => True) fun _ _ => ¬ ∃ dir score, r.director.calculate = .ok (dir, score) := by
  simp only [updateBest, ends_bind]
  refine ends_calculate_counts.mono (fun score r₁ _ => ?_) fun _ _ => id
  exact ends_updateBestWith_same.mono (fun _ _ _ => trivial) fun _ _ => id

/-- A step that makes the best of some moves asks no run to stop. -/
theorem unstopping_stepWithBest (ms : List (Move S)) : Unstopping (stepWithBest ms : Running S k Bool) := by
  have hevaluate : ∀ m : Move S, Unstopping (evaluate m : Running S k (Score k)) := fun m =>
    .bind .get fun _ => .bind (Unstopping.direct _) fun out => by
      cases out with
      | ok score => exact .bind (Unstopping.logAt _ _) fun _ => .pure _
      | error e => exact .fail _
  have hall : ∀ ms : List (Move S), Unstopping (evaluateAll ms : Running S k _) := by
    intro ms
    induction ms with
    | nil => exact .pure _
    | cons m ms ih => exact .bind (hevaluate m) fun _ => .bind ih fun _ => .pure _
  have hmake : ∀ m : Move S, Unstopping (make m : Running S k Unit) := fun m =>
    .bind (Unstopping.direct _) fun out => by
      cases out with
      | ok _ => exact .pure _
      | error e => exact .fail _
  refine .bind (hall ms) fun scored => ?_
  cases firstBest scored with
  | none => exact .pure _
  | some p =>
    exact .bind (.forM fun _ _ => Unstopping.recordMove _) fun _ => .bind (hmake _) fun _ =>
      .bind Unstopping.calculate fun _ => .bind (Unstopping.stepEnded _) fun _ =>
        .bind Unstopping.assertStep fun _ => .pure _

end Running

end Planning
