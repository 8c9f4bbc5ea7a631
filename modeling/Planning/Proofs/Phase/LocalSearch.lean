import Planning.Proofs.Phase.Candidates
import Planning.Proofs.Phase.Tended
import Planning.Proofs.Selector.Listed

/-!
# Moves that stop a local search

The moves of a step are listed for the working solution, and each is asked whether it is doable before it is
evaluated. The directors of the threads follow the working solution, so that what can be made on one of them can be
made on all. A move that says it is doable but cannot be made stops the search: that is a swap of values that are not
in range for the other entity, and nothing else.
-/

namespace Planning

open Checked

variable {S : Type} {k : ScoreKind} [PlanningSolution S k]
variable {B L F : Type} {V : B → Type} {W : L → Type} [DecidableEq B] [DecidableEq L]
variable [∀ b, PlanningValue (V b)] [∀ b, DecidableEq (V b)] [∀ l, PlanningValue (W l)] [∀ l, DecidableEq (W l)]
variable {g : Genuine S V W} {facts : S → F} {shadows : ShadowCascade S} {s t : S} {m : Move S}

/-- What is picked was accepted. -/
theorem Forager.mem_of_pick {f : Forager k} {gen gen' : Generator} {x : Nat × Score k}
    (h : f.pick.run gen = .ok (some x, gen')) : x ∈ f.accepted := by
  have hties : ∀ {y}, y ∈ f.ties → y ∈ f.accepted := by
    intro y hy
    unfold ties at hy
    split at hy
    · cases hy
    · exact List.mem_reverse.1 (List.mem_filter.1 hy).1
  unfold pick at h
  split at h
  · obtain ⟨hx, -⟩ := Prod.mk.inj (Except.ok.inj h)
    exact List.mem_of_mem_head? hx
  · split at h
    · obtain ⟨hx, -⟩ := Prod.mk.inj (Except.ok.inj h)
      exact hties (List.mem_of_mem_head? hx)
    · split at h
      · obtain ⟨hx, -⟩ := Prod.mk.inj (Except.ok.inj h)
        cases hx
      · rw [StateT.run_bind] at h
        obtain ⟨⟨i, gen₁⟩, -, h⟩ := bind_eq_ok_iff.1 h
        obtain ⟨hx, -⟩ := Prod.mk.inj (Except.ok.inj h)
        exact hties (List.mem_of_getElem? hx)

namespace Genuine

omit [DecidableEq B] [DecidableEq L] in
/-- A move that is listed is listed in a solution that is alike. -/
theorem Listed.alike (hgov : g.Governed facts shadows) (h : g.Alike facts s t) (hm : g.Listed s m) :
    g.Listed t m := by
  cases hm with
  | change b hlegal =>
    refine .change b ?_
    unfold BasicMove.Legal at hlegal ⊢
    rwa [← (hgov.contains h).1 b]
  | swap b hmem =>
    refine .swap b ?_
    have hget : (g.basic b).get? s = (g.basic b).get? t := congrArg (fun c => c.values b) h.content
    have hcount : (g.basic b).count s = (g.basic b).count t := congrArg (fun c => c.valueCount b) h.content
    have hmovable : (g.basic b).movable s = (g.basic b).movable t := by
      rw [BasicVariable.movable, BasicVariable.movable, hcount, (hgov.pinned h).1 b]
    have hamong : ∀ es, BasicMove.swapsAmong (g.basic b) s es = BasicMove.swapsAmong (g.basic b) t es := by
      intro es
      induction es with
      | nil => rfl
      | cons e es ih => rw [BasicMove.swapsAmong, BasicMove.swapsAmong, ih, hget]
    rwa [BasicMove.swaps, ← hamong, ← hmovable]
  | list l m => exact .list l m

omit [DecidableEq B] [DecidableEq L] in
/-- A move that says it is doable but cannot be planned is a misfit. -/
theorem Listed.misfit (hm : g.Listed s m) (hdoable : m.isDoable s = true) {err : MoveError}
    (hplan : m.plan s = .error err) : g.Misfit s m := by
  by_contra hfit
  obtain ⟨e, he⟩ := hm.exists_plan hdoable hfit
  rw [hplan] at he
  cases he

/-- A run that stops since a move cannot be made stops at a misfit of its working solution that says it is doable. -/
def Blocked (g : Genuine S V W) (e : Stop) (r : RunState S k) : Prop :=
  ∀ err, e = .failed (.moveApplication err) → ∃ m, g.Misfit r.director.solution m ∧
    m.isDoable r.director.solution = true ∧ m.plan r.director.solution = .error err

omit [PlanningSolution S k] [DecidableEq B] [DecidableEq L] [∀ l, PlanningValue (W l)] [∀ l, DecidableEq (W l)] in
/-- A fault is no move that cannot be made. -/
theorem blocked_of_faulted {e : Stop} (r : RunState S k) (h : ∃ f, e = .faulted f) : g.Blocked e r := by
  obtain ⟨f, rfl⟩ := h
  intro err herr
  cases herr

omit [PlanningSolution S k] [DecidableEq B] [DecidableEq L] [∀ l, PlanningValue (W l)] [∀ l, DecidableEq (W l)] in
/-- A score that is found wrong is no move that cannot be made. -/
theorem blocked_of_corrupt (c : ScoreCorruption) (r : RunState S k) : g.Blocked (.failed (.scoreCorruption c)) r := by
  intro err herr
  cases herr

omit [DecidableEq B] [DecidableEq L] in
/-- A listed move that says it is doable and cannot be planned blocks a run. -/
theorem Listed.blocked (hgov : g.Governed facts shadows) (hm : g.Listed s m) (hdoable : m.isDoable s = true)
    {err : MoveError} (hplan : m.plan s = .error err) {r : RunState S k} (h : g.Alike facts r.director.solution s) :
    g.Blocked (.failed (.moveApplication err)) r := by
  intro err' herr
  cases herr
  have hdoable' : m.isDoable r.director.solution = true := by rw [hm.moves.isDoable_alike hgov h, hdoable]
  have hplan' := hm.moves.plan_alike hgov h.symm hplan
  exact ⟨m, (hm.alike hgov h.symm).misfit hdoable' hplan', hdoable', hplan'⟩

end Genuine

namespace LocalSearch

open Running

variable {r : RunState S k} {a : Acceptor k} {last best : Score k} {moves : List (Move S)}

/-- The moves that a forager gathered can be planned. -/
def Vetted (s : S) (moves : List (Move S)) (f : Forager k) : Prop :=
  ∀ x ∈ f.accepted, ∃ m, moves[x.1]? = some m ∧ ∃ e, m.plan s = .ok e

omit [PlanningSolution S k] in
/-- A move that can be planned may be gathered. -/
theorem Vetted.add {f : Forager k} (h : Vetted s moves f) {place : Nat} (hm : moves[place]? = some m) {e : Edit S}
    (hplan : m.plan s = .ok e) (score : Score k) : Vetted s moves (f.addCompared place score last best) := by
  intro x hx
  rcases List.mem_cons.1 hx with rfl | hx
  · exact ⟨m, hm, e, hplan⟩
  · exact h x hx

omit [DecidableEq B] [DecidableEq L] [∀ b, PlanningValue (V b)] [∀ b, DecidableEq (V b)]
  [∀ l, PlanningValue (W l)] [∀ l, DecidableEq (W l)] [PlanningSolution S k] in
/-- Asking the acceptor leaves a run calm. -/
theorem ends_accepted (h : r.Calm g facts shadows s) (score : Score k) :
    Ends (accepted a last best score m) r (fun _ r' => r'.Calm g facts shadows s) fun e _ => ∃ f, e = .faulted f := by
  simp only [accepted, ends_bind, ends_get, ends_draw, ends_recordMove, ends_pure]
  exact ⟨fun _ _ _ => ⟨fun _ _ => h.congr rfl rfl rfl, fun f _ => ⟨f, rfl⟩⟩, fun f _ => ⟨f, rfl⟩⟩

/-- Going through the candidates leaves a run calm and gathers moves that can be planned, or stops at a misfit. -/
theorem ends_scan (hreg : g.Regular facts shadows) {ms : List (Move S)} {place : Nat} {f : Forager k}
    (h : r.Calm g facts shadows s) (hlisted : ∀ m ∈ ms, g.Listed s m) (hms : ms = moves.drop place)
    (hf : Vetted s moves f) :
    Ends (scan a last best f place ms) r (fun f' r' => r'.Calm g facts shadows s ∧ Vetted s moves f') g.Blocked := by
  induction ms generalizing r place f with
  | nil => exact ⟨h, hf⟩
  | cons m ms ih =>
    obtain ⟨hm, hlisted⟩ := List.forall_mem_cons.1 hlisted
    have hplace : moves[place]? = some m := by rw [← List.head?_drop, ← hms, List.head?_cons]
    have hrest : ms = moves.drop (place + 1) := by rw [← List.tail_drop, ← hms, List.tail_cons]
    simp only [scan, ends_bind, ends_get, ends_ite]
    refine ⟨fun _ => ih h hlisted hrest hf, fun hdoable => ?_⟩
    have hdoable : m.isDoable r.director.solution = true := by simpa using hdoable
    refine (ends_evaluate_calm hreg h hm.moves).mono (fun score r' hr' => ?_) fun e r' he => ?_
    · obtain ⟨hcalm, hplan⟩ := hr'
      obtain ⟨e, hplan⟩ := hm.moves.exists_plan_alike hreg.governed h.alike hplan
      refine (ends_accepted hcalm score).mono (fun isAccepted r'' hr'' => ⟨fun _ => ⟨fun _ => ?_, fun _ => ?_⟩, fun _ => ?_⟩)
        fun _ r'' => Genuine.blocked_of_faulted r''
      · exact ⟨hr'', hf.add hplace hplan score⟩
      · exact ih hr'' hlisted hrest (hf.add hplace hplan score)
      · exact ih hr'' hlisted hrest hf
    · rcases he with hfault | ⟨err, rfl, hplan, hcalm⟩ | ⟨c, rfl, -⟩
      · exact Genuine.blocked_of_faulted r' hfault
      · exact (hm.alike hreg.governed h.alike.symm).blocked hreg.governed hdoable hplan
          (hcalm.alike.trans h.alike.symm)
      · exact Genuine.blocked_of_corrupt c r'

/-- The director of a thread has the listeners, and its solution is like a given one. -/
def Follows (g : Genuine S V W) (facts : S → F) (shadows : ShadowCascade S) (s : S) (fork : Director S k) : Prop :=
  fork.shadows = shadows ∧ g.Alike facts fork.solution s

/-- The scores of moves for which there is one are those of moves that can be planned. -/
def Scored (s : S) (scored : List (Move S × Option (Score k))) : Prop :=
  ∀ m score, (m, some score) ∈ scored → ∃ e, m.plan s = .ok e

/-- The director of a thread follows the solution while it scores listed moves. Those with a score can be planned, and
one that cannot be made says it is doable. -/
theorem scores_listed (hreg : g.Regular facts shadows) (check : Bool) :
    Scores (k := k) check (g.Listed s) (Follows g facts shadows s)
      (fun m score => ∀ n, score = some n → ∃ e, m.plan s = .ok e)
      fun e => ∀ err, e = .moveApplication err → ∃ m, g.Listed s m ∧ m.isDoable s = true ∧ m.plan s = .error err where
  idle _ _ _ _ := nofun
  scored hm hfollows _ hevaluate := by
    obtain ⟨hshadows, hlike⟩ := hfollows
    have hs := (Director.shadows_evaluate hevaluate).trans hshadows
    rcases Director.cases_evaluate hreg hm.moves hshadows hevaluate with
      ⟨score, e, -, hplan, hback⟩ | ⟨_, hout, -⟩ | ⟨_, hout, -⟩
    · exact ⟨⟨hs, hback.trans hlike⟩, fun _ _ => hm.moves.exists_plan_alike hreg.governed hlike ⟨e, hplan⟩⟩
    · cases hout
    · cases hout
  refused {m} _ _ _ hm hfollows hdoable hevaluate := by
    obtain ⟨hshadows, hlike⟩ := hfollows
    rcases Director.cases_evaluate hreg hm.moves hshadows hevaluate with
      ⟨_, _, hout, -⟩ | ⟨err, hout, hplan, -⟩ | ⟨c, hout, -⟩
    · cases hout
    · cases hout
      intro err' heq
      cases heq
      rw [hm.moves.isDoable_alike hreg.governed hlike] at hdoable
      exact ⟨m, hm, hdoable, hm.moves.plan_alike hreg.governed hlike hplan⟩
    · cases hout
      exact fun _ => nofun

/-- Scoring a part of the moves on each of the directors scores moves that can be planned, or stops at one that
cannot. -/
theorem of_scoreParts (hreg : g.Regular facts shadows) {check : Bool} {size : Nat} {forks : List (Director S k)}
    {ms : List (Move S)} {out : Except SolverError (List (Director S k) × List (Option (Score k)))}
    (hforks : ∀ fork ∈ forks, Follows g facts shadows s fork) (hlisted : ∀ m ∈ ms, g.Listed s m)
    (h : scoreParts check size ms forks = .ok out) :
    (∀ forks' scores, out = .ok (forks', scores) →
      (∀ fork ∈ forks', Follows g facts shadows s fork) ∧ Scored s (ms.zip scores)) ∧
    ∀ err, out = .error (.moveApplication err) →
      ∃ m, g.Listed s m ∧ m.isDoable s = true ∧ m.plan s = .error err := by
  obtain ⟨hok, herror⟩ := (scores_listed hreg check).of_scoreParts hforks hlisted h
  refine ⟨fun forks' scores hout => ?_, fun err hout => herror _ hout err rfl⟩
  obtain ⟨hforks', -, hscores⟩ := hok _ _ hout
  exact ⟨hforks', fun m score hmem => of_mem_zip hscores hmem score rfl⟩

omit [DecidableEq B] [DecidableEq L] [∀ b, PlanningValue (V b)] [∀ b, DecidableEq (V b)]
  [∀ l, PlanningValue (W l)] [∀ l, DecidableEq (W l)] [PlanningSolution S k] in
/-- Going through candidates with scores leaves a run calm and gathers moves that can be planned. -/
theorem ends_scanScored {ms : List (Move S × Option (Score k))} {place : Nat} {f : Forager k} {isDone : Bool}
    (h : r.Calm g facts shadows s) (hscored : Scored s ms)
    (hms : ∀ i x, ms[i]? = some x → moves[place + i]? = some x.1) (hf : Vetted s moves f) :
    Ends (scanScored a last best f isDone place ms) r (fun f' r' => r'.Calm g facts shadows s ∧ Vetted s moves f')
      fun e _ => ∃ f, e = .faulted f := by
  induction ms generalizing r place f isDone with
  | nil => exact ⟨h, hf⟩
  | cons x ms ih =>
    obtain ⟨m, score⟩ := x
    have hplace : moves[place]? = some m := hms 0 _ rfl
    have hrest : ∀ i x, ms[i]? = some x → moves[place + 1 + i]? = some x.1 := by
      intro i x hx
      rw [Nat.add_assoc, Nat.add_comm 1 i]
      exact hms (i + 1) x hx
    have hscoredRest : Scored s ms := fun m' score' hmem => hscored m' score' (List.mem_cons_of_mem _ hmem)
    cases score with
    | none => exact ih h hscoredRest hrest hf
    | some score =>
      obtain ⟨e, hplan⟩ := hscored m score List.mem_cons_self
      simp only [scanScored, ends_bind, ends_ite, ends_recordMove]
      refine ⟨fun _ => ⟨fun n _ => ih (h.congr rfl rfl rfl) hscoredRest hrest hf, fun f _ => ⟨f, rfl⟩⟩, fun _ => ?_⟩
      refine (ends_accepted h score).mono (fun isAccepted r' hr' => ⟨fun _ => ?_, fun _ => ?_⟩) fun _ _ => id
      · exact ih hr' hscoredRest hrest (hf.add hplace hplan score)
      · exact ih hr' hscoredRest hrest hf

variable {x : LocalSearch S k} {st : SearchState S k}

omit [PlanningSolution S k] [DecidableEq B] [DecidableEq L] in
/-- What is picked among moves that can be planned can be planned. -/
theorem ends_pick {f : Forager k} (h : r.Calm g facts shadows s) (hlisted : ∀ m ∈ moves, g.Listed s m)
    (hf : Vetted s moves f) :
    Ends (Running.draw f.pick) r
      (fun picked r' => r'.Calm g facts shadows s ∧
        ∀ m, (picked.bind fun y => moves[y.1]?) = some m → g.Listed s m ∧ ∃ e, m.plan s = .ok e)
      fun e _ => ∃ f, e = .faulted f := by
  rw [ends_draw]
  refine ⟨fun picked gen hpicked => ⟨h.congr rfl rfl rfl, fun m hm => ?_⟩, fun f _ => ⟨f, rfl⟩⟩
  obtain ⟨y, rfl, hy⟩ := Option.bind_eq_some_iff.1 hm
  obtain ⟨m', hm', hplan⟩ := hf y (Forager.mem_of_pick hpicked)
  rw [hy] at hm'
  cases hm'
  exact ⟨hlisted m (List.mem_of_getElem? hy), hplan⟩

/-- What is picked can be planned, and the directors of the threads follow the solution. -/
theorem ends_forage (hreg : g.Regular facts shadows) (h : r.Calm g facts shadows s)
    (hforks : ∀ fork ∈ st.forks, Follows g facts shadows s fork) (hlisted : ∀ m ∈ moves, g.Listed s m) :
    Ends (x.forage st moves) r
      (fun out r' => r'.Calm g facts shadows s ∧ (∀ fork ∈ out.1.forks, Follows g facts shadows s fork) ∧
        ∀ m, out.2 = some m → g.Listed s m ∧ ∃ e, m.plan s = .ok e) g.Blocked := by
  have hstart : Vetted s moves x.forager.stepStarted := fun _ hmem => absurd hmem List.not_mem_nil
  simp only [forage, ends_bind, ends_get, ends_ite, ends_pure, ends_checked]
  refine ⟨fun _ => ?_, fun _ => ⟨fun out hparts => ?_, fun f _ => Genuine.blocked_of_faulted _ ⟨f, rfl⟩⟩⟩
  · refine (ends_scan hreg h hlisted rfl hstart).mono (fun f r' hr' => ?_) fun _ _ => id
    exact (ends_pick hr'.1 hlisted hr'.2).mono (fun _ r'' hr'' => ⟨hr''.1, hforks, hr''.2⟩)
      fun _ r'' => Genuine.blocked_of_faulted r''
  · obtain ⟨hok, herror⟩ := of_scoreParts hreg hforks hlisted hparts
    cases out with
    | error e =>
      rw [ends_bind, ends_fail]
      intro err herr
      cases herr
      obtain ⟨m, hm, hdoable, hplan⟩ := herror err rfl
      exact hm.blocked hreg.governed hdoable hplan h.alike err rfl
    | ok parts =>
      obtain ⟨hforks', hscored⟩ := hok _ _ rfl
      have hplaces : ∀ i y, (moves.zip parts.2)[i]? = some y → moves[0 + i]? = some y.1 := by
        intro i y hy
        rw [Nat.zero_add]
        exact (List.getElem?_zip_eq_some.1 hy).1
      simp only [ends_bind, ends_pure]
      refine (ends_scanScored h hscored hplaces hstart).mono (fun f r' hr' => ?_) fun e r' =>
        Genuine.blocked_of_faulted r'
      exact (ends_pick hr'.1 hlisted hr'.2).mono (fun _ r'' hr'' => ⟨hr''.1, hforks', hr''.2⟩)
        fun _ r'' => Genuine.blocked_of_faulted r''

/-- Between two steps the problem is in order and the directors of the threads follow the working solution. -/
structure Poised (g : Genuine S V W) (facts : S → F) (shadows : ShadowCascade S) (st : SearchState S k)
    (r : RunState S k) : Prop where
  /-- The problem is in order. -/
  tended : r.Tended g facts shadows
  /-- The directors of the threads follow the working solution. -/
  forks : ∀ fork ∈ st.forks, Follows g facts shadows r.director.solution fork

omit [PlanningSolution S k] [DecidableEq B] [DecidableEq L] [∀ b, PlanningValue (V b)] [∀ b, DecidableEq (V b)]
  [∀ l, PlanningValue (W l)] [∀ l, DecidableEq (W l)] in
/-- Directors that follow a solution follow one that is alike. -/
theorem Follows.calm {fork : Director S k} (hfork : Follows g facts shadows s fork) (h : r.Calm g facts shadows s) :
    Follows g facts shadows r.director.solution fork := ⟨hfork.1, hfork.2.trans h.alike.symm⟩

omit [PlanningSolution S k] [DecidableEq B] [DecidableEq L] [∀ b, PlanningValue (V b)] [∀ b, DecidableEq (V b)]
  [∀ l, PlanningValue (W l)] [∀ l, DecidableEq (W l)] in
/-- Each of several directors follows the solution of the director that they are made from. -/
theorem follows_fork {dir fork : Director S k} (hs : dir.shadows = shadows) {threads : Nat}
    (hmem : fork ∈ LocalSearch.fork threads dir) : Follows g facts shadows dir.solution fork := by
  unfold LocalSearch.fork at hmem
  split at hmem
  · cases hmem
  · obtain rfl := List.eq_of_mem_replicate hmem
    exact ⟨hs, .refl _⟩

/-- A move that can be planned is made on all directors. -/
theorem ends_finishStep (hreg : g.Regular facts shadows) (h : r.Calm g facts shadows s)
    (hforks : ∀ fork ∈ st.forks, Follows g facts shadows s fork) (hm : g.Moves m) (hplan : ∃ e, m.plan s = .ok e) :
    Ends (finishStep st m) r (Poised g facts shadows) g.Blocked := by
  have hplan' := hm.exists_plan_alike hreg.governed h.alike.symm hplan
  have hrefused : ∀ {dir dir' : Director S k} {err}, g.Alike facts dir.solution s →
      dir.doMove m ≠ .ok (dir', .error err) := by
    intro dir dir' err hlike hmove
    obtain ⟨e, he⟩ := hm.exists_plan_alike hreg.governed hlike.symm hplan
    rcases Director.cases_doMove hmove with ⟨err', hrefusal, -, -⟩ | ⟨_, -, hnone, -⟩
    · rw [he] at hrefusal
      cases hrefusal
    · cases hnone
  simp only [finishStep, ends_bind, ends_get, ends_make, ends_discard, ends_pure]
  refine ⟨fun dir hmove => ?_, fun dir err hmove => absurd hmove (hrefused h.alike),
    fun f _ => Genuine.blocked_of_faulted _ ⟨f, rfl⟩⟩
  have hdir : dir.shadows = shadows := by
    rcases Director.cases_doMove hmove with ⟨err', -, hnone, -⟩ | ⟨e, -, -, hperform⟩
    · cases hnone
    · obtain ⟨-, -, -, hs⟩ := Director.perform_alike hreg h.tended.shadows hperform
      exact hs
  have hmoved : { r with director := dir }.Calm g facts shadows dir.solution :=
    ⟨⟨hdir, h.tended.pending, h.tended.asked⟩, .refl _⟩
  -- The directors of the threads make the move as the director of the run did.
  have hmake : Ends (st.forks.mapM (makeOnFork m)) { r with director := dir }
      (fun forks r' => r'.Calm g facts shadows dir.solution ∧
        ∀ fork ∈ forks, Follows g facts shadows dir.solution fork) g.Blocked := by
    refine .mapM (fun fork hfork r' hr' => ?_) hmoved
    obtain ⟨hshadows, hlike⟩ := hforks fork hfork
    simp only [makeOnFork, ends_bind, ends_checked]
    refine ⟨fun out hfork => ?_, fun f _ => Genuine.blocked_of_faulted _ ⟨f, rfl⟩⟩
    obtain ⟨fork', result⟩ := out
    obtain ⟨rfl, hlike', -, hshadows'⟩ := Director.doMove_alike hreg hm h.tended.shadows hshadows
      (h.alike.trans hlike.symm) hmove hfork
    exact ⟨hr', hshadows', hlike'.symm⟩
  refine hmake.mono (fun forks r₁ hr₁ => ?_) fun _ _ => id
  refine (ends_calculate_calm hreg hr₁.1).mono (fun score r₂ hr₂ => ?_) fun _ r' => Genuine.blocked_of_faulted r'
  refine (ends_stepEnded_calm hr₂ score).mono (fun _ r₃ hr₃ => ?_) fun _ r' => Genuine.blocked_of_faulted r'
  refine (ends_assertStep_calm hreg hr₃).mono (fun _ r₄ hr₄ => ?_) fun e r' he => ?_
  · refine (ends_updateBestWith_calm hr₄ score).mono (fun _ r₅ hr₅ => ?_) fun _ _ => id
    exact ⟨hr₅.tended, fun fork hfork => (hr₁.2 fork hfork).calm hr₅⟩
  · rcases he with hfault | ⟨c, rfl, -⟩
    · exact Genuine.blocked_of_faulted r' hfault
    · exact Genuine.blocked_of_corrupt c r'

omit [∀ b, PlanningValue (V b)] [∀ b, DecidableEq (V b)] [∀ l, PlanningValue (W l)] [∀ l, DecidableEq (W l)] in
/-- Starting anew from the working solution leaves the search poised. -/
theorem ends_restart (hreg : g.Regular facts shadows) (h : r.Tended g facts shadows) :
    Ends (x.restart st) r (Poised g facts shadows) fun e _ => ∃ f, e = .faulted f := by
  simp only [restart, ends_bind, ends_get, ends_pure]
  refine (ends_calculate_calm hreg ⟨h, .refl _⟩).mono (fun score r' hr' => ?_) fun _ _ => id
  exact ⟨hr'.tended, fun fork => follows_fork hr'.tended.shadows⟩

/-- The part of a step behind the changes of the problem. -/
def stepOn (x : LocalSearch S k) (st : SearchState S k) : Running S k (Option (SearchState S k)) := do
  if (← get).isPhaseTerminated x.termination then return none
  Running.stepStarted
  let r ← get
  let moves ← Running.draw (x.selector.moves r.director.solution)
  if moves.isEmpty then
    Running.report .debug "empty_neighborhood" fun _ => [("step", .number r.steps)]
    return none
  let (st, picked) ← x.forage st moves
  match picked with
  | none =>
    Running.report .debug "no_accepted_move" fun _ => [("step", .number r.steps)]
    return none
  | some m => return some (← finishStep st m)

/-- A step takes in changes of the problem, starts anew if there were any, and goes on. -/
theorem step_eq (x : LocalSearch S k) (st : SearchState S k) : x.step st = (do
    let changes ← Running.takeChanges
    let st ← if changes = 0 then pure st else x.restart st
    x.stepOn st) := by
  unfold step
  congr 1

/-- The part of a step behind the changes of the problem leaves the search poised, or stops at a misfit. -/
theorem ends_stepOn (hreg : g.Regular facts shadows) (hcoherent : g.Coherent) (hx : g.Selects x.selector)
    (h : Poised g facts shadows st r) :
    Ends (x.stepOn st) r (fun st' r' => ∀ st'', st' = some st'' → Poised g facts shadows st'' r') g.Blocked := by
  have hdone : ∀ r' : RunState S k, ∀ st'', none = some st'' → Poised g facts shadows st'' r' := by
    intro r' st'' hst
    cases hst
  simp only [stepOn, ends_bind, ends_get, ends_ite, ends_pure]
  refine ⟨fun _ => hdone r, fun _ => .tell fun r₁ hr₁ => ?_⟩
  have htended := h.tended.noted hr₁
  have hforks : ∀ fork ∈ st.forks, Follows g facts shadows r₁.director.solution fork := by
    rw [hr₁.solution]
    exact h.forks
  rw [ends_draw]
  refine ⟨fun moves gen hmoves => ?_, fun f _ => Genuine.blocked_of_faulted _ ⟨f, rfl⟩⟩
  have hcalm : { r₁ with generator := gen }.Calm g facts shadows r₁.director.solution :=
    ⟨⟨htended.shadows, htended.pending, htended.asked⟩, .refl _⟩
  have hlisted : ∀ m ∈ moves, g.Listed r₁.director.solution m := fun m hm => hx.listed hcoherent hmoves hm
  refine ⟨fun _ => .report fun r' _ => hdone r', fun _ => ?_⟩
  refine (ends_forage hreg hcalm hforks hlisted).mono (fun out r₂ hr₂ => ?_) fun _ _ => id
  obtain ⟨st₂, picked⟩ := out
  obtain ⟨hcalm₂, hforks₂, hpicked⟩ := hr₂
  cases picked with
  | none =>
    simp only [ends_bind, ends_pure]
    exact .report fun r' _ => hdone r'
  | some m =>
    obtain ⟨hm, hplan⟩ := hpicked m rfl
    simp only [ends_bind, ends_pure]
    refine (ends_finishStep hreg hcalm₂ hforks₂ hm.moves hplan).mono (fun st₃ r₃ hr₃ st'' hst => ?_) fun _ _ => id
    cases hst
    exact hr₃

/-- A step leaves the search poised, or stops at a misfit. -/
theorem ends_step (hreg : g.Regular facts shadows) (hcoherent : g.Coherent) (hx : g.Selects x.selector)
    (h : Poised g facts shadows st r) :
    Ends (x.step st) r (fun st' r' => ∀ st'', st' = some st'' → Poised g facts shadows st'' r') g.Blocked := by
  simp only [step_eq, ends_bind, ends_ite, ends_pure]
  refine (ends_takeChanges hreg ⟨h.tended, .refl _⟩).mono (fun n r₁ hr₁ => ⟨fun hnone => ?_, fun _ => ?_⟩)
    fun _ r' => Genuine.blocked_of_faulted r'
  · exact ends_stepOn hreg hcoherent hx
      ⟨hr₁.1, fun fork hfork => (h.forks fork hfork).calm (hr₁.2 hnone)⟩
  · exact (ends_restart hreg hr₁.1).mono (fun st₂ r₂ hr₂ => ends_stepOn hreg hcoherent hx hr₂)
      fun _ r' => Genuine.blocked_of_faulted r'

/-- Any number of steps stops at a misfit if it stops since a move cannot be made. -/
theorem ends_steps (hreg : g.Regular facts shadows) (hcoherent : g.Coherent) (hx : g.Selects x.selector) {fuel : Nat}
    (h : Poised g facts shadows st r) : Ends (x.steps fuel st) r (fun _ _ => True) g.Blocked := by
  induction fuel generalizing st r with
  | zero => exact Genuine.blocked_of_faulted _ ⟨_, rfl⟩
  | succ fuel ih =>
    simp only [steps, ends_bind]
    refine (ends_step hreg hcoherent hx h).mono (fun st' r' hr' => ?_) fun _ _ => id
    cases st' with
    | none => trivial
    | some st' => exact ih (hr' st' rfl)

/-- A local search stops at a misfit if it stops since a move cannot be made. -/
theorem ends_run (hreg : g.Regular facts shadows) (hcoherent : g.Coherent) (hx : g.Selects x.selector)
    (h : r.Tended g facts shadows) : Ends x.run r (fun _ _ => True) g.Blocked := by
  simp only [run, ends_bind, ends_get]
  refine (ends_calculate_calm hreg ⟨h, .refl _⟩).mono (fun score r₁ hr₁ => ?_) fun _ r' => Genuine.blocked_of_faulted r'
  have hpoised : ∀ {r₂ : RunState S k}, r₂.Calm g facts shadows r.director.solution →
      Poised g facts shadows ⟨x.acceptor.phaseStarted score, score, fork x.threads r.director⟩ r₂ :=
    fun hr₂ => ⟨hr₂.tended, fun fork hfork => (follows_fork h.shadows hfork).calm hr₂⟩
  simp only [ends_ite, ends_bind, ends_discard, Running.updateBest]
  refine ⟨fun _ => ?_, fun _ => ends_steps hreg hcoherent hx (hpoised hr₁)⟩
  refine (ends_calculate_calm hreg hr₁).mono (fun score' r₂ hr₂ => ?_) fun _ r' => Genuine.blocked_of_faulted r'
  refine (ends_updateBestWith_calm hr₂ score').mono (fun _ r₃ hr₃ => ?_) fun _ _ => id
  exact ends_steps hreg hcoherent hx (hpoised hr₃)

end LocalSearch

end Planning
