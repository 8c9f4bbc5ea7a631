import Planning.Proofs.Phase.Candidates
import Planning.Proofs.Phase.Level
import Planning.Proofs.Phase.Tracked
import Planning.Proofs.Solver.Best

/-!
# Hill climbing never goes down

A local search that climbs hills accepts a move only if its score reaches that of the step before. Whatever picks among
the accepted moves, and however many threads evaluate them, the score of a picked move is the score of the working
solution once the move is made. So between changes of the problem no step makes the score worse.
-/

namespace Planning

open Checked RunState Running

namespace LocalSearch

variable {S : Type} {k : ScoreKind} [PlanningSolution S k] {D : Director S k → Prop} {F : S → Score k}
variable {R : S → S → Prop} {B L : Type} {V : B → Type} {W : L → Type}
variable [∀ b, PlanningValue (V b)] [∀ b, DecidableEq (V b)] [∀ l, PlanningValue (W l)] [∀ l, DecidableEq (W l)]
variable {g : Genuine S V W} {m : Move S} {s : S} {score last best : Score k} {r : RunState S k}
variable {moves : List (Move S)} {f : Forager k}

/-- What a forager gathered came with scores that reach a given one, and that the moves yield. -/
def Promising (D : Director S k → Prop) (F : S → Score k) (R : S → S → Prop) (s : S) (last : Score k)
    (moves : List (Move S)) (f : Forager k) : Prop :=
  ∀ y ∈ f.accepted, y.2.reaches last = true ∧ ∃ m, moves[y.1]? = some m ∧ m.Yields D F R s y.2

omit [PlanningSolution S k] in
/-- A move that yields a score that reaches the given one may be gathered. -/
theorem Promising.add (h : Promising D F R s last moves f) {place : Nat} (hm : moves[place]? = some m)
    (hscore : score.reaches last = true) (hyields : m.Yields D F R s score) :
    Promising D F R s last moves (f.addCompared place score last best) := by
  intro y hy
  rcases List.mem_cons.1 hy with rfl | hy
  · exact ⟨hscore, m, hm, hyields⟩
  · exact h y hy

omit [PlanningSolution S k] in
/-- The acceptor accepts scores that reach the one of the last step. -/
theorem ends_accepted_level (h : r.Level D R s) :
    Ends (accepted .hillClimbing last best score m) r
      (fun isAccepted r' => (r'.Level D R s ∧ r.Lingers r') ∧ (isAccepted = true → score.reaches last = true))
      fun _ r' => r.Lingers r' := by
  simp only [accepted, ends_bind, ends_get, ends_draw, ends_recordMove, ends_pure]
  refine ⟨fun isAccepted gen hdraw => ⟨fun n _ => ⟨⟨h.congr rfl rfl rfl, .of_eq rfl⟩, fun haccepted => ?_⟩,
    fun _ _ => .of_eq rfl⟩, fun _ _ => .of_eq rfl⟩
  cases hdraw
  exact haccepted

section Repeats

variable (hD : g.Repeats D F R)
include hD

/-- Going through the candidates gathers moves with the scores that they yield. -/
theorem ends_scan_level {ms : List (Move S)} {place : Nat} (h : r.Level D R s) (hmoves : ∀ m ∈ ms, g.Moves m)
    (hms : ms = moves.drop place) (hf : Promising D F R s last moves f) :
    Ends (scan .hillClimbing last best f place ms) r
      (fun f' r' => (r'.Level D R s ∧ r.Lingers r') ∧ Promising D F R s last moves f') fun _ r' => r.Lingers r' := by
  induction ms generalizing r place f with
  | nil => exact ⟨⟨h, refl_of _ r⟩, hf⟩
  | cons m ms ih =>
    obtain ⟨hm, hmoves⟩ := List.forall_mem_cons.1 hmoves
    have hplace : moves[place]? = some m := by rw [← List.head?_drop, ← hms, List.head?_cons]
    have hrest : ms = moves.drop (place + 1) := by rw [← List.tail_drop, ← hms, List.tail_cons]
    simp only [scan, ends_bind, ends_get, ends_ite]
    refine ⟨fun _ => ih h hmoves hrest hf, fun _ => ?_⟩
    refine (ends_evaluate_level hD h hm).mono (fun score r₁ hr₁ => ?_) fun _ _ => id
    obtain ⟨⟨hlevel₁, hlingers₁⟩, hyields⟩ := hr₁
    refine (ends_accepted_level hlevel₁).mono (fun isAccepted r₂ hr₂ => ?_) fun _ _ => trans_of _ hlingers₁
    obtain ⟨⟨hlevel₂, hlingers₂⟩, hreaches⟩ := hr₂
    have hlingers₂ := trans_of _ hlingers₁ hlingers₂
    have hgo : ∀ {f'}, Promising D F R s last moves f' → Ends (scan .hillClimbing last best f' (place + 1) ms) r₂
        (fun f'' r' => (r'.Level D R s ∧ r.Lingers r') ∧ Promising D F R s last moves f'') fun _ r' => r.Lingers r' :=
      fun hf' => (ih hlevel₂ hmoves hrest hf').mono
        (fun _ _ hr₃ => ⟨⟨hr₃.1.1, trans_of _ hlingers₂ hr₃.1.2⟩, hr₃.2⟩) fun _ _ => trans_of _ hlingers₂
    refine ⟨fun haccepted => ?_, fun _ => hgo hf⟩
    have hadd : Promising D F R s last moves (f.addCompared place score last best) :=
      hf.add hplace (hreaches haccepted) hyields
    exact ⟨fun _ => ⟨⟨hlevel₂, hlingers₂⟩, hadd⟩, fun _ => hgo hadd⟩

/-- The director of a thread is of the kind, and its solution is not told apart from a given one. -/
def KeepsUp (D : Director S k → Prop) (R : S → S → Prop) (s : S) (fork : Director S k) : Prop :=
  D fork ∧ R fork.solution s

/-- Moves with scores yield them. -/
def Foreseen (D : Director S k → Prop) (F : S → Score k) (R : S → S → Prop) (s : S)
    (scored : List (Move S × Option (Score k))) : Prop :=
  ∀ m score, (m, some score) ∈ scored → m.Yields D F R s score

/-- The director of a thread keeps up while it scores moves, and the moves yield their scores. -/
theorem scores_yields (check : Bool) :
    Scores check g.Moves (KeepsUp D R s) (fun m score => ∀ n, score = some n → m.Yields D F R s n) fun _ => True where
  idle _ _ _ _ := nofun
  scored hm hkeeps _ hevaluate := by
    obtain ⟨hdir, hlike⟩ := hkeeps
    have hback := hD.equivalence.trans (hD.undone hm hdir hevaluate) hlike
    refine ⟨⟨hD.journal _ (hD.evaluate hm hdir hevaluate), hback⟩, fun n heq => ?_⟩
    cases heq
    exact hD.yields hm hdir hlike hevaluate
  refused _ _ _ _ := trivial

/-- The directors of the threads keep up while they score moves, and the moves yield their scores. -/
theorem foreseen_of_scoreParts {check : Bool} {size : Nat} {forks forks' : List (Director S k)} {ms : List (Move S)}
    {scores : List (Option (Score k))} (hforks : ∀ fork ∈ forks, KeepsUp D R s fork) (hms : ∀ m ∈ ms, g.Moves m)
    (h : scoreParts check size ms forks = .ok (.ok (forks', scores))) :
    (∀ fork ∈ forks', KeepsUp D R s fork) ∧ Foreseen D F R s (ms.zip scores) := by
  obtain ⟨hforks', -, hscores⟩ := ((scores_yields hD check).of_scoreParts hforks hms h).1 _ _ rfl
  exact ⟨hforks', fun m score hmem => of_mem_zip hscores hmem score rfl⟩

end Repeats

omit [PlanningSolution S k] in
/-- Going through candidates with scores gathers moves with the scores that they yield. -/
theorem ends_scanScored_level {ms : List (Move S × Option (Score k))} {place : Nat} {isDone : Bool}
    (h : r.Level D R s) (hforeseen : Foreseen D F R s ms)
    (hms : ∀ i x, ms[i]? = some x → moves[place + i]? = some x.1) (hf : Promising D F R s last moves f) :
    Ends (scanScored .hillClimbing last best f isDone place ms) r
      (fun f' r' => (r'.Level D R s ∧ r.Lingers r') ∧ Promising D F R s last moves f') fun _ r' => r.Lingers r' := by
  induction ms generalizing r place f isDone with
  | nil => exact ⟨⟨h, refl_of _ r⟩, hf⟩
  | cons x ms ih =>
    obtain ⟨m, score⟩ := x
    have hplace : moves[place]? = some m := hms 0 _ rfl
    have hrest : ∀ i x, ms[i]? = some x → moves[place + 1 + i]? = some x.1 := by
      intro i x hx
      rw [Nat.add_assoc, Nat.add_comm 1 i]
      exact hms (i + 1) x hx
    have hforeseenRest : Foreseen D F R s ms := fun m' score' hmem => hforeseen m' score' (List.mem_cons_of_mem _ hmem)
    have hgo : ∀ {f' isDone'} {r₁ : RunState S k}, r₁.Level D R s → r.Lingers r₁ → Promising D F R s last moves f' →
        Ends (scanScored .hillClimbing last best f' isDone' (place + 1) ms) r₁
          (fun f'' r' => (r'.Level D R s ∧ r.Lingers r') ∧ Promising D F R s last moves f'') fun _ r' => r.Lingers r' :=
      fun hlevel hlingers hf' => (ih hlevel hforeseenRest hrest hf').mono
        (fun _ _ hr₂ => ⟨⟨hr₂.1.1, trans_of _ hlingers hr₂.1.2⟩, hr₂.2⟩) fun _ _ => trans_of _ hlingers
    cases score with
    | none => exact hgo h (refl_of _ r) hf
    | some score =>
      have hyields := hforeseen m score List.mem_cons_self
      simp only [scanScored, ends_bind, ends_ite, ends_recordMove]
      refine ⟨fun _ => ⟨fun n _ => hgo (h.congr rfl rfl rfl) (.of_eq rfl) hf, fun _ _ => refl_of _ r⟩, fun _ => ?_⟩
      refine (ends_accepted_level h).mono (fun isAccepted r₁ hr₁ => ?_) fun _ _ => id
      obtain ⟨⟨hlevel₁, hlingers₁⟩, hreaches⟩ := hr₁
      exact ⟨fun haccepted => hgo hlevel₁ hlingers₁ (hf.add hplace (hreaches haccepted) hyields),
        fun _ => hgo hlevel₁ hlingers₁ hf⟩

variable {x : LocalSearch S k} {st : SearchState S k}

/-- A search climbs hills: its last step had a given score, and the directors of the threads keep up with a solution. -/
structure Climber (D : Director S k → Prop) (R : S → S → Prop) (s : S) (last : Score k) (st : SearchState S k) :
    Prop where
  /-- The search climbs hills. -/
  acceptor : st.acceptor = .hillClimbing
  /-- The last step had the score. -/
  last : st.last = last
  /-- The directors of the threads keep up. -/
  forks : ∀ fork ∈ st.forks, KeepsUp D R s fork

omit [PlanningSolution S k] in
/-- What is picked comes with a score that it yields. -/
theorem ends_pick_level (h : r.Level D R s) (hf : Promising D F R s last moves f) :
    Ends (Running.draw f.pick) r
      (fun picked r' => (r'.Level D R s ∧ r.Lingers r') ∧ ∀ m, (picked.bind fun y => moves[y.1]?) = some m →
        m ∈ moves ∧ ∃ score, score.reaches last = true ∧ m.Yields D F R s score)
      fun _ r' => r.Lingers r' := by
  rw [ends_draw]
  refine ⟨fun picked gen hpicked => ⟨⟨h.congr rfl rfl rfl, .of_eq rfl⟩, fun m hm => ?_⟩, fun _ _ => .of_eq rfl⟩
  obtain ⟨y, rfl, hy⟩ := Option.bind_eq_some_iff.1 hm
  obtain ⟨hreaches, m', hm', hyields⟩ := hf y (Forager.mem_of_pick hpicked)
  rw [hy] at hm'
  cases hm'
  exact ⟨List.mem_of_getElem? hy, y.2, hreaches, hyields⟩

section Repeats

variable (hD : g.Repeats D F R)
include hD

/-- What is picked comes with a score that it yields, and the search goes on climbing. -/
theorem ends_forage_level (h : r.Level D R s) (hst : Climber D R s last st) (hmoves : ∀ m ∈ moves, g.Moves m) :
    Ends (x.forage st moves) r
      (fun out r' => (r'.Level D R s ∧ r.Lingers r') ∧ Climber D R s last out.1 ∧
        ∀ m, out.2 = some m → g.Moves m ∧ ∃ score, score.reaches last = true ∧ m.Yields D F R s score)
      fun _ r' => r.Lingers r' := by
  have hstart : Promising D F R s last moves x.forager.stepStarted := fun _ hmem => absurd hmem List.not_mem_nil
  -- Whatever was gathered, what is picked yields its score.
  have hpick : ∀ {st' : SearchState S k} {f : Forager k} {r₁ : RunState S k}, Climber D R s last st' →
      r₁.Level D R s → r.Lingers r₁ → Promising D F R s last moves f →
      Ends (Running.draw f.pick) r₁
        (fun picked r' => (r'.Level D R s ∧ r.Lingers r') ∧ Climber D R s last st' ∧
          ∀ m, (picked.bind fun y => moves[y.1]?) = some m →
            g.Moves m ∧ ∃ score, score.reaches last = true ∧ m.Yields D F R s score)
        fun _ r' => r.Lingers r' := by
    intro st' f r₁ hst' hlevel hlingers hf
    refine (ends_pick_level hlevel hf).mono (fun picked r₂ hr₂ => ?_) fun _ _ => trans_of _ hlingers
    exact ⟨⟨hr₂.1.1, trans_of _ hlingers hr₂.1.2⟩, hst', fun m hm => (hr₂.2 m hm).imp_left (hmoves m)⟩
  simp only [forage, ends_bind, ends_get, ends_ite, ends_pure, ends_checked]
  rw [hst.acceptor, hst.last]
  refine ⟨fun _ => ?_, fun _ => ⟨fun out hparts => ?_, fun _ _ => refl_of _ r⟩⟩
  · exact (ends_scan_level hD h hmoves rfl hstart).mono
      (fun f r₁ hr₁ => hpick hst hr₁.1.1 hr₁.1.2 hr₁.2) fun _ _ => id
  · cases out with
    | error e =>
      rw [ends_bind, ends_fail]
      exact refl_of _ r
    | ok parts =>
      obtain ⟨hforks', hforeseen⟩ := foreseen_of_scoreParts hD hst.forks hmoves hparts
      have hst' : Climber D R s last ⟨.hillClimbing, last, parts.1⟩ := ⟨rfl, rfl, hforks'⟩
      have hplaces : ∀ i y, (moves.zip parts.2)[i]? = some y → moves[0 + i]? = some y.1 := by
        intro i y hy
        rw [Nat.zero_add]
        exact (List.getElem?_zip_eq_some.1 hy).1
      simp only [ends_bind, ends_pure]
      exact (ends_scanScored_level h hforeseen hplaces hstart).mono
        (fun f r₁ hr₁ => hpick hst' hr₁.1.1 hr₁.1.2 hr₁.2) fun _ _ => id

/-- The move that is picked is made on all directors, and the step ends with the score that the move yields. -/
theorem ends_finishStep_level (h : r.Level D R s) (hst : Climber D R s last st) (hm : g.Moves m)
    (hreaches : score.reaches last = true) (hyields : m.Yields D F R s score) :
    Ends (finishStep st m) r
      (fun st' r' => ∃ t, r'.Level D R t ∧ Climber D R t score st' ∧ Climbs last r score r')
      fun _ r' => ∃ b, Climbs last r b r' := by
  have hstopped : ∀ {r' : RunState S k}, r.Lingers r' → ∃ b, Climbs last r b r' := fun hlingers => ⟨last, hlingers.climbs⟩
  simp only [finishStep, ends_bind, ends_get, ends_make, ends_discard, ends_pure]
  refine ⟨fun dir hmove => ?_, fun _ _ _ => hstopped (.of_eq rfl), fun _ _ => hstopped (refl_of _ r)⟩
  have hdir := hD.doMove hm h.abides.director hmove
  have hscore : F dir.solution = score := hyields _ _ h.abides.director h.like hmove
  have hmoved : { r with director := dir }.Level D R dir.solution := h.direct hdir (hD.equivalence.refl _)
  -- The directors of the threads make the move as the director of the run did.
  have hmake : Ends (st.forks.mapM (makeOnFork m)) { r with director := dir }
      (fun forks r' => (r'.Level D R dir.solution ∧ r.Lingers r') ∧ ∀ fork ∈ forks, KeepsUp D R dir.solution fork)
      fun _ r' => r.Lingers r' := by
    refine .mapM (fun fork hfork r' hr' => ?_) ⟨hmoved, .of_eq rfl⟩
    obtain ⟨hkind, hlike⟩ := hst.forks fork hfork
    simp only [makeOnFork, ends_bind, ends_checked]
    refine ⟨fun out hout => ?_, fun _ _ => hr'.2⟩
    obtain ⟨fork', result⟩ := out
    cases result with
    | ok u =>
      have hforks : R fork.solution r.director.solution := hD.equivalence.trans hlike (hD.equivalence.symm h.like)
      have hmade : R fork'.solution dir.solution := hD.repeated hm hkind h.abides.director hforks hout hmove
      exact ⟨hr', hD.journal _ (hD.doMove hm hkind hout), hmade⟩
    | error e => exact hr'.2
  refine hmake.mono (fun forks r₁ hr₁ => ?_) fun _ _ => hstopped
  obtain ⟨⟨hlevel₁, hlingers₁⟩, hforks⟩ := hr₁
  refine (ends_calculate_level hD hlevel₁).mono (fun score' r₂ hr₂ => ?_) fun _ _ hlingers =>
    hstopped (trans_of _ hlingers₁ hlingers)
  obtain ⟨hlevel₂, hlingers₂, hscore'⟩ := hr₂
  have hlingers₂ := trans_of _ hlingers₁ hlingers₂
  obtain rfl : score' = score := by rw [hscore', hD.settled hlevel₂.abides.director hdir hlevel₂.like, hscore]
  refine (ends_stepEnded_level hD.journal hlevel₂ hreaches).mono (fun _ r₃ hr₃ => ?_) fun _ _ hclimbs =>
    ⟨_, hlingers₂.climbs.trans hclimbs⟩
  obtain ⟨hlevel₃, hclimbs₃⟩ := hr₃
  have hclimbs₃ := hlingers₂.climbs.trans hclimbs₃
  refine (ends_assertStep_level hD hlevel₃).mono (fun _ r₄ hr₄ => ?_) fun _ _ hlingers =>
    ⟨_, hclimbs₃.trans hlingers.climbs⟩
  obtain ⟨hlevel₄, hlingers₄⟩ := hr₄
  have hclimbs₄ := hclimbs₃.trans hlingers₄.climbs
  refine (ends_updateBestWith_level hD.journal hlevel₄ score').mono (fun _ r₅ hr₅ => ?_) fun _ _ hlingers =>
    ⟨_, hclimbs₄.trans hlingers.climbs⟩
  refine ⟨dir.solution, hr₅.1, ⟨?_, rfl, hforks⟩, hclimbs₄.trans hr₅.2.climbs⟩
  rw [hst.acceptor]
  rfl

omit hD [PlanningSolution S k] in
/-- Each of several directors keeps up with the solution of the director that they are made from. -/
theorem keepsUp_of_mem_fork (h : r.Level D R s) {threads : Nat} {thread : Director S k}
    (hmem : thread ∈ fork threads r.director) : KeepsUp D R s thread := by
  unfold fork at hmem
  split at hmem
  · cases hmem
  · obtain rfl := List.eq_of_mem_replicate hmem
    exact ⟨h.abides.director, h.like⟩

/-- Starting anew the search climbs from the score of the working solution. -/
theorem ends_restart_level (h : r.Level D R s) (hacceptor : st.acceptor = .hillClimbing) :
    Ends (x.restart st) r
      (fun st' r' => (r'.Level D R s ∧ r.Lingers r') ∧ Climber D R s (F r.director.solution) st')
      fun _ r' => r.Lingers r' := by
  simp only [restart, ends_bind, ends_get, ends_pure]
  refine (ends_calculate_level hD h).mono (fun score r₁ hr₁ => ?_) fun _ _ => id
  obtain ⟨hlevel, hlingers, hscore⟩ := hr₁
  refine ⟨⟨hlevel, hlingers⟩, by rw [hacceptor]; rfl, ?_, fun thread => keepsUp_of_mem_fork hlevel⟩
  have hlike := hD.equivalence.trans hlevel.like (hD.equivalence.symm h.like)
  rw [hscore, hD.settled hlevel.abides.director h.abides.director hlike]

/-- The part of a step behind the changes of the problem climbs. -/
theorem ends_stepOn_level (hx : g.Selects x.selector) (h : r.Level D R s) (hst : Climber D R s last st) :
    Ends (x.stepOn st) r
      (fun st' r' => ∃ b, Climbs last r b r' ∧ ∀ st'' ∈ st', ∃ t, r'.Level D R t ∧ Climber D R t b st'')
      fun _ r' => ∃ b, Climbs last r b r' := by
  have hover : ∀ {r' : RunState S k}, r.Lingers r' → ∃ b, Climbs last r b r' ∧
      ∀ st'' ∈ (none : Option (SearchState S k)), ∃ t, r'.Level D R t ∧ Climber D R t b st'' := by
    intro r' hlingers
    exact ⟨last, hlingers.climbs, fun _ hmem => by cases hmem⟩
  have hstopped : ∀ {r' : RunState S k}, r.Lingers r' → ∃ b, Climbs last r b r' := fun hlingers => ⟨last, hlingers.climbs⟩
  simp only [stepOn, ends_bind, ends_get, ends_ite, ends_pure]
  refine ⟨fun _ => hover (refl_of _ r), fun _ => ?_⟩
  refine (ends_stepStarted_level hD.journal h).mono (fun _ r₁ hr₁ => ?_) fun _ _ => hstopped
  obtain ⟨hlevel₁, hlingers₁, -⟩ := hr₁
  rw [ends_draw]
  refine ⟨fun moves gen hmoves => ?_, fun _ _ => hstopped hlingers₁⟩
  have hlevel₂ : { r₁ with generator := gen }.Level D R s := hlevel₁.congr rfl rfl rfl
  have hlingers₂ : r.Lingers { r₁ with generator := gen } := trans_of _ hlingers₁ (.of_eq rfl)
  refine ⟨fun _ => ?_, fun _ => ?_⟩
  · exact (ends_report_level hD.journal hlevel₂ _ _ _).mono (fun _ _ hr₃ => hover (trans_of _ hlingers₂ hr₃.2))
      fun _ _ hlingers => hstopped (trans_of _ hlingers₂ hlingers)
  refine (ends_forage_level hD hlevel₂ hst fun m hm => hx.moves_of_mem hmoves hm).mono (fun out r₃ hr₃ => ?_)
    fun _ _ hlingers => hstopped (trans_of _ hlingers₂ hlingers)
  obtain ⟨st₃, picked⟩ := out
  obtain ⟨⟨hlevel₃, hlingers₃⟩, hst₃, hpicked⟩ := hr₃
  have hlingers₃ := trans_of _ hlingers₂ hlingers₃
  cases picked with
  | none =>
    simp only [ends_bind, ends_pure]
    exact (ends_report_level hD.journal hlevel₃ _ _ _).mono (fun _ _ hr₄ => hover (trans_of _ hlingers₃ hr₄.2))
      fun _ _ hlingers => hstopped (trans_of _ hlingers₃ hlingers)
  | some m =>
    obtain ⟨hm, score, hreaches, hyields⟩ := hpicked m rfl
    simp only [ends_bind, ends_pure]
    refine (ends_finishStep_level hD hlevel₃ hst₃ hm hreaches hyields).mono (fun st₄ r₄ hr₄ => ?_) fun _ _ hr₄ => ?_
    · obtain ⟨t, hlevel₄, hst₄, hclimbs⟩ := hr₄
      refine ⟨score, hlingers₃.climbs.trans hclimbs, fun st'' hmem => ?_⟩
      cases hmem
      exact ⟨t, hlevel₄, hst₄⟩
    · obtain ⟨b, hclimbs⟩ := hr₄
      exact ⟨b, hlingers₃.climbs.trans hclimbs⟩

/-- A step climbs, after changes of the problem from the score of the working solution. -/
theorem ends_step_level (hx : g.Selects x.selector) (h : r.Level D R s) (hst : Climber D R s last st) :
    Ends (x.step st) r
      (fun st' r' => ∃ b, Ascent F last r b r' ∧ ∀ st'' ∈ st', ∃ t, r'.Level D R t ∧ Climber D R t b st'')
      fun _ r' => ∃ b, Ascent F last r b r' := by
  simp only [step_eq, ends_bind, ends_ite, ends_pure]
  refine (ends_takeChanges_level hD h).eq.mono (fun n r₁ hr₁ => ?_) fun _ _ hlingers =>
    ⟨last, hlingers.climbs.ascent⟩
  obtain ⟨⟨⟨t, hlevel₁, hsame⟩, hlingers₁⟩, hmade⟩ := hr₁
  refine ⟨fun hnone => ?_, fun hsome => ?_⟩
  · obtain rfl := hsame hnone
    refine (ends_stepOn_level hD hx hlevel₁ hst).mono (fun st' r₂ hr₂ => ?_) fun _ _ hr₂ => ?_
    · obtain ⟨b, hclimbs, hnext⟩ := hr₂
      exact ⟨b, (hlingers₁.climbs.trans hclimbs).ascent, hnext⟩
    · obtain ⟨b, hclimbs⟩ := hr₂
      exact ⟨b, (hlingers₁.climbs.trans hclimbs).ascent⟩
  · obtain ⟨n, rfl⟩ := Nat.exists_eq_succ_of_ne_zero hsome
    have hchanged : Ascent F last r (F r₁.director.solution) r₁ := .single (.change hmade hlingers₁)
    refine (ends_restart_level hD hlevel₁ hst.acceptor).mono (fun st₂ r₂ hr₂ => ?_) fun _ _ hlingers =>
      ⟨_, hchanged.trans hlingers.climbs.ascent⟩
    obtain ⟨⟨hlevel₂, hlingers₂⟩, hst₂⟩ := hr₂
    refine (ends_stepOn_level hD hx hlevel₂ hst₂).mono (fun st' r₃ hr₃ => ?_) fun _ _ hr₃ => ?_
    · obtain ⟨b, hclimbs, hnext⟩ := hr₃
      exact ⟨b, hchanged.trans (hlingers₂.climbs.trans hclimbs).ascent, hnext⟩
    · obtain ⟨b, hclimbs⟩ := hr₃
      exact ⟨b, hchanged.trans (hlingers₂.climbs.trans hclimbs).ascent⟩

/-- Any number of steps climb. -/
theorem ends_steps_level (hx : g.Selects x.selector) {fuel : Nat} (h : r.Level D R s) (hst : Climber D R s last st) :
    Ends (x.steps fuel st) r (fun _ r' => ∃ b, Ascent F last r b r') fun _ r' => ∃ b, Ascent F last r b r' := by
  induction fuel generalizing st r s last with
  | zero => exact ⟨last, .refl⟩
  | succ fuel ih =>
    simp only [steps, ends_bind]
    refine (ends_step_level hD hx h hst).mono (fun st' r₁ hr₁ => ?_) fun _ _ => id
    obtain ⟨b, hascent, hnext⟩ := hr₁
    cases st' with
    | none => exact ⟨b, hascent⟩
    | some st' =>
      obtain ⟨t, hlevel₁, hst₁⟩ := hnext st' rfl
      refine (ih hlevel₁ hst₁).mono (fun _ r₂ hr₂ => ?_) fun _ r₂ hr₂ => ?_
      · obtain ⟨c, hrest⟩ := hr₂
        exact ⟨c, hascent.trans hrest⟩
      · obtain ⟨c, hrest⟩ := hr₂
        exact ⟨c, hascent.trans hrest⟩

end Repeats

/-- A local search that climbs hills never goes down: between changes of the problem no step has a worse score than the
one before, and the first step has no worse score than the working solution had when the search started. After changes
of the problem the same holds from the score of the working solution that they left. That is so whatever the search
selects, gathers and picks, with any number of threads, and however the search ends, where the director scores its
working solution by a function, takes back what it tries, and comes to the same when it does it again. -/
theorem hillClimbing_ascends (hD : g.Repeats D F R) (hselects : g.Selects x.selector)
    (hacceptor : x.acceptor = .hillClimbing) (h : r.Level D R r.director.solution) :
    Ends x.run r (fun _ r' => ∃ b, Ascent F (F r.director.solution) r b r')
      fun _ r' => ∃ b, Ascent F (F r.director.solution) r b r' := by
  simp only [run, ends_bind, ends_get]
  refine (ends_calculate_level hD h).mono (fun score r₁ hr₁ => ?_) fun _ _ hlingers => ⟨_, hlingers.climbs.ascent⟩
  obtain ⟨hlevel₁, hlingers₁, hscore⟩ := hr₁
  have hscore : score = F r.director.solution := by
    rw [hscore, hD.settled hlevel₁.abides.director h.abides.director hlevel₁.like]
  have hst : Climber D R r.director.solution (F r.director.solution)
      ⟨x.acceptor.phaseStarted score, score, fork x.threads r.director⟩ :=
    ⟨by rw [hacceptor]; rfl, hscore, fun _ => keepsUp_of_mem_fork h⟩
  have hgo : ∀ {r₂ : RunState S k}, r₂.Level D R r.director.solution → r.Lingers r₂ →
      Ends (x.steps (maxCount + 1) ⟨x.acceptor.phaseStarted score, score, fork x.threads r.director⟩) r₂
        (fun _ r' => ∃ b, Ascent F (F r.director.solution) r b r')
        fun _ r' => ∃ b, Ascent F (F r.director.solution) r b r' := by
    intro r₂ hlevel hlingers
    refine (ends_steps_level hD hselects hlevel hst).mono (fun _ _ hr₃ => ?_) fun _ _ hr₃ => ?_
    · obtain ⟨b, hascent⟩ := hr₃
      exact ⟨b, hlingers.climbs.ascent.trans hascent⟩
    · obtain ⟨b, hascent⟩ := hr₃
      exact ⟨b, hlingers.climbs.ascent.trans hascent⟩
  simp only [ends_ite, ends_bind, ends_discard, Running.updateBest]
  refine ⟨fun _ => ?_, fun _ => hgo hlevel₁ hlingers₁⟩
  refine (ends_calculate_level hD hlevel₁).mono (fun score' r₂ hr₂ => ?_) fun _ _ hlingers =>
    ⟨_, (trans_of _ hlingers₁ hlingers).climbs.ascent⟩
  obtain ⟨hlevel₂, hlingers₂, -⟩ := hr₂
  have hlingers₂ := trans_of _ hlingers₁ hlingers₂
  refine (ends_updateBestWith_level hD.journal hlevel₂ score').mono (fun _ r₃ hr₃ => ?_) fun _ _ hlingers =>
    ⟨_, (trans_of _ hlingers₂ hlingers).climbs.ascent⟩
  exact hgo hr₃.1 (trans_of _ hlingers₂ hr₃.2)

end LocalSearch

namespace Timetable

/-- Two lessons of one teacher in a room that is too small for either. -/
def crowded : Timetable where
  rooms := [⟨0, "A", 30⟩, ⟨1, "B", 20⟩]
  lessons := [⟨0, "Curie", 25, 0, some 1⟩, ⟨1, "Curie", 25, 1, some 1⟩]

/-- A search with two threads that changes rooms twice. -/
def twoChanges : LocalSearch Timetable .hardSoft := { roomChanges with termination := some (.steps 2), threads := 2 }

/-- The run that starts from the crowded room. -/
def uncrowding : RunState Timetable .hardSoft := { director := directorOf crowded, generator := .ofSeed 0 }

/-- The scores of the steps of a run that succeeds. -/
def stepScoresOf {α : Type} : EStateM.Result Stop (RunState Timetable .hardSoft) α → Option (List (Score .hardSoft))
  | .ok _ r => some (stepScores r.history)
  | .error _ _ => none

/-- One lesson after the other goes to the larger room. -/
theorem stepScoresOf_uncrowding : stepScoresOf (twoChanges.run uncrowding) =
    some [⟨[⟨-5, by decide⟩, ⟨-1, by decide⟩], rfl⟩, .zero] := by
  decide +kernel

/-- From ten students without a place the search climbs to five, and from there to none. -/
theorem ascent_uncrowding : ∃ r b, twoChanges.run uncrowding = .ok () r ∧
    stepScores r.history = [⟨[⟨-5, by decide⟩, ⟨-1, by decide⟩], rfl⟩, .zero] ∧
    Ascent (scratch calculate) ⟨[⟨-10, by decide⟩, .zero], rfl⟩ uncrowding b r := by
  have hD := Genuine.repeats_of_settles regular_givenRooms settles_full fun hfull => ⟨hfull.shadows, hfull.scoring⟩
  have hasked : ∀ {P : ProblemChange Timetable .hardSoft → Prop} c, uncrowding.Asks c → P c := by
    intro P c hc
    obtain ⟨w, hw, -⟩ := hc
    cases hw
  have hlevel : uncrowding.Level (Director.Full calculate []) (givenRooms.Alike bare) crowded :=
    ⟨⟨full_directorOf crowded, fun _ hc => absurd hc List.not_mem_nil, hasked⟩,
      fun _ hc => absurd hc List.not_mem_nil, hasked, .refl crowded⟩
  have hends := LocalSearch.hillClimbing_ascends (x := twoChanges) (r := uncrowding) hD (.change () .asListed) rfl hlevel
  have hscore : scratch calculate crowded = ⟨[⟨-10, by decide⟩, .zero], rfl⟩ := by decide +kernel
  have hscores := stepScoresOf_uncrowding
  cases hrun : twoChanges.run uncrowding with
  | error e r =>
    rw [hrun] at hscores
    cases hscores
  | ok u r =>
    rw [hrun] at hscores
    obtain ⟨b, hascent⟩ := hends.of_ok hrun
    rw [← hscore]
    exact ⟨r, b, rfl, Option.some.inj hscores, hascent⟩

end Timetable

end Planning
