import Planning.Proofs.Acceptor
import Planning.Proofs.Move.Signature
import Planning.Proofs.Phase.Forage

/-!
# What tabu search keeps away from

A run is followed with the moves that it makes, each beside the moves made before it since the search started or last
took in changes of the problem. A move that tabu search lets pass touches no entity that the latest of them touched,
and is not the way back of one of them, unless it beats the best score and that is let pass in any case.
-/

namespace Planning

open Checked

/-- Both moves change a common entity. -/
def Move.Touches {S : Type} (m n : Move S) : Prop :=
  m.entityClass = n.entityClass ∧ ∃ e ∈ m.entities, e ∈ n.entities

/-- A move that a step makes. -/
structure Pick (S : Type) (k : ScoreKind) where
  /-- The move. -/
  move : Move S
  /-- The working solution before it. -/
  solution : S
  /-- The best score at the start of the step. -/
  best : Score k
  /-- The score that the move was picked with. -/
  score : Score k

namespace Pick

variable {S : Type} {k : ScoreKind}

/-- What the move changes. -/
def signature (p : Pick S k) : MoveSignature := p.move.signature p.solution

/-- The move touches nothing that the latest moves touched, and does not lead back over one of them. -/
structure KeepsAway (t : TabuSearch) (past : List (Pick S k)) (p : Pick S k) : Prop where
  /-- No entity is touched that was touched shortly before. -/
  entities : ∀ q ∈ past.take t.entitySize, ¬ q.move.Touches p.move
  /-- No move is reversed that was made shortly before. -/
  moves : ∀ q ∈ past.take t.moveSize, q.signature.reverses p.signature = false

end Pick

namespace LocalSearch

open RunState Running

variable {S : Type} {k : ScoreKind} [PlanningSolution S k] (x : LocalSearch S k)

/-!
## Runs with the moves that they make
-/

/-- The candidates are gathered, where the run is in some state before. -/
def gather (r : RunState S k) (st : SearchState S k) (moves : List (Move S)) :
    Running S k (SearchState S k × Forager k) := do
  let best := r.bestScore.getD st.last
  let f := x.forager.stepStarted
  if st.forks.isEmpty then return (st, ← scan st.acceptor st.last best f 0 moves)
  let size := partSize moves.length st.forks.length
  match ← Running.checked (scoreParts r.mode.assertsMoves size moves st.forks) with
  | .error e => Running.fail e
  | .ok (forks, scores) =>
    return ({ st with forks := forks },
      ← scanScored st.acceptor st.last best f false 0 (moves.zip scores))

/-- One of the candidates that were gathered is picked. -/
theorem forage_eq (st : SearchState S k) (moves : List (Move S)) : x.forage st moves = (do
    let (st, f) ← x.gather (← get) st moves
    let picked ← Running.draw f.pick
    return (st, picked.bind fun (place, _) => moves[place]?)) := by
  unfold forage gather
  refine bind_congr fun r => ?_
  split
  · simp only [bind_assoc, pure_bind]
  · simp only [bind_assoc]
    refine bind_congr fun out => ?_
    cases out with
    | error e => rfl
    | ok out => simp only [bind_assoc, pure_bind]

/-- The start of the search. -/
def begin : Running S k (SearchState S k) := do
  let forks := fork x.threads (← get).director
  let score ← Running.calculate
  if (← get).best.isNone then discard Running.updateBest
  return ⟨x.acceptor.phaseStarted score, score, forks⟩

/-- The part of a step between the changes of the problem and the move, with what is picked. -/
def chooseOn (st : SearchState S k) : Running S k (Option (SearchState S k × Pick S k)) := do
  if (← get).isPhaseTerminated x.termination then return none
  Running.stepStarted
  let r ← get
  let moves ← Running.draw (x.selector.moves r.director.solution)
  if moves.isEmpty then
    Running.report .debug "empty_neighborhood" fun _ => [("step", .number r.steps)]
    return none
  let r' ← get
  let (st', f) ← x.gather r' st moves
  let picked ← Running.draw f.pick
  match picked.bind fun y => moves[y.1]?.map fun m => (m, y.2) with
  | none =>
    Running.report .debug "no_accepted_move" fun _ => [("step", .number r.steps)]
    return none
  | some (m, score) => return some (st', ⟨m, r'.director.solution, r'.bestScore.getD st.last, score⟩)

/-- The part of a step in front of the move, with what is picked and whether the search started anew before. -/
def choose (st : SearchState S k) : Running S k (Option (Bool × SearchState S k × Pick S k)) := do
  let changes ← Running.takeChanges
  let st ← if changes = 0 then pure st else x.restart st
  return (← x.chooseOn st).map fun out => (decide (changes ≠ 0), out)

/-- Behind the changes of the problem a step makes the move that it chooses. -/
theorem stepOn_eq_chooseOn (st : SearchState S k) : x.stepOn st = (do
    match ← x.chooseOn st with
    | none => return none
    | some (st, p) => return some (← finishStep st p.move)) := by
  simp only [stepOn, chooseOn, forage_eq, bind_assoc]
  refine bind_congr fun r => ?_
  split
  · rw [pure_bind]
  simp only [bind_assoc]
  refine bind_congr fun _ => bind_congr fun r => bind_congr fun moves => ?_
  split
  · simp only [bind_assoc, pure_bind]
  simp only [bind_assoc]
  refine bind_congr fun r' => bind_congr fun out => bind_congr fun picked => ?_
  simp only [pure_bind]
  cases picked with
  | none => simp only [Option.bind_none, bind_assoc, pure_bind]
  | some y =>
    simp only [Option.bind_some]
    cases moves[y.1]? with
    | none => simp only [Option.map_none, bind_assoc, pure_bind]
    | some m => simp only [Option.map_some, pure_bind]

/-- A step makes the move that it chooses. -/
theorem step_eq_choose (st : SearchState S k) : x.step st = (do
    match ← x.choose st with
    | none => return none
    | some (_, st, p) => return some (← finishStep st p.move)) := by
  have hmap : ∀ (isAnew : Bool) (out : Option (SearchState S k × Pick S k)),
      (match out.map fun out => (isAnew, out) with
        | none => return none
        | some (_, st, p) => return some (← finishStep st p.move) : Running S k (Option (SearchState S k))) =
      match out with
        | none => return none
        | some (st, p) => return some (← finishStep st p.move) := fun _ out => by cases out <;> rfl
  simp only [step_eq, choose, stepOn_eq_chooseOn, bind_assoc]
  refine bind_congr fun changes => ?_
  split <;> simp only [bind_assoc, pure_bind, hmap]

/-- At most a number of steps, each with the moves made before it since the last start, the latest first, and how the
run ends. -/
def traceSteps : Nat → List (Pick S k) → SearchState S k → RunState S k →
    List (Pick S k × List (Pick S k)) × EStateM.Result Stop (RunState S k) Unit
  | 0, _, _, r => ([], .error (.faulted .overflow) r)
  | fuel + 1, past, st, r =>
    match x.choose st r with
    | .error e r => ([], .error e r)
    | .ok none r => ([], .ok () r)
    | .ok (some (isAnew, st, p)) r =>
      let past := if isAnew then [] else past
      match finishStep st p.move r with
      | .error e r => ([(p, past)], .error e r)
      | .ok st r =>
        let (rest, out) := traceSteps fuel (p :: past) st r
        ((p, past) :: rest, out)

/-- The moves that the search makes, each with those made before it since the last start, the latest first, and how
the run ends. -/
def trace (r : RunState S k) : List (Pick S k × List (Pick S k)) × EStateM.Result Stop (RunState S k) Unit :=
  match x.begin r with
  | .error e r => ([], .error e r)
  | .ok st r => x.traceSteps (maxCount + 1) [] st r

/-- Steps end as they do when they are followed. -/
theorem steps_eq_trace (fuel : Nat) (past : List (Pick S k)) (st : SearchState S k) (r : RunState S k) :
    x.steps fuel st r = (x.traceSteps fuel past st r).2 := by
  induction fuel generalizing past st r with
  | zero => rfl
  | succ fuel ih =>
    rw [steps, step_eq_choose, traceSteps]
    simp only [bind, EStateM.bind]
    cases x.choose st r with
    | error e r => rfl
    | ok out r =>
      cases out with
      | none => rfl
      | some out =>
        obtain ⟨isAnew, st, p⟩ := out
        simp only [EStateM.bind]
        cases finishStep st p.move r with
        | error e r => rfl
        | ok st r => exact ih _ _ _

/-- A search ends as it does when it is followed. -/
theorem run_eq_trace (r : RunState S k) : x.run r = (x.trace r).2 := by
  have hrun : x.run = x.begin >>= x.steps (maxCount + 1) := by
    simp only [run, begin, bind_assoc]
    refine bind_congr fun r => bind_congr fun score => bind_congr fun r' => ?_
    split
    · simp only [bind_assoc, pure_bind]
    · rw [pure_bind]
  rw [hrun, trace]
  simp only [bind, EStateM.bind]
  cases x.begin r with
  | error e r => rfl
  | ok st r => exact x.steps_eq_trace _ _ _ _

/-!
## What the acceptor let pass
-/

/-- The acceptor lets a move with a score pass in a solution. -/
def Admitted (a : Acceptor k) (last best : Score k) (s : S) (m : Move S) (score : Score k) : Prop :=
  ∃ gen gen', (a.accepts ⟨last, best, score, if a.needsSignatures then some (m.signature s) else none⟩).run gen =
    .ok (true, gen')

/-- What a forager gathered was let pass. -/
def Gathered (a : Acceptor k) (last best : Score k) (s : S) (moves : List (Move S)) (f : Forager k) : Prop :=
  ∀ y ∈ f.accepted, ∃ m, moves[y.1]? = some m ∧ Admitted a last best s m y.2

variable {x} {B L F : Type} {V : B → Type} {W : L → Type}
variable [∀ b, PlanningValue (V b)] [∀ b, DecidableEq (V b)] [∀ l, PlanningValue (W l)] [∀ l, DecidableEq (W l)]
variable {g : Genuine S V W} {facts : S → F} {shadows : ShadowCascade S} {s : S} {m : Move S} {r r' : RunState S k}
variable {a : Acceptor k} {last best score : Score k} {moves : List (Move S)} {f : Forager k} {st : SearchState S k}

omit [PlanningSolution S k] in
/-- What the acceptor decides for a calm run it decides for the solution that this is like. -/
theorem ends_accepted_admitted (h : r.Calm g facts shadows s) (hm : g.Moves m) (score : Score k) :
    Ends (accepted a last best score m) r
      (fun isAccepted r' => r'.Calm g facts shadows s ∧ (isAccepted = true → Admitted a last best s m score))
      fun _ _ => True := by
  have hsignature := hm.signature_alike h.alike.content
  simp only [accepted, ends_bind, ends_get, ends_draw, ends_recordMove, ends_pure]
  refine ⟨fun isAccepted gen hdraw => ⟨fun _ _ => ⟨h.congr rfl rfl rfl, ?_⟩, fun _ _ => trivial⟩, fun _ _ => trivial⟩
  rintro rfl
  rw [hsignature] at hdraw
  exact ⟨_, _, hdraw⟩

/-- Attempts that were accepted were let pass. -/
theorem Tries.admitted [DecidableEq B] [DecidableEq L] (hreg : g.Regular facts shadows)
    (h : r.Calm g facts shadows s) {attempts : List (Attempt S k)} (htries : Tries a last best r attempts r')
    (hmoves : ∀ t ∈ attempts, g.Moves t.move) :
    ∀ t ∈ Attempt.accepted attempts, Admitted a last best s t.move t.score := by
  induction htries with
  | nil => exact fun _ ht => absurd ht List.not_mem_nil
  | @cons r r₁ r₂ r' t attempts hscore haccepted _ ih =>
    obtain ⟨hm, hmoves⟩ := List.forall_mem_cons.1 hmoves
    obtain ⟨hcalm₁, -⟩ := (ends_evaluate_calm hreg h hm).of_ok hscore
    obtain ⟨hcalm₂, hadmitted⟩ := (ends_accepted_admitted hcalm₁ hm t.score).of_ok haccepted
    intro u hu
    rw [Attempt.accepted, List.mem_filter] at hu
    obtain ⟨hu, hyes⟩ := hu
    rcases List.mem_cons.1 hu with rfl | hu
    · exact hadmitted hyes
    · exact ih hcalm₂ hmoves u (List.mem_filter.2 ⟨hu, hyes⟩)

omit [PlanningSolution S k] in
/-- Of candidates with scores those are gathered that the acceptor lets pass. -/
theorem ends_scanScored_gathered {ms : List (Move S × Option (Score k))} {place : Nat} {isDone : Bool}
    (h : r.Calm g facts shadows s) (hmoves : ∀ y ∈ ms, g.Moves y.1)
    (hms : ∀ i y, ms[i]? = some y → moves[place + i]? = some y.1) (hf : Gathered a last best s moves f) :
    Ends (scanScored a last best f isDone place ms) r
      (fun f' r' => r'.Calm g facts shadows s ∧ Gathered a last best s moves f') fun _ _ => True := by
  induction ms generalizing r place f isDone with
  | nil => exact ⟨h, hf⟩
  | cons y ms ih =>
    obtain ⟨m, score⟩ := y
    obtain ⟨hm, hothers⟩ := List.forall_mem_cons.1 hmoves
    have hplace : moves[place]? = some m := hms 0 _ rfl
    have hrest : ∀ i y, ms[i]? = some y → moves[place + 1 + i]? = some y.1 := by
      intro i y hy
      rw [Nat.add_assoc, Nat.add_comm 1 i]
      exact hms (i + 1) y hy
    cases score with
    | none => exact ih h hothers hrest hf
    | some score =>
      simp only [scanScored, ends_bind, ends_ite, ends_recordMove]
      refine ⟨fun _ => ⟨fun _ _ => ih (h.congr rfl rfl rfl) hothers hrest hf, fun _ _ => trivial⟩, fun _ => ?_⟩
      refine (ends_accepted_admitted h hm score).mono (fun isAccepted r' hr' => ?_) fun _ _ => id
      obtain ⟨hcalm, hadmitted⟩ := hr'
      refine ⟨fun hyes => ih hcalm hothers hrest fun y hy => ?_, fun _ => ih hcalm hothers hrest hf⟩
      rcases List.mem_cons.1 hy with rfl | hy
      · exact ⟨m, hplace, hadmitted hyes⟩
      · exact hf y hy

/-- What is gathered was let pass, with one thread and with several. -/
theorem ends_gather [DecidableEq B] [DecidableEq L] (hreg : g.Regular facts shadows) (h : r.Calm g facts shadows s)
    (hmoves : ∀ m ∈ moves, g.Moves m) (r₀ : RunState S k) :
    Ends (x.gather r₀ st moves) r
      (fun out r' => r'.Calm g facts shadows s ∧ out.1.acceptor = st.acceptor ∧
        Gathered st.acceptor st.last (r₀.bestScore.getD st.last) s moves out.2) fun _ _ => True := by
  simp only [gather, ends_ite, ends_bind, ends_pure, ends_checked]
  refine ⟨fun _ => ?_, fun _ => ⟨fun out _ => ?_, fun _ _ => trivial⟩⟩
  · have hnone : ¬ x.forager.stepStarted.Enough st.last (r₀.bestScore.getD st.last) ([] : List (Attempt S k)) := by
      rintro ⟨t, ht, -⟩
      cases ht
    refine ((ends_scan_tries hreg h hmoves rfl hnone).mono (fun f r' hr' => ?_) fun _ _ _ => trivial)
    obtain ⟨hcalm, attempts, htries, hconsiders, rfl⟩ := hr'
    have hall : ∀ t ∈ attempts, moves[t.place]? = some t.move := fun t => hconsiders.getElem?
    have hadmitted := htries.admitted hreg h fun t ht => hmoves _ (List.mem_of_getElem? (hall t ht))
    refine ⟨hcalm, trivial, fun y hy => ?_⟩
    rw [List.nil_append, Forager.accepted_offered rfl, List.mem_map] at hy
    obtain ⟨t, ht, rfl⟩ := hy
    have ht := List.mem_reverse.1 ht
    exact ⟨t.move, hall t (List.mem_filter.1 ht).1, hadmitted t ht⟩
  · cases out with
    | error e => exact trivial
    | ok parts =>
      simp only [ends_bind, ends_pure]
      have hnone : Gathered st.acceptor st.last (r₀.bestScore.getD st.last) s moves x.forager.stepStarted :=
        fun _ hy => absurd hy List.not_mem_nil
      refine (ends_scanScored_gathered h (fun y hy => hmoves _ (List.of_mem_zip hy).1)
        (fun i y hy => ?_) hnone).mono (fun f r' hr' => ⟨hr'.1, trivial, hr'.2⟩) fun _ _ => id
      rw [Nat.zero_add]
      exact (List.getElem?_zip_eq_some.1 hy).1

variable [DecidableEq B] [DecidableEq L] (hreg : g.Regular facts shadows)
include hreg

/-- A move that is chosen was let pass in the working solution, with a score. -/
theorem ends_chooseOn (hx : g.Selects x.selector) (h : r.Tended g facts shadows) :
    Ends (x.chooseOn st) r
      (fun out r' => ∀ y ∈ out, r'.Calm g facts shadows y.2.solution ∧ y.1.acceptor = st.acceptor ∧ g.Moves y.2.move ∧
        Admitted st.acceptor st.last y.2.best y.2.solution y.2.move y.2.score) fun _ _ => True := by
  simp only [chooseOn, ends_bind, ends_get, ends_ite, ends_pure, ends_draw]
  refine ⟨fun _ _ hy => absurd hy (Option.not_mem_none _), fun _ => .tell fun r₁ hr₁ => ⟨fun moves gen hdraw =>
    ⟨fun _ => .report fun _ _ _ hy => absurd hy (Option.not_mem_none _), fun _ => ?_⟩, fun _ _ => trivial⟩⟩
  have hcalm : { r₁ with generator := gen }.Calm g facts shadows r₁.director.solution :=
    (RunState.Calm.mk (h.noted hr₁) (.refl _)).congr rfl rfl rfl
  have hmoves : ∀ m ∈ moves, g.Moves m := fun m hm => hx.moves_of_mem hdraw hm
  refine (ends_gather hreg hcalm hmoves _).mono (fun out r₂ hr₂ => ⟨fun picked gen' hpick => ?_, fun _ _ => trivial⟩)
    fun _ _ => id
  obtain ⟨hcalm₂, hacceptor, hgathered⟩ := hr₂
  cases picked with
  | none => exact ends_bind.2 (.report fun _ _ _ hy => absurd hy (Option.not_mem_none _))
  | some y =>
    obtain ⟨m, hplace, hadmitted⟩ := hgathered y (Forager.mem_of_pick hpick)
    simp only [Option.bind_some, hplace, Option.map_some, ends_pure, Option.mem_some_iff]
    rintro z rfl
    exact ⟨hcalm₂.congr rfl rfl rfl, hacceptor, hmoves m (List.mem_of_getElem? hplace), hadmitted⟩

/-- A step that is finished tells the acceptor what its move changes. -/
theorem ends_finishStep_told (h : r.Calm g facts shadows s) (hm : g.Moves m) :
    Ends (finishStep st m) r
      (fun st' r' => r'.Tended g facts shadows ∧ ∃ score, st'.acceptor = st.acceptor.stepEnded score
        (if st.acceptor.needsSignatures then some (m.signature s) else none)) fun _ _ => True := by
  simp only [finishStep, ends_bind, ends_get, ends_make, ends_discard, ends_pure]
  refine ⟨fun dir hmove => ?_, fun _ _ _ => trivial, fun _ _ => trivial⟩
  have hmoved : { r with director := dir }.Calm g facts shadows dir.solution :=
    ⟨⟨(Director.shadows_doMove hmove).trans h.tended.shadows, h.tended.pending, h.tended.asked⟩, .refl _⟩
  have hmake : Ends (st.forks.mapM (makeOnFork m)) { r with director := dir }
      (fun forks r' => r'.Calm g facts shadows dir.solution ∧ ∀ fork ∈ forks, True) fun _ _ => True := by
    refine .mapM (fun fork _ r' hr' => ?_) hmoved
    simp only [makeOnFork, ends_bind, ends_checked]
    refine ⟨fun out _ => ?_, fun _ _ => trivial⟩
    obtain ⟨fork', result⟩ := out
    cases result with
    | ok u => exact ⟨hr', trivial⟩
    | error e => exact trivial
  refine hmake.mono (fun forks r₁ hr₁ => ?_) fun _ _ => id
  refine (ends_calculate_calm hreg hr₁.1).mono (fun score r₂ hr₂ => ?_) fun _ _ _ => trivial
  refine (ends_stepEnded_calm hr₂ score).mono (fun _ r₃ hr₃ => ?_) fun _ _ _ => trivial
  refine (ends_assertStep_calm hreg hr₃).mono (fun _ r₄ hr₄ => ?_) fun _ _ _ => trivial
  refine (ends_updateBestWith_calm hr₄ score).mono (fun _ r₅ hr₅ => ⟨hr₅.tended, score, ?_⟩) fun _ _ => id
  rw [hm.signature_alike h.alike.content]

/-!
## What tabu search remembers
-/

omit hreg [PlanningSolution S k] [DecidableEq B] [DecidableEq L] in
/-- The search remembers the moves that were made since its last start. -/
structure Remembers (g : Genuine S V W) (t : TabuSearch) (past : List (Pick S k)) (st : SearchState S k) : Prop where
  /-- The acceptor remembers the latest of them. -/
  acceptor : st.acceptor = .tabu (t.after (past.map Pick.signature))
  /-- They are moves of genuine variables. -/
  moves : ∀ q ∈ past, g.Moves q.move

variable {t : TabuSearch} {past : List (Pick S k)} {p : Pick S k}

omit hreg [PlanningSolution S k] [DecidableEq B] [DecidableEq L] in
/-- A move that was let pass keeps away from what is remembered, or it beats the best score where that is enough. -/
theorem Remembers.keepsAway (h : Remembers g t past st) (hm : g.Moves p.move)
    (hadmitted : Admitted st.acceptor last p.best p.solution p.move p.score) :
    p.KeepsAway t past ∨ t.aspiration = true ∧ p.score.beats p.best = true := by
  obtain ⟨gen, gen', hrun⟩ := hadmitted
  rw [h.acceptor] at hrun
  have hpass : (t.aspiration && p.score.beats p.best || !(t.after (past.map Pick.signature)).isTabu p.signature) = true :=
    congrArg Prod.fst (Except.ok.inj hrun)
  rw [Bool.or_eq_true, Bool.and_eq_true, Bool.not_eq_true', ← Bool.not_eq_true, TabuSearch.isTabu_after] at hpass
  have hmem : ∀ {n q}, q ∈ past.take n → q.signature ∈ (past.map Pick.signature).take n := fun hq => by
    rw [← List.map_take]
    exact List.mem_map_of_mem hq
  refine hpass.symm.imp_left fun hfree => ⟨fun q hq htouches => ?_, fun q hq => ?_⟩
  · obtain ⟨hclass, e, he, he'⟩ := htouches
    have hmq := (h.moves q (List.mem_of_mem_take hq)).mem_signature q.solution
    have hmp := hm.mem_signature p.solution
    have htouches : q.signature.touches p.signature = true :=
      MoveSignature.touches_iff.2 ⟨hmq.1.trans (hclass.trans hmp.1.symm), e, (hmq.2 e).2 he, (hmp.2 e).2 he'⟩
    exact hfree (.inl ⟨q.signature, hmem hq, htouches⟩)
  · rw [← Bool.not_eq_true]
    exact fun hreverses => hfree (.inr ⟨q.signature, hmem hq, hreverses⟩)

/-- A move that is chosen keeps away from the latest ones since the last start, unless it may be made in any case. -/
theorem ends_choose (hx : g.Selects x.selector) (h : r.Tended g facts shadows) (hst : Remembers g t past st) :
    Ends (x.choose st) r
      (fun out r' => ∀ y ∈ out, r'.Calm g facts shadows y.2.2.solution ∧ g.Moves y.2.2.move ∧
        Remembers g t (if y.1 then [] else past) y.2.1 ∧
        (y.2.2.KeepsAway t (if y.1 then [] else past) ∨
          t.aspiration = true ∧ y.2.2.score.beats y.2.2.best = true)) fun _ _ => True := by
  -- Behind the changes of the problem the search remembers what it should.
  have hgo : ∀ {r₁ st₁} (isAnew : Bool), r₁.Tended g facts shadows → Remembers g t (if isAnew then [] else past) st₁ →
      Ends (x.chooseOn st₁) r₁ (fun out r' => ∀ y ∈ out.map fun out => (isAnew, out),
        r'.Calm g facts shadows y.2.2.solution ∧ g.Moves y.2.2.move ∧
        Remembers g t (if y.1 then [] else past) y.2.1 ∧
        (y.2.2.KeepsAway t (if y.1 then [] else past) ∨
          t.aspiration = true ∧ y.2.2.score.beats y.2.2.best = true)) fun _ _ => True := by
    intro r₁ st₁ isAnew htended hst₁
    refine (ends_chooseOn hreg hx htended).mono (fun out r' hr' y hy => ?_) fun _ _ => id
    obtain ⟨z, hz, rfl⟩ := Option.map_eq_some_iff.1 hy
    obtain ⟨hcalm, hacceptor, hm, hadmitted⟩ := hr' z hz
    exact ⟨hcalm, hm, ⟨hacceptor.trans hst₁.acceptor, hst₁.moves⟩, hst₁.keepsAway hm hadmitted⟩
  simp only [choose, ends_bind, ends_ite, ends_pure]
  refine (ends_takeChanges hreg ⟨h, .refl _⟩).mono (fun changes r₁ hr₁ => ⟨fun hnone => ?_, fun hsome => ?_⟩)
    fun _ _ _ => trivial
  · rw [decide_eq_false (not_not.2 hnone)]
    exact hgo false hr₁.1 hst
  · rw [decide_eq_true hsome]
    simp only [restart, ends_bind, ends_get, ends_pure]
    refine (ends_calculate_calm hreg ⟨hr₁.1, .refl _⟩).mono (fun score r₂ hr₂ => ?_) fun _ _ _ => trivial
    refine hgo true hr₂.tended ⟨?_, fun _ hq => absurd hq List.not_mem_nil⟩
    rw [hst.acceptor, if_pos rfl, List.map_nil, TabuSearch.after_nil]
    rfl

/-- The moves of any number of steps keep away from the latest ones since the last start. -/
theorem keepsAway_traceSteps (hx : g.Selects x.selector) {fuel : Nat} (h : r.Tended g facts shadows)
    (hst : Remembers g t past st) : ∀ y ∈ (x.traceSteps fuel past st r).1,
      y.1.KeepsAway t y.2 ∨ t.aspiration = true ∧ y.1.score.beats y.1.best = true := by
  induction fuel generalizing past st r with
  | zero => exact fun _ hy => absurd hy List.not_mem_nil
  | succ fuel ih =>
    rw [traceSteps]
    cases hchoose : x.choose st r with
    | error e r₁ => exact fun _ hy => absurd hy List.not_mem_nil
    | ok out r₁ =>
      cases out with
      | none => exact fun _ hy => absurd hy List.not_mem_nil
      | some out =>
        obtain ⟨isAnew, st₁, p⟩ := out
        obtain ⟨hcalm₁, hm, hst₁, haway⟩ := (ends_choose hreg hx h hst).of_ok hchoose _ rfl
        simp only
        cases hfinish : finishStep st₁ p.move r₁ with
        | error e r₂ => exact fun y hy => List.mem_singleton.1 hy ▸ haway
        | ok st₂ r₂ =>
          obtain ⟨htended₂, score, htold⟩ := (ends_finishStep_told hreg hcalm₁ hm).of_ok hfinish
          have hst₂ : Remembers g t (p :: if isAnew then [] else past) st₂ := by
            refine ⟨?_, List.forall_mem_cons.2 ⟨hm, hst₁.moves⟩⟩
            rw [htold, hst₁.acceptor, List.map_cons, ← TabuSearch.stepEnded_after]
            rfl
          exact List.forall_mem_cons.2 ⟨haway, ih htended₂ hst₂⟩

/-- Tabu search respects what it remembers: no move that a run makes touches an entity that one of the latest moves
touched, or reverses one of the latest moves, as far back as the two memories reach; without aspiration that holds of
all moves, with it of all that do not beat the best score at the start of their step. The latest moves are those since
the search started or last took in changes of the problem. -/
theorem tabu_keepsAway (hx : g.Selects x.selector) (hacceptor : x.acceptor = .tabu t) (h : r.Tended g facts shadows) :
    x.run r = (x.trace r).2 ∧ ∀ y ∈ (x.trace r).1,
      y.1.KeepsAway t y.2 ∨ t.aspiration = true ∧ y.1.score.beats y.1.best = true := by
  refine ⟨x.run_eq_trace r, ?_⟩
  have hbegin : Ends x.begin r (fun st r' => r'.Tended g facts shadows ∧ Remembers g t [] st) fun _ _ => True := by
    have hst : ∀ (score : Score k) forks, Remembers (S := S) g t [] ⟨x.acceptor.phaseStarted score, score, forks⟩ :=
      fun score forks => ⟨by rw [hacceptor, List.map_nil, TabuSearch.after_nil]; rfl, fun _ hq => absurd hq List.not_mem_nil⟩
    simp only [begin, ends_bind, ends_get, ends_ite, ends_discard, ends_pure, Running.updateBest]
    refine (ends_calculate_calm hreg ⟨h, .refl _⟩).mono (fun score r₁ hr₁ => ⟨fun _ => ?_, fun _ => ?_⟩)
      fun _ _ _ => trivial
    · refine (ends_calculate_calm hreg hr₁).mono (fun score' r₂ hr₂ => ?_) fun _ _ _ => trivial
      exact (ends_updateBestWith_calm hr₂ score').mono (fun _ r₃ hr₃ => ⟨hr₃.tended, hst score _⟩) fun _ _ => id
    · exact ⟨hr₁.tended, hst score _⟩
  rw [trace]
  cases hx' : x.begin r with
  | error e r₁ => exact fun _ hy => absurd hy List.not_mem_nil
  | ok st r₁ =>
    obtain ⟨htended, hst⟩ := hbegin.of_ok hx'
    exact keepsAway_traceSteps hreg hx htended hst

end LocalSearch

namespace Timetable

/-- A tabu search for rooms that never makes an exception. -/
def strict : TabuSearch := { entitySize := 1, moveSize := 2, aspiration := false }

/-- A search for rooms that makes three steps unless everything is tabu. -/
def wandering : LocalSearch Timetable .hardSoft :=
  { roomChanges with acceptor := .tabu strict, termination := some (.steps 3) }

/-- The lessons leave the crowded room one after the other. Then the one that moved last is tabu, and the other one
could only move back. -/
theorem tabu_keepsAway_uncrowding :
    (wandering.trace uncrowding).1.map (fun y => (y.1.move.entities, y.2.length)) = [([0], 0), ([1], 1)] ∧
      wandering.run uncrowding = (wandering.trace uncrowding).2 ∧
      ∀ y ∈ (wandering.trace uncrowding).1, y.1.KeepsAway strict y.2 := by
  refine ⟨by decide +kernel, ?_⟩
  obtain ⟨hrun, haway⟩ := LocalSearch.tabu_keepsAway (x := wandering) regular_givenRooms (.change () .asListed) rfl
    tended_uncrowding
  exact ⟨hrun, fun y hy => (haway y hy).resolve_right fun h => Bool.false_ne_true h.1⟩

end Timetable

end Planning
