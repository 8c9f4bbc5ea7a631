import Planning.Proofs.Phase.Candidates
import Planning.Proofs.Phase.HillClimbing
import Planning.Proofs.Run.Twin

/-!
# Several threads do what one does

A local search with several threads scores all candidates of a step on directors of its own, and then goes through them
with their scores; one with a single thread scores them as it goes. Both accept and pick the same moves, since the
directors of the threads make each move that is picked and cannot be told from the one of the run. They only differ
where the forager is done before all candidates were seen: the others were evaluated all the same, and are counted.
-/

namespace Planning

namespace LocalSearch

open Checked RunState Running

variable {S : Type} {k : ScoreKind} [PlanningSolution S k]

/-!
## Moves that are picked
-/

section Picks

variable (x : LocalSearch S k)

/-- The part of a step behind the changes of the problem, with the move that is picked. -/
def pickOn (st : SearchState S k) : Running S k (Option (SearchState S k × Move S)) := do
  if (← get).isPhaseTerminated x.termination then return none
  Running.stepStarted
  let r ← get
  let moves ← Running.draw (x.selector.moves r.director.solution)
  if moves.isEmpty then
    Running.report .debug "empty_neighborhood" fun _ => [("step", .number r.steps)]
    return none
  let (st, picked) ← x.forage st moves
  match picked with
  | none =>
    Running.report .debug "no_accepted_move" fun _ => [("step", .number r.steps)]
    return none
  | some m => return some (← finishStep st m, m)

/-- A step with the move that is picked. -/
def pick (st : SearchState S k) : Running S k (Option (SearchState S k × Move S)) := do
  let changes ← Running.takeChanges
  let st ← if changes = 0 then pure st else x.restart st
  x.pickOn st

/-- The moves that at most a number of steps pick. -/
def picks : Nat → SearchState S k → Running S k (List (Move S))
  | 0, _ => throw (.faulted .overflow)
  | fuel + 1, st => do
    match ← x.pick st with
    | none => return []
    | some (st, m) => return m :: (← picks fuel st)

/-- The course of the search with the moves that are picked. -/
def course : Running S k (List (Move S)) := do
  let forks := fork x.threads (← get).director
  let score ← Running.calculate
  if (← get).best.isNone then discard Running.updateBest
  x.picks (maxCount + 1) ⟨x.acceptor.phaseStarted score, score, forks⟩

/-- Behind the changes of the problem a step does not look at the number of threads that a search has. -/
theorem pickOn_threads (n : Nat) (st : SearchState S k) : pickOn { x with threads := n } st = x.pickOn st := rfl

/-- Behind the changes of the problem a step makes the move that it picks. -/
theorem stepOn_eq_pickOn (st : SearchState S k) : x.stepOn st = Option.map Prod.fst <$> x.pickOn st := by
  simp only [stepOn, pickOn, map_bind]
  refine bind_congr fun r => ?_
  split
  · rfl
  · simp only [map_bind]
    refine bind_congr fun _ => bind_congr fun r => bind_congr fun moves => ?_
    split
    · simp only [map_bind, map_pure, Option.map_none]
    · simp only [map_bind]
      refine bind_congr fun out => ?_
      obtain ⟨st', picked⟩ := out
      cases picked <;> simp

/-- A step makes the move that it picks. -/
theorem step_eq_pick (st : SearchState S k) : x.step st = Option.map Prod.fst <$> x.pick st := by
  simp only [step_eq, pick, map_bind, stepOn_eq_pickOn]
  refine bind_congr fun changes => ?_
  split <;> simp only [map_bind]

/-- The steps of a search make the moves that they pick. -/
theorem steps_eq_picks (fuel : Nat) (st : SearchState S k) : x.steps fuel st = discard (x.picks fuel st) := by
  induction fuel generalizing st with
  | zero => rfl
  | succ fuel ih =>
    change x.step st >>= _ = (x.pick st >>= _) >>= fun _ => pure ()
    rw [step_eq_pick, bind_map_left, bind_assoc]
    refine bind_congr fun out => ?_
    cases out with
    | none => rfl
    | some out =>
      change x.steps fuel out.1 = (x.picks fuel out.1 >>= fun ms => pure (out.2 :: ms)) >>= fun _ => pure ()
      rw [ih, bind_assoc]
      rfl

/-- A search makes the moves that it picks. -/
theorem run_eq_course : x.run = discard x.course := by
  change _ = x.course >>= fun _ => pure ()
  simp only [run, course, bind_assoc, steps_eq_picks]
  refine bind_congr fun r => bind_congr fun score => bind_congr fun r' => ?_
  split
  · rw [bind_assoc]
    rfl
  · rfl

end Picks

/-!
## Scores of candidates
-/

section Rates

variable {P : Move S → Prop} {C : Director S k → Director S k → Prop} {check : Bool} {dir thread thread' : Director S k}
variable {m : Move S} {ms : List (Move S)} {scores : List (Option (Score k))}

/-- The score of a move on a director; a move that would change nothing has none. -/
inductive Rates (check : Bool) (dir : Director S k) (m : Move S) : Option (Score k) → Prop where
  /-- The move would change nothing. -/
  | idle (h : m.isDoable dir.solution = false) : Rates check dir m none
  /-- The move is evaluated. -/
  | scored {dir' : Director S k} {score : Score k} (h : m.isDoable dir.solution = true)
    (hscore : dir.evaluate m check = .ok (dir', .ok score)) : Rates check dir m (some score)

/-- All moves of some kind that would change the solution can be evaluated. -/
def Scorable (P : Move S → Prop) (C : Director S k → Director S k → Prop) : Prop :=
  ∀ m dir check, P m → C dir dir → m.isDoable dir.solution = true →
    ∃ dir' score, dir.evaluate m check = .ok (dir', .ok score)

variable (hC : Congruence P C)
include hC

/-- The scores that a thread finds are those of the moves on a director that cannot be told from its own. -/
theorem scores_rates (check : Bool) (dir : Director S k) : Scores check P (C dir) (Rates check dir) fun _ => True where
  idle hm hthread hidle := .idle ((hC.doable hm hthread).trans hidle)
  scored hm hthread hdoable hevaluate := by
    obtain ⟨hback, dir', hdir'⟩ := hC.evaluate hm (hC.symm hthread) hevaluate
    have hthread' := hC.trans hthread (hC.symm (hC.journal [] hback))
    exact ⟨hthread', .scored ((hC.doable hm hthread).trans hdoable) hdir'⟩
  refused _ _ _ _ := trivial

/-- A thread finds the scores of moves that have some. -/
theorem exists_scorePart (hthread : C dir thread) (hms : ∀ m ∈ ms, P m)
    (hrates : ∀ m ∈ ms, ∃ score, Rates check dir m score) :
    ∃ thread' scores, scorePart check thread ms = .ok (.ok (thread', scores)) := by
  induction ms generalizing thread with
  | nil => exact ⟨thread, [], rfl⟩
  | cons m ms ih =>
    obtain ⟨hm, hms⟩ := List.forall_mem_cons.1 hms
    obtain ⟨⟨score, hscore⟩, hrates⟩ := List.forall_mem_cons.1 hrates
    have hdoable := hC.doable hm hthread
    rw [scorePart]
    cases hscore with
    | idle hidle =>
      obtain ⟨thread', scores, hrest⟩ := ih hthread hms hrates
      rw [hidle] at hdoable
      rw [← hdoable, hrest]
      exact ⟨thread', none :: scores, rfl⟩
    | scored hdoable' hevaluate =>
      obtain ⟨-, thread₁, hthread₁⟩ := hC.evaluate hm hthread hevaluate
      obtain ⟨hback, -⟩ := hC.evaluate hm (hC.symm hthread) hthread₁
      have hnext : C dir { thread₁ with journal := [] } := hC.trans hthread (hC.symm (hC.journal [] hback))
      obtain ⟨thread', scores, hrest⟩ := ih hnext hms hrates
      rw [hdoable'] at hdoable
      rw [← hdoable, hthread₁]
      exact ⟨thread', _, bind_eq_ok_iff.2 ⟨_, rfl, bind_eq_ok_iff.2 ⟨_, hrest, rfl⟩⟩⟩

variable {size : Nat} {threads threads' : List (Director S k)}

/-- The scores that the threads find are those of the moves, if together they look at all of them. -/
theorem rates_of_scoreParts (hthreads : ∀ thread ∈ threads, C dir thread) (hms : ∀ m ∈ ms, P m)
    (hsize : ms.length ≤ size * threads.length)
    (h : scoreParts check size ms threads = .ok (.ok (threads', scores))) :
    (∀ thread ∈ threads', C dir thread) ∧ threads'.length = threads.length ∧
      List.Forall₂ (Rates check dir) ms scores := by
  have hall := ((scores_rates hC check dir).of_scoreParts hthreads hms h).1 _ _ rfl
  rwa [List.take_of_length_le hsize] at hall

/-- The threads find the scores of moves that have some. -/
theorem exists_scoreParts (size : Nat) (hthreads : ∀ thread ∈ threads, C dir thread) (hms : ∀ m ∈ ms, P m)
    (hrates : ∀ m ∈ ms, ∃ score, Rates check dir m score) :
    ∃ threads' scores, scoreParts check size ms threads = .ok (.ok (threads', scores)) := by
  induction threads generalizing ms with
  | nil => exact ⟨[], [], rfl⟩
  | cons thread threads ih =>
    obtain ⟨hthread, hthreads⟩ := List.forall_mem_cons.1 hthreads
    obtain ⟨thread', front, hpart⟩ := exists_scorePart hC hthread (fun m hm => hms m (List.mem_of_mem_take hm))
      fun m hm => hrates m (List.mem_of_mem_take hm)
    obtain ⟨threads', back, hrest⟩ := ih hthreads (fun m hm => hms m (List.mem_of_mem_drop hm))
      fun m hm => hrates m (List.mem_of_mem_drop hm)
    exact ⟨thread' :: threads', front ++ back,
      bind_eq_ok_iff.2 ⟨_, hpart, bind_eq_ok_iff.2 ⟨_, hrest, rfl⟩⟩⟩

end Rates

/-!
## Steps
-/

section Steps

variable {P : Move S → Prop} {C : Director S k → Director S k → Prop} {exact : Prop} {E : Stop → Prop}
variable {dir : Director S k} {r r' : RunState S k} {m : Move S} {ms moves : List (Move S)} {f : Forager k}
variable {a : Acceptor k} {last best score : Score k} {scores : List (Option (Score k))} {place : Nat}

/-- A forager goes through so many candidates, whatever their scores. -/
def Patient (f : Forager k) (n : Nat) : Prop := f.pickEarly = .never ∧ f.accepted.length + n ≤ f.limit

omit [PlanningSolution S k] in
/-- A forager that goes through many candidates goes through fewer. -/
theorem Patient.mono {n : Nat} (h : Patient f (n + 1)) : Patient f n := ⟨h.1, (Nat.le_succ _).trans h.2⟩

omit [PlanningSolution S k] in
/-- A patient forager goes on with what it gathered, and is done only when there is nothing more to see. -/
theorem Patient.add {n : Nat} (h : Patient f (n + 1)) (place : Nat) (score last best : Score k) :
    Patient (f.addCompared place score last best) n ∧
      ((f.addCompared place score last best).isDone = true → n = 0) := by
  obtain ⟨hearly, hlimit⟩ := h
  have hlength : (f.addCompared place score last best).accepted.length = f.accepted.length + 1 := rfl
  have hsame : (f.addCompared place score last best).limit = f.limit := rfl
  refine ⟨⟨hearly, by omega⟩, fun hdone => ?_⟩
  have hpicked : (f.addCompared place score last best).pickedEarly = false := by
    simp only [Forager.addCompared, Forager.add, hearly]
  rw [Forager.isDone, hpicked, Bool.false_or, decide_eq_true_iff] at hdone
  omega

variable (hC : Congruence P C) (h : r.Twin C exact dir r')
include hC h

/-- The acceptor decides alike for twins. -/
theorem meets_accepted (hE : exact ∨ E (.faulted .overflow)) (hm : P m) :
    Meets E (accepted a last best score m) (accepted a last best score m) r r' (Agrees C exact dir) := by
  simp only [accepted, meets_get_bind, hC.signature hm (h.peers hC)]
  refine (Meets.draw (G := Agrees C exact dir) h.generator
    fun isAccepted gen => ⟨rfl, { h with generator := rfl }⟩).bind fun isAccepted isAccepted' s s' hs => ?_
  obtain ⟨rfl, hs⟩ := hs
  exact (meets_recordMove hs hE isAccepted).bind fun _ _ t t' ht => ⟨rfl, ht⟩

omit hC h [PlanningSolution S k] in
/-- The acceptor leaves the director alone, and how far the run checks itself. -/
theorem ends_accepted_same : Ends (accepted a last best score m) r
    (fun _ s => s.mode = r.mode ∧ s.director = r.director) fun _ _ => True := by
  simp [accepted]

omit hC [PlanningSolution S k] in
/-- Behind a forager that is done the second of two twins only counts. -/
theorem meets_leftover (hE : E (.faulted .overflow)) (hexact : ¬ exact) (l : List (Move S × Option (Score k))) :
    Meets E (pure f) (scanScored a last best f true place l) r r' (Agrees C exact dir) := by
  induction l generalizing place r' with
  | nil => exact ⟨rfl, h⟩
  | cons y l ih =>
    obtain ⟨m, score⟩ := y
    cases score with
    | none => exact ih h
    | some score => exact meets_recordMove_right h hE hexact false fun s' hs => ih hs

/-- Candidates that are evaluated one after another and candidates that come with their scores are gathered alike. -/
theorem meets_scan (hE : exact ∨ E (.faulted .overflow)) (hms : ∀ m ∈ ms, P m)
    (hrates : List.Forall₂ (Rates r.mode.assertsMoves dir) ms scores) (hf : exact → Patient f ms.length) :
    Meets E (scan a last best f place ms) (scanScored a last best f false place (ms.zip scores)) r r'
      (Agrees C exact dir) := by
  generalize hcheck : r.mode.assertsMoves = check at hrates
  induction hrates generalizing r r' f place with
  | nil => exact ⟨rfl, h⟩
  | @cons m score ms scores hscore hrates ih =>
    obtain ⟨hm, hms⟩ := List.forall_mem_cons.1 hms
    have hdoable := hC.doable hm h.left
    rw [scan, List.zip_cons_cons]
    refine .of_left (a := r) (s := r) rfl ?_
    rw [← hdoable]
    cases hscore with
    | idle hidle =>
      rw [hidle, scanScored]
      exact ih h hms (fun hexact => (hf hexact).mono) hcheck
    | @scored _ score hdo hevaluate =>
      rw [← hcheck] at hevaluate
      obtain ⟨s, hs, hmode, htwin⟩ := exists_evaluate hC h hm hevaluate
      rw [hdo, scanScored]
      simp only [Bool.not_true, Bool.false_eq_true, if_false]
      refine .of_left hs (((meets_accepted hC htwin hE hm).and_ends ends_accepted_same).bind
        fun isAccepted isAccepted' t t' ht => ?_)
      obtain ⟨⟨rfl, ht⟩, hmode', -⟩ := ht
      have hcheck' : t.mode.assertsMoves = check := by rw [hmode', hmode, hcheck]
      cases isAccepted with
      | false => exact ih ht hms (fun hexact => (hf hexact).mono) hcheck'
      | true =>
        have hadd := fun hexact => (hf hexact).add place score last best
        simp only [if_true]
        cases hdone : (f.addCompared place score last best).isDone with
        | false => exact ih ht hms (fun hexact => (hadd hexact).1) hcheck'
        | true =>
          rw [if_pos rfl]
          by_cases hexact : exact
          · -- Nothing is left behind a patient forager that is done.
            have hnil : ms = [] := List.length_eq_zero_iff.1 ((hadd hexact).2 hdone)
            rw [hnil]
            exact ⟨rfl, ht⟩
          · exact meets_leftover ht (hE.resolve_left hexact) hexact _

omit h in
/-- A patient forager does not get past a candidate that cannot be evaluated. -/
theorem ends_scan_fails (hdir : C dir r.director) (hms : ∀ m ∈ ms, P m) (hf : Patient f ms.length)
    (hfails : ∃ m ∈ ms, ∀ score, ¬ Rates r.mode.assertsMoves dir m score) :
    Ends (scan a last best f place ms) r (fun _ _ => False) fun _ _ => True := by
  induction ms generalizing r f place with
  | nil =>
    obtain ⟨m, hmem, -⟩ := hfails
    cases hmem
  | cons m ms ih =>
    obtain ⟨hm, hms⟩ := List.forall_mem_cons.1 hms
    have hdoable := hC.doable hm hdir
    simp only [scan, ends_bind, ends_get, ends_ite]
    refine ⟨fun hidle => ih hdir hms hf.mono ?_, fun hdo => ?_⟩
    · obtain ⟨n, hmem, hnone⟩ := hfails
      rcases List.mem_cons.1 hmem with rfl | hmem
      · exact absurd (.idle (hdoable.trans (by simpa using hidle))) (hnone none)
      · exact ⟨n, hmem, hnone⟩
    · refine .evaluate (fun thread score s hevaluate hnoted => ?_) (fun _ _ _ => trivial) fun _ _ => trivial
      obtain ⟨hback, dir', hdir'⟩ := hC.evaluate hm (hC.symm hdir) hevaluate
      have hmode : s.mode = r.mode := by rw [hnoted.eq]
      have hs : C dir s.director := by
        rw [hnoted.director]
        exact hC.symm (hC.journal _ (hC.trans hback (hC.symm hdir)))
      have hrest : ∃ n ∈ ms, ∀ score, ¬ Rates r.mode.assertsMoves dir n score := by
        obtain ⟨n, hmem, hnone⟩ := hfails
        rcases List.mem_cons.1 hmem with rfl | hmem
        · exact absurd (.scored (hdoable.trans (by simpa using hdo)) hdir') (hnone (some score))
        · exact ⟨n, hmem, hnone⟩
      refine ends_accepted_same.mono (fun isAccepted t ht => ?_) fun _ _ _ => trivial
      obtain ⟨hmode', hdirector⟩ := ht
      have hgo : ∀ f' : Forager k, Patient f' ms.length →
          Ends (scan a last best f' (place + 1) ms) t (fun _ _ => False) fun _ _ => True := by
        refine fun f' hf' => ih (hdirector ▸ hs) hms hf' ?_
        rw [hmode', hmode]
        exact hrest
      refine ⟨fun _ => ⟨fun hdone => ?_, fun _ => hgo _ (hf.add place score last best).1⟩, fun _ => hgo _ hf.mono⟩
      -- There is still a candidate that cannot be evaluated, so the forager is not done.
      obtain ⟨n, hmem, -⟩ := hrest
      have hnil := List.length_eq_zero_iff.1 ((hf.add place score last best).2 hdone)
      rw [hnil] at hmem
      cases hmem

end Steps

/-!
## The course of a search
-/

section Course

variable {P : Move S → Prop} {C : Director S k → Director S k → Prop} {exact : Prop}
variable {dir : Director S k} {r r' : RunState S k} {m : Move S} {moves : List (Move S)} {x : LocalSearch S k}
variable {st st' : SearchState S k} {α : Type} {n fuel : Nat}

/-- A search with one thread and a search with several stand alike: the directors of the threads cannot be told from a
given one. -/
structure Abreast (C : Director S k → Director S k → Prop) (dir : Director S k) (st st' : SearchState S k) : Prop where
  /-- The acceptors are the same. -/
  acceptor : st.acceptor = st'.acceptor
  /-- The last step had the same score. -/
  last : st.last = st'.last
  /-- There is one thread. -/
  alone : st.forks = []
  /-- There are several threads. -/
  threads : 0 < st'.forks.length
  /-- The directors of the threads cannot be told from the given one. -/
  follow : ∀ thread ∈ st'.forks, C dir thread

/-- How a search with several threads fails where one with a single thread does not: only if candidates are left out,
and then since one of them cannot be evaluated or too many are counted. -/
def FailsAlone (P : Move S → Prop) (C : Director S k → Director S k → Prop) (exact : Prop) (e : Stop) : Prop :=
  ¬ exact ∧ (Scorable P C → e = .faulted .overflow)

/-- Counts are exact, or too many moves may be counted. -/
theorem exact_or_failsAlone : exact ∨ FailsAlone P C exact (.faulted .overflow) :=
  (em exact).imp_right fun hexact => ⟨hexact, fun _ => rfl⟩

variable (hC : Congruence P C)
include hC

/-- Where a candidate cannot be evaluated several threads fail alone, or one thread fails as well, since it may not
leave the candidate out. -/
theorem failsAlone_or_stops (a : Acceptor k) (last best : Score k) {f : Forager k} (hdir : C dir r.director)
    (hms : ∀ m ∈ moves, P m) (hf : exact → Patient f moves.length)
    (hfails : ∃ m ∈ moves, ∀ score, ¬ Rates r.mode.assertsMoves dir m score) (e : Stop) :
    FailsAlone P C exact e ∨ ∀ f' s, scan a last best f 0 moves r ≠ .ok f' s := by
  by_cases hexact : exact
  · exact .inr fun f' s hs => (ends_scan_fails hC hdir hms (hf hexact) hfails).of_ok hs
  · refine .inl ⟨hexact, fun hscorable => ?_⟩
    obtain ⟨m, hm, hnone⟩ := hfails
    cases hdo : m.isDoable dir.solution with
    | false => exact absurd (.idle hdo) (hnone none)
    | true =>
      have hself := hC.trans hdir (hC.symm hdir)
      obtain ⟨dir', score, hscore⟩ := hscorable m dir r.mode.assertsMoves (hms m hm) hself hdo
      exact absurd (.scored hdo hscore) (hnone (some score))

/-- One thread and several gather the same candidates, and go on alike when they do so with the same ones. -/
theorem meets_gather {last best : Score k} {f : Forager k} (h : r.Twin C exact dir r') (hst : Abreast C dir st st')
    (hms : ∀ m ∈ moves, P m) (hf : exact → Patient f moves.length)
    {g : SearchState S k × Forager k → Running S k α} {G : α → α → RunState S k → RunState S k → Prop}
    (hg : ∀ f threads s s', Abreast C dir st { st' with forks := threads } → s.Twin C exact dir s' →
      Meets (FailsAlone P C exact) (g (st, f)) (g ({ st' with forks := threads }, f)) s s' G) :
    Meets (FailsAlone P C exact) (do g (st, ← scan st.acceptor last best f 0 moves))
      (do
        match ← Running.checked (scoreParts r.mode.assertsMoves (partSize moves.length st'.forks.length) moves
          st'.forks) with
        | .error e => Running.fail e >>= g
        | .ok (threads, scores) =>
          g ({ st' with forks := threads }, ← scanScored st.acceptor last best f false 0 (moves.zip scores)))
      r r' G := by
  have hsize := length_le_partSize (n := moves.length) hst.threads
  by_cases hall : ∀ m ∈ moves, ∃ score, Rates r.mode.assertsMoves dir m score
  · obtain ⟨threads', scores, hparts⟩ :=
      exists_scoreParts hC (partSize moves.length st'.forks.length) hst.follow hms hall
    obtain ⟨hfollow, hlength, hrates⟩ := rates_of_scoreParts hC hst.follow hms hsize hparts
    refine .of_right (checked_eq_ok_iff.2 ⟨hparts, rfl⟩) ?_
    refine (meets_scan hC h exact_or_failsAlone hms hrates hf).bind fun f₁ f₁' s s' hs => ?_
    obtain ⟨rfl, hs⟩ := hs
    exact hg f₁ threads' s s' ⟨hst.acceptor, hst.last, hst.alone, hlength ▸ hst.threads, hfollow⟩ hs
  · have hfails : ∃ m ∈ moves, ∀ score, ¬ Rates r.mode.assertsMoves dir m score := by
      by_contra hnone
      exact hall fun m hm => by_contra fun hm' => hnone ⟨m, hm, fun score hscore => hm' ⟨score, hscore⟩⟩
    have hstops : ∀ e, FailsAlone P C exact e ∨ ∀ y s, (scan st.acceptor last best f 0 moves >>= fun f =>
        g (st, f)) r ≠ .ok y s := by
      intro e
      refine (failsAlone_or_stops hC st.acceptor last best h.left hms hf hfails e).imp_right fun hscan y s hs => ?_
      obtain ⟨f', t, ht, -⟩ := bind_apply_eq_ok_iff.1 hs
      exact hscan f' t ht
    cases hparts : scoreParts r.mode.assertsMoves (partSize moves.length st'.forks.length) moves st'.forks with
    | error fault => exact .of_error rfl (hstops _)
    | ok out =>
      cases out with
      | error e => exact .of_error rfl (hstops _)
      | ok out =>
        -- The threads would have found a score of the candidate.
        obtain ⟨-, -, hrates⟩ := rates_of_scoreParts hC hst.follow hms hsize hparts
        obtain ⟨m, hm, hnone⟩ := hfails
        obtain ⟨i, hi, rfl⟩ := List.getElem_of_mem hm
        exact absurd (hrates.get hi (hrates.length_eq ▸ hi)) (hnone _)

/-- One thread and several pick the same move. -/
theorem meets_forage (h : r.Twin C exact dir r') (hst : Abreast C dir st st') (hms : ∀ m ∈ moves, P m)
    (hf : exact → Patient x.forager.stepStarted moves.length) :
    Meets (FailsAlone P C exact) (x.forage st moves) (x.forage st' moves) r r' fun out out' s s' =>
      out.2 = out'.2 ∧ (∀ m, out.2 = some m → m ∈ moves) ∧ Abreast C dir out.1 out'.1 ∧ s.Twin C exact dir s' := by
  obtain ⟨acceptor, last, threads⟩ := st'
  obtain rfl : st.acceptor = acceptor := hst.acceptor
  obtain rfl : st.last = last := hst.last
  have hseveral : threads.isEmpty = false := List.isEmpty_eq_false_iff.2 (List.ne_nil_of_length_pos hst.threads)
  simp only [forage, meets_get_bind, hst.alone, hseveral, List.isEmpty_nil, if_true, Bool.false_eq_true, if_false,
    ← h.mode, ← h.bestScore_eq.2]
  refine meets_gather hC h hst hms hf (g := fun y => do
    return (y.1, (← Running.draw y.2.pick).bind fun z => moves[z.1]?)) fun f threads s s' hst' hs => ?_
  refine (Meets.draw (G := Agrees C exact dir) hs.generator
    fun picked gen => ⟨rfl, { hs with generator := rfl }⟩).bind fun picked picked' t t' ht => ?_
  obtain ⟨rfl, ht⟩ := ht
  refine ⟨rfl, fun m hm => ?_, hst', ht⟩
  obtain ⟨z, -, hz⟩ := Option.bind_eq_some_iff.1 hm
  exact List.mem_of_getElem? hz

/-- Directors that cannot be told from one that makes a move make it too. -/
theorem exists_makeOnFork {d : Director S k} {threads : List (Director S k)} (hm : P m)
    (hd : dir.doMove m = .ok (d, .ok ())) (hthreads : ∀ thread ∈ threads, C dir thread) :
    ∃ threads', threads.mapM (makeOnFork m) r = .ok threads' r ∧ threads'.length = threads.length ∧
      ∀ thread ∈ threads', C d thread := by
  induction threads with
  | nil => exact ⟨[], rfl, rfl, fun _ hmem => absurd hmem List.not_mem_nil⟩
  | cons thread threads ih =>
    obtain ⟨hthread, hthreads⟩ := List.forall_mem_cons.1 hthreads
    obtain ⟨thread', hmade, hsame⟩ := hC.doMove hm hthread hd
    obtain ⟨threads', hrest, hlength, hsames⟩ := ih hthreads
    refine ⟨{ thread' with journal := [] } :: threads', ?_, by rw [List.length_cons, List.length_cons, hlength],
      List.forall_mem_cons.2 ⟨hC.symm (hC.journal [] (hC.symm hsame)), hsames⟩⟩
    rw [List.mapM_cons]
    refine bind_apply_eq_ok_iff.2 ⟨_, r, ?_, bind_apply_eq_ok_iff.2 ⟨threads', r, hrest, rfl⟩⟩
    exact bind_apply_eq_ok_iff.2 ⟨_, r, checked_eq_ok_iff.2 ⟨hmade, rfl⟩, rfl⟩

/-- The move that is picked is made by one thread and by several. -/
theorem meets_finishStep (hm : P m) (h : r.Twin C exact dir r') (hst : Abreast C dir st st') :
    Meets (FailsAlone P C exact) (finishStep st m) (finishStep st' m) r r' fun st st' s s' =>
      ∃ d, Abreast C d st st' ∧ s.Twin C exact d s' := by
  simp only [finishStep, meets_get_bind, hC.signature hm (h.peers hC), hst.alone, ← hst.acceptor]
  refine (meets_make hC h hm).bind fun _ _ s s' hs => ?_
  obtain ⟨d, hd, hs⟩ := hs
  obtain ⟨threads', hmade, hlength, hfollow⟩ := exists_makeOnFork (r := s') hC hm hd hst.follow
  refine .of_left (a := []) (s := s) rfl (.of_right hmade ?_)
  refine (meets_calculate hC hs).bind fun score score' t t' ht => ?_
  obtain ⟨rfl, ht⟩ := ht
  refine (meets_stepEnded hC ht score).bind fun _ _ u u' hu => ?_
  refine (meets_assertStep hC hu).bind fun _ _ v v' hv => ?_
  have hbest : Meets (FailsAlone P C exact) (Running.updateBestWith score) (Running.updateBestWith score) v v'
      fun _ _ => RunState.Twin C exact d := (meets_updateBestWith hC hv score).mono fun _ _ _ _ hw => hw.2
  refine (Meets.discard (G := fun _ _ => RunState.Twin C exact d) hbest).bind fun _ _ w w' hw => ?_
  exact ⟨d, ⟨rfl, rfl, rfl, hlength ▸ hst.threads, hfollow⟩, hw⟩

omit hC [PlanningSolution S k] in
/-- Searches with one thread and with several start abreast. -/
theorem abreast_start {acceptor : Acceptor k} {last : Score k} {thread thread' : Director S k} (hn : 1 < n)
    (hthread : C dir thread') : Abreast C dir ⟨acceptor, last, fork 1 thread⟩ ⟨acceptor, last, fork n thread'⟩ := by
  have hfork : fork n thread' = List.replicate n thread' := if_neg (Nat.not_le.2 hn)
  refine ⟨rfl, rfl, rfl, ?_, fun each heach => ?_⟩
  · rw [hfork, List.length_replicate]
    exact Nat.zero_lt_of_lt hn
  · rw [hfork] at heach
    rw [List.eq_of_mem_replicate heach]
    exact hthread

/-- What lists the candidates lists the same ones for directors that cannot be told apart, and lists moves of some kind
only. -/
structure Offers (x : LocalSearch S k) (P : Move S → Prop) (C : Director S k → Director S k → Prop) : Prop where
  /-- The candidates are the same. -/
  same : ∀ {dir dir'}, C dir dir' → x.selector.moves dir.solution = x.selector.moves dir'.solution
  /-- The candidates are of the kind. -/
  listed : ∀ {dir gen ms gen'}, C dir dir → (x.selector.moves dir.solution).run gen = .ok (ms, gen') → ∀ m ∈ ms, P m

/-- The forager goes through all candidates of a step, whatever their scores. -/
def Thorough (x : LocalSearch S k) (C : Director S k → Director S k → Prop) : Prop :=
  x.forager.pickEarly = .never ∧ ∀ {dir gen ms gen'}, C dir dir →
    (x.selector.moves dir.solution).run gen = .ok (ms, gen') → ms.length ≤ x.forager.limit

variable (hx : x.Offers P C) (hthorough : exact → x.Thorough C) (hsees : exact ∨ ∀ t ∈ x.termination, t.SeesSteps)
include hx hthorough hsees

/-- Behind the changes of the problem one thread and several pick the same move and make it. -/
theorem meets_pickOn (h : r.Twin C exact dir r') (hst : Abreast C dir st st') :
    Meets (FailsAlone P C exact) (x.pickOn st) (x.pickOn st') r r' fun out out' s s' =>
      ∃ d, s.Twin C exact d s' ∧ Option.Rel (fun y y' => y.2 = y'.2 ∧ Abreast C d y.1 y'.1) out out' := by
  simp only [pickOn, meets_get_bind, h.isPhaseTerminated_eq hsees]
  split
  · exact ⟨dir, h, .none⟩
  refine (meets_stepStarted hC h).bind fun _ _ s s' hs => ?_
  simp only [meets_get_bind, hx.same (hs.peers hC)]
  have hdraw : Meets (FailsAlone P C exact) (Running.draw (x.selector.moves s'.director.solution))
      (Running.draw (x.selector.moves s'.director.solution)) s s' fun moves moves' t t' =>
        Agrees C exact dir moves moves' t t' ∧
          ∃ gen, (x.selector.moves s'.director.solution).run s.generator = .ok (moves, gen) := by
    refine (Meets.draw hs.generator fun moves gen => ⟨rfl, { hs with generator := rfl }⟩).and_ends
      (F := fun _ _ => True) ?_
    rw [ends_draw]
    exact ⟨fun moves gen hmoves => ⟨gen, hmoves⟩, fun _ _ => trivial⟩
  refine hdraw.bind fun moves moves' t t' ht => ?_
  obtain ⟨⟨rfl, ht⟩, gen, hmoves⟩ := ht
  have hself : C s'.director s'.director := hC.trans (hC.symm hs.right) hs.right
  split
  · exact (meets_report hC ht _ _ _ _).bind fun _ _ u u' hu => ⟨dir, hu, .none⟩
  have hpatient : exact → Patient x.forager.stepStarted moves.length := fun hexact => by
    obtain ⟨hearly, hlimit⟩ := hthorough hexact
    exact ⟨hearly, by simpa [Forager.stepStarted] using hlimit hself hmoves⟩
  refine (meets_forage hC ht hst (hx.listed hself hmoves) hpatient).bind fun out out' u u' hu => ?_
  obtain ⟨st₁, picked⟩ := out
  obtain ⟨st₁', picked'⟩ := out'
  obtain ⟨hpicked, hmem, hst₁, hu⟩ := hu
  obtain rfl : picked = picked' := hpicked
  cases picked with
  | none => exact (meets_report hC hu _ _ _ _).bind fun _ _ v v' hv => ⟨dir, hv, .none⟩
  | some m =>
    have hm : P m := hx.listed hself hmoves m (hmem m rfl)
    refine (meets_finishStep hC hm hu hst₁).bind fun st₂ st₂' v v' hv => ?_
    obtain ⟨d, hst₂, hv⟩ := hv
    exact ⟨d, hv, .some ⟨rfl, hst₂⟩⟩

omit hx hthorough hsees in
/-- Searches with one thread and with several start anew abreast. -/
theorem meets_restart (hn : 1 < n) (h : r.Twin C exact dir r') (hst : st.acceptor = st'.acceptor) :
    Meets (FailsAlone P C exact) (restart { x with threads := 1 } st) (restart { x with threads := n } st') r r'
      fun st st' s s' => s.Twin C exact dir s' ∧ Abreast C dir st st' := by
  refine (meets_calculate hC h).bind fun score score' s s' hs => ?_
  obtain ⟨rfl, hs⟩ := hs
  rw [← hst]
  exact ⟨hs, abreast_start hn hs.right⟩

/-- One thread and several pick the same move in a step, and are done with it alike. -/
theorem meets_pick (hn : 1 < n) (h : r.Twin C exact dir r') (hst : Abreast C dir st st') :
    Meets (FailsAlone P C exact) (pick { x with threads := 1 } st) (pick { x with threads := n } st') r r'
      fun out out' s s' =>
        ∃ d, s.Twin C exact d s' ∧ Option.Rel (fun y y' => y.2 = y'.2 ∧ Abreast C d y.1 y'.1) out out' := by
  refine (meets_takeChanges hC h).bind fun changes changes' s s' hs => ?_
  obtain ⟨rfl, d, hs, hnone⟩ := hs
  simp only [pickOn_threads]
  split
  · rename_i hzero
    exact meets_pickOn hC hx hthorough hsees hs (hnone hzero ▸ hst)
  · refine (meets_restart hC hn hs hst.acceptor).bind fun st₁ st₁' t t' ht => ?_
    exact meets_pickOn hC hx hthorough hsees ht.1 ht.2

/-- One thread and several pick the same moves in the steps of a search, and are left twins. -/
theorem meets_picks (hn : 1 < n) (h : r.Twin C exact dir r') (hst : Abreast C dir st st') :
    Meets (FailsAlone P C exact) (picks { x with threads := 1 } fuel st) (picks { x with threads := n } fuel st') r r'
      fun ms ms' s s' => ms = ms' ∧ ∃ d, s.Twin C exact d s' := by
  induction fuel generalizing dir r r' st st' with
  | zero => trivial
  | succ fuel ih =>
    refine (meets_pick hC hx hthorough hsees hn h hst).bind fun out out' s s' hs => ?_
    obtain ⟨d, hs, hout⟩ := hs
    cases hout with
    | none => exact ⟨rfl, d, hs⟩
    | some hout =>
      obtain ⟨hm, hst'⟩ := hout
      refine (ih hs hst').bind fun ms ms' t t' ht => ?_
      exact ⟨by rw [hm, ht.1], ht.2⟩

/-- A search picks the same moves with one thread and with several, and leaves the runs twins. -/
theorem meets_course (hn : 1 < n) (h : r.Twin C exact dir r') :
    Meets (FailsAlone P C exact) (course { x with threads := 1 }) (course { x with threads := n }) r r'
      fun ms ms' s s' => ms = ms' ∧ ∃ d, s.Twin C exact d s' := by
  simp only [course, meets_get_bind]
  refine (meets_calculate hC h).bind fun score score' s s' hs => ?_
  obtain ⟨rfl, hs⟩ := hs
  have hgo : ∀ t t', t.Twin C exact dir t' →
      Meets (FailsAlone P C exact)
        (picks { x with threads := 1 } (maxCount + 1) ⟨x.acceptor.phaseStarted score, score, fork 1 r.director⟩)
        (picks { x with threads := n } (maxCount + 1) ⟨x.acceptor.phaseStarted score, score, fork n r'.director⟩) t t'
        fun ms ms' u u' => ms = ms' ∧ ∃ d, u.Twin C exact d u' :=
    fun t t' ht => meets_picks hC hx hthorough hsees hn ht (abreast_start hn h.right)
  simp only [meets_get_bind, hs.best]
  split
  · have hbest : Meets (FailsAlone P C exact) Running.updateBest Running.updateBest s s'
        fun _ _ => RunState.Twin C exact dir := (meets_updateBest hC hs).mono fun _ _ _ _ ht => ht.2
    exact (Meets.discard (G := fun _ _ => RunState.Twin C exact dir) hbest).bind fun _ _ => hgo
  · exact hgo s s' hs

end Course

/-!
## Any number of threads
-/

section Threads

variable {P : Move S → Prop} {C : Director S k → Director S k → Prop} {r : RunState S k} (x : LocalSearch S k) {n : Nat}

/-- A search with fewer than two threads is one with a single thread. -/
theorem course_alone (hn : n ≤ 1) : course { x with threads := n } = course { x with threads := 1 } := by
  have hfork : ∀ dir : Director S k, fork n dir = fork 1 dir := fun dir => if_pos hn
  have hrestart : restart { x with threads := n } = restart { x with threads := 1 } := by
    funext st
    simp only [restart, hfork]
  have hpick : pick { x with threads := n } = pick { x with threads := 1 } := by
    funext st
    simp only [pick, hrestart]
    rfl
  have hpicks : ∀ fuel st, picks { x with threads := n } fuel st = picks { x with threads := 1 } fuel st := by
    intro fuel
    induction fuel with
    | zero => exact fun _ => rfl
    | succ fuel ih =>
      intro st
      simp only [picks, hpick, ih]
  simp only [course, hpicks, hfork]

/-- A local search does with any number of threads what it does with one: it picks the same moves, its steps have the
same scores, and it finds the same best solution. With several threads it may count more moves, but only if the forager
may be done before all candidates were seen; then nothing may stop the search that looks at counts of moves. Where one
thread succeeds several do too, unless they score a candidate that cannot be scored or count too many moves, and where
one fails they all do. -/
theorem course_threads (hC : Congruence P C) (hx : x.Offers P C) (n : Nat) (hdir : C r.director r.director)
    (hwaits : ∀ c ∈ r.pending, c.Respects C) (hasks : ∀ c, r.Asks c → c.Respects C)
    (hsees : x.Thorough C ∨ (∀ t ∈ x.termination, t.SeesSteps) ∧ ∀ t ∈ r.termination, t.SeesSteps) :
    (∀ y : LocalSearch S k, y.run = discard y.course) ∧
      Meets (FailsAlone P C (x.Thorough C)) (course { x with threads := 1 }) (course { x with threads := n }) r r
        fun ms ms' s s' => ms' = ms ∧ s'.history = s.history ∧ s'.best = s.best ∧ s'.steps = s.steps ∧
          s.moves ≤ s'.moves ∧ (x.Thorough C → s'.moves = s.moves ∧ s'.statistics = s.statistics) := by
  refine ⟨run_eq_course, ?_⟩
  rcases Nat.lt_or_ge 1 n with hn | hn
  · have htwin : r.Twin C (x.Thorough C) r.director r :=
      .refl hdir (hsees.imp_right fun hsees => hsees.2) hwaits hasks
    refine (meets_course hC hx id (hsees.imp_right fun hsees => hsees.1) hn htwin).mono fun ms ms' s s' hs => ?_
    obtain ⟨hpicks, d, hs⟩ := hs
    refine ⟨hpicks.symm, hs.history.symm, hs.best.symm, hs.steps.symm, hs.moves, fun hexact => ?_⟩
    obtain ⟨hmoves, hstatistics, -, -⟩ := hs.counts hexact
    exact ⟨hmoves.symm, hstatistics.symm⟩
  · rw [course_alone x hn]
    exact .refl fun ms s => ⟨rfl, rfl, rfl, rfl, le_rfl, fun _ => ⟨rfl, rfl⟩⟩

end Threads

end LocalSearch

namespace Timetable

/-- A search that picks the first room that is accepted, with some threads. -/
def hasty (termination : Termination .hardSoft) (threads : Nat) : LocalSearch Timetable .hardSoft :=
  { roomChanges with forager := { limit := 1 }, termination := some termination, threads }

/-- How many steps a run made and how many moves it counted, if it succeeds. -/
def countsOf {α : Type} : EStateM.Result Stop (RunState Timetable .hardSoft) α → Option (Nat × Nat)
  | .ok _ r => some (r.steps, r.moves)
  | .error _ _ => none

/-- The second of two threads evaluates a move that a single thread would never look at. The move is counted, and where
the search stops for the moves that it counted, two threads make one step and a single thread makes two. -/
theorem countsOf_hasty :
    countsOf ((hasty (.steps 1) 1).run uncrowding) = some (1, 1) ∧
      countsOf ((hasty (.steps 1) 2).run uncrowding) = some (1, 2) ∧
      countsOf ((hasty (.moves 2) 1).run uncrowding) = some (2, 3) ∧
      countsOf ((hasty (.moves 2) 2).run uncrowding) = some (1, 2) := by
  decide +kernel

/-- Directors of alike timetables cannot be told apart as far as rooms are concerned. -/
theorem congruence_givenRooms : Congruence givenRooms.ValueMoves (givenRooms.Peers bare calculate) := by
  refine Genuine.congruence_full regular_givenRooms (fun _ _ => rfl) calculate_eq_of_alike (fun h score => ?_)
    fun h => ?_
  · have hsame := congrArg (PlanningSolution.withScore · score) (eq_of_alike h)
    exact hsame
  · have hsame := congrArg (PlanningSolution.isInitialized (k := .hardSoft)) (eq_of_alike h)
    exact hsame

/-- A hasty search looks at the same rooms for alike timetables. -/
theorem offers_hasty (termination : Termination .hardSoft) (threads : Nat) :
    (hasty termination threads).Offers givenRooms.ValueMoves (givenRooms.Peers bare calculate) where
  same h := by
    have hsame := congrArg roomChanges.selector.moves (eq_of_alike h.alike)
    exact hsame
  listed _ hms m hm := by
    obtain ⟨xs, -, x, -, rfl⟩ := Genuine.exists_of_mem_ofBasic (g := givenRooms) (b := ()) hms hm
    exact ⟨(), x, rfl⟩

/-- Two threads pick the move that a single one picks, which leaves the room that is too small for both lessons. -/
theorem course_threads_uncrowding : ∃ ms r r', (hasty (.steps 1) 1).course uncrowding = .ok ms r ∧
    (hasty (.steps 1) 2).course uncrowding = .ok ms r' ∧ r'.history = r.history ∧ r'.best = r.best ∧
    (r.steps, r.moves) = (1, 1) ∧ (r'.steps, r'.moves) = (1, 2) := by
  have hdir : givenRooms.Peers bare calculate (directorOf crowded) (directorOf crowded) :=
    have hrated : (directorOf crowded).Rated calculate := ⟨rfl, none, rfl, fun _ => nofun⟩
    ⟨hrated, hrated, .refl crowded⟩
  have hasks : ∀ c, uncrowding.Asks c → c.Respects (givenRooms.Peers bare calculate) := by
    rintro c ⟨w, hw, -⟩
    cases hw
  have hsees : ∀ t ∈ (hasty (.steps 1) 1).termination, t.SeesSteps := fun t ht => by
    cases ht
    exact .steps 1
  obtain ⟨-, hmeets⟩ := LocalSearch.course_threads (r := uncrowding) (hasty (.steps 1) 1) congruence_givenRooms
    (offers_hasty _ _) 2 hdir (fun _ hc => absurd hc List.not_mem_nil) hasks (.inr ⟨hsees, fun _ => nofun⟩)
  have hone : countsOf ((hasty (.steps 1) 1).course uncrowding) = some (1, 1) := by decide +kernel
  have htwo : countsOf ((hasty (.steps 1) 2).course uncrowding) = some (1, 2) := by decide +kernel
  cases hcourse : (hasty (.steps 1) 2).course uncrowding with
  | error e r' =>
    rw [hcourse] at htwo
    cases htwo
  | ok ms' r' =>
    obtain ⟨ms, r, hms, hsame, hhistory, hbest, -⟩ := hmeets.of_ok_right hcourse
    have hms : (hasty (.steps 1) 1).course uncrowding = .ok ms r := hms
    rw [hms] at hone
    rw [hcourse] at htwo
    exact ⟨ms, r, r', hms, by rw [hsame], hhistory, hbest, Option.some.inj hone, Option.some.inj htwo⟩

end Timetable

end Planning
