import Planning.Acceptor.Basic
import Planning.Forager
import Planning.Move.Arena
import Planning.Phase.Basic
import Planning.Selector.Basic

/-!
# Local search

A local search makes one move per step: the candidates are evaluated in their order, the acceptor says which
of them may be made, and the forager picks one of those. With several threads, all candidates are evaluated
beforehand, each thread with a director of its own; what is picked is the same.
-/

namespace Planning

/-- A search that improves the working solution step by step. -/
structure LocalSearch (S : Type) (k : ScoreKind) where
  /-- What lists the candidates. -/
  selector : MoveSelector S
  /-- What accepts moves. -/
  acceptor : Acceptor k := .hillClimbing
  /-- What picks a move. -/
  forager : Forager k := {}
  /-- When the phase stops. -/
  termination : Option (Termination k) := none
  /-- The number of threads that evaluate moves. -/
  threads : Nat := 1

/-- What a local search keeps from step to step. -/
structure SearchState (S : Type) (k : ScoreKind) where
  /-- The acceptor. -/
  acceptor : Acceptor k
  /-- The score of the last step. -/
  last : Score k
  /-- The directors of the threads, none if there is only one thread. -/
  forks : List (Director S k)

namespace LocalSearch

variable {S : Type} {k : ScoreKind} [PlanningSolution S k]

omit [PlanningSolution S k] in
/-- A director of its own for each of several threads. -/
def fork (threads : Nat) (dir : Director S k) : List (Director S k) :=
  if threads ≤ 1 then [] else List.replicate threads dir

/-- The scores of some moves on the director of a thread; one that would change nothing has none. -/
def scorePart (check : Bool) (dir : Director S k) :
    List (Move S) → Checked (Except SolverError (Director S k × List (Option (Score k))))
  | [] => .ok (.ok (dir, []))
  | m :: ms => do
    if !m.isDoable dir.solution then
      return (← scorePart check dir ms).map fun (dir, scores) => (dir, none :: scores)
    match ← dir.evaluate m check with
    | (_, .error e) => return .error e
    | (dir, .ok score) =>
      return (← scorePart check { dir with journal := [] } ms).map fun (dir, scores) =>
        (dir, some score :: scores)

/-- The scores of all moves, a part of them on each of the directors. -/
def scoreParts (check : Bool) (size : Nat) (moves : List (Move S)) :
    List (Director S k) → Checked (Except SolverError (List (Director S k) × List (Option (Score k))))
  | [] => .ok (.ok ([], []))
  | dir :: dirs => do
    match ← scorePart check dir (moves.take size) with
    | .error e => return .error e
    | .ok (dir, scores) =>
      return (← scoreParts check size (moves.drop size) dirs).map fun (dirs, rest) =>
        (dir :: dirs, scores ++ rest)

/-- The size of the parts of a number of moves for a number of threads. -/
def partSize (moves threads : Nat) : Nat := (moves + threads - 1) / threads

/-- A candidate may be made: the acceptor decides. -/
def accepted (a : Acceptor k) (last best score : Score k) (m : Move S) : Running S k Bool := do
  let s := (← get).director.solution
  let signature := if a.needsSignatures then some (m.signature s) else none
  let isAccepted ← Running.draw (a.accepts ⟨last, best, score, signature⟩)
  Running.recordMove isAccepted
  return isAccepted

/-- The candidates from a place on are evaluated and offered to the forager until it is done. -/
def scan (a : Acceptor k) (last best : Score k) (f : Forager k) (place : Nat) :
    List (Move S) → Running S k (Forager k)
  | [] => return f
  | m :: ms => do
    if !m.isDoable (← get).director.solution then scan a last best f (place + 1) ms
    else
      let score ← Running.evaluate m
      if ← accepted a last best score m then
        let f := f.addCompared place score last best
        if f.isDone then return f else scan a last best f (place + 1) ms
      else scan a last best f (place + 1) ms

/-- Candidates with scores are offered to the forager until it is done; those behind are not accepted. -/
def scanScored (a : Acceptor k) (last best : Score k) (f : Forager k) (isDone : Bool) (place : Nat) :
    List (Move S × Option (Score k)) → Running S k (Forager k)
  | [] => return f
  | (_, none) :: ms => scanScored a last best f isDone (place + 1) ms
  | (m, some score) :: ms => do
    if isDone then
      Running.recordMove false
      scanScored a last best f isDone (place + 1) ms
    else if ← accepted a last best score m then
      let f := f.addCompared place score last best
      scanScored a last best f f.isDone (place + 1) ms
    else scanScored a last best f isDone (place + 1) ms

variable (x : LocalSearch S k)

/-- One of the candidates is picked. -/
def forage (st : SearchState S k) (moves : List (Move S)) :
    Running S k (SearchState S k × Option (Move S)) := do
  let r ← get
  let best := r.bestScore.getD st.last
  let f := x.forager.stepStarted
  let (st, f) ←
    if st.forks.isEmpty then pure (st, ← scan st.acceptor st.last best f 0 moves)
    else
      let size := partSize moves.length st.forks.length
      match ← Running.checked (scoreParts r.mode.assertsMoves size moves st.forks) with
      | .error e => Running.fail e
      | .ok (forks, scores) =>
        pure ({ st with forks := forks },
          ← scanScored st.acceptor st.last best f false 0 (moves.zip scores))
  let picked ← Running.draw f.pick
  return (st, picked.bind fun (place, _) => moves[place]?)

omit [PlanningSolution S k] in
/-- A move is made on the director of a thread. -/
def makeOnFork (m : Move S) (dir : Director S k) : Running S k (Director S k) := do
  match ← Running.checked (dir.doMove m) with
  | (dir, .ok _) => return { dir with journal := [] }
  | (_, .error e) => Running.fail (.moveApplication e)

/-- The picked move is made on all directors and the step ends. -/
def finishStep (st : SearchState S k) (m : Move S) : Running S k (SearchState S k) := do
  let s := (← get).director.solution
  let signature := if st.acceptor.needsSignatures then some (m.signature s) else none
  Running.make m
  let forks ← st.forks.mapM (makeOnFork m)
  let score ← Running.calculate
  Running.stepEnded score
  Running.assertStep
  discard (Running.updateBestWith score)
  return ⟨st.acceptor.stepEnded score signature, score, forks⟩

/-- The search starts anew from the working solution. -/
def restart (st : SearchState S k) : Running S k (SearchState S k) := do
  let score ← Running.calculate
  return ⟨st.acceptor.phaseStarted score, score, fork x.threads (← get).director⟩

/-- One step; the search is over when there is nothing to do. -/
def step (st : SearchState S k) : Running S k (Option (SearchState S k)) := do
  let changes ← Running.takeChanges
  let st ← if changes = 0 then pure st else x.restart st
  if (← get).isPhaseTerminated x.termination then return none
  Running.stepStarted
  let r ← get
  let moves ← Running.draw (x.selector.moves r.director.solution)
  if moves.isEmpty then
    Running.report .debug "empty_neighborhood" fun _ => [("step", .number r.steps)]
    return none
  let (st, picked) ← x.forage st moves
  match picked with
  | none =>
    Running.report .debug "no_accepted_move" fun _ => [("step", .number r.steps)]
    return none
  | some m => return some (← finishStep st m)

/-- At most a number of steps; a run cannot count more. -/
def steps : Nat → SearchState S k → Running S k Unit
  | 0, _ => throw (.faulted .overflow)
  | fuel + 1, st => do
    match ← x.step st with
    | none => return ()
    | some st => steps fuel st

/-- The course of the search. -/
def run : Running S k Unit := do
  let forks := fork x.threads (← get).director
  let score ← Running.calculate
  if (← get).best.isNone then discard Running.updateBest
  x.steps (maxCount + 1) ⟨x.acceptor.phaseStarted score, score, forks⟩

/-- The text that shows the search. -/
def text : String :=
  Text.record "LocalSearchPhase"
    [("move_selector", x.selector.text), ("acceptor", x.acceptor.text), ("forager", x.forager.text),
      ("termination", Text.optional Termination.text x.termination),
      ("move_thread_count", toString x.threads)]

/-- The search as a phase. -/
def phase : Phase S k := ⟨"LocalSearch", x.text, x.run⟩

end LocalSearch

end Planning
