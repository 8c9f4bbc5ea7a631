import Planning.Solver.Basic

/-!
# Jobs

Problems are solved side by side, each as a job of its own that publishes its better solutions. A job is
looked at after it had the time for some steps: by then it has ended by itself or is still solving, and a
job that is still solving ends where it stands when it is asked to. What else is asked of it comes after so
many steps more.
-/

namespace Planning

/-- What a job has done so far. -/
structure JobRun (S : Type) (k : ScoreKind) where
  /-- The better solutions in the order in which they were published. -/
  published : List (BestSolution S k)
  /-- How the run ended, or where it stands. -/
  result : Checked (Outcome S)
  /-- The run would have gone on. -/
  isOpen : Bool

namespace JobRun

variable {S : Type} {k : ScoreKind} [PlanningSolution S k]

/-- The number of steps between two looks at a job. -/
def pace : Nat := 1000

/-- The run of a solver to which some requests come in time. -/
def ofRequests (x : Solver S k) (dir : Director S k) (requests : List (Request S k)) : JobRun S k :=
  let timed := requests.mapIdx fun i r => (pace * (i + 1), r)
  let (desk, result) := x.solve { watch := some ⟨"", timed⟩ } dir
  let published := desk.history.reverse.filterMap fun
    | .best s score => some ⟨s, score⟩
    | _ => none
  let isOpen := desk.history.any fun
    | .ended _ early => early
    | _ => false
  ⟨published, result, isOpen⟩

end JobRun

/-- What was done with a job. -/
inductive JobState where
  /-- It was submitted. -/
  | submitted
  /-- It was asked to end. -/
  | asked
  /-- Its outcome was taken. -/
  | taken
  /-- It was removed. -/
  | removed
deriving DecidableEq, Repr

/-- A problem that is being solved. -/
structure Job (S : Type) (k : ScoreKind) where
  /-- The number of the job. -/
  number : Nat
  /-- The problem as it was given. -/
  problem : S
  /-- The director with which the run starts. -/
  director : Director S k
  /-- The changes that were asked for. -/
  requests : List (Request S k) := []
  /-- What the job has done so far. -/
  run : JobRun S k
  /-- What was done with the job. -/
  state : JobState := .submitted
  /-- The number of published solutions that were read. -/
  read : Nat := 0

/-- The name of the job with a number. -/
def jobName (n : Nat) : String := s!"job-{n}"

namespace Job

variable {S : Type} {k : ScoreKind} (j : Job S k)

/-- The job is still solving. -/
def isSolving : Bool := j.state == .submitted && j.run.isOpen

/-- The latest published solution, or the problem if there is none. -/
def latest : S := (j.run.published.getLast?.map BestSolution.solution).getD j.problem

/-- The outcome of the job. A fault counts as an error, with the latest published solution. -/
def outcome : Outcome S :=
  match j.run.result with
  | .ok o => o
  | .error _ => ⟨j.latest, some (.invalidState s!"{jobName j.number} panicked"), {}⟩

/-- The solution that a job leaves behind when it is removed. -/
def remains : S := if j.state = .taken then j.latest else j.outcome.solution

/-- The published scores that were not read. -/
def unread : List (Score k) := (j.run.published.drop j.read).map BestSolution.score

variable [PlanningSolution S k] (x : Solver S k)

/-- The job with a further change asked for. -/
def request (c : ProblemChange S k) : Job S k :=
  let requests := j.requests ++ [.change c]
  { j with requests := requests, run := .ofRequests x j.director (requests ++ [.stop]) }

/-- The job when it has ended and its outcome is taken. -/
def complete : Job S k :=
  let run := if j.isSolving then .ofRequests x j.director j.requests else j.run
  { j with run := run, state := .taken }

end Job

/-- The jobs of a solver. -/
structure Jobs (S : Type) (k : ScoreKind) where
  /-- The solver. -/
  solver : Solver S k
  /-- The director of a problem. -/
  build : S → Checked (Except ValidationError (Director S k))
  /-- The number of the next job. -/
  next : Nat := 0
  /-- The jobs, the latest first. -/
  jobs : List (Job S k) := []

/-- What becomes of a change that is asked of a job. -/
inductive ChangeReceipt where
  /-- It waits. -/
  | queued
  /-- The job has ended. -/
  | dropped
deriving DecidableEq, Repr

/-- The text that shows what becomes of a change. -/
def ChangeReceipt.text : ChangeReceipt → String
  | queued => "Queued"
  | dropped => "SolverDropped"

namespace Jobs

variable {S : Type} {k : ScoreKind} (x : Jobs S k)

/-- The job with a number, unless it was removed. -/
def find? (n : Nat) : Option (Job S k) := x.jobs.find? fun j => j.number == n && j.state != .removed

/-- The jobs with one of them changed. -/
def put (job : Job S k) : Jobs S k :=
  { x with jobs := x.jobs.map fun j => if j.number = job.number then job else j }

/-- The numbers of the jobs in ascending order. -/
def numbers : List Nat := ((x.jobs.filter fun j => j.state != .removed).map Job.number).reverse

/-- The job with a number is still solving, if there is one. -/
def isSolving? (n : Nat) : Option Bool := (x.find? n).map Job.isSolving

/-- The latest solution of the job with a number. -/
def latest? (n : Nat) : Option S := (x.find? n).map Job.latest

/-- The job with a number is asked to end. The answer says whether it was still solving. -/
def terminate (n : Nat) : Jobs S k × Bool :=
  match x.find? n with
  | some j => if j.isSolving then (x.put { j with state := .asked }, true) else (x, false)
  | none => (x, false)

/-- The job with a number is removed. -/
def remove (n : Nat) : Jobs S k × Option S :=
  match x.find? n with
  | some j => (x.put { j with state := .removed }, some j.remains)
  | none => (x, none)

/-- The published scores of the job with a number that were not read are read, at most so many. -/
def take (n limit : Nat) : Jobs S k × List (Score k) :=
  match x.jobs.find? fun j => j.number == n with
  | some j =>
    let scores := j.unread.take limit
    (x.put { j with read := j.read + scores.length }, scores)
  | none => (x, [])

variable [PlanningSolution S k]

/-- A problem is submitted; its job has the next number. The number is used up even if there is no director
for the problem. -/
def submit (s : S) : Checked (Jobs S k × Except ValidationError Nat) := do
  let after := { x with next := x.next + 1 }
  match ← x.build s with
  | .error e => return (after, .error e)
  | .ok dir =>
    let job : Job S k :=
      { number := x.next, problem := s, director := dir, run := .ofRequests x.solver dir [.stop] }
    return ({ after with jobs := job :: x.jobs }, .ok x.next)

/-- The outcome of the job with a number, once it has ended; it can be taken once. -/
def wait (n : Nat) : Jobs S k × Option (Outcome S) :=
  match x.find? n with
  | some j =>
    if j.state = .taken then (x, none)
    else
      let j := j.complete x.solver
      (x.put j, some j.outcome)
  | none => (x, none)

/-- A change is asked of the job with a number. -/
def request (n : Nat) (c : ProblemChange S k) : Jobs S k × Except SolverError ChangeReceipt :=
  match x.find? n with
  | some j => if j.isSolving then (x.put (j.request x.solver c), .ok .queued) else (x, .ok .dropped)
  | none => (x, .error (.invalidState s!"unknown {jobName n}"))

end Jobs

end Planning
