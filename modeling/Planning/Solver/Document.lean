import Planning.Domain.Basic
import Planning.Solver.Basic
import Planning.SolverError.Document

/-!
# What solving gives, as documents

The outcome of a run is written as a record of its solution, or as the record of the error in which it ended
with the best solution beside it.
-/

namespace Planning

variable {S V : Type} {k : ScoreKind}

/-- The entries of the record of an outcome, whose solutions are written in a given way. -/
def Outcome.entries (write : S → Document) (o : Outcome S) : List (String × Document) :=
  match o.failure with
  | none => [("ok", write o.solution)]
  | some e => e.entries ++ [("best", write o.solution)]

namespace Domain

variable [PlanningValue V] (x : Domain S V k)

/-- A request to a run: a change of the problem, or a word to stop. -/
def request (d : Document) : Request S k :=
  match d with
  | .text _ => .stop
  | _ => .change (x.change d)

/-- The requests of a table of steps with what is asked for while they end. -/
def requests : Document → List (Nat × Request S k)
  | .table entries =>
    entries.flatMap fun (step, l) => l.items.map fun d => ((step.toNat?).getD 0, x.request d)
  | _ => []

/-- The desk of a table: changes that wait, a request to stop, who watches and what is logged. -/
def desk (d : Document) : Desk S k where
  pending := (d.get "changes").items.map x.change
  stopping := (d.get "preterminated").asBool
  watch := if (d.get "listen").asBool then some ⟨"job", x.requests (d.get "at")⟩ else none
  detail :=
    match d.get "trace" with
    | .bool true => .info
    | .text _ => .trace
    | _ => .error

end Domain

end Planning
