import Planning.Problem
import Planning.ProblemChange
import Planning.Variable

/-!
# The queens problem

Each queen stands in a column and is given a row such that no two queens share a row or a diagonal. Queens
without a row do not conflict with anything.
-/

namespace Planning

/-- A queen in a column. -/
structure Queen where
  /-- The number by which the queen is known. -/
  id : Int
  /-- The column. -/
  column : Int
  /-- The row, once it is given. -/
  row : Option Int
deriving DecidableEq

namespace Queen

/-- The members of a queen as a value. -/
def toValue (q : Queen) : Value := .list [.int q.id, .int q.column, Value.ofOption (q.row.map .int)]

/-- The text that shows a queen. -/
def text (q : Queen) : String :=
  Text.record "Queen"
    [("id", toString q.id), ("column", toString q.column), ("row", Text.optional toString q.row)]

/-- The queen of which a value holds the members. -/
def ofValue (v : Value) : Queen :=
  { id := (v.at? 0).toInt
    column := (v.at? 1).toInt
    row := match v.at? 2 with
      | .int r => some r
      | _ => none }

end Queen

/-- Queens on a board. -/
structure QueensBoard where
  /-- The queens. -/
  queens : List Queen
  /-- The score that was stored last. -/
  score : Option (Score .simple) := none
deriving DecidableEq

namespace QueensBoard

instance : PlanningSolution QueensBoard .simple where
  score b := b.score
  withScore b s := { b with score := some s }
  isInitialized b := b.queens.all fun q => q.row.isSome
  entityCount b _ := b.queens.length
  factCount _ _ := 0

/-- The queens of the columns from zero on, with rows for some of them. -/
def ofRows (rows : List (Option Int)) : QueensBoard := { queens := rows.mapIdx fun i r => ⟨i, i, r⟩ }

/-- The queens of a number of columns, none of which has a row. -/
def empty (n : Nat) : QueensBoard := ofRows (List.replicate n none)

/-- The rows of the queens. -/
def rows (b : QueensBoard) : List (Option Int) := b.queens.map Queen.row

/-- The queens as a collection. -/
def collection : Collection QueensBoard Queen := ⟨queens, fun b qs => { b with queens := qs }⟩

/-- The row of a queen. -/
def row? (b : QueensBoard) (i : Nat) : Option Int := b.queens[i]?.bind Queen.row

/-- The board with another row of a queen. -/
def setRow (b : QueensBoard) (i : Nat) (r : Option Int) : QueensBoard :=
  { b with queens := b.queens.modify i fun q => { q with row := r } }

/-- The variable that gives each queen a row. -/
def variableOf (range : ValueRange QueensBoard Int) : BasicVariable QueensBoard Int where
  entityClass := 0
  name := "row"
  count b := b.queens.length
  get? := row?
  set := setRow
  range := range

/-- A queen whose number is a hundred or more is pinned. -/
def isPinned (b : QueensBoard) (i : Nat) : Bool := b.queens[i]?.any fun q => decide (100 ≤ q.id)

/-- How hard it is to give a queen a row. -/
def difficulty (b : QueensBoard) (i : Nat) : Checked Int :=
  .ok (((b.queens[i]?.map Queen.column).getD 0).tmod 3)

/-- How likely a row is to fit. -/
def strength (_ : QueensBoard) (r : Int) : Checked Int := do return (← bounded (r * 7)).tmod 5

/-- The queens as values. -/
def members (b : QueensBoard) : List Value := b.queens.map Queen.toValue

/-- A number that queens which attack each other have in common, or none without a row. -/
def line (f : Int → Int → Int) (v : Value) : Checked Value := do
  let q := Queen.ofValue v
  match q.row with
  | none => return .null
  | some r => return .int (← bounded (f r q.column))

/-- The text that shows a pair of queens. -/
def pairText (t : Value) : String := Text.tuple (t.items.map fun v => (Queen.ofValue v).text)

/-- The constraint that no two queens share a line. -/
def conflict (name : String) (f : Int → Int → Int) : Constraint QueensBoard .simple :=
  let pairs := Stream.forEachUniquePair (.entity 0) members (.equal (line f))
  let placed := pairs.filter fun t => .ok (Queen.ofValue (t.at? 0)).row.isSome
  { placed.constraint ⟨"nqueens", name⟩ .penalty (.unit 0) Stream.once with justify := pairText }

/-- The constraints. -/
def constraints : ConstraintSet QueensBoard .simple :=
  [conflict "Row conflict" fun r _ => r, conflict "Ascending diagonal conflict" fun r c => r - c,
    conflict "Descending diagonal conflict" fun r c => r + c]

/-- The number of lines that two queens share. -/
def sharedLines (a b : Queen) : Checked Int := do
  match a.row, b.row with
  | some r, some r' =>
    let columns ← bounded (b.column - a.column)
    let columns ← bounded columns.natAbs
    let rows ← bounded (r - r')
    let rows ← bounded rows.natAbs
    return (if r = r' then 1 else 0) + (if rows = columns then 1 else 0)
  | _, _ => return 0

/-- The number of lines that a queen shares with others. -/
def sharedWith (a : Queen) (others : List Queen) : Checked Int :=
  others.foldlM (fun n b => do return n + (← sharedLines a b)) 0

/-- The number of lines that queens share, pair by pair. -/
def conflicts : List Queen → Checked Int
  | [] => .ok 0
  | a :: rest => do return (← sharedWith a rest) + (← conflicts rest)

/-- The score of a board. -/
def calculate (b : QueensBoard) : Checked (Score .simple) := do
  Score.ofList .simple [-(← conflicts b.queens)]

/-- The description of the problem. -/
def description : SolutionDescriptor where
  typeName := "NQueensSolution"
  valueRanges := ["rows"]
  entities := [{
    typeName := "Queen"
    solutionField := "queens"
    allVariables := [{ name := "row", kind := .genuine, valueRange := some "rows" }] }]
  scoreField := some "score"

/-- The problem. -/
def problem : PlanningProblem QueensBoard .simple where
  description := description
  constraints := constraints
  calculate := calculate

end QueensBoard

end Planning
