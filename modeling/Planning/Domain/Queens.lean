import Planning.Domain.Basic
import Planning.Problems.Queens

/-!
# Documents of the queens problem

A board is written as the number of its columns, as the rows of its queens, or as its queens.
-/

namespace Planning

/-- The queen of a list of its number, its column and its row. -/
def Queen.ofDocument (d : Document) : Queen :=
  ⟨(d.item 0).asInt, (d.item 1).asInt, (d.item 2).optional Document.asInt⟩

/-- The list of the number, the column and the row of a queen. -/
def Queen.toDocument (q : Queen) : Document :=
  .list [.integer q.id, .integer q.column, .ofOption .integer q.row]

namespace QueensBoard

/-- The board of a document. -/
def ofDocument (d : Document) : QueensBoard :=
  match d.get "rows", d.get "queens" with
  | .list rows, _ => ofRows (rows.map (Document.optional Document.asInt))
  | _, .list queens => { queens := queens.map Queen.ofDocument }
  | _, _ => empty (d.get "n").asNat

/-- The document of a board. -/
def toDocument (b : QueensBoard) : Document :=
  .table [("queens", .list (b.queens.map Queen.toDocument)),
    ("rows", .list (b.rows.map (.ofOption .integer))),
    ("init", .bool (PlanningSolution.isInitialized b)), ("score", scoreDocument b.score)]

/-- The range of the rows: those of a board with a number of columns, or those of a list. -/
def rangeOf (options : Document) : ValueRange QueensBoard Int :=
  match options.get "static" with
  | .list rows => .fixed (rows.map Document.asInt)
  | _ => .integersBelow (options.get "n").asInt

/-- The domain with options of the variable. -/
def domain (options : Document) : Domain QueensBoard Int .simple where
  problem := problem
  plan := .basic ((variableOf (rangeOf options)).withOptions options isPinned difficulty strength)
  read d := .ok (ofDocument d)
  write := toDocument
  value := Document.asInt
  assign x _ v b := .ok (b.setRow x.2 (v.optional Document.asInt))
  editor source := .ofCollection source collection Queen.ofDocument Queen.text

end QueensBoard

end Planning
