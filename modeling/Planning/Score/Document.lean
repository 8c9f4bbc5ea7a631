import Planning.Document.Basic
import Planning.Score.Text

/-!
# Scores as records

A score with named levels is exchanged as a table with one integer for each level, and is also read from
the list of its levels. A score with any number of levels is exchanged as its text.
-/

namespace Planning.Score

/-- The names of the entries for the levels of a kind that has named levels. -/
def entryNames : ScoreKind → List String
  | .simple => ["score"]
  | k => k.labels.map ScoreLevel.word

/-- The record of a score. -/
def toDocument {k : ScoreKind} (a : Score k) : Document :=
  match k with
  | .bendable _ _ => .text a.text
  | k => .table (List.zipWith (fun name n => (name, .integer n)) (entryNames k) a.toList)

/-- The level numbers of a record, if it is one of the kind. -/
def numbersOf? (k : ScoreKind) : Document → Option (List Int)
  | .table entries =>
    (entryNames k).mapM fun name => (Document.table entries).lookup? name >>= Document.integer?
  | .list items => items.mapM Document.integer?
  | _ => none

/-- The score of a record, if it is one of the kind. -/
def ofDocument? (k : ScoreKind) (d : Document) : Option (Score k) :=
  match k with
  | .bendable h s =>
    match d with
    | .text t => (parse (.bendable h s) t).toOption
    | _ => none
  | k => numbersOf? k d >>= fun ns => (ofList k ns).toOption

end Planning.Score
