import Planning.Constraint.Set
import Planning.Value.Text

/-!
# Constraint streams

A stream describes tuples of one, two or three members step by step, from the members of a class to the
tuples that a constraint penalizes or rewards. A tuple of one member is that value, a wider one the list of
its members.
-/

namespace Planning

/-- The text of the members of a tuple. -/
def tupleText (width : Nat) (t : Value) : String :=
  if width ≤ 1 then t.render else "(" ++ String.intercalate ", " (t.items.map Value.render) ++ ")"

/-- A stream of tuples. -/
structure Stream (S : Type) where
  /-- The graph that gives the tuples. -/
  node : Node S
  /-- The number of members of a tuple. -/
  width : Nat

namespace Stream

variable {S : Type}

/-- The members of a class. -/
def forEach (source : SourceClass) (members : S → List Value) : Stream S :=
  ⟨.source source members, 1⟩

/-- Each pair of different members of a class that belong together, once. -/
def forEachUniquePair (source : SourceClass) (members : S → List Value) (joiner : Joiner) : Stream S :=
  ⟨.ofJoin (.source source members) (.source source members)
    { joiner := joiner, combine := .pair, uniquePairs := true }, 2⟩

/-- The tuples for which a predicate holds. -/
def filter (x : Stream S) (predicate : Value → Checked Bool) : Stream S :=
  { x with node := .ofFilter x.node predicate }

/-- A function of each tuple. -/
def map (x : Stream S) (f : Value → Checked Value) : Stream S := ⟨.map x.node f, 1⟩

/-- The items to which each tuple expands. -/
def flatten (x : Stream S) (expand : Value → Checked (List Value)) : Stream S :=
  ⟨.ofFlatten x.node expand, 1⟩

/-- The pairs of the first member with the items to which the last member expands. -/
def expandLast (expand : Value → Checked (List Value)) (t : Value) : Checked (List Value) := do
  return (← expand (t.at? 1)).map (.pair (t.at? 0))

/-- Each tuple with each item to which its last member expands instead of that member. -/
def flattenLast (x : Stream S) (expand : Value → Checked (List Value)) : Stream S :=
  { x with node := .ofFlatten x.node (expandLast expand) }

/-- A tuple with one more member. -/
def append (t v : Value) : Value := .list (t.items ++ [v])

/-- Each tuple with each value of another stream that belongs to it. -/
def join (x : Stream S) (other : Node S) (joiner : Joiner) : Stream S :=
  ⟨.ofJoin x.node other { joiner := joiner, combine := if x.width ≤ 1 then .pair else append },
    x.width + 1⟩

/-- The tuples to which a value of another stream belongs. -/
def ifExists (x : Stream S) (other : Node S) (joiner : Joiner) : Stream S :=
  { x with node := .ofExists x.node other { joiner := joiner, shouldExist := true } }

/-- The tuples to which no value of another stream belongs. -/
def ifNotExists (x : Stream S) (other : Node S) (joiner : Joiner) : Stream S :=
  { x with node := .ofExists x.node other { joiner := joiner, shouldExist := false } }

/-- Each key with the result of the tuples that have it. -/
def groupBy (x : Stream S) (key : Value → Checked Value) (collector : Collector) : Stream S :=
  ⟨.ofGroup x.node { key := key, collector := collector, output := .pair }, 2⟩

/-- The different keys. -/
def groupByKey (x : Stream S) (key : Value → Checked Value) : Stream S :=
  ⟨.ofGroup x.node { key := key, collector := .count, output := fun k _ => k }, 1⟩

/-- The result of all tuples, if there are any. -/
def collect (x : Stream S) (collector : Collector) : Stream S :=
  ⟨.ofGroup x.node
    { key := fun _ => .ok .null, collector := collector, output := fun _ result => result }, 1⟩

/-- The tuples, and one for each member of a class whose key is missing: the key itself in a stream of
single values, the key with a filling value in a stream of pairs. -/
def complement (x : Stream S) (source : SourceClass) (members : S → List Value)
    (key fill : Value → Checked Value) : Stream S :=
  let rule : ComplementRule :=
    if x.width ≤ 1 then
      { tupleKey := id, elementKey := key, fill := fun _ => .ok .null, build := fun k _ => k }
    else { tupleKey := fun t => t.at? 0, elementKey := key, fill := fill, build := .pair }
  { x with node := .ofComplement x.node (.source source members) rule }

/-- The constraint that weighs the tuples. -/
def constraint {k : ScoreKind} (x : Stream S) (ref : ConstraintRef) (impact : Impact) (weight : Score k)
    (weigher : Value → Checked Int) : Constraint S k :=
  { ref := ref
    impact := impact
    weight := weight
    weigher := weigher
    justify := tupleText x.width
    node := x.node }

/-- The weigher that counts every tuple once. -/
def once (_ : Value) : Checked Int := .ok 1

end Stream

end Planning
