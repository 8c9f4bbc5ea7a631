import Planning.Graph.Delta
import Planning.Sequence
import Planning.Value.Basic

/-!
# Joiners and their indexes

Which tuples of two streams belong together, and where those that belong to a tuple are found.
-/

/-!
## Joiners

A joiner says which tuples of two streams belong together. All but filtering joiners do so by keys: a key
of the left tuple and a key of the right tuple that stand in a relation, by which one side can be indexed.
A conjunction is indexed by its first joiner.
-/

namespace Planning

/-- The relation of the keys of tuples that belong together. -/
inductive JoinRelation where
  /-- The keys are equal. -/
  | equal
  /-- The left key is less. -/
  | lessThan
  /-- The left key is less or equal. -/
  | lessThanOrEqual
  /-- The left key is greater. -/
  | greaterThan
  /-- The left key is greater or equal. -/
  | greaterThanOrEqual
  /-- The keys are intervals that overlap. -/
  | overlapping
  /-- There are no keys. -/
  | unindexed
deriving DecidableEq, Repr

namespace JoinRelation

/-- The name of the relation. -/
def name : JoinRelation → String
  | equal => "Equal"
  | lessThan => "LessThan"
  | lessThanOrEqual => "LessThanOrEqual"
  | greaterThan => "GreaterThan"
  | greaterThanOrEqual => "GreaterThanOrEqual"
  | overlapping => "Overlapping"
  | unindexed => "Unindexed"

/-- The relation has keys. -/
def isIndexed (r : JoinRelation) : Bool := r != unindexed

/-- A left and a right key stand in a relation that compares them. -/
def compares (r : JoinRelation) (l k : Value) : Bool :=
  match r with
  | lessThan => (compare l k).isLT
  | lessThanOrEqual => (compare l k).isLE
  | greaterThan => (compare l k).isGT
  | greaterThanOrEqual => (compare l k).isGE
  | _ => l == k

end JoinRelation

/-- A rule that says which tuples belong together. -/
inductive Joiner where
  /-- The keys are equal or stand in order. -/
  | keys (relation : JoinRelation) (left right : Value → Checked Value)
  /-- The intervals, each without its end, have something in common. -/
  | overlapping (leftStart leftEnd rightStart rightEnd : Value → Checked Value)
  /-- A predicate on the pair holds. -/
  | filtering (predicate : Value → Value → Checked Bool)
  /-- All tuples belong together. -/
  | cross
  /-- Both joiners hold. -/
  | and (first second : Joiner)
deriving Inhabited

namespace Joiner

/-- The keys of both tuples, computed alike, are equal. -/
def equal (key : Value → Checked Value) : Joiner := keys .equal key key

/-- The relation of the keys by which tuples are indexed. -/
def relation : Joiner → JoinRelation
  | keys r _ _ => r
  | overlapping _ _ _ _ => .overlapping
  | filtering _ => .unindexed
  | cross => .unindexed
  | and a _ => a.relation

/-- The key of a left tuple; an interval is the list of its start and its end. -/
def leftKey : Joiner → Value → Checked Value
  | keys _ left _, a => left a
  | overlapping start finish _ _, a => do return .pair (← start a) (← finish a)
  | filtering _, _ => .ok .null
  | cross, _ => .ok .null
  | and first _, a => first.leftKey a

/-- The key of a right tuple. -/
def rightKey : Joiner → Value → Checked Value
  | keys _ _ right, b => right b
  | overlapping _ _ start finish, b => do return .pair (← start b) (← finish b)
  | filtering _, _ => .ok .null
  | cross, _ => .ok .null
  | and first _, b => first.rightKey b

/-- The tuples belong together. -/
def matching : Joiner → Value → Value → Checked Bool
  | keys r left right, a, b => do return r.compares (← left a) (← right b)
  | overlapping leftStart leftEnd rightStart rightEnd, a, b => do
    if (compare (← leftStart a) (← rightEnd b)).isLT then
      return (compare (← rightStart b) (← leftEnd a)).isLT
    else return false
  | filtering p, a, b => p a b
  | cross, _, _ => .ok true
  | and first second, a, b => do
    if ← first.matching a b then second.matching a b else return false

/-- The least key that no interval overlapping the given one reaches. -/
def overlapBound : Joiner → Value → Option Value
  | overlapping _ _ _ _, key => some (.pair (key.at? 1) (key.at? 1))
  | and first _, key => first.overlapBound key
  | _, _ => none

end Joiner

end Planning

/-!
## Join indexes

An index holds the identities of the tuples of one side of a join in buckets, one for each key, in
ascending order of the keys. Looking up a key of the other side gives the identities whose keys stand in
the relation. For intervals it gives those that start before a bound, among them all that overlap.
-/

namespace Planning

/-- A side of a join. -/
inductive Side where
  /-- The left side. -/
  | left
  /-- The right side. -/
  | right
deriving DecidableEq, Repr

/-- The list without the first occurrence of an element, whose place the last element takes. -/
def swapErase {α : Type} [DecidableEq α] (a : α) : List α → List α
  | [] => []
  | b :: rest =>
    if b = a then
      match rest.getLast? with
      | some last => last :: rest.dropLast
      | none => []
    else b :: swapErase a rest

/-- An index over one side of a join. -/
structure JoinIndex where
  /-- The relation of the keys. -/
  relation : JoinRelation
  /-- The side whose tuples are held. -/
  side : Side
  /-- The identities under each key, in ascending order of the keys. -/
  buckets : List (Value × List TupleId) := []
deriving DecidableEq, Repr

namespace JoinIndex

/-- The key under which an entry is held; without a relation all are held under one. -/
def slot (relation : JoinRelation) (key : Value) : Value :=
  if relation.isIndexed then key else .null

/-- An identity put into its bucket. -/
def push (key : Value) (id : TupleId) : List (Value × List TupleId) → List (Value × List TupleId)
  | [] => [(key, [id])]
  | (k, ids) :: rest =>
    match compare key k with
    | .lt => (key, [id]) :: (k, ids) :: rest
    | .eq => (k, ids ++ [id]) :: rest
    | .gt => (k, ids) :: push key id rest

/-- The index with one more entry. -/
def insert (x : JoinIndex) (key : Value) (id : TupleId) : JoinIndex :=
  { x with buckets := push (slot x.relation key) id x.buckets }

/-- The identities under a key. -/
def bucket (x : JoinIndex) (key : Value) : List TupleId :=
  (List.lookup (slot x.relation key) x.buckets).getD []

/-- The index has the entry. -/
def holds (x : JoinIndex) (key : Value) (id : TupleId) : Bool := (x.bucket key).contains id

/-- An identity taken out of its bucket; an empty bucket goes. -/
def drop (key : Value) (id : TupleId) : List (Value × List TupleId) → List (Value × List TupleId)
  | [] => []
  | (k, ids) :: rest =>
    if k = key then
      let left := swapErase id ids
      if left.isEmpty then rest else (k, left) :: rest
    else (k, ids) :: drop key id rest

/-- The index without one entry. -/
def remove (x : JoinIndex) (key : Value) (id : TupleId) : JoinIndex :=
  { x with buckets := drop (slot x.relation key) id x.buckets }

/-- A stored key is looked at when a key of the other side is looked up. -/
def admits (x : JoinIndex) (key : Value) (upper : Option Value) (stored : Value) : Bool :=
  match x.relation with
  | .unindexed => true
  | .overlapping =>
    match upper with
    | some limit => (compare stored limit).isLT
    | none => true
  | r =>
    match x.side with
    | .right => r.compares key stored
    | .left => r.compares stored key

/-- The identities found under a key of the other side. For intervals the bound excludes those that start
at or after it. -/
def lookup (x : JoinIndex) (key : Value) (upper : Option Value) : List TupleId :=
  (x.buckets.filter fun b => x.admits key upper b.1).flatMap Prod.snd

/-- The number of entries. -/
def size (x : JoinIndex) : Nat := sumOf (x.buckets.map fun b => b.2.length)

/-- The index without any entry. -/
def clear (x : JoinIndex) : JoinIndex := { x with buckets := [] }

end JoinIndex

end Planning
