import Planning.Graph.JoinIndex
import Planning.Table

/-!
# Joining

A join keeps the live tuples of both sides with their keys, an index over each side, and the joined tuple
of each pair that belongs together. In a batch the tuples that go or change are taken out first, left
before right, and those that come or changed are put in after that; a tuple put in is paired with what the
other side then holds.
-/

namespace Planning

/-- What to join and how. -/
structure JoinRule where
  /-- Which tuples belong together. -/
  joiner : Joiner
  /-- The joined tuple. -/
  combine : Value → Value → Value
  /-- Only pairs whose left identity is less than the right one are joined. -/
  uniquePairs : Bool := false

/-- A live tuple with its key. -/
structure Keyed where
  /-- The key. -/
  key : Value
  /-- The tuple. -/
  tuple : Value
deriving DecidableEq, Repr

/-- The tuples of both sides and their pairs. -/
structure Join where
  /-- The live left tuples. -/
  lefts : Table TupleId Keyed := []
  /-- The live right tuples. -/
  rights : Table TupleId Keyed := []
  /-- The index over the left side. -/
  leftIndex : JoinIndex
  /-- The index over the right side. -/
  rightIndex : JoinIndex
  /-- The identity of the joined tuple of each pair. -/
  pairs : Table (TupleId × TupleId) TupleId := []
  /-- The right partners of each left tuple. -/
  byLeft : Table TupleId (List TupleId) := []
  /-- The left partners of each right tuple. -/
  byRight : Table TupleId (List TupleId) := []
  /-- The identity of the next joined tuple. -/
  next : TupleId := 0
deriving DecidableEq, Repr

namespace Join

/-- A join without any tuple. -/
def empty (relation : JoinRelation) : Join :=
  { leftIndex := { relation := relation, side := .left }
    rightIndex := { relation := relation, side := .right } }

/-- The partners of a tuple with one more. -/
def link (t : Table TupleId (List TupleId)) (a b : TupleId) : Table TupleId (List TupleId) :=
  t.set a ((t.get? a).getD [] ++ [b])

/-- The partners of a tuple with one less. -/
def unlink (t : Table TupleId (List TupleId)) (a b : TupleId) : Table TupleId (List TupleId) :=
  match t.get? a with
  | some l =>
    let rest := swapErase b l
    if rest.isEmpty then t.erase a else t.set a rest
  | none => t

/-- A pair is joined. -/
def emit (s : Join) (l r : TupleId) (t : Value) : Join × List Delta :=
  ({ s with
      pairs := s.pairs.set (l, r) s.next
      byLeft := link s.byLeft l r
      byRight := link s.byRight r l
      next := s.next + 1 },
    [.insert s.next t])

/-- The joined tuple of a pair goes, if there is one. -/
def dropPair (s : Join) (l r : TupleId) : Join × List Delta :=
  match s.pairs.get? (l, r) with
  | some id => ({ s with pairs := s.pairs.erase (l, r) }, [.retract id])
  | none => (s, [])

/-- A left tuple goes with its pairs. -/
def removeLeft (s : Join) (l : TupleId) : Join × List Delta :=
  match s.lefts.get? l with
  | none => (s, [])
  | some a =>
    let partners := (s.byLeft.get? l).getD []
    let s := { s with
      lefts := s.lefts.erase l
      leftIndex := s.leftIndex.remove a.key l
      byLeft := s.byLeft.erase l }
    partners.foldl
      (fun (s, out) r =>
        let (s, gone) := s.dropPair l r
        ({ s with byRight := unlink s.byRight r l }, out ++ gone))
      (s, [])

/-- A right tuple goes with its pairs. -/
def removeRight (s : Join) (r : TupleId) : Join × List Delta :=
  match s.rights.get? r with
  | none => (s, [])
  | some b =>
    let partners := (s.byRight.get? r).getD []
    let s := { s with
      rights := s.rights.erase r
      rightIndex := s.rightIndex.remove b.key r
      byRight := s.byRight.erase r }
    partners.foldl
      (fun (s, out) l =>
        let (s, gone) := s.dropPair l r
        ({ s with byLeft := unlink s.byLeft l r }, out ++ gone))
      (s, [])

/-- A pair is considered: it is joined if it may be and its tuples belong together. -/
def tryPair (rule : JoinRule) (l r : TupleId) (a b : Value) (s : Join) :
    Checked (Join × List Delta) := do
  if rule.uniquePairs && decide (r ≤ l) then return (s, [])
  if ← rule.joiner.matching a b then return s.emit l r (rule.combine a b)
  return (s, [])

/-- A left tuple comes and is paired with the right tuples. -/
def insertLeft (rule : JoinRule) (s : Join) (l : TupleId) (a : Value) :
    Checked (Join × List Delta) := do
  let key ← rule.joiner.leftKey a
  let candidates := s.rightIndex.lookup key (rule.joiner.overlapBound key)
  let (s, out) ← feed
    (fun s r =>
      match s.rights.get? r with
      | some b => s.tryPair rule l r a b.tuple
      | none => .ok (s, []))
    s candidates
  return ({ s with
    leftIndex := s.leftIndex.insert key l
    lefts := s.lefts.set l ⟨key, a⟩ }, out)

/-- A right tuple comes and is paired with the left tuples. -/
def insertRight (rule : JoinRule) (s : Join) (r : TupleId) (b : Value) :
    Checked (Join × List Delta) := do
  let key ← rule.joiner.rightKey b
  let candidates := s.leftIndex.lookup key (rule.joiner.overlapBound key)
  let (s, out) ← feed
    (fun s l =>
      match s.lefts.get? l with
      | some a => s.tryPair rule l r a.tuple b
      | none => .ok (s, []))
    s candidates
  return ({ s with
    rightIndex := s.rightIndex.insert key r
    rights := s.rights.set r ⟨key, b⟩ }, out)

/-- The answer to a batch of deltas of each side. -/
def process (rule : JoinRule) (s : Join) (left right : List Delta) : Checked (Join × List Delta) := do
  let (s, out1) ← feed (fun s l => .ok (s.removeLeft l)) s (Delta.removals left)
  let (s, out2) ← feed (fun s r => .ok (s.removeRight r)) s (Delta.removals right)
  let (s, out3) ← feed (fun s (l, a) => s.insertLeft rule l a) s (Delta.insertions left)
  let (s, out4) ← feed (fun s (r, b) => s.insertRight rule r b) s (Delta.insertions right)
  return (s, out1 ++ out2 ++ out3 ++ out4)

end Join

end Planning
