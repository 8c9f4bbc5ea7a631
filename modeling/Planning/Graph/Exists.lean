import Planning.Graph.Join

/-!
# Existence

An existence test lets pass the left tuples that have a matching right tuple, or those that have none. It
counts the matches of each left tuple and keeps the identity of a tuple that passes.
-/

namespace Planning

/-- What to match and which left tuples pass. -/
structure ExistsRule where
  /-- Which tuples match. -/
  joiner : Joiner
  /-- The left tuples with a match pass, or else those without. -/
  shouldExist : Bool

/-- A live left tuple with the number of its matches. -/
structure Counted where
  /-- The key. -/
  key : Value
  /-- The tuple. -/
  tuple : Value
  /-- The number of right tuples that match it. -/
  matchCount : Nat
deriving DecidableEq, Repr

/-- The tuples of both sides. -/
structure Exists where
  /-- The live left tuples. -/
  lefts : Table TupleId Counted := []
  /-- The live right tuples. -/
  rights : Table TupleId Keyed := []
  /-- The index over the left side. -/
  leftIndex : JoinIndex
  /-- The index over the right side. -/
  rightIndex : JoinIndex
deriving DecidableEq, Repr

namespace Exists

/-- A test without any tuple. -/
def empty (relation : JoinRelation) : Exists :=
  { leftIndex := { relation := relation, side := .left }
    rightIndex := { relation := relation, side := .right } }

/-- A left tuple with so many matches passes. -/
def passes (rule : ExistsRule) (matchCount : Nat) : Bool :=
  decide (0 < matchCount) == rule.shouldExist

/-- A left tuple goes. -/
def removeLeft (rule : ExistsRule) (s : Exists) (l : TupleId) : Exists × List Delta :=
  match s.lefts.get? l with
  | none => (s, [])
  | some a =>
    ({ s with lefts := s.lefts.erase l, leftIndex := s.leftIndex.remove a.key l },
      if passes rule a.matchCount then [.retract l] else [])

/-- The number of right tuples among the candidates that match a left tuple. -/
def countMatches (rule : ExistsRule) (s : Exists) (a : Value) : List TupleId → Checked Nat
  | [] => .ok 0
  | r :: rest => do
    match s.rights.get? r with
    | some b =>
      let one ← rule.joiner.matching a b.tuple
      let others ← countMatches rule s a rest
      return if one then others + 1 else others
    | none => countMatches rule s a rest

/-- A left tuple comes. -/
def insertLeft (rule : ExistsRule) (s : Exists) (l : TupleId) (a : Value) :
    Checked (Exists × List Delta) := do
  let key ← rule.joiner.leftKey a
  let candidates := s.rightIndex.lookup key (rule.joiner.overlapBound key)
  let n ← s.countMatches rule a candidates
  return ({ s with
      leftIndex := s.leftIndex.insert key l
      lefts := s.lefts.set l ⟨key, a, n⟩ },
    if passes rule n then [.insert l a] else [])

/-- A left tuple wins or loses a match, if it matches. -/
def adjustOne (rule : ExistsRule) (b : Value) (more : Bool) (s : Exists) (l : TupleId) :
    Checked (Exists × List Delta) :=
  match s.lefts.get? l with
  | none => .ok (s, [])
  | some a => do
    if ← rule.joiner.matching a.tuple b then
      let n := if more then a.matchCount + 1 else a.matchCount - 1
      let s := { s with lefts := s.lefts.set l { a with matchCount := n } }
      match passes rule a.matchCount, passes rule n with
      | true, false => return (s, [.retract l])
      | false, true => return (s, [.insert l a.tuple])
      | _, _ => return (s, [])
    else return (s, [])

/-- The left tuples that match a right tuple win or lose a match. -/
def adjust (rule : ExistsRule) (s : Exists) (key b : Value) (more : Bool) :
    Checked (Exists × List Delta) :=
  feed (adjustOne rule b more) s (s.leftIndex.lookup key (rule.joiner.overlapBound key))

/-- A right tuple goes. -/
def removeRight (rule : ExistsRule) (s : Exists) (r : TupleId) : Checked (Exists × List Delta) :=
  match s.rights.get? r with
  | none => .ok (s, [])
  | some b =>
    { s with rights := s.rights.erase r, rightIndex := s.rightIndex.remove b.key r }.adjust
      rule b.key b.tuple false

/-- A right tuple comes. -/
def insertRight (rule : ExistsRule) (s : Exists) (r : TupleId) (b : Value) :
    Checked (Exists × List Delta) := do
  let key ← rule.joiner.rightKey b
  let (s, out) ← s.adjust rule key b true
  return ({ s with
    rightIndex := s.rightIndex.insert key r
    rights := s.rights.set r ⟨key, b⟩ }, out)

/-- The answer to a batch of deltas of each side. -/
def process (rule : ExistsRule) (s : Exists) (left right : List Delta) :
    Checked (Exists × List Delta) := do
  let (s, out1) ← feed (fun s l => .ok (s.removeLeft rule l)) s (Delta.removals left)
  let (s, out2) ← feed (fun s r => s.removeRight rule r) s (Delta.removals right)
  let (s, out3) ← feed (fun s (l, a) => s.insertLeft rule l a) s (Delta.insertions left)
  let (s, out4) ← feed (fun s (r, b) => s.insertRight rule r b) s (Delta.insertions right)
  return (s, out1 ++ out2 ++ out3 ++ out4)

end Exists

end Planning
