import Planning.Graph.Delta
import Planning.Table

/-!
# Complementing

Complementing passes on the tuples of a stream and adds, for each element of a source whose key no tuple
carries, a tuple made for it. A made tuple goes when a tuple with its key comes, and comes back when the
last such tuple is gone.
-/

namespace Planning

/-- How to complement. -/
structure ComplementRule where
  /-- The key that a tuple carries. -/
  tupleKey : Value → Value
  /-- The key of an element of the source. -/
  elementKey : Value → Checked Value
  /-- What fills the tuple made for an element. -/
  fill : Value → Checked Value
  /-- The tuple made from a key and what fills it. -/
  build : Value → Value → Value

/-- An element of the source with its key and what fills its tuple. -/
structure SourceElement where
  /-- The key. -/
  key : Value
  /-- What fills the tuple made for it. -/
  fill : Value
deriving DecidableEq, Repr

/-- The tuples passed on, the elements of the source and the tuples made for them. -/
structure Complement where
  /-- The key of each tuple and the identity under which it is passed on. -/
  passed : Table TupleId (Value × TupleId) := []
  /-- How many tuples carry each key that is carried. -/
  carried : Table Value Nat := []
  /-- The elements of the source. -/
  elements : Table TupleId SourceElement := []
  /-- The elements with each key, in the order in which they came. -/
  byKey : Table Value (List TupleId) := []
  /-- The identity of the tuple made for each element that has one. -/
  made : Table TupleId TupleId := []
  /-- The next identity. -/
  next : TupleId := 0
deriving DecidableEq, Repr

namespace Complement

/-- The elements with a key. -/
def elementsWith (s : Complement) (key : Value) : List TupleId := (s.byKey.get? key).getD []

/-- A tuple is made for an element. -/
def make (rule : ComplementRule) (s : Complement) (e : TupleId) : Complement × List Delta :=
  match s.elements.get? e with
  | some x =>
    ({ s with made := s.made.set e s.next, next := s.next + 1 },
      [.insert s.next (rule.build x.key x.fill)])
  | none => (s, [])

/-- The tuple made for an element goes, if there is one. -/
def unmake (s : Complement) (e : TupleId) : Complement × List Delta :=
  match s.made.get? e with
  | some id => ({ s with made := s.made.erase e }, [.retract id])
  | none => (s, [])

/-- A step for each element, with everything given out on the way. -/
def forElements (step : Complement → TupleId → Complement × List Delta) (s : Complement)
    (es : List TupleId) : Complement × List Delta :=
  es.foldl (fun (s, out) e => let (s, more) := step s e; (s, out ++ more)) (s, [])

/-- A tuple comes. -/
def insertTuple (rule : ComplementRule) (s : Complement) (id : TupleId) (t : Value) :
    Complement × List Delta :=
  let key := rule.tupleKey t
  let n := (s.carried.get? key).getD 0 + 1
  let out := [.insert s.next t]
  let s := { s with
    passed := s.passed.set id (key, s.next)
    carried := s.carried.set key n
    next := s.next + 1 }
  if n = 1 then
    let (s, gone) := forElements unmake s (s.elementsWith key)
    (s, out ++ gone)
  else (s, out)

/-- A tuple goes. -/
def removeTuple (rule : ComplementRule) (s : Complement) (id : TupleId) : Complement × List Delta :=
  match s.passed.get? id with
  | none => (s, [])
  | some (key, outId) =>
    let n := (s.carried.get? key).getD 0 - 1
    let s := { s with passed := s.passed.erase id }
    if n = 0 then
      let s := { s with carried := s.carried.erase key }
      let (s, come) := forElements (make rule) s (s.elementsWith key)
      (s, .retract outId :: come)
    else ({ s with carried := s.carried.set key n }, [.retract outId])

/-- A tuple changes. -/
def updateTuple (rule : ComplementRule) (s : Complement) (id : TupleId) (t : Value) :
    Complement × List Delta :=
  let replace : Complement × List Delta :=
    let (s, gone) := s.removeTuple rule id
    let (s, come) := s.insertTuple rule id t
    (s, gone ++ come)
  match s.passed.get? id with
  | some (key, outId) => if key = rule.tupleKey t then (s, [.update outId t]) else replace
  | none => replace

/-- The answer to a delta of the stream. -/
def stepTuple (rule : ComplementRule) (s : Complement) : Delta → Complement × List Delta
  | .insert id t => s.insertTuple rule id t
  | .update id t => s.updateTuple rule id t
  | .retract id => s.removeTuple rule id

/-- An element of the source goes. -/
def removeElement (s : Complement) (e : TupleId) : Complement × List Delta :=
  let s :=
    match s.elements.get? e with
    | some x =>
      let rest := (s.elementsWith x.key).filter (· ≠ e)
      { s with
        elements := s.elements.erase e
        byKey := if rest.isEmpty then s.byKey.erase x.key else s.byKey.set x.key rest }
    | none => s
  s.unmake e

/-- An element of the source comes. -/
def insertElement (rule : ComplementRule) (s : Complement) (e : TupleId) (element : Value) :
    Checked (Complement × List Delta) := do
  let key ← rule.elementKey element
  let fill ← rule.fill element
  let covered := s.carried.has key
  let s := { s with
    byKey := s.byKey.set key (s.elementsWith key ++ [e])
    elements := s.elements.set e ⟨key, fill⟩ }
  return if covered then (s, []) else s.make rule e

/-- The answer to a delta of the source. -/
def stepElement (rule : ComplementRule) (s : Complement) : Delta → Checked (Complement × List Delta)
  | .insert e element => s.insertElement rule e element
  | .update e element => do
    let (s, gone) := s.removeElement e
    let (s, come) ← s.insertElement rule e element
    return (s, gone ++ come)
  | .retract e => .ok (s.removeElement e)

/-- The answer to a batch of deltas of the stream and of the source. -/
def process (rule : ComplementRule) (s : Complement) (stream source : List Delta) :
    Checked (Complement × List Delta) := do
  let (s, out1) ← feed (fun s d => .ok (s.stepTuple rule d)) s stream
  let (s, out2) ← feed (stepElement rule) s source
  return (s, out1 ++ out2)

end Complement

end Planning
