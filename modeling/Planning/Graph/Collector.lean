import Planning.Graph.LoadBalance

/-!
# Collectors

A collector turns a group of tuples into one result. It extracts an input from each tuple, takes inputs
into a state and gives them back, and finishes the state into the result at any time. Counting states are
kept in a normal form, so that they do not depend on the order in which inputs came and went.
-/

namespace Planning

/-- A way to turn a group of tuples into a result. -/
inductive Collector where
  /-- The number of tuples. -/
  | count
  /-- The number of different values. -/
  | countDistinct (f : Value → Checked Value)
  /-- The sum of integers. -/
  | sum (f : Value → Checked Int)
  /-- The mean of integers as a real number; none of no integers. -/
  | average (f : Value → Checked Int)
  /-- The greatest or the least value; none of no values. -/
  | extremum (greatest : Bool) (f : Value → Checked Value)
  /-- The values in the order in which they came. -/
  | toList (f : Value → Checked Value)
  /-- The different values in ascending order. -/
  | toSet (f : Value → Checked Value)
  /-- The loads of keys and how unequal they are. -/
  | loadBalance (key : Value → Checked Value) (amount : Value → Checked Int)
  /-- The results of two collectors. -/
  | compose (first second : Collector)
  /-- The result over the tuples for which a predicate holds. -/
  | conditionally (predicate : Value → Checked Bool) (inner : Collector)
  /-- A function of the result of a collector. -/
  | andThen (inner : Collector) (f : Value → Checked Value)
deriving Inhabited

namespace Collector

/-- What is extracted from a tuple. -/
def Input : Collector → Type
  | count => Unit
  | countDistinct _ => Value
  | sum _ => Int
  | average _ => Int
  | extremum _ _ => Value
  | toList _ => Value
  | toSet _ => Value
  | loadBalance _ _ => Value × Int
  | compose first second => first.Input × second.Input
  | conditionally _ inner => Option inner.Input
  | andThen inner _ => inner.Input

/-- What is kept of the inputs. -/
def State : Collector → Type
  | count => Nat
  | countDistinct _ => Tally
  | sum _ => Int
  | average _ => Int × Nat
  | extremum _ _ => Tally
  | toList _ => List Value
  | toSet _ => Tally
  | loadBalance _ _ => Loads
  | compose first second => first.State × second.State
  | conditionally _ inner => inner.State
  | andThen inner _ => inner.State

/-- The input of a tuple. -/
def extract : (c : Collector) → Value → Checked c.Input
  | count, _ => .ok ()
  | countDistinct f, t => f t
  | sum f, t => f t
  | average f, t => f t
  | extremum _ f, t => f t
  | toList f, t => f t
  | toSet f, t => f t
  | loadBalance key amount, t => do return (← key t, ← amount t)
  | compose first second, t => do return (← first.extract t, ← second.extract t)
  | conditionally p inner, t => do
    if ← p t then return some (← inner.extract t) else return none
  | andThen inner _, t => inner.extract t

/-- The state without any input. -/
def empty : (c : Collector) → c.State
  | count => (0 : Nat)
  | countDistinct _ => ([] : Tally)
  | sum _ => (0 : Int)
  | average _ => ((0 : Int), (0 : Nat))
  | extremum _ _ => ([] : Tally)
  | toList _ => ([] : List Value)
  | toSet _ => ([] : Tally)
  | loadBalance _ _ => ({} : Loads)
  | compose first second => (first.empty, second.empty)
  | conditionally _ inner => inner.empty
  | andThen inner _ => inner.empty

/-- The state with one more input. -/
def accumulate : (c : Collector) → c.State → c.Input → Checked c.State
  | count, (n : Nat), _ => .ok (n + 1)
  | countDistinct _, (t : Tally), v => .ok (t.add v)
  | sum _, (n : Int), (v : Int) => bounded (n + v)
  | average _, ((total : Int), (n : Nat)), (v : Int) => do return (← bounded (total + v), n + 1)
  | extremum _ _, (t : Tally), v => .ok (t.add v)
  | toList _, (l : List Value), (v : Value) => .ok (l ++ [v])
  | toSet _, (t : Tally), v => .ok (t.add v)
  | loadBalance _ _, (l : Loads), (key, amount) => l.add key amount
  | compose first second, (a, b), (v, w) => do
    return (← first.accumulate a v, ← second.accumulate b w)
  | conditionally _ inner, s, v =>
    match v with
    | some v => inner.accumulate s v
    | none => .ok s
  | andThen inner _, s, v => inner.accumulate s v

/-- The state with one input less. -/
def retract : (c : Collector) → c.State → c.Input → Checked c.State
  | count, (n : Nat), _ => .ok (n - 1)
  | countDistinct _, (t : Tally), v => .ok (t.remove v)
  | sum _, (n : Int), (v : Int) => bounded (n - v)
  | average _, ((total : Int), (n : Nat)), (v : Int) => do return (← bounded (total - v), n - 1)
  | extremum _ _, (t : Tally), v => .ok (t.remove v)
  | toList _, (l : List Value), (v : Value) => .ok (l.erase v)
  | toSet _, (t : Tally), v => .ok (t.remove v)
  | loadBalance _ _, (l : Loads), (key, amount) => l.remove key amount
  | compose first second, (a, b), (v, w) => do
    return (← first.retract a v, ← second.retract b w)
  | conditionally _ inner, s, v =>
    match v with
    | some v => inner.retract s v
    | none => .ok s
  | andThen inner _, s, v => inner.retract s v

/-- The mean of integers with a given sum. -/
def mean (total : Int) (n : Nat) : Value :=
  if n = 0 then .null else .real (Float.ofInt total / Float.ofNat n).toBits

/-- The result of a state. -/
def finish : (c : Collector) → c.State → Checked Value
  | count, (n : Nat) => .ok (.ofNat n)
  | countDistinct _, (t : Tally) => .ok (.ofNat t.values.length)
  | sum _, (n : Int) => .ok (.int n)
  | average _, ((total : Int), (n : Nat)) => .ok (mean total n)
  | extremum greatest _, (t : Tally) =>
    .ok (.ofOption (if greatest then t.values.getLast? else t.values.head?))
  | toList _, (l : List Value) => .ok (.list l)
  | toSet _, (t : Tally) => .ok (.list t.values)
  | loadBalance _ _, (l : Loads) => .ok l.toValue
  | compose first second, (a, b) => do return .pair (← first.finish a) (← second.finish b)
  | conditionally _ inner, s => inner.finish s
  | andThen inner f, s => do f (← inner.finish s)

end Collector

end Planning
