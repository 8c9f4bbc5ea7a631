import Planning.Graph.Node
import Planning.Score.Basic

/-!
# Constraints

A constraint weighs the tuples of a graph. Each live tuple is a match whose impact is the weight of the
constraint, costing or earning, times what the weigher gives for the tuple; the score of the constraint is
the sum of the impacts of its matches, kept up as the tuples come, change and go.
-/

/-!
## Names and impacts of constraints

A constraint is known by its name within a package. Its matches either cost or earn its weight.
-/

namespace Planning

/-- The name of a constraint. -/
structure ConstraintRef where
  /-- The package, which may be empty. -/
  package : String
  /-- The name within the package. -/
  name : String
deriving DecidableEq, Repr, Inhabited

/-- The name after the package and a slash, or the name alone if the package is empty. -/
def ConstraintRef.fullName (r : ConstraintRef) : String :=
  if r.package.isEmpty then r.name else s!"{r.package}/{r.name}"

/-- What a match does to the score. -/
inductive Impact where
  /-- It costs the weight. -/
  | penalty
  /-- It earns the weight. -/
  | reward
deriving DecidableEq, Repr

/-- The sign of the impact. -/
def Impact.sign : Impact → Int
  | penalty => -1
  | reward => 1

end Planning

namespace Planning

/-- A live tuple with its impact. -/
structure Match (k : ScoreKind) where
  /-- The tuple. -/
  tuple : Value
  /-- What it does to the score. -/
  impact : Score k
deriving DecidableEq

/-- A constraint over solutions, with its state. -/
structure Constraint (S : Type) (k : ScoreKind) where
  /-- The name. -/
  ref : ConstraintRef
  /-- Whether matches cost or earn the weight. -/
  impact : Impact
  /-- The weight. -/
  weight : Score k
  /-- The number of times that a tuple counts. -/
  weigher : Value → Checked Int
  /-- The text that shows a tuple. -/
  justify : Value → String
  /-- The graph whose tuples are weighed. -/
  node : Node S
  /-- The live tuples. -/
  live : Table TupleId (Match k) := []
  /-- The sum of the impacts. -/
  total : Score k := .zero

namespace Constraint

variable {S : Type} {k : ScoreKind}

/-- The constraint may make a solution infeasible. -/
def isHard (c : Constraint S k) : Bool := decide c.weight.HasHardImpact

/-- What a tuple does to the score. -/
def impactOf (c : Constraint S k) (t : Value) : Checked (Score k) := do
  c.weight.scale (← bounded (c.impact.sign * (← c.weigher t)))

/-- The impact of a match goes from a sum. -/
def withdraw (c : Constraint S k) (id : TupleId) (sum : Score k) : Checked (Score k) :=
  match c.live.get? id with
  | some m => sum.sub m.impact
  | none => .ok sum

/-- One delta is taken in; the sum is what the score changed by so far. -/
def absorb : Constraint S k × Score k → Delta → Checked (Constraint S k × Score k)
  | (c, sum), .insert id t => do
    let impact ← c.impactOf t
    let sum ← c.withdraw id sum
    return ({ c with live := c.live.set id ⟨t, impact⟩ }, ← sum.add impact)
  | (c, sum), .update id t => do
    let impact ← c.impactOf t
    let sum ← c.withdraw id sum
    return ({ c with live := c.live.set id ⟨t, impact⟩ }, ← sum.add impact)
  | (c, sum), .retract id => do
    let sum ← c.withdraw id sum
    return ({ c with live := c.live.erase id }, sum)

/-- Deltas are taken in, and what the score changed by. -/
def apply (c : Constraint S k) (ds : List Delta) : Checked (Constraint S k × Score k) := do
  let (c, sum) ← ds.foldlM absorb (c, .zero)
  return ({ c with total := ← c.total.add sum }, sum)

/-- The whole solution is taken in. -/
def load (c : Constraint S k) (s : S) : Checked (Constraint S k) := do
  let (node, ds) ← c.node.load s
  let (c, _) ← { c with node := node }.apply ds
  return c

/-- An event is taken in, and what the score changed by. -/
def onEvent (c : Constraint S k) (s : S) (e : SourceEvent) : Checked (Constraint S k × Score k) := do
  let (node, ds) ← c.node.propagate s e
  { c with node := node }.apply ds

/-- The constraint without any match. -/
def reset (c : Constraint S k) : Constraint S k :=
  { c with node := c.node.reset, live := [], total := .zero }

/-- The constraint reads a class. -/
def listensTo (c : Constraint S k) (source : SourceClass) : Bool := c.node.listensTo source

/-- The matches in the order of their identities. -/
def sortedMatches (c : Constraint S k) : List (Match k) :=
  (c.live.mergeSort fun a b => decide (a.1 ≤ b.1)).map Prod.snd

end Constraint

end Planning
