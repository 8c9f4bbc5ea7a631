import Planning.Fault

/-!
# Value ranges

A value range says which values a planning variable of an entity may take. It answers how many values
there are, which one stands at an index and whether a value is among them; it reads the solution each
time, so that a range backed by facts stays current when the facts change.
-/

namespace Planning

/-- The values that a variable of an entity may take in a solution. -/
structure ValueRange (S V : Type) where
  /-- The number of values. -/
  size : S → Nat → Checked Nat
  /-- The value at an index. -/
  get? : S → Nat → Nat → Option V
  /-- The value is in the range. -/
  contains : S → Nat → V → Bool

namespace ValueRange

variable {S V : Type}

/-- There is no value. -/
def isEmpty (r : ValueRange S V) (s : S) (entity : Nat) : Checked Bool := do
  return (← r.size s entity) == 0

/-- The values in the order of their indices. -/
def values (r : ValueRange S V) (s : S) (entity : Nat) : Checked (List V) := do
  return (List.range (← r.size s entity)).filterMap (r.get? s entity)

/-- The integers from a start up to, and not including, a finish. -/
def integers (start finish : Int) : ValueRange S Int where
  size _ _ := do return (← bounded (finish - start)).toNat
  get? _ _ i :=
    if (i : Int) ≤ maxBound ∧ start + i ≤ maxBound ∧ start + i < finish then some (start + i)
    else none
  contains _ _ v := decide (start ≤ v) && decide (v < finish)

/-- The integers from zero up to, and not including, a finish. -/
def integersBelow (finish : Int) : ValueRange S Int := integers 0 finish

/-- The indices of a collection of the solution. -/
def indices (count : S → Nat) : ValueRange S Nat where
  size s _ := .ok (count s)
  get? s _ i := if i < count s then some i else none
  contains s _ v := decide (v < count s)

/-- The members of a list of the solution. -/
def members [DecidableEq V] (field : S → List V) : ValueRange S V where
  size s _ := .ok (field s).length
  get? s _ i := (field s)[i]?
  contains s _ v := (field s).contains v

/-- The members of a fixed list. -/
def fixed [DecidableEq V] (vs : List V) : ValueRange S V := members fun _ => vs

end ValueRange

end Planning
