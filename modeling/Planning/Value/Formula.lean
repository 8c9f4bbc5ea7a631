import Planning.Value.Basic

/-!
# Formulas over values

A formula computes a value from a given one, which it calls *it*. Formulas serve as the functions and
predicates of dynamically described constraints: they project, compare, calculate with the integers that
values count for, and build lists. Calculation faults when a number leaves the bounds.
-/

namespace Planning

/-- A calculation with two integers. -/
inductive Arithmetic where
  /-- The sum. -/
  | add
  /-- The difference. -/
  | sub
  /-- The product. -/
  | mul
  /-- The remainder that is never negative, and 0 when the divisor is 0. -/
  | mod
deriving DecidableEq, Repr

/-- The result of a calculation. -/
def Arithmetic.eval : Arithmetic → Int → Int → Checked Int
  | add, a, b => bounded (a + b)
  | sub, a, b => bounded (a - b)
  | mul, a, b => bounded (a * b)
  | mod, a, b =>
    if b = 0 then .ok 0
    else if a = minBound ∧ b = -1 then .error .overflow
    else .ok (a % b)

/-- A comparison of two values. -/
inductive Comparison where
  /-- Equal. -/
  | eq
  /-- Not equal. -/
  | ne
  /-- Less. -/
  | lt
  /-- Less or equal. -/
  | le
deriving DecidableEq, Repr

/-- Whether a comparison holds. -/
def Comparison.eval : Comparison → Value → Value → Bool
  | eq, a, b => a == b
  | ne, a, b => a != b
  | lt, a, b => (compare a b).isLT
  | le, a, b => (compare a b).isLE

/-- A formula over a value. -/
inductive Formula where
  /-- The value itself. -/
  | it
  /-- The element reached by indices, and null where there is none. -/
  | path (indices : List Int)
  /-- A constant. -/
  | const (v : Value)
  /-- A calculation with the integers of two results. -/
  | calc (op : Arithmetic) (a b : Formula)
  /-- A comparison of two results. -/
  | test (op : Comparison) (a b : Formula)
  /-- Both results hold; the second is not looked at when the first does not. -/
  | and (a b : Formula)
  /-- One of the results holds; the second is not looked at when the first does. -/
  | or (a b : Formula)
  /-- The result does not hold. -/
  | not (a : Formula)
  /-- The list of the results. -/
  | list (fs : List Formula)
  /-- The integers from 0 up to the integer of the result, at most a thousand of them. -/
  | range (a : Formula)
deriving Repr, Inhabited

namespace Formula

/-- The element that indices reach from a value. -/
def follow (v : Value) : List Int → Value
  | [] => v
  | i :: rest => follow (if 0 ≤ i then v.at? i.toNat else .null) rest

/-- The longest list of integers that a formula makes. -/
def longestRange : Nat := 1000

mutual

/-- The value of a formula. -/
def eval (it : Value) : Formula → Checked Value
  | .it => .ok it
  | .path indices => .ok (follow it indices)
  | .const v => .ok v
  | .calc op a b => do
    let x ← eval it a
    let y ← eval it b
    return .int (← op.eval x.toInt y.toInt)
  | .test op a b => do
    let x ← eval it a
    let y ← eval it b
    return .bool (op.eval x y)
  | .and a b => do
    if (← eval it a).holds then return .bool (← eval it b).holds else return .bool false
  | .or a b => do
    if (← eval it a).holds then return .bool true else return .bool (← eval it b).holds
  | .not a => do
    return .bool (!(← eval it a).holds)
  | .list fs => do
    return .list (← evalAll it fs)
  | .range a => do
    let n := (← eval it a).toInt
    return .list ((List.range (min n.toNat longestRange)).map .ofNat)

/-- The values of formulas. -/
def evalAll (it : Value) : List Formula → Checked (List Value)
  | [] => .ok []
  | f :: fs => do
    let v ← eval it f
    let vs ← evalAll it fs
    return v :: vs

end

/-- Whether the value of a formula holds. -/
def holds (f : Formula) (it : Value) : Checked Bool := do
  return (← f.eval it).holds

end Formula

end Planning
