/-!
# Faults and bounded arithmetic

An operation faults when it leaves the numbers that fit 64 signed bits, breaks a stated contract or
reads past the end of a sequence. A fault ends the computation; it is not an error of the model, and
nothing recovers from it. `bounded` is the one place where a number is checked against the bounds.
-/

namespace Planning

/-- Why a computation ends without a result. -/
inductive Fault where
  /-- A number left the bounds. -/
  | overflow
  /-- A stated contract was broken. -/
  | broken (message : String)
  /-- A sequence was read or cut past its end. -/
  | outOfRange
deriving DecidableEq, Repr, Inhabited

/-- A computation that may fault. -/
abbrev Checked := Except Fault

/-- The least number that fits 64 signed bits. -/
def minBound : Int := -9223372036854775808

/-- The greatest number that fits 64 signed bits. -/
def maxBound : Int := 9223372036854775807

/-- The greatest number that fits 64 unsigned bits. -/
def maxCount : Nat := 18446744073709551615

/-- A number is in bounds when it fits 64 signed bits. -/
def InBounds (n : Int) : Prop := minBound ≤ n ∧ n ≤ maxBound

instance (n : Int) : Decidable (InBounds n) :=
  inferInstanceAs (Decidable (minBound ≤ n ∧ n ≤ maxBound))

/-- The number itself when it is in bounds, and an overflow otherwise. -/
def bounded (n : Int) : Checked Int :=
  if InBounds n then .ok n else .error .overflow

theorem bounded_eq_ok_iff {n m : Int} : bounded n = .ok m ↔ InBounds n ∧ n = m := by
  unfold bounded
  split <;> simp_all

theorem bounded_eq_error_iff {n : Int} {f : Fault} :
    bounded n = .error f ↔ ¬ InBounds n ∧ f = .overflow := by
  unfold bounded
  split
  · simp_all
  · simp_all [eq_comm]

/-- The difference of two counters, which never goes below zero. -/
def countDown (a b : Nat) : Checked Nat :=
  if b ≤ a then .ok (a - b) else .error .overflow

/-- A counter in its bounds. -/
def counted (n : Nat) : Checked Nat :=
  if n ≤ maxCount then .ok n else .error .overflow

/-- A count that does not get too great is counted. -/
theorem counted_of_le {n : Nat} (h : n ≤ maxCount) : counted n = .ok n := if_pos h

/-- Counting overflows only where the count gets too great. -/
theorem counted_eq_error_iff {n : Nat} {f : Fault} : counted n = .error f ↔ maxCount < n ∧ f = .overflow := by
  unfold counted
  split
  · rename_i hle
    exact ⟨fun h => (by cases h), fun h => absurd hle (Nat.not_le_of_lt h.1)⟩
  · simp_all [eq_comm]

/-- The member at an index, or the fault of reading past the end. -/
def member {α : Type} (l : List α) (i : Nat) : Checked α :=
  match l[i]? with
  | some a => .ok a
  | none => .error .outOfRange

theorem member_eq_ok_iff {α : Type} {l : List α} {i : Nat} {a : α} :
    member l i = .ok a ↔ l[i]? = some a := by
  unfold member
  split <;> simp_all

end Planning
