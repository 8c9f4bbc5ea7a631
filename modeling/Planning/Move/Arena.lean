/-!
# Move arenas

An arena holds the candidates of one step by their index. A candidate can be taken out once; its place
stays, so that the other candidates keep their indices.
-/

namespace Planning

/-- Candidates by their index; a place whose candidate was taken is empty. -/
abbrev Arena (α : Type) := Array (Option α)

namespace Arena

variable {α : Type}

/-- No places. -/
def empty : Arena α := #[]

/-- One more candidate. -/
def add (x : Arena α) (a : α) : Arena α := x.push (some a)

/-- More candidates in their order. -/
def extend (x : Arena α) (l : List α) : Arena α := x ++ (l.map some).toArray

/-- The candidate at an index, if it is still there. -/
def get? (x : Arena α) (i : Nat) : Option α := (x[i]?).join

/-- The arena with an empty place at an index. -/
def take (x : Arena α) (i : Nat) : Arena α := x.setIfInBounds i none

/-- The candidates that are still there, with their indices. -/
def remaining (x : Arena α) : List (Nat × α) :=
  (x.toList.zipIdx.filterMap fun (a, i) => a.map fun a => (i, a))

end Arena

end Planning
