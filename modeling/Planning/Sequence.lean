import Planning.Fault

/-!
# Edits of sequences

Edits at positions of a list. Each faults when it reads, cuts or writes past the end.
-/

namespace Planning

variable {α : Type}

/-- The sum of counts. -/
def sumOf (l : List Nat) : Nat := l.foldr (· + ·) 0

/-- The list with a member put before an index. -/
def insertAt (l : List α) (i : Nat) (a : α) : Checked (List α) :=
  if i ≤ l.length then .ok (l.take i ++ a :: l.drop i) else .error .outOfRange

/-- The list with members put before an index. -/
def insertAllAt (l : List α) (i : Nat) (new : List α) : Checked (List α) :=
  if i ≤ l.length then .ok (l.take i ++ new ++ l.drop i) else .error .outOfRange

/-- The list without the member at an index. -/
def removeAt (l : List α) (i : Nat) : Checked (List α) :=
  if i < l.length then .ok (l.eraseIdx i) else .error .outOfRange

/-- The list with another member at an index. -/
def replaceAt (l : List α) (i : Nat) (a : α) : Checked (List α) :=
  if i < l.length then .ok (l.set i a) else .error .outOfRange

/-- The members from a start up to a finish, and the list without them. -/
def cutAt (l : List α) (start finish : Nat) : Checked (List α × List α) :=
  if start ≤ finish ∧ finish ≤ l.length then
    .ok ((l.take finish).drop start, l.take start ++ l.drop finish)
  else .error .outOfRange

/-- The list with the members from a start up to a finish in reverse order. -/
def reverseAt (l : List α) (start finish : Nat) : Checked (List α) := do
  let (part, rest) ← cutAt l start finish
  insertAllAt rest start part.reverse

/-- The list with the members at two indices exchanged. -/
def swapAt (l : List α) (i j : Nat) : Checked (List α) := do
  replaceAt (← replaceAt l i (← member l j)) j (← member l i)

/-- The members from a start up to a finish, none if there are no such positions. -/
def segment (l : List α) (start finish : Nat) : List α :=
  if start ≤ finish ∧ finish ≤ l.length then (l.take finish).drop start else []

/-- What is removed after it was inserted leaves the list as it was. -/
theorem removeAt_insertAt {l : List α} {i : Nat} {a : α} (h : i ≤ l.length) :
    (insertAt l i a >>= fun m => removeAt m i) = .ok l := by
  have hlen : (l.take i).length = i := by simp [h]
  have e : insertAt l i a = .ok (l.take i ++ a :: l.drop i) := by simp [insertAt, h]
  rw [e]
  change removeAt (l.take i ++ a :: l.drop i) i = .ok l
  unfold removeAt
  rw [if_pos (by simp; omega), List.eraseIdx_append_of_length_le (by omega), hlen, Nat.sub_self]
  simp

end Planning
