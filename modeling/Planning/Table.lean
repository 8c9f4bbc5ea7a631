/-!
# Finite tables

A table gives values to finitely many keys. It is a list of entries in which an entry hides those behind
it; writing an entry drops what it replaces, so that no key stands twice. The laws say what reading gives
after each operation.
-/

namespace Planning

/-- A finite table. -/
abbrev Table (κ α : Type) := List (κ × α)

namespace Table

variable {κ α : Type} [DecidableEq κ]

/-- The value of a key. -/
def get? (t : Table κ α) (k : κ) : Option α := List.lookup k t

/-- The table without a key. -/
def erase (t : Table κ α) (k : κ) : Table κ α := t.filter fun e => e.1 ≠ k

/-- The table with a value for a key. -/
def set (t : Table κ α) (k : κ) (a : α) : Table κ α := (k, a) :: erase t k

/-- The key has a value. -/
def has (t : Table κ α) (k : κ) : Bool := (t.get? k).isSome

@[simp] theorem get?_nil (k : κ) : get? ([] : Table κ α) k = none := rfl

theorem get?_cons (e : κ × α) (t : Table κ α) (k : κ) :
    get? (e :: t) k = if e.1 = k then some e.2 else get? t k := by
  unfold get?
  rw [List.lookup_cons]
  by_cases h : e.1 = k
  · simp [h]
  · have : (k == e.1) = false := by simpa using fun h' => h h'.symm
    simp [this, h]

@[simp] theorem get?_erase (t : Table κ α) (k k' : κ) :
    get? (erase t k) k' = if k' = k then none else get? t k' := by
  induction t with
  | nil => simp [erase]
  | cons e t ih =>
    unfold erase at ih ⊢
    rw [List.filter_cons]
    by_cases he : e.1 = k
    · rw [if_neg (by simp [he]), ih, get?_cons]
      by_cases hk : k' = k
      · simp [hk]
      · simp [hk, he, Ne.symm hk]
    · rw [if_pos (by simp [he]), get?_cons, ih, get?_cons]
      by_cases hk : k' = k
      · simp [hk, he]
      · simp [hk]

@[simp] theorem get?_set (t : Table κ α) (k k' : κ) (a : α) :
    get? (set t k a) k' = if k' = k then some a else get? t k' := by
  unfold set
  rw [get?_cons, get?_erase]
  by_cases h : k' = k
  · simp [h]
  · simp [h, Ne.symm h]

end Table

end Planning
