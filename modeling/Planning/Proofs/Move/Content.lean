import Mathlib.Logic.Function.Basic
import Planning.Move.Basic
import Planning.Proofs.Checked
import Planning.Variable

/-!
# What genuine variables hold

The genuine variables of a problem are those that moves change. Their content in a solution is what each of them
holds for each entity. Lawful variables are independent of each other: writing one of them for an entity that
exists changes its content there and nothing else.
-/

namespace Planning

open Checked

variable {S B L : Type} {V : B → Type} {W : L → Type} [DecidableEq B] [DecidableEq L]

/-- What the genuine variables of a solution hold, and how many entities have them. -/
@[ext]
structure Content (V : B → Type) (W : L → Type) where
  /-- The values that entities have. -/
  values : ∀ b, Nat → Option (V b)
  /-- The lists that entities have. -/
  lists : ∀ l, Nat → List (W l)
  /-- The number of entities that have a value. -/
  valueCount : B → Nat
  /-- The number of entities that have a list. -/
  listCount : L → Nat

namespace Content

variable (c : Content V W)

/-- The content with another value of an entity. -/
def setValue (b : B) (e : Nat) (v : Option (V b)) : Content V W :=
  { c with values := Function.update c.values b (Function.update (c.values b) e v) }

/-- The content with another list of an entity. -/
def setList (l : L) (e : Nat) (w : List (W l)) : Content V W :=
  { c with lists := Function.update c.lists l (Function.update (c.lists l) e w) }

omit [DecidableEq L] in
/-- The last value of an entity counts. -/
@[simp] theorem setValue_setValue (b : B) (e : Nat) (v w : Option (V b)) :
    (c.setValue b e v).setValue b e w = c.setValue b e w := by
  simp [setValue]

omit [DecidableEq L] in
/-- The value that an entity has anyway changes nothing. -/
@[simp] theorem setValue_values (b : B) (e : Nat) : c.setValue b e (c.values b e) = c := by
  simp [setValue]

omit [DecidableEq L] in
/-- Values of different entities are set in any order. -/
theorem setValue_comm {b : B} {d e : Nat} (h : d ≠ e) (v w : Option (V b)) :
    (c.setValue b d v).setValue b e w = (c.setValue b e w).setValue b d v := by
  simp only [setValue, Function.update_self, Function.update_idem, Function.update_comm h]

omit [DecidableEq L] in
/-- Another entity, or another variable, keeps its value. -/
theorem values_setValue_of_ne {b b' : B} {e e' : Nat} {v : Option (V b)} (h : b' = b → e' ≠ e) :
    (c.setValue b e v).values b' e' = c.values b' e' := by
  by_cases hb : b' = b
  · subst hb
    simp [setValue, Function.update_of_ne (h rfl)]
  · simp [setValue, Function.update_of_ne hb]

omit [DecidableEq B] in
/-- The list of an entity is the one that was set. -/
@[simp] theorem lists_setList_self (l : L) (e : Nat) (w : List (W l)) : (c.setList l e w).lists l e = w := by
  simp [setList]

omit [DecidableEq B] in
/-- The lists of other entities stay. -/
theorem lists_setList_of_ne {l : L} {d e : Nat} (h : d ≠ e) (w : List (W l)) :
    (c.setList l e w).lists l d = c.lists l d := by
  simp [setList, h]

omit [DecidableEq B] in
/-- The last list of an entity counts. -/
@[simp] theorem setList_setList (l : L) (e : Nat) (v w : List (W l)) :
    (c.setList l e v).setList l e w = c.setList l e w := by
  simp [setList]

omit [DecidableEq B] in
/-- The list that an entity has anyway changes nothing. -/
@[simp] theorem setList_lists (l : L) (e : Nat) : c.setList l e (c.lists l e) = c := by
  simp [setList]

omit [DecidableEq B] in
/-- Lists of different entities are set in any order. -/
theorem setList_comm {l : L} {d e : Nat} (h : d ≠ e) (v w : List (W l)) :
    (c.setList l d v).setList l e w = (c.setList l e w).setList l d v := by
  simp only [setList, Function.update_self, Function.update_idem, Function.update_comm h]

omit [DecidableEq B] in
@[simp] theorem listCount_setList (l : L) (e : Nat) (w : List (W l)) :
    (c.setList l e w).listCount = c.listCount := rfl

end Content

/-- The genuine variables of a problem, by their names. -/
structure Genuine (S : Type) (V : B → Type) (W : L → Type) where
  /-- Those that hold a value. -/
  basic : ∀ b, BasicVariable S (V b)
  /-- Those that hold a list. -/
  list : ∀ l, ListVariable S (W l)

namespace Genuine

variable (g : Genuine S V W)

/-- What the genuine variables of a solution hold. -/
def content (s : S) : Content V W where
  values b := (g.basic b).get? s
  lists l := (g.list l).list s
  valueCount b := (g.basic b).count s
  listCount l := (g.list l).count s

/-- Writing a variable for an entity that exists changes its content there and nothing else. -/
structure Lawful : Prop where
  /-- A value is written. -/
  set_basic : ∀ b s e v, e < (g.basic b).count s →
    g.content ((g.basic b).set s e v) = (g.content s).setValue b e v
  /-- A list is written. -/
  set_list : ∀ l s e w, e < (g.list l).count s →
    ∃ s', (g.list l).set s e w = .ok s' ∧ g.content s' = (g.content s).setList l e w

/-- An edit that was made in a solution is taken back: undoing it where the content is as the edit left it gives
the content before it. -/
def Reversible (s : S) (e : Edit S) : Prop :=
  ∀ s', e.apply s = .ok s' → ∀ t, g.content t = g.content s' →
    ∃ u, e.undo t = .ok u ∧ g.content u = g.content s

end Genuine

/-- An entity that may be changed exists. -/
theorem lt_of_checkMovable {count e : Nat} {pinned : Nat → Bool} {u : Unit}
    (h : checkMovable count pinned e = .ok u) : e < count := by
  unfold checkMovable at h
  split at h
  · cases h
  · omega

end Planning
