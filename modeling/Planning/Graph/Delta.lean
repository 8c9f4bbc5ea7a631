import Planning.Value.Basic

/-!
# Events and deltas

A source event says that an entity or a fact of the solution came, changed or went. Nodes of a constraint
graph answer events with deltas: tuples that come, change or go, known by their identities.
-/

namespace Planning

/-- The identity of a tuple among the live tuples of its node. -/
abbrev TupleId := Nat

/-- A class of entities or of facts, by its position in the description of the problem. -/
inductive SourceClass where
  /-- Entities. -/
  | entity (index : Nat)
  /-- Problem facts. -/
  | fact (index : Nat)
deriving DecidableEq, Repr

/-- What happened to a member of a class. -/
inductive Change where
  /-- It came. -/
  | insert
  /-- It changed. -/
  | update
  /-- It went. -/
  | retract
deriving DecidableEq, Repr

/-- A change of the solution. -/
structure SourceEvent where
  /-- What happened. -/
  change : Change
  /-- The class of the member. -/
  source : SourceClass
  /-- The position of the member in its class. -/
  index : Nat
deriving DecidableEq, Repr

/-- A change of the tuples of a node. -/
inductive Delta where
  /-- A tuple comes. -/
  | insert (id : TupleId) (tuple : Value)
  /-- A live tuple changes. -/
  | update (id : TupleId) (tuple : Value)
  /-- A live tuple goes. -/
  | retract (id : TupleId)
deriving DecidableEq, Repr

namespace Delta

/-- The identity of the tuple that goes or is replaced. -/
def removed? : Delta → Option TupleId
  | insert _ _ => none
  | update id _ => some id
  | retract id => some id

/-- The tuple that comes or replaces another. -/
def inserted? : Delta → Option (TupleId × Value)
  | insert id t => some (id, t)
  | update id t => some (id, t)
  | retract _ => none

/-- The identities that go or are replaced, in order. -/
def removals (ds : List Delta) : List TupleId := ds.filterMap removed?

/-- The tuples that come or replace others, in order. -/
def insertions (ds : List Delta) : List (TupleId × Value) := ds.filterMap inserted?

/-- A function of the tuple of a delta. -/
def mapTuple (f : Value → Checked Value) : Delta → Checked Delta
  | insert id t => do return insert id (← f t)
  | update id t => do return update id (← f t)
  | retract id => .ok (retract id)

end Delta

/-- A state fed with items one after the other, and everything it gives out on the way. -/
def feed {σ ι ο : Type} (step : σ → ι → Checked (σ × List ο)) : σ → List ι → Checked (σ × List ο)
  | s, [] => .ok (s, [])
  | s, i :: is => do
    let (s, out) ← step s i
    let (s, rest) ← feed step s is
    return (s, out ++ rest)

@[simp] theorem feed_nil {σ ι ο : Type} (step : σ → ι → Checked (σ × List ο)) (s : σ) :
    feed step s [] = .ok (s, []) := rfl

theorem feed_cons_eq_ok_iff {σ ι ο : Type} {step : σ → ι → Checked (σ × List ο)} {s t : σ} {i : ι}
    {is : List ι} {out : List ο} :
    feed step s (i :: is) = .ok (t, out) ↔
      ∃ u first rest, step s i = .ok (u, first) ∧ feed step u is = .ok (t, rest) ∧
        out = first ++ rest := by
  simp only [feed, bind, Except.bind, pure, Except.pure]
  cases h1 : step s i with
  | error f => simp
  | ok p =>
    obtain ⟨u, first⟩ := p
    dsimp only
    cases h2 : feed step u is with
    | error f =>
      simp only [reduceCtorEq, false_iff, Except.ok.injEq, Prod.mk.injEq]
      rintro ⟨_, _, _, ⟨rfl, rfl⟩, h, _⟩
      rw [h2] at h; cases h
    | ok q =>
      obtain ⟨w, rest⟩ := q
      simp only [Except.ok.injEq, Prod.mk.injEq]
      constructor
      · rintro ⟨rfl, rfl⟩
        exact ⟨u, first, rest, ⟨rfl, rfl⟩, h2, rfl⟩
      · rintro ⟨_, _, _, ⟨rfl, rfl⟩, h, rfl⟩
        rw [h2] at h
        cases h
        exact ⟨rfl, rfl⟩

end Planning
