import Planning.Score.Basic

/-!
# Planning solutions

A planning solution holds classes of entities and classes of facts, and the score that was stored in it
last. It is initialized when nothing that has to be planned is left open.
-/

namespace Planning

/-- Solutions of a planning problem whose scores have a kind. -/
class PlanningSolution (S : Type) (k : outParam ScoreKind) where
  /-- The score that was stored last. -/
  score : S → Option (Score k)
  /-- The solution with a stored score. -/
  withScore : S → Score k → S
  /-- Nothing is left open. -/
  isInitialized : S → Bool
  /-- The number of entities of a class. -/
  entityCount : S → Nat → Nat
  /-- The number of facts of a class. -/
  factCount : S → Nat → Nat

end Planning
