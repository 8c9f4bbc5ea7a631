import Planning.Value.Basic

/-!
# The order of values

Comparing values is a total order: the other way round it gives the opposite, and it is transitive.
-/

namespace Planning.Value

mutual

/-- Two values compare the other way round as the opposite. -/
theorem cmp_swap : (a b : Value) → cmp a b = (cmp b a).swap
  | null, b => by cases b <;> rfl
  | bool a, b => by
    cases b
    case bool b => exact Std.OrientedOrd.eq_swap
    all_goals rfl
  | int a, b => by
    cases b
    case int b => exact Std.OrientedOrd.eq_swap
    all_goals rfl
  | real a, b => by
    cases b
    case real b => exact Std.OrientedOrd.eq_swap
    all_goals rfl
  | text a, b => by
    cases b
    case text b => exact Std.OrientedOrd.eq_swap
    all_goals rfl
  | list as, b => by
    cases b
    case list bs => exact cmpList_swap as bs
    all_goals rfl

/-- Two lists compare the other way round as the opposite. -/
theorem cmpList_swap : (as bs : List Value) → cmpList as bs = (cmpList bs as).swap
  | [], [] => rfl
  | [], _ :: _ => rfl
  | _ :: _, [] => rfl
  | a :: as, b :: bs => by
    simp only [cmpList, Ordering.swap_then]
    rw [cmp_swap a b, cmpList_swap as bs]

end

/-- The sorts of values that compare as less or equal are in order. -/
theorem sort_le_of_isLE {a b : Value} (h : (cmp a b).isLE) : a.sort ≤ b.sort := by
  cases a <;> cases b <;> simp_all [cmp, sort, compare, compareOfLessAndEq]

/-- A value of a lesser sort is less. -/
theorem cmp_eq_lt_of_sort_lt {a b : Value} (h : a.sort < b.sort) : cmp a b = .lt := by
  cases a <;> cases b <;> simp_all [cmp, sort, compare, compareOfLessAndEq]

/-- A value is less or equal when it is less or the same. -/
theorem isLE_iff {a b : Value} : (cmp a b).isLE ↔ cmp a b = .lt ∨ a = b := by
  rw [← cmp_eq_eq a b]
  cases cmp a b <;> simp

mutual

/-- The order of values is transitive. -/
theorem cmp_isLE_trans : (a b c : Value) → (cmp a b).isLE → (cmp b c).isLE → (cmp a c).isLE
  | a, b, c, hab, hbc => by
    have h1 := sort_le_of_isLE hab
    have h2 := sort_le_of_isLE hbc
    rcases Nat.lt_or_ge a.sort c.sort with hlt | hge
    · rw [cmp_eq_lt_of_sort_lt hlt]
      rfl
    -- All three are of one sort.
    · cases a <;> cases c <;> simp only [sort] at hge h1 h2 <;> try omega
      all_goals cases b <;> simp only [Nat.reduceLeDiff] at h1 h2
      case inr.list.list.list as cs bs => exact cmpList_isLE_trans as bs cs hab hbc
      all_goals exact Std.TransOrd.isLE_trans hab hbc

/-- The order of lists of values is transitive. -/
theorem cmpList_isLE_trans : (as bs cs : List Value) → (cmpList as bs).isLE → (cmpList bs cs).isLE →
    (cmpList as cs).isLE
  | [], _, [], _, _ => rfl
  | [], _, _ :: _, _, _ => rfl
  | _ :: _, [], _, h, _ => by simp [cmpList] at h
  | _ :: _, _ :: _, [], _, h => by simp [cmpList] at h
  | a :: as, b :: bs, c :: cs, hab, hbc => by
    simp only [cmpList, Ordering.isLE_then_iff_and] at hab hbc ⊢
    have hac := cmp_isLE_trans a b c hab.1 hbc.1
    refine ⟨hac, ?_⟩
    rcases isLE_iff.1 hac with hlt | rfl
    · exact Or.inl hlt
    -- The first elements are the same, so the rests decide.
    · have hba : a = b := by
        rcases isLE_iff.1 hab.1 with h | h
        · rw [cmp_swap, Ordering.swap_eq_lt] at h
          rw [h] at hbc
          simp at hbc
        · exact h
      subst hba
      have hself : cmp a a = .eq := (cmp_eq_eq a a).2 rfl
      simp only [hself, reduceCtorEq, false_or] at hab hbc
      exact Or.inr (cmpList_isLE_trans as bs cs hab.2 hbc.2)

end

instance : Std.OrientedOrd Value := ⟨cmp_swap _ _⟩

instance : Std.TransOrd Value := { isLE_trans := cmp_isLE_trans _ _ _ }

instance : Std.LawfulEqOrd Value where
  eq_of_compare h := compare_eq_eq_iff.1 h

end Planning.Value
