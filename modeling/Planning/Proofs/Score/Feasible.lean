import Planning.Proofs.Score.Order
import Planning.Termination.Basic

/-!
# Feasible scores and their order

Scores are compared by the first level that differs, but are feasible by all of their hard levels. So a score above a
feasible one is feasible as well, unless one of its hard levels is negative behind a positive one. With a single hard
level there is no such score, and whoever has seen a feasible score has a feasible best one.
-/

namespace Planning.Score

variable {k : ScoreKind} {a b : Score k}

/-- The first hard level that is not zero, if there is one. -/
def leading (a : Score k) : Option Int := a.hardLevels.find? (· != 0)

/-- A score is infeasible though its first hard level that is not zero is positive. -/
def Mixed (a : Score k) : Prop := ¬ a.Feasible ∧ ∃ n ∈ a.leading, 0 < n

/-- The zero score is feasible. -/
theorem feasible_zero : (zero : Score k).Feasible := by
  intro n hn
  obtain ⟨l, hl, rfl⟩ := List.mem_map.1 (List.mem_of_mem_take hn)
  rw [List.eq_of_mem_replicate hl]
  exact Int.le_refl 0

/-- Numbers that compare as no less than others of which the first few are not negative start with such numbers as
well, or the first of them that is not zero is positive. -/
theorem nonneg_or_positive {as bs : List Int} {h : Nat} (hle : (compareNumbers as bs).isLE = true)
    (hlength : as.length = bs.length) (has : ∀ n ∈ as.take h, 0 ≤ n) :
    (∀ n ∈ bs.take h, 0 ≤ n) ∨ ∃ n ∈ (bs.take h).find? (· != 0), 0 < n := by
  induction as generalizing bs h with
  | nil =>
    obtain rfl := List.eq_nil_of_length_eq_zero hlength.symm
    left
    simp
  | cons a as ih =>
    cases bs with
    | nil => cases hlength
    | cons b bs =>
      cases h with
      | zero =>
        left
        simp
      | succ h =>
        obtain ⟨ha, has⟩ := List.forall_mem_cons.1 has
        rw [compareNumbers] at hle
        rcases Int.lt_trichotomy a b with hlt | rfl | hgt
        · right
          have hb : b ≠ 0 := by omega
          exact ⟨b, by simp [hb], by omega⟩
        · rw [Int.compare_eq_eq.2 rfl, Ordering.eq_then] at hle
          by_cases hzero : a = 0
          · rcases ih hle (Nat.succ.inj hlength) has with hnonneg | hpositive
            · exact .inl (List.forall_mem_cons.2 ⟨ha, hnonneg⟩)
            · right
              simpa [hzero] using hpositive
          · right
            exact ⟨a, by simp [hzero], by omega⟩
        · rw [Int.compare_eq_gt.2 hgt] at hle
          cases hle

/-- Zeros compare as less than numbers of which the first that is not zero is positive. -/
theorem compareNumbers_zeros {bs : List Int} {h : Nat} {n : Int} (hn : n ∈ (bs.take h).find? (· != 0)) (hpos : 0 < n) :
    compareNumbers (List.replicate bs.length 0) bs = .lt := by
  induction bs generalizing h with
  | nil => simp at hn
  | cons b bs ih =>
    cases h with
    | zero => simp at hn
    | succ h =>
      rw [List.length_cons, List.replicate_succ, compareNumbers]
      by_cases hb : b = 0
      · rw [hb, Int.compare_eq_eq.2 rfl, Ordering.eq_then]
        exact ih (by simpa [hb] using hn)
      · have hbn : b = n := by simpa [hb] using hn
        rw [hbn, Int.compare_eq_lt.2 hpos, Ordering.lt_then]

/-- A score above a feasible one is feasible unless it is mixed. -/
theorem feasible_of_le (hle : a ≤ b) (ha : a.Feasible) (hb : ¬ b.Mixed) : b.Feasible := by
  rcases nonneg_or_positive (h := k.hardSize) hle (by simp) ha with hfeasible | hpositive
  · exact hfeasible
  · exact not_not.1 fun hinfeasible => hb ⟨hinfeasible, hpositive⟩

/-- A mixed score is above a feasible one. -/
theorem Mixed.zero_le (h : b.Mixed) : zero ≤ b := by
  obtain ⟨-, n, hn, hpos⟩ := h
  have hzeros : (zero : Score k).toList = List.replicate b.toList.length 0 := by
    rw [length_toList, toList, zero, List.map_replicate]
    rfl
  change (compareNumbers _ _).isLE = true
  rw [hzeros, compareNumbers_zeros hn hpos]
  rfl

/-- With at most one hard level no score is mixed. -/
theorem not_mixed_of_hardSize_le_one (hk : k.hardSize ≤ 1) (b : Score k) : ¬ b.Mixed := by
  rintro ⟨hinfeasible, n, hn, hpos⟩
  -- The one hard level that there may be is the one that is positive.
  have hlength : b.hardLevels.length ≤ 1 := Nat.le_trans (List.length_take_le _ _) hk
  have hmem : n ∈ b.hardLevels := List.mem_of_find?_eq_some hn
  obtain ⟨m, hm⟩ : ∃ m, b.hardLevels = [m] :=
    List.length_eq_one_iff.1 (by have := List.length_pos_of_mem hmem; omega)
  rw [hm, List.mem_singleton] at hmem
  refine hinfeasible fun i hi => ?_
  rw [hm, List.mem_singleton] at hi
  omega

/-- Whatever is above feasible scores is feasible just for the scores that are not mixed, of which there are none but
those with several hard levels. So where the best score is no less than all that were seen and is not mixed, a feasible
one among them stops a run that is to stop with a feasible score. -/
theorem feasible_upward (k : ScoreKind) :
    (∀ b : Score k, (∀ a, a ≤ b → a.Feasible → b.Feasible) ↔ ¬ b.Mixed) ∧
    (k.hardSize ≤ 1 → ∀ b : Score k, ¬ b.Mixed) ∧
    ∀ (p : Progress k) (seen : List (Score k)) (b : Score k), p.best = some b → (∀ a ∈ seen, a ≤ b) → ¬ b.Mixed →
      (∃ a ∈ seen, a.Feasible) → Termination.feasible.isMet p = true := by
  refine ⟨fun b => ⟨fun h hmixed => ?_, fun hmixed a hle ha => feasible_of_le hle ha hmixed⟩,
    not_mixed_of_hardSize_le_one, ?_⟩
  · exact hmixed.1 (h zero hmixed.zero_le feasible_zero)
  · rintro p seen b hbest hseen hmixed ⟨a, hmem, ha⟩
    have hb := feasible_of_le (hseen a hmem) ha hmixed
    rw [Termination.isMet, hbest, Option.any_some, decide_eq_true hb]

/-- A score of two hard levels and a soft one. -/
def twoHard (x y z : Level) : Score (.bendable 2 1) := ⟨[x, y, z], rfl⟩

/-- A run that has seen a feasible score of two hard levels stops with a better one that is not mixed. -/
theorem feasible_upward_twoHard :
    twoHard .zero .zero .one ≤ twoHard .zero .one .zero ∧ (twoHard .zero .zero .one).Feasible ∧
      ¬ (twoHard .zero .one .zero).Mixed ∧
      Termination.feasible.isMet { best := some (twoHard .zero .one .zero) } = true := by
  have hle : twoHard .zero .zero .one ≤ twoHard .zero .one .zero := le_iff_reaches.2 (by decide)
  have hfeasible : (twoHard .zero .zero .one).Feasible := by decide
  have hmixed : ¬ (twoHard .zero .one .zero).Mixed := fun h => h.1 (by decide)
  refine ⟨hle, hfeasible, hmixed, (feasible_upward (.bendable 2 1)).2.2 _ [twoHard .zero .zero .one] _ rfl ?_ hmixed ?_⟩
  · exact List.forall_mem_singleton.2 hle
  · exact ⟨_, List.mem_singleton_self _, hfeasible⟩

/-- With two hard levels a feasible score is below one that is not. -/
theorem exists_le_infeasible : ∃ a b : Score (.bendable 2 1), a ≤ b ∧ a.Feasible ∧ ¬ b.Feasible :=
  ⟨twoHard .zero .zero .zero, twoHard .one ⟨-1, by decide⟩ .zero, le_iff_reaches.2 (by decide), by decide, by decide⟩

end Planning.Score
