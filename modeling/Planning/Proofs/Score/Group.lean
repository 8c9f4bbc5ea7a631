import Mathlib
import Planning.Proofs.Score.Order

/-!
# Scores as an ordered group

The level numbers of scores are vectors of integers, and those are an ordered group when they are compared by the first
number that differs. Comparing, adding, negating and scaling scores is comparing, adding, negating and scaling their
vectors, as long as no level leaves its bounds. So the laws of the ordered group are laws of the scores.
-/

namespace Planning.Score

variable {k : ScoreKind} {a b c s t x y : Score k} {f : Int}

/-! ## Comparing -/

/-- Numbers compare as less when they are less as words of a dictionary are. -/
theorem compareNumbers_eq_lt_iff (as bs : List Int) : compareNumbers as bs = .lt ↔ as < bs := by
  induction as generalizing bs with
  | nil => cases bs <;> simp [compareNumbers]
  | cons a as ih =>
    cases bs with
    | nil => simp [compareNumbers]
    | cons b bs =>
      rw [compareNumbers, Ordering.then_eq_lt, List.cons_lt_cons_iff, ih, Int.compare_eq_lt, Int.compare_eq_eq]

/-- A score is less than another when its level numbers are. -/
theorem lt_iff_toList : a < b ↔ a.toList < b.toList := compareNumbers_eq_lt_iff a.toList b.toList

/-- The number at a level. -/
theorem vector_eq_getElem {i : Nat} (hi : i < a.toList.length) : a.vector i = a.toList[i] :=
  List.getD_eq_getElem _ _ hi

/-- Beyond the last level there are zeros. -/
theorem vector_eq_zero {i : Nat} (hi : k.size ≤ i) : a.vector i = 0 :=
  List.getD_eq_default _ _ (by rwa [length_toList])

/-- The vector of a score, among the vectors that are compared by the first number that differs. -/
def lex (a : Score k) : Lex (Nat → Int) := toLex a.vector

/-- A score is determined by its vector. -/
theorem lex_inj : a.lex = b.lex ↔ a = b := toLex_inj.trans vector_inj

/-- A score is less than another when its vector is. -/
theorem lt_iff_lex : a < b ↔ a.lex < b.lex := by
  rw [lt_iff_toList, List.lt_iff_exists]
  constructor
  · rintro (⟨-, hshort⟩ | ⟨i, hi, hi', hsame, hlt⟩)
    · rw [length_toList, length_toList] at hshort
      exact absurd hshort (Nat.lt_irrefl _)
    · refine ⟨i, fun j hj => ?_, ?_⟩
      · exact (vector_eq_getElem (hj.trans hi)).trans ((hsame j hj).trans (vector_eq_getElem (hj.trans hi')).symm)
      · change a.vector i < b.vector i
        rwa [vector_eq_getElem hi, vector_eq_getElem hi']
  · rintro ⟨i, hsame, hlt⟩
    change a.vector i < b.vector i at hlt
    -- Vectors that differ at an index do so at a level.
    have hsize : i < k.size := by
      by_contra hge
      rw [vector_eq_zero (Nat.le_of_not_lt hge), vector_eq_zero (Nat.le_of_not_lt hge)] at hlt
      exact Int.lt_irrefl 0 hlt
    have hi : i < a.toList.length := by rwa [length_toList]
    have hi' : i < b.toList.length := by rwa [length_toList]
    refine .inr ⟨i, hi, hi', fun j hj => ?_, ?_⟩
    · exact (vector_eq_getElem _).symm.trans ((hsame j hj).trans (vector_eq_getElem _))
    · rwa [← vector_eq_getElem, ← vector_eq_getElem]

/-- Of two scores one is at most the other when the other is not less. -/
theorem le_iff_not_lt : a ≤ b ↔ ¬ b < a := by
  have hswap : compare b a = (compare a b).swap := Std.OrientedCmp.eq_swap
  change (compare a b).isLE = true ↔ ¬ compare b a = .lt
  rw [hswap]
  cases compare a b <;> decide

/-- A score is at most another when its vector is. -/
theorem le_iff_lex : a ≤ b ↔ a.lex ≤ b.lex := by
  rw [le_iff_not_lt, lt_iff_lex]
  exact not_lt

/-- Scores compare as equal when they are. -/
theorem compare_eq_eq_iff : compare a b = .eq ↔ a = b := by
  rw [compare_eq_compareLex, Std.LawfulEqCmp.compare_eq_iff_eq, toList_inj]

/-!
## Adding, negating and scaling

The three operations make a score of level numbers. They are compared by the numbers at each index, where zeros stand
beyond the last level.
-/

/-- What is in bounds of a list is what stands at its indices, as zero is. -/
theorem forall_mem_inBounds_iff {ns : List Int} : (∀ n ∈ ns, InBounds n) ↔ ∀ i, InBounds (ns.getD i 0) := by
  constructor
  · intro h i
    by_cases hi : i < ns.length
    · rw [List.getD_eq_getElem _ _ hi]
      exact h _ (List.getElem_mem hi)
    · rw [List.getD_eq_default _ _ (Nat.le_of_not_lt hi)]
      decide
  · intro h n hn
    obtain ⟨i, hi, rfl⟩ := List.getElem_of_mem hn
    rw [← List.getD_eq_getElem ns 0 hi]
    exact h i

/-- The numbers of scores are as many as there are levels and in bounds. -/
theorem exists_toList_eq_iff {ns : List Int} :
    (∃ a : Score k, a.toList = ns) ↔ ns.length = k.size ∧ ∀ n ∈ ns, InBounds n := by
  constructor
  · rintro ⟨a, rfl⟩
    exact ⟨a.length_toList, fun n hn => inBounds_of_mem hn⟩
  · rintro ⟨hlength, hbounds⟩
    exact ⟨⟨ns.pmap Level.mk hbounds, by rw [List.length_pmap, hlength]⟩, by simp [toList, List.map_pmap]⟩

variable {ns ms : List Int} {h : ns.length = k.size} {h' : ms.length = k.size}

/-- The score of numbers has them at its levels. -/
theorem ofNumbers_eq_ok_iff_vector : ofNumbers ns h = .ok a ↔ a.vector = fun i => ns.getD i 0 := by
  rw [ofNumbers_eq_ok_iff]
  refine ⟨fun heq => by rw [← heq]; rfl, fun heq => ?_⟩
  exact eq_of_getD (by rw [length_toList, h]) (congrFun heq)

/-- Numbers have a score when they are in bounds. -/
theorem exists_ofNumbers_iff : (∃ a : Score k, ofNumbers ns h = .ok a) ↔ ∀ i, InBounds (ns.getD i 0) := by
  rw [← forall_mem_inBounds_iff]
  simp only [ofNumbers_eq_ok_iff, exists_toList_eq_iff, h, true_and]

/-- The same numbers have the same score or overflow alike. -/
theorem ofNumbers_congr (heq : ∀ i, ns.getD i 0 = ms.getD i 0) :
    (ofNumbers ns h : Checked (Score k)) = ofNumbers ms h' := by
  obtain rfl := eq_of_getD (h.trans h'.symm) heq
  rfl

/-- The numbers of a sum. -/
theorem getD_add (a b : Score k) (i : Nat) :
    (List.zipWith (· + ·) a.toList b.toList).getD i 0 = a.vector i + b.vector i := getD_zipWith rfl (by simp) i

/-- The numbers of a negation. -/
theorem getD_neg (a : Score k) (i : Nat) : (a.toList.map (- ·)).getD i 0 = -a.vector i :=
  List.getD_map a.toList 0 (- ·)

/-- The numbers of a multiple. -/
theorem getD_scale (a : Score k) (f : Int) (i : Nat) : (a.toList.map (· * f)).getD i 0 = a.vector i * f := by
  have hmap := List.getD_map a.toList 0 (· * f) (n := i)
  rwa [Int.zero_mul] at hmap

/-- The vector of zero is zero. -/
theorem lex_zero : (zero : Score k).lex = 0 := congrArg toLex vector_zero

/-- A sum has the sum of the vectors. -/
theorem add_eq_ok_iff_lex : a.add b = .ok s ↔ s.lex = a.lex + b.lex := by
  rw [add, ofNumbers_eq_ok_iff_vector, funext (getD_add a b)]
  exact toLex_inj.symm

/-- A difference is what the subtrahend has to be added to. -/
theorem sub_eq_ok_iff_add : a.sub b = .ok s ↔ s.add b = .ok a := by
  have hsub : ∀ i, (List.zipWith (· - ·) a.toList b.toList).getD i 0 = a.vector i - b.vector i :=
    getD_zipWith rfl (by simp)
  rw [sub, ofNumbers_eq_ok_iff_vector, funext hsub, add_eq_ok_iff_lex]
  exact toLex_inj.symm.trans (eq_sub_iff_add_eq.trans eq_comm)

/-- A negation has the negated vector. -/
theorem neg_eq_ok_iff_lex : a.neg = .ok s ↔ s.lex = -a.lex := by
  rw [neg, ofNumbers_eq_ok_iff_vector, funext (getD_neg a)]
  exact toLex_inj.symm

/-- A multiple has the multiple of the vector. -/
theorem scale_eq_ok_iff_lex : a.scale f = .ok s ↔ s.lex = f • a.lex := by
  have hcomm : ∀ i, (a.toList.map (· * f)).getD i 0 = (f • a.vector) i := fun i =>
    (getD_scale a f i).trans (Int.mul_comm _ _)
  rw [scale, ofNumbers_eq_ok_iff_vector, funext hcomm]
  exact toLex_inj.symm

/-! ## The laws -/

/-- As long as no operation overflows, the scores of a kind are a group whose order is kept by sums, turned round by
negation, and kept or turned round by multiples. The order is that of the level numbers, which tell the scores. -/
structure OrderedGroup (k : ScoreKind) : Prop where
  /-- A sum overflows just where a level leaves its bounds. -/
  exists_add : ∀ a b : Score k, (∃ s, a.add b = .ok s) ↔ ∀ i, InBounds (a.vector i + b.vector i)
  /-- A negation overflows just where a level leaves its bounds. -/
  exists_neg : ∀ a : Score k, (∃ s, a.neg = .ok s) ↔ ∀ i, InBounds (-a.vector i)
  /-- A multiple overflows just where a level leaves its bounds. -/
  exists_scale : ∀ (a : Score k) (f : Int), (∃ s, a.scale f = .ok s) ↔ ∀ i, InBounds (a.vector i * f)
  /-- Terms may be exchanged. -/
  add_comm : ∀ a b : Score k, a.add b = b.add a
  /-- Sums may be grouped. -/
  add_assoc : ∀ a b c s t : Score k, a.add b = .ok s → b.add c = .ok t → s.add c = a.add t
  /-- Zero changes nothing. -/
  add_zero : ∀ a : Score k, a.add zero = .ok a
  /-- A score and its negation make zero. -/
  add_neg : ∀ a s : Score k, a.neg = .ok s → a.add s = .ok zero
  /-- A difference is what the subtrahend has to be added to. -/
  sub_eq : ∀ a b s : Score k, a.sub b = .ok s ↔ s.add b = .ok a
  /-- Any two scores are in order one way or the other. -/
  le_total : ∀ a b : Score k, a ≤ b ∨ b ≤ a
  /-- Only a score itself is in order with it both ways. -/
  le_antisymm : ∀ a b : Score k, a ≤ b → b ≤ a → a = b
  /-- What is at most a score is at most what that is at most. -/
  le_trans : ∀ a b c : Score k, a ≤ b → b ≤ c → a ≤ c
  /-- The order is kept when the same is added. -/
  add_le_add : ∀ a b c x y : Score k, a ≤ b → a.add c = .ok x → b.add c = .ok y → x ≤ y
  /-- The order is turned round by negation. -/
  neg_le_neg : ∀ a b x y : Score k, a ≤ b → a.neg = .ok x → b.neg = .ok y → y ≤ x
  /-- The order is kept by a positive factor. -/
  scale_lt_scale : ∀ (a b x y : Score k) (f : Int), 0 < f → a.scale f = .ok x → b.scale f = .ok y →
    (x < y ↔ a < b)
  /-- The order is turned round by a negative factor. -/
  scale_lt_scale_of_neg : ∀ (a b x y : Score k) (f : Int), f < 0 → a.scale f = .ok x → b.scale f = .ok y →
    (y < x ↔ a < b)
  /-- A multiple of a sum is the sum of the multiples. -/
  add_scale : ∀ (a b s x y : Score k) (f : Int), a.add b = .ok s → a.scale f = .ok x → b.scale f = .ok y →
    s.scale f = x.add y
  /-- Scores compare as their level numbers do, like words of a dictionary. -/
  compare_toList : ∀ a b : Score k, (compare a b = .lt ↔ a.toList < b.toList) ∧
    (compare a b = .eq ↔ a.toList = b.toList) ∧ (compare a b = .gt ↔ b.toList < a.toList)
  /-- The scores of level numbers are those that have them. -/
  ofList_eq : ∀ (ns : List Int) (a : Score k), ofList k ns = .ok a ↔ a.toList = ns
  /-- As many numbers in bounds as there are levels have a score. -/
  exists_ofList : ∀ ns : List Int, (∃ a, ofList k ns = .ok a) ↔ ns.length = k.size ∧ ∀ n ∈ ns, InBounds n

/-- A multiple of a sum is the sum of the multiples, or overflows as that does. -/
theorem scale_eq_add (hs : a.add b = .ok s) (hx : a.scale f = .ok x) (hy : b.scale f = .ok y) :
    s.scale f = x.add y := by
  refine ofNumbers_congr fun i => ?_
  have hvector : ∀ {c z : Score k}, c.scale f = .ok z → z.vector i = c.vector i * f := fun hz => by
    rw [← getD_scale, ← congrFun (ofNumbers_eq_ok_iff_vector.1 hz) i]
  rw [getD_scale, getD_add, hvector hx, hvector hy, ← Int.add_mul, vector_of_add hs]
  rfl

/-- Scores of every kind are an ordered group. -/
theorem orderedGroup (k : ScoreKind) : OrderedGroup k where
  exists_add a b := by simp only [add, exists_ofNumbers_iff, getD_add]
  exists_neg a := by simp only [neg, exists_ofNumbers_iff, getD_neg]
  exists_scale a f := by simp only [scale, exists_ofNumbers_iff, getD_scale]
  add_comm a b := ofNumbers_congr fun i => by rw [getD_add, getD_add, Int.add_comm]
  add_assoc a b c s t hs ht := ofNumbers_congr fun i => by
    rw [getD_add, getD_add, vector_of_add hs, vector_of_add ht]
    exact Int.add_assoc _ _ _
  add_zero a := by rw [add_eq_ok_iff_lex, lex_zero, add_zero]
  add_neg a s hs := by rw [add_eq_ok_iff_lex, neg_eq_ok_iff_lex.1 hs, lex_zero, add_neg_cancel]
  sub_eq a b s := sub_eq_ok_iff_add
  le_total a b := by simpa only [le_iff_lex] using le_total a.lex b.lex
  le_antisymm a b hab hba := lex_inj.1 (le_antisymm (le_iff_lex.1 hab) (le_iff_lex.1 hba))
  le_trans a b c hab hbc := le_iff_lex.2 (le_trans (le_iff_lex.1 hab) (le_iff_lex.1 hbc))
  add_le_add a b c x y hle hx hy := by
    rw [le_iff_lex, add_eq_ok_iff_lex.1 hx, add_eq_ok_iff_lex.1 hy]
    exact add_le_add_left (le_iff_lex.1 hle) c.lex
  neg_le_neg a b x y hle hx hy := by
    rw [le_iff_lex, neg_eq_ok_iff_lex.1 hx, neg_eq_ok_iff_lex.1 hy]
    exact neg_le_neg_iff.2 (le_iff_lex.1 hle)
  scale_lt_scale a b x y f hf hx hy := by
    rw [lt_iff_lex, lt_iff_lex, scale_eq_ok_iff_lex.1 hx, scale_eq_ok_iff_lex.1 hy]
    exact zsmul_lt_zsmul_iff_right hf
  scale_lt_scale_of_neg a b x y f hf hx hy := by
    rw [lt_iff_lex, lt_iff_lex, scale_eq_ok_iff_lex.1 hx, scale_eq_ok_iff_lex.1 hy, ← neg_lt_neg_iff, ← neg_zsmul,
      ← neg_zsmul]
    exact zsmul_lt_zsmul_iff_right (Int.neg_pos_of_neg hf)
  add_scale a b s x y f hs hx hy := scale_eq_add hs hx hy
  compare_toList a b := by
    refine ⟨lt_iff_toList, compare_eq_eq_iff.trans toList_inj.symm, ?_⟩
    rw [← lt_iff_toList]
    exact Std.OrientedCmp.gt_iff_lt
  ofList_eq ns a := ofList_eq_ok_iff
  exists_ofList ns := by simp only [ofList_eq_ok_iff, exists_toList_eq_iff]

end Planning.Score
