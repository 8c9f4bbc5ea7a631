import Mathlib.Algebra.BigOperators.Group.List.Basic
import Mathlib.Algebra.BigOperators.Group.Multiset.Basic
import Mathlib.Algebra.GroupWithZero.Action.Pi
import Mathlib.Algebra.Module.BigOperators
import Mathlib.Data.List.ProdSigma
import Planning.Constraint.Stream
import Planning.Proofs.Constraint.Set

/-!
# What constraints are worth

What a constraint is worth in a solution is read off the meaning of its graph: each tuple counts as often as the
weigher says. The total of a constraint that is in step with a solution is what it is worth there, so that a score
kept up by events can be compared with one that is calculated from the solution in some other way. Where unique
pairs are weighed the count is a sum over the pairs of members in their order.
-/

namespace Planning

open Checked

namespace Score

variable {k : ScoreKind}

/-- A multiple in bounds is the multiple of the vector. -/
theorem vector_of_scale {a c : Score k} {n : Int} (h : a.scale n = .ok c) : c.vector = n • a.vector := by
  funext i
  rw [vector, scale_eq_ok_iff.1 h, ← zero_mul n, List.getD_map, mul_comm]
  rfl

/-- The score of level numbers has these. -/
theorem vector_of_ofList {ns : List Int} {a : Score k} (h : ofList k ns = .ok a) :
    a.vector = fun i => ns.getD i 0 := by
  funext i
  rw [vector, ofList_eq_ok_iff.1 h]

/-- The score that is one at a level. -/
theorem vector_unit {i : Nat} (hi : i < k.size) : (unit i : Score k).vector = Pi.single i 1 := by
  funext j
  rw [vector, toList, unit, List.map_set, List.map_replicate, Pi.single_apply]
  by_cases hj : j < k.size
  · rw [List.getD_eq_getElem _ _ (by simpa using hj), List.getElem_set]
    simp only [List.getElem_replicate, eq_comm (a := i)]
    rfl
  · rw [List.getD_eq_default _ _ (by simpa using hj), if_neg (by omega)]

end Score

section Pairs

variable {α : Type}

/-- The sum over the pairs of members of a list, in their order. -/
def pairSum (f : α → α → Int) : List α → Int
  | [] => 0
  | a :: l => (l.map (f a)).sum + pairSum f l

@[simp] theorem pairSum_nil (f : α → α → Int) : pairSum f [] = 0 := rfl

@[simp] theorem pairSum_cons (f : α → α → Int) (a : α) (l : List α) :
    pairSum f (a :: l) = (l.map (f a)).sum + pairSum f l := rfl

theorem pairSum_map {β : Type} (g : β → α) (f : α → α → Int) (l : List β) :
    pairSum f (l.map g) = pairSum (fun a b => f (g a) (g b)) l := by
  induction l with
  | nil => rfl
  | cons a l ih => simp [ih, Function.comp_def]

theorem pairSum_congr {f g : α → α → Int} {l : List α} (h : l.Pairwise fun a b => f a b = g a b) :
    pairSum f l = pairSum g l := by
  induction l with
  | nil => rfl
  | cons a l ih =>
    obtain ⟨ha, hl⟩ := List.pairwise_cons.1 h
    rw [pairSum_cons, pairSum_cons, ih hl, List.map_congr_left ha]

theorem pairSum_add (f g : α → α → Int) (l : List α) :
    pairSum (fun a b => f a b + g a b) l = pairSum f l + pairSum g l := by
  induction l with
  | nil => rfl
  | cons a l ih =>
    rw [pairSum_cons, pairSum_cons, pairSum_cons, ih, List.sum_map_add]
    omega

end Pairs

section Sums

variable {α β : Type}

/-- What is left out counts for nothing. -/
theorem sum_map_filterMap (g : α → Option β) (w : β → Int) (l : List α) :
    ((l.filterMap g).map w).sum = (l.map fun a => ((g a).map w).getD 0).sum := by
  induction l with
  | nil => rfl
  | cons a l ih =>
    rw [List.map_cons, List.sum_cons, ← ih]
    cases hg : g a with
    | none => simp [List.filterMap_cons_none hg]
    | some b => simp [List.filterMap_cons_some hg]

/-- A filter that drops only what counts for nothing does not change a sum. -/
theorem sum_map_filter {P : α → Bool} {g : α → Int} {l : List α} (h : ∀ a ∈ l, P a = false → g a = 0) :
    ((l.filter P).map g).sum = (l.map g).sum := by
  induction l with
  | nil => rfl
  | cons a l ih =>
    obtain ⟨ha, hl⟩ := List.forall_mem_cons.1 h
    rw [List.map_cons, List.sum_cons, ← ih hl]
    cases hP : P a with
    | false => rw [List.filter_cons_of_neg (by simp [hP]), ha hP, zero_add]
    | true => rw [List.filter_cons_of_pos hP, List.map_cons, List.sum_cons]

theorem sum_map_product (l : List α) (m : List β) (h : α × β → Int) :
    ((l ×ˢ m).map h).sum = (l.map fun a => (m.map fun b => h (a, b)).sum).sum := by
  induction l with
  | nil => rfl
  | cons a l ih =>
    rw [List.product_cons, List.map_append, List.sum_append, ih, List.map_cons, List.sum_cons, List.map_map]
    rfl

/-- A sum over a list is one over its places. -/
theorem sum_map_range (g : α → Int) (l : List α) :
    ((List.range l.length).map fun i => (l[i]?.map g).getD 0).sum = (l.map g).sum := by
  induction l with
  | nil => rfl
  | cons a l ih =>
    rw [List.length_cons, List.range_succ_eq_map, List.map_cons, List.sum_cons, List.map_map, List.map_cons,
      List.sum_cons, ← ih]
    rfl

/-- A sum in which one place counts is what that place counts for. -/
theorem sum_map_eq_of_place {g : α → Int} {l : List α} {i : Nat} (h : ∀ j a, l[j]? = some a → j ≠ i → g a = 0) :
    (l.map g).sum = (l[i]?.map g).getD 0 := by
  induction l generalizing i with
  | nil => rfl
  | cons a l ih =>
    rw [List.map_cons, List.sum_cons]
    cases i with
    | zero =>
      have hrest : (l.map g).sum = (l[l.length]?.map g).getD 0 :=
        ih fun j b hb _ => h (j + 1) b hb (Nat.succ_ne_zero j)
      rw [hrest, List.getElem?_eq_none le_rfl]
      exact add_zero _
    | succ i =>
      rw [h 0 a rfl (Nat.succ_ne_zero i).symm, zero_add]
      exact ih fun j b hb hj => h (j + 1) b hb fun heq => hj (Nat.succ.inj heq)

/-- Tuples whose keys must be equal match when they are, for keys that are always there. -/
theorem Joiner.matching_keys_iff (left right : Value → Value) (a b : Value) :
    (keys .equal (fun v => .ok (left v)) fun v => .ok (right v)).matching a b = .ok true ↔ left a = right b := by
  change Except.ok (left a == right b) = .ok true ↔ _
  rw [Except.ok.injEq, beq_iff_eq]

/-- What a filter keeps back counts for nothing. -/
theorem Filter.sum_keep (p : Value → Checked Bool) (w : Value → Int) (M : Multiset Value) :
    ((M.filterMap (keep p)).map w).sum = (M.map fun t => if p t = .ok true then w t else 0).sum := by
  induction M using Multiset.induction with
  | empty => rfl
  | cons t M ih =>
    rw [Multiset.map_cons, Multiset.sum_cons, ← ih]
    by_cases ht : p t = .ok true
    · have hkeep : keep p t = some t := if_pos ht
      rw [if_pos ht, Multiset.filterMap_cons_some _ _ _ hkeep, Multiset.map_cons, Multiset.sum_cons]
    · have hkeep : keep p t = none := if_neg ht
      rw [if_neg ht, Multiset.filterMap_cons_none _ _ hkeep, zero_add]

namespace JoinRule

variable {rule : JoinRule}

/-- A sum over joined tuples is one over the members of both sides. -/
theorem sum_bag (w : Value → Int) (l m : List Value) :
    ((rule.bag l m).map w).sum = (l.map fun a => (m.map fun b => ((rule.meets a b).map w).getD 0).sum).sum := by
  simp only [bag, Multiset.filterMap_coe, Multiset.coe_bind, Multiset.map_coe, Multiset.sum_coe]
  induction l with
  | nil => rfl
  | cons a l ih =>
    rw [List.flatMap_cons, List.map_append, List.sum_append, ih, sum_map_filterMap, List.map_cons, List.sum_cons]

/-- A sum over unique pairs of members of a class is one over the pairs of its members in their order. -/
theorem sum_rowBag (hu : rule.uniquePairs = true) (w : Value → Int) (l : List Value) :
    ((rule.rowBag (l.map some) (l.map some)).map w).sum =
      pairSum (fun a b => ((rule.meets a b).map w).getD 0) l := by
  simp only [rowBag, Multiset.map_coe, Multiset.sum_coe, sum_map_filterMap, sum_map_product, List.length_map]
  induction l with
  | nil => rfl
  | cons a l ih =>
    -- The first member is paired with those behind it, and these among themselves as before.
    have hfirst : ∀ j, rule.pair (Row.at ((a :: l).map some)) (Row.at ((a :: l).map some)) (0, j + 1) =
        l[j]?.bind (rule.meets a) := by
      intro j
      cases hj : l[j]? <;> simp [pair, Row.at, meets, hj]
    have hself : ∀ i, rule.pair (Row.at ((a :: l).map some)) (Row.at ((a :: l).map some)) (i, 0) = none := by
      intro i
      unfold pair
      split
      · rw [if_neg fun h => Nat.not_lt_zero _ (h.1 hu)]
      · rfl
    have hrest : ∀ i j, rule.pair (Row.at ((a :: l).map some)) (Row.at ((a :: l).map some)) (i + 1, j + 1) =
        rule.pair (Row.at (l.map some)) (Row.at (l.map some)) (i, j) := by
      intro i j
      simp only [pair, Row.at, List.map_cons, List.getElem?_cons_succ, Nat.add_lt_add_iff_right]
    generalize Row.at ((a :: l).map some) = T at hfirst hself hrest ⊢
    have hnone : ∀ i : Nat, ((rule.pair T T (i, 0)).map w).getD 0 = 0 := fun i => by rw [hself]; rfl
    rw [List.length_cons, List.range_succ_eq_map, pairSum_cons, ← ih,
      ← sum_map_range (fun b => ((rule.meets a b).map w).getD 0) l]
    simp only [List.map_cons, List.sum_cons, List.map_map, hnone, zero_add, Function.comp_def, Nat.succ_eq_add_one,
      hfirst, hrest]
    refine congrArg₂ _ (congrArg List.sum (List.map_congr_left fun j _ => ?_)) rfl
    cases l[j]? <;> rfl

end JoinRule

end Sums

variable {S : Type} {k : ScoreKind}

namespace Node

/-- The keys of the tuples that joins read are defined. -/
def HasKeys : Node S → S → Prop
  | source _ _, _ => True
  | filter up _ _, s => up.HasKeys s
  | map up _, s => up.HasKeys s
  | flatten up _ _, s => up.HasKeys s
  | join left right rule _, s =>
    (left.HasKeys s ∧ ∀ a ∈ (left.meaning s).bag, ∃ key, rule.joiner.leftKey a = .ok key) ∧
      right.HasKeys s ∧ ∀ b ∈ (right.meaning s).bag, ∃ key, rule.joiner.rightKey b = .ok key
  | .exists left right _ _, s => left.HasKeys s ∧ right.HasKeys s
  | group up _ _, s => up.HasKeys s
  | complement up elements _ _, s => up.HasKeys s ∧ elements.HasKeys s

/-- Whether keys are defined does not depend on states. -/
theorem hasKeys_reset (n : Node S) (s : S) : n.reset.HasKeys s ↔ n.HasKeys s := by
  induction n <;>
    simp_all [Node.reset, HasKeys, meaning_reset, ofFilter, ofFlatten, ofJoin, ofExists, ofGroup, ofComplement]

/-- The keys of the live tuples that joins read are defined. -/
theorem InStep.hasKeys {n : Node S} {V : View S} {T : Tuples} (h : n.InStep V T) (hf : n.OrderFree) {s : S}
    (hV : ∀ c members, n.Reads c members → V c members = View.of s c members) : n.HasKeys s := by
  induction n generalizing T with
  | source c members => trivial
  | filter up p passing ih =>
    obtain ⟨U, hup, -⟩ := h
    exact ih hup hf hV
  | map up f ih =>
    obtain ⟨U, hup, -⟩ := h
    exact ih hup hf hV
  | flatten up expand state ih =>
    obtain ⟨U, hup, -⟩ := h
    exact ih hup hf hV
  | join left right rule state ihl ihr =>
    obtain ⟨L, R, hl, hr, h⟩ := h
    obtain ⟨hlf, hrf, -⟩ := hf
    have hlV : ∀ c members, left.Reads c members → V c members = View.of s c members :=
      fun c members hm => hV c members (.inl hm)
    have hrV : ∀ c members, right.Reads c members → V c members = View.of s c members :=
      fun c members hm => hV c members (.inr hm)
    refine ⟨⟨ihl hl hlf hlV, fun a ha => ?_⟩, ihr hr hrf hrV, fun b hb => ?_⟩
    · obtain ⟨i, hi⟩ := (hl.bag hlf hlV).1.mem_iff.1 ha
      obtain ⟨key, -, hkey⟩ := h.left.kept_of_live hi
      exact ⟨key, hkey⟩
    · obtain ⟨i, hi⟩ := (hr.bag hrf hrV).1.mem_iff.1 hb
      obtain ⟨key, -, hkey⟩ := h.right.kept_of_live hi
      exact ⟨key, hkey⟩
  | «exists» left right rule state ihl ihr =>
    obtain ⟨L, R, hl, hr, -⟩ := h
    exact ⟨ihl hl hf.1 fun c members hm => hV c members (.inl hm),
      ihr hr hf.2 fun c members hm => hV c members (.inr hm)⟩
  | group up rule state ih =>
    obtain ⟨U, hup, -⟩ := h
    exact ih hup hf.1 hV
  | complement up elements rule state ihu ihe =>
    obtain ⟨U, E, hup, hel, -⟩ := h
    exact ⟨ihu hup hf.1 fun c members hm => hV c members (.inl hm),
      ihe hel hf.2 fun c members hm => hV c members (.inr hm)⟩

end Node

namespace Constraint

variable {c : Constraint S k} {V : View S} {s : S}

/-- How often the tuples that a graph means in a solution count. -/
noncomputable def count (c : Constraint S k) (s : S) : Int :=
  ((c.node.meaning s).bag.map fun t => (c.weigher t).toOption.getD 0).sum

/-- What a constraint is worth in a solution. -/
noncomputable def worth (c : Constraint S k) (s : S) : Nat → Int := (c.impact.sign * c.count s) • c.weight.vector

theorem worth_reset (c : Constraint S k) (s : S) : c.reset.worth s = c.worth s := by
  simp only [worth, count, Constraint.reset, Node.meaning_reset]

/-- A constraint that penalizes at one level costs there as often as its tuples count. -/
theorem worth_of_penalty (himpact : c.impact = .penalty) {i : Nat} (hi : i < k.size) (hweight : c.weight = .unit i) :
    c.worth s = Pi.single i (-c.count s) := by
  rw [worth, himpact, hweight, Score.vector_unit hi, ← Pi.single_smul', smul_eq_mul, mul_one, Impact.sign, neg_one_mul]

/-- A tuple with an impact has a weight, by which the weight of the constraint counts. -/
theorem exists_of_impactOf {t : Value} {a : Score k} (h : c.impactOf t = .ok a) :
    ∃ n, c.weigher t = .ok n ∧ a.vector = (c.impact.sign * n) • c.weight.vector := by
  obtain ⟨n, hn, h⟩ := bind_eq_ok_iff.1 h
  obtain ⟨m, hm, h⟩ := bind_eq_ok_iff.1 h
  obtain ⟨-, rfl⟩ := bounded_eq_ok_iff.1 hm
  exact ⟨n, hn, Score.vector_of_scale h⟩

/-- An impact is the weight as often as its tuple counts. -/
theorem vector_of_impactOf {t : Value} {a : Score k} (h : c.impactOf t = .ok a) :
    a.vector = (c.impact.sign * (c.weigher t).toOption.getD 0) • c.weight.vector := by
  obtain ⟨n, hn, ha⟩ := exists_of_impactOf h
  rw [ha, hn]
  rfl

/-- The total of a constraint in step with a solution is what the constraint is worth there. -/
theorem InStep.total_eq_worth (h : c.InStep V) (hf : c.node.OrderFree)
    (hV : ∀ cl members, c.node.Reads cl members → V cl members = View.of s cl members) :
    c.total.vector = c.worth s := by
  have htotal := h.total_eq
  obtain ⟨T, hin, hw⟩ := h
  have himpact : ∀ e ∈ c.live, e.2.impact.vector =
      (c.impact.sign * (c.weigher e.2.tuple).toOption.getD 0) • c.weight.vector := fun e he =>
    vector_of_impactOf (hw.impact e.1 e.2 (hw.unique.get?_eq_some_iff.2 he))
  rw [htotal, worth, count, (hin.bag hf hV).1.unique hw.bag, Multiset.map_coe, Multiset.sum_coe, List.map_map,
    List.map_map, mul_smul, List.sum_smul, List.smul_sum, List.map_map, List.map_map]
  refine congrArg List.sum (List.map_congr_left fun e he => ?_)
  rw [Function.comp_apply, himpact e he, mul_smul]
  rfl

end Constraint

namespace ConstraintSet

variable {cs : ConstraintSet S k} {V : View S} {s : S}

/-- What constraints are worth in a solution. -/
noncomputable def worth (cs : ConstraintSet S k) (s : S) : Nat → Int := (cs.map fun c => c.worth s).sum

theorem worth_reset (cs : ConstraintSet S k) (s : S) : worth cs.reset s = worth cs s := by
  simp only [worth, ConstraintSet.reset, List.map_map, Function.comp_def, Constraint.worth_reset]

/-- The total of constraints in step with a solution is what they are worth there, and the keys of their joins are
defined. -/
theorem InStep.total_eq_worth (h : cs.InStep V) (hcs : cs.Sound)
    (hV : ∀ cl members, cs.Reads cl members → V cl members = View.of s cl members) :
    cs.total = worth cs s ∧ ∀ c ∈ cs, c.node.HasKeys s := by
  have hread : ∀ c ∈ cs, ∀ cl members, c.node.Reads cl members → V cl members = View.of s cl members :=
    fun c hc cl members hr => hV cl members ⟨c, hc, hr⟩
  refine ⟨congrArg List.sum (List.map_congr_left fun c hc => ?_), fun c hc => ?_⟩
  · exact (h c hc).total_eq_worth (hcs c hc).2 (hread c hc)
  · obtain ⟨T, hin, -⟩ := h c hc
    exact hin.hasKeys (hcs c hc).2 (hread c hc)

end ConstraintSet

namespace Stream

variable (cl : SourceClass) (members : S → List Value) (p : Value → Checked Bool) (w : Value → Int) (s : S)

/-- A sum over the members of a class that pass a filter. -/
theorem sum_forEach : ((((forEach cl members).filter p).node.meaning s).bag.map w).sum =
    ((members s).map fun t => if p t = .ok true then w t else 0).sum := by
  simp only [Stream.filter, forEach, Node.ofFilter, Node.meaning, Filter.sum_keep, Multiset.map_coe,
    Multiset.sum_coe]

/-- A sum over the unique pairs of members of a class that pass a filter. -/
theorem sum_forEachUniquePair (joiner : Joiner) :
    ((((forEachUniquePair cl members joiner).filter p).node.meaning s).bag.map w).sum =
      pairSum (fun a b => if joiner.matching a b = .ok true ∧ p (.pair a b) = .ok true then w (.pair a b) else 0)
        (members s) := by
  simp only [Stream.filter, forEachUniquePair, Node.ofFilter, Node.ofJoin, Node.meaning, if_true, Filter.sum_keep]
  rw [JoinRule.sum_rowBag rfl]
  congr 1
  funext a b
  by_cases hm : joiner.matching a b = .ok true <;> simp [JoinRule.meets, hm]

/-- A sum over the tuples of a stream with the members of a class that pass a filter. -/
theorem sum_join (x : Stream S) (joiner : Joiner) {l : List Value} (hx : (x.node.meaning s).bag = l) :
    ((((x.join (.source cl members) joiner).filter p).node.meaning s).bag.map w).sum =
      (l.map fun a => ((members s).map fun b =>
        let t := if x.width ≤ 1 then Value.pair a b else append a b
        if joiner.matching a b = .ok true ∧ p t = .ok true then w t else 0).sum).sum := by
  simp only [Stream.filter, Stream.join, Node.ofFilter, Node.ofJoin, Node.meaning, Filter.sum_keep, hx,
    Bool.false_eq_true, if_false]
  rw [JoinRule.sum_bag]
  congr 2
  funext a
  congr 2
  funext b
  by_cases hm : joiner.matching a b = .ok true
  · by_cases hwidth : x.width ≤ 1 <;> simp [JoinRule.meets, hm, hwidth]
  · simp [JoinRule.meets, hm]

end Stream

end Planning
