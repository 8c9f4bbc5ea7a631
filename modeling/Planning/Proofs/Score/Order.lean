import Mathlib.Algebra.Group.Pi.Basic
import Mathlib.Algebra.Ring.Int.Defs
import Mathlib.Data.List.GetD
import Planning.Proofs.Checked
import Planning.Score.Basic

/-!
# The order of scores

Comparing scores is a total order, and scores that compare as equal are equal. So a score beats another exactly when
the other does not reach it.
-/

namespace Planning.Score

open Checked

variable {k : ScoreKind} {a b c : Score k}

/-- A list of numbers has a score when it has its levels. -/
theorem ofList_eq_ok_iff {ns : List Int} : ofList k ns = .ok a ↔ a.toList = ns := by
  have hlevels : ∀ {ls}, ns.mapM Level.ofInt = .ok ls ↔ ls.map Level.val = ns := by
    intro ls
    simp only [mapM_eq_ok_iff, Level.ofInt_eq_ok_iff]
    rw [← List.forall₂_eq_eq_eq, List.forall₂_map_left_iff]
    exact ⟨List.Forall₂.flip, List.Forall₂.flip⟩
  simp only [ofList]
  constructor
  · intro h
    split at h
    · cases h
    · obtain ⟨levels, hok, h⟩ := bind_eq_ok_iff.1 h
      split at h
      · cases h
        exact hlevels.1 hok
      · cases h
  · rintro rfl
    rw [if_neg (by simp)]
    refine bind_eq_ok_iff.2 ⟨a.levels, hlevels.2 rfl, ?_⟩
    rw [dif_pos a.length_levels]
    rfl

/-- A level is in bounds. -/
theorem inBounds_of_mem {n : Int} (h : n ∈ a.toList) : InBounds n := by
  obtain ⟨level, -, rfl⟩ := List.mem_map.1 h
  exact level.inBounds

/-- Level numbers are compared like words in a dictionary. -/
theorem compareNumbers_eq (as bs : List Int) : compareNumbers as bs = List.compareLex compare as bs := by
  induction as generalizing bs with
  | nil => cases bs <;> rfl
  | cons a as ih =>
    cases bs with
    | nil => rfl
    | cons b bs =>
      rw [compareNumbers, ih, List.compareLex]
      cases compare a b <;> rfl

/-- Scores compare as their level numbers do. -/
theorem compare_eq_compareLex (a b : Score k) : compare a b = List.compareLex compare a.toList b.toList :=
  compareNumbers_eq a.toList b.toList

instance : Std.TransOrd (Score k) where
  eq_swap {a b} := by
    simp only [compare_eq_compareLex]
    exact Std.OrientedCmp.eq_swap
  isLE_trans {a b c} := by
    simp only [compare_eq_compareLex]
    exact Std.TransCmp.isLE_trans

/-- A score is no worse than another when the other is less or the same. -/
theorem reaches_iff_isLE : a.reaches b = true ↔ (compare b a).isLE = true := by
  have hswap : compare a b = (compare b a).swap := Std.OrientedCmp.eq_swap
  rw [reaches, hswap]
  cases compare b a <;> decide

/-- A score is at most another when the other is no worse. -/
theorem le_iff_reaches : a ≤ b ↔ b.reaches a = true := reaches_iff_isLE.symm

/-- A score is better than another exactly when the other does not reach it. -/
theorem beats_iff : a.beats b = true ↔ b.reaches a = false := by
  have hswap : compare a b = (compare b a).swap := Std.OrientedCmp.eq_swap
  rw [reaches, beats, hswap]
  cases compare b a <;> decide

@[simp] theorem reaches_refl (a : Score k) : a.reaches a = true :=
  reaches_iff_isLE.2 Std.ReflCmp.isLE_rfl

/-- A score that reaches one that reaches a third reaches that. -/
theorem reaches_trans (h : a.reaches b = true) (h' : b.reaches c = true) : a.reaches c = true :=
  reaches_iff_isLE.2 (Std.TransCmp.isLE_trans (reaches_iff_isLE.1 h') (reaches_iff_isLE.1 h))

/-- A better score is no worse. -/
theorem reaches_of_beats (h : a.beats b = true) : a.reaches b = true := by
  unfold beats at h
  unfold reaches
  revert h
  cases compare a b <;> decide

/-- A score that beats one that reaches a third beats that. -/
theorem beats_of_beats_of_reaches (h : a.beats b = true) (h' : b.reaches c = true) : a.beats c = true := by
  rw [beats_iff, Bool.eq_false_iff] at h ⊢
  exact fun hc => h (reaches_trans h' hc)

/-- Scores that reach each other are the same. -/
theorem eq_of_reaches (h : a.reaches b = true) (h' : b.reaches a = true) : a = b := by
  have heq := Std.OrientedCmp.isLE_antisymm (reaches_iff_isLE.1 h') (reaches_iff_isLE.1 h)
  rw [compare_eq_compareLex] at heq
  exact toList_inj.1 (Std.LawfulEqCmp.eq_of_compare heq)

end Planning.Score

/-!
## Scores as vectors

A score is determined by its level numbers, and where no number leaves the bounds scores are added and
subtracted like vectors of integers.
-/

namespace Planning.Score

variable {k : ScoreKind}

/-- The level number at an index, zero beyond the last level. -/
def vector (a : Score k) : Nat → Int := fun i => a.toList.getD i 0

/-- Lists of one length are the same when they have the same numbers. -/
theorem eq_of_getD {ns ms : List Int} (hlength : ns.length = ms.length) (h : ∀ i, ns.getD i 0 = ms.getD i 0) :
    ns = ms := by
  refine List.ext_getElem hlength fun i hi hi' => ?_
  rw [← List.getD_eq_getElem ns 0 hi, ← List.getD_eq_getElem ms 0 hi', h]

/-- A score is determined by its level numbers. -/
theorem vector_inj {a b : Score k} : a.vector = b.vector ↔ a = b :=
  ⟨fun h => toList_inj.1 (eq_of_getD (by simp) (congrFun h)), congrArg vector⟩

/-- The score of zeros is zero. -/
@[simp] theorem vector_zero : (zero : Score k).vector = 0 := by
  funext i
  rw [vector, zero, toList, List.map_replicate]
  by_cases hi : i < k.size
  · rw [List.getD_eq_getElem _ _ (by simpa using hi), List.getElem_replicate]
    rfl
  · rw [List.getD_eq_default _ _ (by simpa using hi)]
    rfl

/-- An operation on the numbers at each index that leaves zero as it is. -/
theorem getD_zipWith {f : Int → Int → Int} (hf : f 0 0 = 0) {as bs : List Int}
    (h : as.length = bs.length) (i : Nat) :
    (List.zipWith f as bs).getD i 0 = f (as.getD i 0) (bs.getD i 0) := by
  by_cases hi : i < as.length
  · rw [List.getD_eq_getElem _ _ (by simp [← h, hi]), List.getElem_zipWith,
      List.getD_eq_getElem _ _ hi, List.getD_eq_getElem _ _ (h ▸ hi)]
  · have hge : as.length ≤ i := Nat.le_of_not_lt hi
    rw [List.getD_eq_default _ _ (by simp [← h, hge]), List.getD_eq_default _ _ hge,
      List.getD_eq_default _ _ (h ▸ hge), hf]

/-- A sum in bounds is the sum of the vectors. -/
theorem vector_of_add {a b c : Score k} (h : a.add b = .ok c) : c.vector = a.vector + b.vector := by
  funext i
  rw [vector, add_eq_ok_iff.1 h, getD_zipWith rfl (by simp)]
  rfl

/-- A difference in bounds is the difference of the vectors. -/
theorem vector_of_sub {a b c : Score k} (h : a.sub b = .ok c) : c.vector = a.vector - b.vector := by
  funext i
  rw [vector, sub_eq_ok_iff.1 h, getD_zipWith rfl (by simp)]
  rfl

end Planning.Score

/-!
## The first of the best

Of things with scores the first with the best score beats those in front of it and reaches those behind it.
-/

namespace Planning

/-- The first of some things that has the best score, if there are any. -/
def FirstBest {α : Type} {k : ScoreKind} (score : α → Score k) (l : List α) : Option α → Prop
  | none => l = []
  | some a => ∃ before after, l = before ++ a :: after ∧ (∀ c ∈ before, (score a).beats (score c) = true) ∧
      ∀ c ∈ after, (score a).reaches (score c) = true

namespace FirstBest

variable {α : Type} {k : ScoreKind} {score : α → Score k} {l : List α}

/-- The first of the best is one of them. -/
theorem mem {a : α} (h : FirstBest score l (some a)) : a ∈ l := by
  obtain ⟨before, after, rfl, -, -⟩ := h
  exact List.mem_append_right before List.mem_cons_self

/-- The first of the best reaches all of them. -/
theorem reaches {a c : α} (h : FirstBest score l (some a)) (hc : c ∈ l) : (score a).reaches (score c) = true := by
  obtain ⟨before, after, rfl, hbefore, hafter⟩ := h
  rcases List.mem_append.1 hc with hc | hc
  · exact Score.reaches_of_beats (hbefore c hc)
  · rcases List.mem_cons.1 hc with rfl | hc
    · exact Score.reaches_refl _
    · exact hafter c hc

/-- One more thing is the first of the best if it beats the one that was. -/
theorem concat {best : Option α} (h : FirstBest score l best) (c : α) :
    FirstBest score (l ++ [c]) (if best.all (fun a => (score c).beats (score a)) then some c else best) := by
  cases best with
  | none =>
    obtain rfl : l = [] := h
    exact ⟨[], [], rfl, fun _ hmem => absurd hmem List.not_mem_nil, fun _ hmem => absurd hmem List.not_mem_nil⟩
  | some a =>
    rw [Option.all_some]
    split
    · rename_i hbeats
      refine ⟨l, [], rfl, fun d hd => ?_, fun _ hmem => absurd hmem List.not_mem_nil⟩
      exact Score.beats_of_beats_of_reaches hbeats (h.reaches hd)
    · rename_i hbeats
      have hreaches : (score a).reaches (score c) = true := by
        rwa [Score.beats_iff, Bool.not_eq_false] at hbeats
      obtain ⟨before, after, rfl, hbefore, hafter⟩ := h
      refine ⟨before, after ++ [c], by simp, hbefore, fun d hd => ?_⟩
      rcases List.mem_append.1 hd with hd | hd
      · exact hafter d hd
      · rwa [List.mem_singleton.1 hd]

end FirstBest

end Planning
