import Mathlib
import Planning.Phase.Exhaustive
import Planning.Proofs.Score.Order

/-!
# Trees of assignments

An exhaustive search goes through a tree: a path holds the values of the first entities, and below it are the paths
with a value of the next one. The best assignment is found by going through the complete ones in order and keeping the
first that none before reaches. An assignment that the kept one reaches may be left out anywhere, and the score that is
found does not depend on the order.
-/

namespace Planning

/-- What an exhaustive search goes through. -/
structure SearchTree (V : Type) (k : ScoreKind) where
  /-- The number of entities. -/
  depth : Nat
  /-- The values of the next entity when the first ones have those of a path, in their order. -/
  values : List V → List V
  /-- The score of a path. -/
  score : List V → Score k

namespace SearchTree

variable {V : Type} {k : ScoreKind} (t : SearchTree V k)

/-- The paths that give values to a number of further entities, in the order of the values. -/
def extensions : Nat → List V → List (List V)
  | 0, p => [p]
  | n + 1, p => (t.values p).flatMap fun v => extensions n (p ++ [v])

/-- The complete assignments that start with a path. -/
def below (p : List V) : List (List V) := t.extensions (t.depth - p.length) p

/-- The complete assignments in the order of the values. -/
def assignments : List (List V) := t.below []

/-- The number of longer paths that start with a path, up to a number of further entities. -/
def sizeTo : Nat → List V → Nat
  | 0, _ => 0
  | n + 1, p => ((t.values p).map fun v => sizeTo n (p ++ [v]) + 1).sum

/-- The number of longer paths that start with a path. -/
def size (p : List V) : Nat := t.sizeTo (t.depth - p.length) p

/-- Giving a value to a further entity never makes the score better. -/
def Falls : Prop := ∀ p v, p.length < t.depth → v ∈ t.values p → (t.score p).reaches (t.score (p ++ [v])) = true

/-- A complete assignment is the first of the best ones: it beats those before it and reaches those behind it. -/
def First (p : List V) : Prop :=
  ∃ before after, t.assignments = before ++ p :: after ∧
    (∀ q ∈ before, (t.score p).beats (t.score q) = true) ∧ ∀ q ∈ after, (t.score p).reaches (t.score q) = true

variable {t} in
/-- Only one complete assignment is the first of the best ones. -/
theorem First.unique {p q : List V} (hp : t.First p) (hq : t.First q) : p = q := by
  -- An assignment that comes behind one that reaches it does not beat that.
  have hstep : ∀ {a b : List V} {mid l l' : List (List V)}, l = mid ++ b :: l' →
      (∀ c ∈ l, (t.score a).reaches (t.score c) = true) → ¬ (t.score b).beats (t.score a) = true := by
    rintro a b mid l l' rfl hreaches hbeats
    rw [Score.beats_iff, hreaches b (List.mem_append_right _ List.mem_cons_self)] at hbeats
    cases hbeats
  obtain ⟨before, after, h, hbefore, hafter⟩ := hp
  obtain ⟨before', after', h', hbefore', hafter'⟩ := hq
  rcases List.append_eq_append_iff.1 (h.symm.trans h') with ⟨mid, rfl, hmid⟩ | ⟨mid, rfl, hmid⟩
  · cases mid with
    | nil => exact (List.cons.inj hmid).1
    | cons a mid =>
      obtain ⟨rfl, hrest⟩ := List.cons.inj hmid
      exact absurd (hbefore' p (List.mem_append_right _ List.mem_cons_self)) (hstep hrest hafter)
  · cases mid with
    | nil => exact (List.cons.inj hmid).1.symm
    | cons a mid =>
      obtain ⟨rfl, hrest⟩ := List.cons.inj hmid
      exact absurd (hbefore q (List.mem_append_right _ List.mem_cons_self)) (hstep hrest hafter')

section Below

variable {t} {p q : List V}

/-- A complete assignment is all there is below it. -/
theorem below_of_complete (h : p.length = t.depth) : t.below p = [p] := by
  rw [below, h, Nat.sub_self]
  rfl

/-- What is below a path is below the paths with a further value. -/
theorem below_of_lt (h : p.length < t.depth) : t.below p = (t.values p).flatMap fun v => t.below (p ++ [v]) := by
  obtain ⟨n, hn⟩ : ∃ n, t.depth - p.length = n + 1 := ⟨t.depth - p.length - 1, by omega⟩
  have hnext : ∀ v : V, t.depth - (p ++ [v]).length = n := by
    intro v
    rw [List.length_append, List.length_singleton]
    omega
  simp only [below, hn, extensions, hnext]

/-- What is longer than a path has a further value or is longer still. -/
theorem size_of_lt (h : p.length < t.depth) :
    t.size p = ((t.values p).map fun v => t.size (p ++ [v])).sum + (t.values p).length := by
  obtain ⟨n, hn⟩ : ∃ n, t.depth - p.length = n + 1 := ⟨t.depth - p.length - 1, by omega⟩
  have hnext : ∀ v : V, t.depth - (p ++ [v]).length = n := by
    intro v
    rw [List.length_append, List.length_singleton]
    omega
  simp only [size, hn, sizeTo, hnext, List.sum_map_add, List.map_const', List.sum_replicate_nat, Nat.mul_one]

/-- Nothing is longer than a complete assignment. -/
theorem size_of_complete (h : p.length = t.depth) : t.size p = 0 := by
  rw [size, h, Nat.sub_self, sizeTo]

/-- If scores only fall, a path reaches all that is below it. -/
theorem Falls.reaches_below (ht : t.Falls) (h : p.length ≤ t.depth) (hq : q ∈ t.below p) :
    (t.score p).reaches (t.score q) = true := by
  induction hn : t.depth - p.length generalizing p with
  | zero =>
    rw [below_of_complete (by omega), List.mem_singleton] at hq
    rw [hq]
    exact Score.reaches_refl _
  | succ n ih =>
    rw [below_of_lt (by omega), List.mem_flatMap] at hq
    obtain ⟨v, hv, hq⟩ := hq
    have hlength : (p ++ [v]).length = p.length + 1 := by rw [List.length_append, List.length_singleton]
    exact Score.reaches_trans (ht p v (by omega) hv) (ih (by omega) hq (by omega))

end Below

/-- The better of what was kept and a path; the path if nothing was kept. -/
def pick (best : Option (List V)) (p : List V) : Option (List V) :=
  if best.all fun q => (t.score p).beats (t.score q) then some p else best

/-- What is kept of paths one after another. -/
def keep (best : Option (List V)) (ps : List (List V)) : Option (List V) := ps.foldl t.pick best

/-- What was kept reaches a score. -/
def Covers (best : Option (List V)) (score : Score k) : Prop := ∃ q ∈ best, (t.score q).reaches score = true

section Keep

variable {t} {best : Option (List V)} {p q : List V} {ps qs : List (List V)} {score : Score k}

@[simp] theorem keep_nil : t.keep best [] = best := rfl

@[simp] theorem keep_cons : t.keep best (p :: ps) = t.keep (t.pick best p) ps := rfl

theorem keep_append : t.keep best (ps ++ qs) = t.keep (t.keep best ps) qs := List.foldl_append

/-- What is kept reaches what was kept before. -/
theorem Covers.pick (h : t.Covers best score) : t.Covers (t.pick best p) score := by
  obtain ⟨q, rfl, hq⟩ := h
  unfold SearchTree.pick
  split
  · rename_i hbeats
    exact ⟨p, rfl, Score.reaches_trans (Score.reaches_of_beats hbeats) hq⟩
  · exact ⟨q, rfl, hq⟩

theorem Covers.keep (h : t.Covers best score) : t.Covers (t.keep best ps) score := by
  induction ps generalizing best with
  | nil => exact h
  | cons p ps ih => exact ih h.pick

/-- What reaches a score reaches one that this reaches. -/
theorem Covers.mono {score' : Score k} (h : t.Covers best score) (hscore : score.reaches score' = true) :
    t.Covers best score' := by
  obtain ⟨q, hq, hreaches⟩ := h
  exact ⟨q, hq, Score.reaches_trans hreaches hscore⟩

/-- What is kept reaches the path that was looked at last. -/
theorem covers_pick : t.Covers (t.pick best p) (t.score p) := by
  unfold pick
  cases best with
  | none => exact ⟨p, rfl, Score.reaches_refl _⟩
  | some q =>
    dsimp only [Option.all_some]
    split
    · exact ⟨p, rfl, Score.reaches_refl _⟩
    · rename_i hworse
      refine ⟨q, rfl, ?_⟩
      by_contra hless
      exact hworse (Score.beats_iff.2 (by simpa using hless))

/-- What is kept reaches every path that was looked at. -/
theorem covers_keep (h : p ∈ ps) : t.Covers (t.keep best ps) (t.score p) := by
  induction ps generalizing best with
  | nil => cases h
  | cons q ps ih =>
    rcases List.mem_cons.1 h with rfl | h
    · exact covers_pick.keep
    · exact ih h

/-- A path that what was kept reaches changes nothing. -/
theorem pick_of_covers (h : t.Covers best (t.score p)) : t.pick best p = best := by
  obtain ⟨q, rfl, hq⟩ := h
  refine if_neg fun hbeats => ?_
  rw [Option.all_some, Score.beats_iff, hq] at hbeats
  cases hbeats

/-- Paths that what was kept reaches change nothing. -/
theorem keep_of_covers (h : ∀ p ∈ ps, t.Covers best (t.score p)) : t.keep best ps = best := by
  induction ps with
  | nil => rfl
  | cons p ps ih =>
    obtain ⟨hp, hps⟩ := List.forall_mem_cons.1 h
    rw [keep_cons, pick_of_covers hp, ih hps]

/-- Paths that what was kept reaches may be left out anywhere. -/
theorem keep_flatMap_filter {α : Type} {l : List α} {f : α → List (List V)} {isLeft : α → Bool}
    (h : ∀ a ∈ l, isLeft a = false → ∀ p ∈ f a, t.Covers best (t.score p)) :
    t.keep best ((l.filter isLeft).flatMap f) = t.keep best (l.flatMap f) := by
  -- What is kept later on reaches those paths as well.
  suffices ∀ later, (∀ score, t.Covers best score → t.Covers later score) →
      t.keep later ((l.filter isLeft).flatMap f) = t.keep later (l.flatMap f) from this best fun _ => id
  induction l with
  | nil => exact fun _ _ => rfl
  | cons a l ih =>
    intro later hlater
    obtain ⟨ha, hl⟩ := List.forall_mem_cons.1 h
    rw [List.flatMap_cons, keep_append]
    cases hleft : isLeft a with
    | true =>
      rw [List.filter_cons_of_pos hleft, List.flatMap_cons, keep_append]
      exact ih hl _ fun score hscore => (hlater score hscore).keep
    | false =>
      rw [List.filter_cons_of_neg (by simp [hleft]), keep_of_covers fun p hp => hlater _ (ha hleft p hp)]
      exact ih hl _ hlater

/-- What is kept was kept before or is one of the paths. -/
theorem mem_of_keep (h : t.keep best ps = some q) : best = some q ∨ q ∈ ps := by
  induction ps generalizing best with
  | nil => exact .inl h
  | cons p ps ih =>
    rcases ih h with hpick | hmem
    · unfold pick at hpick
      split at hpick
      · cases hpick
        exact .inr List.mem_cons_self
      · exact .inl hpick
    · exact .inr (List.mem_cons_of_mem p hmem)

/-- Something is kept if something was kept or is looked at. -/
theorem keep_eq_none_iff : t.keep best ps = none ↔ best = none ∧ ps = [] := by
  refine ⟨fun h => ⟨?_, ?_⟩, ?_⟩
  · cases best with
    | none => rfl
    | some q =>
      have hcovers : t.Covers (t.keep (some q) ps) (t.score q) := Covers.keep ⟨q, rfl, Score.reaches_refl _⟩
      obtain ⟨q', hq', -⟩ := hcovers
      rw [h] at hq'
      cases hq'
  · rw [List.eq_nil_iff_forall_not_mem]
    intro p hp
    have hcovers : t.Covers (t.keep best ps) (t.score p) := covers_keep hp
    obtain ⟨q', hq', -⟩ := hcovers
    rw [h] at hq'
    cases hq'
  · rintro ⟨rfl, rfl⟩
    rfl

/-- What is kept reaches what the same paths in another order leave. -/
theorem reaches_of_keep (hperm : ps.Perm qs) (hp : t.keep best ps = some p) (hq : t.keep best qs = some q) :
    (t.score p).reaches (t.score q) = true := by
  have hcovers : t.Covers (t.keep best ps) (t.score q) := by
    rcases mem_of_keep hq with hbest | hmem
    · exact Covers.keep ⟨q, hbest, Score.reaches_refl _⟩
    · exact covers_keep (hperm.mem_iff.2 hmem)
  obtain ⟨p', hp', hreaches⟩ := hcovers
  rw [hp] at hp'
  cases hp'
  exact hreaches

/-- The score of what is kept does not depend on the order of the paths. -/
theorem score_keep_of_perm (hperm : ps.Perm qs) : (t.keep best ps).map t.score = (t.keep best qs).map t.score := by
  cases hp : t.keep best ps with
  | none =>
    obtain ⟨rfl, rfl⟩ := keep_eq_none_iff.1 hp
    rw [List.nil_perm.1 hperm]
    rfl
  | some p =>
    cases hq : t.keep best qs with
    | none =>
      obtain ⟨rfl, rfl⟩ := keep_eq_none_iff.1 hq
      rw [List.perm_nil.1 hperm] at hp
      cases hp
    | some q => exact congrArg some (Score.eq_of_reaches (reaches_of_keep hperm hp hq) (reaches_of_keep hperm.symm hq hp))

/-- What is kept of all complete assignments is the first of the best ones. -/
theorem first_of_keep (h : t.keep none t.assignments = some p) : t.First p := by
  unfold First
  generalize t.assignments = ps at h ⊢
  induction ps using List.reverseRecOn generalizing p with
  | nil => cases h
  | append_singleton ps q ih =>
    rw [keep_append] at h
    simp only [keep_cons, keep_nil, pick] at h
    split at h
    · rename_i hbeats
      cases h
      refine ⟨ps, [], rfl, fun a ha => ?_, fun _ ha => absurd ha List.not_mem_nil⟩
      have hcovers : t.Covers (t.keep none ps) (t.score a) := covers_keep ha
      obtain ⟨r, hr, hreaches⟩ := hcovers
      rw [Option.mem_def.1 hr, Option.all_some, Score.beats_iff] at hbeats
      rw [Score.beats_iff]
      by_contra hless
      rw [Bool.not_eq_false] at hless
      rw [Score.reaches_trans hreaches hless] at hbeats
      cases hbeats
    · rename_i hworse
      obtain ⟨before, after, rfl, hbefore, hafter⟩ := ih h
      refine ⟨before, after ++ [q], by rw [List.append_assoc, List.cons_append], hbefore, fun a ha => ?_⟩
      rcases List.mem_append.1 ha with ha | ha
      · exact hafter a ha
      · rw [List.mem_singleton.1 ha]
        rw [h, Option.all_some, Score.beats_iff, Bool.not_eq_false] at hworse
        exact hworse

end Keep

/-- What is kept in some order is as good as what is kept in another; depth first it is the same. -/
structure Agrees (o : Exploration) (a b : Option (List V)) : Prop where
  /-- The scores are the same. -/
  score : a.map t.score = b.map t.score
  /-- Depth first, the paths are the same. -/
  path : o = .depthFirst → a = b

namespace Agrees

variable {t} {o : Exploration} {a b c : Option (List V)}

theorem of_eq (h : a = b) : t.Agrees o a b := ⟨by rw [h], fun _ => h⟩

theorem trans (h : t.Agrees o a b) (h' : t.Agrees o b c) : t.Agrees o a c :=
  ⟨h.score.trans h'.score, fun ho => (h.path ho).trans (h'.path ho)⟩

end Agrees

end SearchTree

namespace SearchNode

variable {V : Type} {k : ScoreKind} {a : SearchNode V k} {l children frontier : List (SearchNode V k)}

/-- A node that is inserted comes before, between or behind the others. -/
theorem perm_insert : (a.insert l).Perm (a :: l) := by
  induction l with
  | nil => exact .refl _
  | cons b l ih =>
    unfold insert
    split
    · exact .refl _
    · exact (ih.cons b).trans (.swap a b l)

/-- The open nodes are the children and those that were open before, in some order. -/
theorem perm_expand (o : Exploration) : (expand o children frontier).Perm (children ++ frontier) := by
  cases o with
  | depthFirst => exact .refl _
  | scoreFirst =>
    unfold expand
    dsimp only
    induction children generalizing frontier with
    | nil => exact .refl _
    | cons a children ih => exact ih.trans ((perm_insert.append_left children).trans List.perm_middle)

end SearchNode

namespace SearchTree

variable {V : Type} {k : ScoreKind} {t : SearchTree V k}

/-- The complete assignments that start with the paths of open nodes. -/
def belowAll (t : SearchTree V k) (frontier : List (SearchNode V k)) : List (List V) :=
  frontier.flatMap fun node => t.below node.path

/-- The number of paths that are longer than those of open nodes. -/
def sizeAll (t : SearchTree V k) (frontier : List (SearchNode V k)) : Nat :=
  (frontier.map fun node => t.size node.path).sum

/-- A node is in the tree. -/
structure Has (t : SearchTree V k) (node : SearchNode V k) : Prop where
  /-- There is an entity for each value. -/
  length : node.path.length ≤ t.depth
  /-- The score is that of the path. -/
  score : node.score = t.score node.path
  /-- What starts with the path is a complete assignment. -/
  below : ∀ q ∈ t.below node.path, q ∈ t.assignments

variable {o : Exploration} {best : Option (List V)} {node : SearchNode V k} {children frontier : List (SearchNode V k)}

@[simp] theorem belowAll_nil : t.belowAll [] = [] := rfl

@[simp] theorem belowAll_cons : t.belowAll (node :: frontier) = t.below node.path ++ t.belowAll frontier := rfl

theorem belowAll_append : t.belowAll (children ++ frontier) = t.belowAll children ++ t.belowAll frontier :=
  List.flatMap_append

@[simp] theorem sizeAll_cons : t.sizeAll (node :: frontier) = t.size node.path + t.sizeAll frontier := by
  rw [sizeAll, List.map_cons, List.sum_cons, sizeAll]

variable {p : List V} {vs : List V}

/-- A node with a further value is in the tree. -/
theorem Has.child (h : t.Has node) (hlt : node.path.length < t.depth) {a : SearchNode V k} {v : V}
    (hv : v ∈ t.values node.path) (hpath : a.path = node.path ++ [v]) (hscore : a.score = t.score a.path) : t.Has a where
  length := by
    rw [hpath, List.length_append, List.length_singleton]
    exact hlt
  score := hscore
  below q hq := by
    refine h.below q ?_
    rw [below_of_lt hlt, List.mem_flatMap]
    exact ⟨v, hv, hpath ▸ hq⟩

/-- A node that is a complete assignment. -/
theorem Has.mem_assignments (h : t.Has node) (hcomplete : node.path.length = t.depth) : node.path ∈ t.assignments := by
  refine h.below _ ?_
  rw [below_of_complete hcomplete]
  exact List.mem_singleton_self _

/-- What is below the paths with further values. -/
theorem belowAll_of_paths (h : children.map SearchNode.path = vs.map fun v => p ++ [v]) :
    t.belowAll children = vs.flatMap fun v => t.below (p ++ [v]) := by
  have hpaths : t.belowAll children = (children.map SearchNode.path).flatMap t.below := by
    rw [belowAll, List.flatMap_map]
  rw [hpaths, h, List.flatMap_map]

/-- What is longer than some of the paths with further values. -/
theorem sizeAll_add_length_le {isLeft : V → Bool} (hp : p.length < t.depth)
    (h : children.map SearchNode.path = ((t.values p).filter isLeft).map fun v => p ++ [v]) :
    t.sizeAll children + (t.values p).length ≤ t.size p := by
  have hsize : t.sizeAll children = (((t.values p).filter isLeft).map fun v => t.size (p ++ [v])).sum := by
    have hpaths : t.sizeAll children = ((children.map SearchNode.path).map t.size).sum := by
      rw [sizeAll, List.map_map]
      rfl
    rw [hpaths, h, List.map_map]
    rfl
  rw [size_of_lt hp, hsize]
  exact Nat.add_le_add_right (((List.filter_sublist (p := isLeft)).map _).sum_le_sum fun _ _ => Nat.zero_le _) _

/-- There are no more children than values. -/
theorem length_children_le {isLeft : V → Bool}
    (h : children.map SearchNode.path = ((t.values p).filter isLeft).map fun v => p ++ [v]) :
    children.length ≤ (t.values p).length := by
  have hlength : children.length = ((t.values p).filter isLeft).length := by
    simpa only [List.length_map] using congrArg List.length h
  rw [hlength]
  exact List.length_filter_le _ _

/-- Where open nodes are put makes no difference to the score, and none at all depth first. -/
theorem agrees_expand : t.Agrees o (t.keep best (t.belowAll (SearchNode.expand o children frontier)))
    (t.keep best (t.belowAll (children ++ frontier))) where
  score := score_keep_of_perm ((SearchNode.perm_expand o).flatMap_right _)
  path h := by
    subst h
    rfl

/-- Where open nodes are put makes no difference to how much is below them. -/
theorem sizeAll_expand : t.sizeAll (SearchNode.expand o children frontier) = t.sizeAll children + t.sizeAll frontier := by
  unfold sizeAll
  rw [((SearchNode.perm_expand o).map _).sum_eq, List.map_append, List.sum_append]

theorem length_expand : (SearchNode.expand o children frontier).length = children.length + frontier.length := by
  rw [(SearchNode.perm_expand o).length_eq, List.length_append]

end SearchTree

end Planning
