import Mathlib.Algebra.BigOperators.Group.Finset.Basic
import Mathlib.Data.List.InsertIdx
import Planning.Proofs.Phase.Greedy

/-!
# What an insertion makes of lists

Each element that is in no list has its turn once, in the order of the range. It goes to the first of the positions with
the best score, over all positions of all lists that may be changed, where the score of a position is that of the
solution of the moment with the element at the position. What was in a list stays there in its order, and in the end
each element of the range is in exactly one list.
-/

namespace Planning

open Checked RunState Running

variable {S T : Type} {k : ScoreKind} {D : Director S k → Prop} {F : S → Score k} {B L : Type} {V : B → Type}
variable {W : L → Type} {g : Genuine S V W} {facts : S → T} {shadows : ShadowCascade S} {l : L} {v : W l}

namespace Content

variable {c c' : Content V W} {p : Nat × Nat} {vs : List (W l)} {pinned : Nat → Bool}

/-- What genuine variables hold once an element is put before a position of a list. -/
def insert [DecidableEq L] (c : Content V W) (l : L) (v : W l) (p : Nat × Nat) : Content V W :=
  c.setList l p.1 ((c.lists l p.1).insertIdx p.2 v)

/-- The elements of all lists of a variable, with their multiplicities. -/
def elements (c : Content V W) (l : L) : Multiset (W l) :=
  ∑ e ∈ Finset.range (c.listCount l), (c.lists l e : Multiset (W l))

/-- The lists of a variable grew by some elements: what was in a list is there in its order, lists that may not be
changed are as they were, and so is everything else that genuine variables hold. -/
structure Grows (c c' : Content V W) (l : L) (pinned : Nat → Bool) (vs : List (W l)) : Prop where
  /-- What was in a list is there in its order. -/
  kept : ∀ e, (c.lists l e).Sublist (c'.lists l e)
  /-- Lists that may not be changed are as they were. -/
  pinned : ∀ e, pinned e = true → c'.lists l e = c.lists l e
  /-- The elements are in the lists besides those that were there. -/
  elements : c'.elements l = c.elements l + vs
  /-- The lists of other variables are the same. -/
  others : ∀ l', l' ≠ l → c'.lists l' = c.lists l'
  /-- The values are the same. -/
  values : c'.values = c.values
  /-- As many entities have lists. -/
  listCount : c'.listCount = c.listCount
  /-- As many entities have values. -/
  valueCount : c'.valueCount = c.valueCount

/-- Lists grow by nothing. -/
theorem Grows.refl (c : Content V W) (l : L) (pinned : Nat → Bool) : c.Grows c l pinned [] :=
  ⟨fun _ => .refl _, fun _ _ => rfl, (add_zero _).symm, fun _ _ => rfl, rfl, rfl, rfl⟩

/-- What grew by some elements and then by others grew by all of them. -/
theorem Grows.append {c'' : Content V W} {ws : List (W l)} (h : c.Grows c' l pinned vs)
    (h' : c'.Grows c'' l pinned ws) : c.Grows c'' l pinned (vs ++ ws) where
  kept e := (h.kept e).trans (h'.kept e)
  pinned e he := (h'.pinned e he).trans (h.pinned e he)
  elements := by rw [h'.elements, h.elements, add_assoc, Multiset.coe_add]
  others l' hl' := (h'.others l' hl').trans (h.others l' hl')
  values := h'.values.trans h.values
  listCount := h'.listCount.trans h.listCount
  valueCount := h'.valueCount.trans h.valueCount

/-- Where all lists together hold no element twice, an element is in one list at most. -/
theorem eq_of_mem_lists (h : (c.elements l).Nodup) {d e : Nat} (hd : d < c.listCount l) (he : e < c.listCount l)
    (hvd : v ∈ c.lists l d) (hve : v ∈ c.lists l e) : d = e := by
  by_contra hne
  rw [elements, ← Finset.add_sum_erase _ _ (Finset.mem_range.2 hd)] at h
  have hrest : v ∈ ∑ i ∈ (Finset.range (c.listCount l)).erase d, (c.lists l i : Multiset (W l)) :=
    Multiset.mem_sum.2 ⟨e, Finset.mem_erase.2 ⟨Ne.symm hne, Finset.mem_range.2 he⟩, hve⟩
  exact Multiset.disjoint_left.1 (Multiset.nodup_add.1 h).2.2 hvd hrest

/-- Where all lists together hold no element twice, an element of them is in exactly one list. -/
theorem existsUnique_of_mem_elements (h : (c.elements l).Nodup) (hv : v ∈ c.elements l) :
    ∃! e, e < c.listCount l ∧ v ∈ c.lists l e := by
  obtain ⟨e, he, hve⟩ := Multiset.mem_sum.1 hv
  exact ⟨e, ⟨Finset.mem_range.1 he, hve⟩, fun d hd => eq_of_mem_lists h hd.1 (Finset.mem_range.1 he) hd.2 hve⟩

variable [DecidableEq L]

/-- The lists of entities once an element is inserted. -/
theorem lists_insert (c : Content V W) (v : W l) (p : Nat × Nat) (e : Nat) :
    (c.insert l v p).lists l e = if e = p.1 then (c.lists l e).insertIdx p.2 v else c.lists l e := by
  split
  · rename_i he
    rw [he]
    exact lists_setList_self ..
  · rename_i he
    exact lists_setList_of_ne _ he _

/-- An element that is inserted comes to the elements. -/
theorem elements_insert (hlt : p.1 < c.listCount l) (hle : p.2 ≤ (c.lists l p.1).length) :
    (c.insert l v p).elements l = c.elements l + {v} := by
  have hthere : ∀ d ∈ Finset.range (c.listCount l), ((c.insert l v p).lists l d : Multiset (W l)) =
      c.lists l d + if d = p.1 then {v} else 0 := by
    intro d _
    rw [lists_insert]
    split
    · rename_i hd
      rw [hd, Multiset.coe_eq_coe.2 (List.perm_insertIdx v _ hle), ← Multiset.cons_coe, add_comm]
      rfl
    · exact (add_zero _).symm
  rw [elements, elements, show (c.insert l v p).listCount l = c.listCount l from rfl, Finset.sum_congr rfl hthere,
    Finset.sum_add_distrib, Finset.sum_ite_eq', if_pos (Finset.mem_range.2 hlt)]

/-- An element that is inserted into a list that may be changed makes the lists grow. -/
theorem grows_insert (hlt : p.1 < c.listCount l) (hpinned : pinned p.1 = false)
    (hle : p.2 ≤ (c.lists l p.1).length) : c.Grows (c.insert l v p) l pinned [v] where
  kept e := by
    rw [lists_insert]
    split
    · exact List.sublist_insertIdx ..
    · exact .refl _
  pinned e he := by
    rw [lists_insert, if_neg]
    rintro rfl
    rw [hpinned] at he
    cases he
  elements := elements_insert hlt hle
  others l' hl' := Function.update_of_ne hl' ..
  values := rfl
  listCount := rfl
  valueCount := rfl

end Content

namespace Insertion

section Positions

variable {U : Type} {x : Insertion S U k} {s : S} {p : Nat × Nat}

/-- All positions of all lists that may be changed, list by list. -/
def positions (x : Insertion S U k) (s : S) : List (Nat × Nat) :=
  ((List.range (x.planned.count s)).filter fun e => !x.planned.isPinned s e).flatMap fun e =>
    (List.range (x.planned.size s e + 1)).map fun i => (e, i)

/-- An element is inserted at the positions. -/
theorem insertions_eq (u : U) : x.insertions s u = (x.positions s).map fun p => .assign u p.1 p.2 := by
  simp only [insertions, positions, List.map_flatMap, List.map_map]
  rfl

/-- A position is one of a list that may be changed, and at most behind its end. -/
theorem mem_positions : p ∈ x.positions s ↔ x.planned.Movable s p.1 ∧ p.2 ≤ x.planned.size s p.1 := by
  simp only [positions, List.mem_flatMap, List.mem_filter, List.mem_range, List.mem_map, Nat.lt_succ_iff,
    Bool.not_eq_true', ListVariable.Movable]
  constructor
  · rintro ⟨e, he, i, hi, rfl⟩
    exact ⟨he, hi⟩
  · rintro ⟨he, hi⟩
    exact ⟨p.1, he, p.2, hi, rfl⟩

/-- Each list that may be changed has a position more than elements. -/
theorem length_positions : (x.positions s).length =
    ∑ e ∈ (Finset.range (x.planned.count s)).filter fun e => !x.planned.isPinned s e, (x.planned.size s e + 1) := by
  have hnodup : ((List.range (x.planned.count s)).filter fun e => !x.planned.isPinned s e).Nodup :=
    List.nodup_range.filter _
  rw [positions, List.length_flatMap, ← List.toFinset_range, ← List.toFinset_filter, List.sum_toFinset _ hnodup]
  simp only [List.length_map, List.length_range]

/-- The elements of a range that are in no list, in the order of the range. -/
def waiting [DecidableEq U] (x : Insertion S U k) (elements : List U) (s : S) : List U :=
  elements.filter fun u => !x.planned.isAssigned s u

/-- The turn of an element, with the working solution before and after it. -/
structure Turn (S U : Type) where
  /-- The element. -/
  element : U
  /-- The working solution before the turn. -/
  before : S
  /-- The working solution after the turn. -/
  after : S

variable [PlanningSolution S k] [PlanningValue U] [DecidableEq U]

/-- The step of an element: whether there is a position for it. -/
def step (x : Insertion S U k) (u : U) : Running S k Bool := do
  Running.stepStarted
  let moves := x.insertions (← get).director.solution u
  Running.stepWithBest (moves.map fun m => m.toMove x.planned)

/-- Elements have their turns in a run, one after another; none comes once the phase has to stop. -/
inductive Turns (x : Insertion S U k) : List (Turn S U) → RunState S k → RunState S k → Prop
  /-- No element has its turn. -/
  | done (r : RunState S k) : Turns x [] r r
  /-- An element has its turn before others. -/
  | next {u r r₁ turns r'} : r.isPhaseTerminated x.termination = false → x.step u r = .ok true r₁ → Turns x turns r₁ r' →
      Turns x (⟨u, r.director.solution, r₁.director.solution⟩ :: turns) r r'

/-- The elements have their steps one after another, as long as there are positions and the phase does not have to
stop. -/
theorem stepAll_cons (u : U) (us : List U) : x.stepAll (u :: us) = (do
    if (← get).isPhaseTerminated x.termination then return ()
    if ← x.step u then x.stepAll us) := by
  simp only [stepAll, step, bind_assoc]

/-- A step asks no run to stop. -/
theorem unstopping_step (u : U) : Unstopping (x.step u) :=
  .bind Unstopping.stepStarted fun _ => .bind .get fun _ => unstopping_stepWithBest _

/-- What nothing stopped before the turns of elements nothing stops after them. -/
theorem Turns.unstopped {turns : List (Turn S U)} {r r' : RunState S k} (h : x.Turns turns r r') (hr : r.Unstopped) :
    r'.Unstopped := by
  induction h with
  | done r => exact hr
  | next _ hstep _ ih => exact ih ((unstopping_step _ _ hr).of_ok hstep).1

end Positions

variable [DecidableEq L] {x : Insertion S (W l) k} {s s' : S} {p : Nat × Nat}

/-- What becomes of a solution when an element has its turn: the element goes to the first of the positions with the
best score, and nothing else changes. -/
def Inserts (x : Insertion S (W l) k) (g : Genuine S V W) (facts : S → T) (D : Director S k → Prop) (F : S → Score k)
    (v : W l) (s s' : S) : Prop :=
  ∃ (rated : List ((Nat × Nat) × Score k)) (best : (Nat × Nat) × Score k), rated.map Prod.fst = x.positions s ∧
    (∀ p ∈ rated, g.ScoreOf facts D F ((g.content s).insert l v p.1) (facts s) p.2) ∧
    FirstBest Prod.snd rated (some best) ∧ g.content s' = (g.content s).insert l v best.1 ∧ facts s' = facts s

/-- An element that is inserted goes to a position. -/
theorem Inserts.exists_position (h : x.Inserts g facts D F v s s') :
    ∃ p ∈ x.positions s, g.content s' = (g.content s).insert l v p ∧ facts s' = facts s := by
  obtain ⟨rated, best, hpositions, -, hfirst, hcontent, hfacts⟩ := h
  refine ⟨best.1, ?_, hcontent, hfacts⟩
  rw [← hpositions]
  exact List.mem_map_of_mem hfirst.mem

variable (hx : x.planned = g.list l)
include hx

/-- An element that is inserted makes the lists grow by it. -/
theorem Inserts.grows (h : x.Inserts g facts D F v s s') :
    (g.content s).Grows (g.content s') l ((g.list l).isPinned s) [v] := by
  obtain ⟨p, hp, hcontent, -⟩ := h.exists_position
  obtain ⟨⟨hlt, hpinned⟩, hle⟩ := mem_positions.1 hp
  rw [hx] at hlt hpinned hle
  rw [hcontent]
  exact Content.grows_insert hlt hpinned hle

/-- An element that is inserted makes one position more. -/
theorem Inserts.length_positions (h : x.Inserts g facts D F v s s')
    (hpinned : (g.list l).isPinned s' = (g.list l).isPinned s) :
    (x.positions s').length = (x.positions s).length + 1 := by
  obtain ⟨p, hp, hcontent, -⟩ := h.exists_position
  obtain ⟨⟨hlt, hmovable⟩, hle⟩ := mem_positions.1 hp
  rw [Insertion.length_positions, Insertion.length_positions]
  rw [hx] at hlt hmovable hle ⊢
  have hcount : (g.list l).count s' = (g.list l).count s := congrArg (fun c => c.listCount l) hcontent
  have hsize : ∀ e, (g.list l).size s' e + 1 = ((g.list l).size s e + 1) + if e = p.1 then 1 else 0 := by
    intro e
    have hlist : (g.list l).list s' e = _ := (congrArg (fun c => c.lists l e) hcontent).trans (Content.lists_insert ..)
    rw [ListVariable.size, hlist]
    split
    · rename_i he
      rw [List.length_insertIdx_of_le_length (he ▸ hle)]
      rfl
    · rfl
  have hmem : p.1 ∈ (Finset.range ((g.list l).count s)).filter fun e => !(g.list l).isPinned s e :=
    Finset.mem_filter.2 ⟨Finset.mem_range.2 hlt, by rw [hmovable]; rfl⟩
  rw [hcount, hpinned, Finset.sum_congr rfl fun e _ => hsize e, Finset.sum_add_distrib, Finset.sum_ite_eq', if_pos hmem]

section Run

variable [PlanningSolution S k] [DecidableEq B] [∀ b, PlanningValue (V b)] [∀ b, DecidableEq (V b)]
variable [∀ l, PlanningValue (W l)] [∀ l, DecidableEq (W l)] {r : RunState S k} {vs : List (W l)}

omit [PlanningSolution S k] in
/-- An element of the range that is in no list can be put at each of the positions. -/
theorem leadsTo_assign (hg : g.Lawful) (hp : p ∈ x.positions s)
    (hcontains : (g.list l).range.contains s p.1 v = true) (hnew : (g.list l).isAssigned s v = false) :
    g.LeadsTo s ((ListMove.assign v p.1 p.2).toMove (g.list l)) ((g.content s).insert l v p) := by
  obtain ⟨hmovable, hle⟩ := mem_positions.1 hp
  rw [hx] at hmovable hle
  have helement : succeeds ((g.list l).checkElement s p.1 v) = true := by
    rw [ListVariable.checkElement, if_pos hcontains]
    rfl
  have hindex : succeeds ((g.list l).checkIndex s p.1 p.2 1) = true := succeeds_checkIndex.2 (Nat.lt_succ_of_le hle)
  have hchecks : succeeds ((ListMove.assign v p.1 p.2).check (g.list l) s) = true := by
    simp only [ListMove.check, succeeds_bind, succeeds_checkEntity.2 hmovable, helement, hindex, succeeds_unless_pure,
      hnew, Bool.true_and]
    rfl
  obtain ⟨u, hcheck⟩ := exists_of_succeeds hchecks
  obtain ⟨s', hedit, hcontent⟩ := hg.edit_ok (f := fun w => insertAt w p.2 v) hmovable.1 (insertAt_of_le hle v)
  exact ⟨.list l _, _, s', bind_eq_ok_iff.2 ⟨u, hcheck, rfl⟩, hedit, hcontent⟩

variable (hreg : g.Regular facts shadows) (hD : ExhaustiveSearch.Settles g facts shadows D F)
variable (hrecord : ∀ {dir}, D dir → D dir.record)
include hreg hD hrecord

/-- The step of an element of the range that is in no list inserts it, unless there is no position. -/
theorem ends_step (h : r.Abides D) (hcontains : ∀ e < (g.list l).count r.director.solution,
      (g.list l).range.contains r.director.solution e v = true)
    (hnew : (g.list l).isAssigned r.director.solution v = false) :
    Ends (x.step v) r
      (fun made r' => r'.Abides D ∧ (made = false → x.positions r.director.solution = []) ∧
        (made = true → x.Inserts g facts D F v r.director.solution r'.director.solution ∧
          r'.moves = r.moves + (x.positions r.director.solution).length ∧ r'.steps = r.steps + 1))
      fun e _ => g.Excuses D (maxCount < r.moves + (x.positions r.director.solution).length ∨
        maxCount < r.steps + 1) e := by
  simp only [step, stepStarted, ends_bind, ends_get]
  refine .tell fun r₁ hr₁ => ?_
  have habides₁ := h.noted hD.journal hr₁
  have hcounts₁ := hr₁.sameCounts
  rw [← hr₁.solution] at hcontains hnew ⊢
  rw [← hcounts₁.moves, ← hcounts₁.steps, insertions_eq, List.map_map, hx]
  have hleads : ∀ p ∈ x.positions r₁.director.solution,
      g.LeadsTo r₁.director.solution ((ListMove.assign v p.1 p.2).toMove (g.list l))
        ((g.content r₁.director.solution).insert l v p) := by
    intro p hp
    have hlt := (mem_positions.1 hp).1.1
    rw [hx] at hlt
    exact leadsTo_assign hx hreg.lawful hp (hcontains p.1 hlt) hnew
  refine (ends_stepWithBest_rated hreg hD hrecord habides₁ hleads).mono (fun made r₂ hr₂ => ?_) fun _ _ => id
  obtain ⟨habides₂, rated, best, hpositions, hscores, hfirst, rfl, hcontent, hfacts, hcounts⟩ := hr₂
  refine ⟨habides₂, fun hnone => ?_, fun hsome => ⟨?_, hcounts hsome⟩⟩
  · rw [Option.isSome_eq_false_iff, Option.isNone_iff_eq_none] at hnone
    subst hnone
    obtain rfl : rated = [] := hfirst
    exact hpositions.symm
  · obtain ⟨best, rfl⟩ := Option.isSome_iff_exists.1 hsome
    exact ⟨rated, best, hpositions, hscores, hfirst, hcontent, hfacts⟩

/-- Elements of the range that are in no list are inserted one after another, until all of them are or the phase has to
stop, as long as there is a list that may be changed. Lists grow by them, and each inserted element makes one position
more to try for those behind it. -/
theorem ends_stepAll (hpinned : ∀ s t, facts s = facts t → (g.list l).isPinned s = (g.list l).isPinned t)
    (h : r.Abides D) (hcontains : ∀ s, facts s = facts r.director.solution → ∀ e < (g.list l).count s, ∀ v ∈ vs,
      (g.list l).range.contains s e v = true)
    (hopen : ∃ e, (g.list l).Movable r.director.solution e)
    (hnodup : ((g.content r.director.solution).elements l + vs).Nodup) :
    Ends (x.stepAll vs) r
      (fun _ r' => r'.Abides D ∧ ∃ turns rest, vs = turns.map Turn.element ++ rest ∧ x.Turns turns r r' ∧
        (rest ≠ [] → r'.isPhaseTerminated x.termination = true) ∧
        (∀ t ∈ turns, x.Inserts g facts D F t.element t.before t.after) ∧
        (g.content r.director.solution).Grows (g.content r'.director.solution) l
          ((g.list l).isPinned r.director.solution) (turns.map Turn.element) ∧
        facts r'.director.solution = facts r.director.solution)
      fun e _ => g.Excuses D
        (maxCount < r.moves + ∑ j ∈ Finset.range vs.length, ((x.positions r.director.solution).length + j) ∨
          maxCount < r.steps + vs.length) e := by
  induction vs generalizing r with
  | nil => exact ⟨h, [], [], rfl, .done r, fun hnil => absurd rfl hnil, fun _ ht => absurd ht List.not_mem_nil,
      .refl .., rfl⟩
  | cons v vs ih =>
    rw [stepAll_cons]
    simp only [ends_bind, ends_get, ends_ite, ends_pure, Bool.not_eq_true]
    refine ⟨fun hstops => ⟨h, [], v :: vs, rfl, .done r, fun _ => hstops, fun _ ht => absurd ht List.not_mem_nil,
      .refl .., trivial⟩, fun hgoes => ?_⟩
    -- The positions that are tried for the first element, and those for the others, which have one more.
    have htried : ∑ j ∈ Finset.range (v :: vs).length, ((x.positions r.director.solution).length + j) =
        (x.positions r.director.solution).length +
          ∑ j ∈ Finset.range vs.length, ((x.positions r.director.solution).length + 1 + j) := by
      rw [List.length_cons, Finset.sum_range_succ', add_comm]
      exact congrArg₂ _ (add_zero _) (Finset.sum_congr rfl fun j _ => by omega)
    rw [htried, List.length_cons]
    have hnew : (g.list l).isAssigned r.director.solution v = false := by
      rw [← Bool.not_eq_true, ← ListVariable.mem_elements_iff]
      exact fun hv => Multiset.disjoint_left.1 (Multiset.nodup_add.1 hnodup).2.2 hv (List.mem_cons_self)
    refine (ends_step hx hreg hD hrecord h (fun e he => hcontains _ rfl e he v List.mem_cons_self) hnew).eq.mono
      (fun made r₁ hr₁ => ?_) fun _ _ he => he.mono fun hexceeds => by omega
    obtain ⟨⟨habides₁, hnone, hsome⟩, hstep⟩ := hr₁
    refine ⟨fun hmade => ?_, fun hmade => ?_⟩
    · subst hmade
      obtain ⟨hinserts, hmoves₁, hsteps₁⟩ := hsome rfl
      have hgrows₁ := hinserts.grows hx
      obtain ⟨_, -, -, hfacts₁⟩ := hinserts.exists_position
      have hpins₁ := hpinned _ _ hfacts₁
      have hopen₁ : ∃ e, (g.list l).Movable r₁.director.solution e := by
        obtain ⟨e, hlt, hmovable⟩ := hopen
        have hcount : (g.list l).count r₁.director.solution = (g.list l).count r.director.solution :=
          congrFun hgrows₁.listCount l
        exact ⟨e, hcount ▸ hlt, by rw [hpins₁, hmovable]⟩
      have hnodup₁ : ((g.content r₁.director.solution).elements l + vs).Nodup := by
        rw [hgrows₁.elements, add_assoc, Multiset.coe_add]
        exact hnodup
      have hcontains₁ : ∀ s, facts s = facts r₁.director.solution → ∀ e < (g.list l).count s, ∀ v ∈ vs,
          (g.list l).range.contains s e v = true :=
        fun s hs e he u hu => hcontains s (hs.trans hfacts₁) e he u (List.mem_cons_of_mem v hu)
      refine (ih habides₁ hcontains₁ hopen₁ hnodup₁).mono (fun _ r₂ hr₂ => ?_) fun _ _ he => he.mono fun hexceeds => ?_
      · obtain ⟨habides₂, turns, rest, rfl, hturns, hrest, hall, hgrows₂, hfacts₂⟩ := hr₂
        rw [hpins₁] at hgrows₂
        exact ⟨habides₂, ⟨v, r.director.solution, r₁.director.solution⟩ :: turns, rest, rfl, .next hgoes hstep hturns,
          hrest, List.forall_mem_cons.2 ⟨hinserts, hall⟩, hgrows₁.append hgrows₂, hfacts₂.trans hfacts₁⟩
      · rw [hinserts.length_positions hx hpins₁, hmoves₁, hsteps₁] at hexceeds
        omega
    · obtain ⟨e, hmovable⟩ := hopen
      have hfirst : (e, 0) ∈ x.positions r.director.solution := mem_positions.2 ⟨hx ▸ hmovable, Nat.zero_le _⟩
      rw [hnone (by simpa using hmade)] at hfirst
      exact absurd hfirst List.not_mem_nil

end Run

end Insertion

variable [PlanningSolution S k] [DecidableEq B] [DecidableEq L] [∀ b, PlanningValue (V b)] [∀ b, DecidableEq (V b)]
variable [∀ l, PlanningValue (W l)] [∀ l, DecidableEq (W l)]

/-- An insertion puts each element of the range that is in no list into one, in the order of the range: at the first of
the positions with the best score, over all positions of all lists that may be changed, where the score of a position is
that of the solution of the moment with the element there. What was in a list stays there in its order, and nothing else
changes. In a run that is not stopped all elements have their turns, and then each element of the range is in exactly
one list. Where directors can be depended on nothing stops the run but a count that gets too great, which it does not as
long as all positions that are tried and all elements can be counted: there is a position more to try for each element
inserted before. -/
theorem Insertion.run_inserts {x : Insertion S (W l) k} (hx : x.planned = g.list l)
    (hreg : g.Regular facts shadows) (hD : ExhaustiveSearch.Settles g facts shadows D F)
    (hrecord : ∀ {dir}, D dir → D dir.record) (hsafe : g.Dependable D) {r : RunState S k} (h : r.Abides D)
    {elements : List (W l)} (hrange : ∀ s, facts s = facts r.director.solution → ∀ e < (g.list l).count s,
      (g.list l).range.values s e = .ok elements)
    (hdistinct : elements.Nodup)
    (hcontains : ∀ s e vs v, (g.list l).range.values s e = .ok vs → v ∈ vs → (g.list l).range.contains s e v = true)
    (hpinned : ∀ s t, facts s = facts t → (g.list l).isPinned s = (g.list l).isPinned t)
    (hopen : ∃ e, (g.list l).Movable r.director.solution e)
    (hlists : ((g.list l).elements r.director.solution).Nodup) :
    Ends x.run r
      (fun _ r' => ∃ turns rest r₁, x.waiting elements r.director.solution = turns.map Turn.element ++ rest ∧
        x.Turns turns r r₁ ∧ (rest ≠ [] → r₁.isPhaseTerminated x.termination = true) ∧
        (r.Unstopped → x.termination = none → rest = []) ∧
        (∀ t ∈ turns, x.Inserts g facts D F t.element t.before t.after) ∧
        (g.content r.director.solution).Grows (g.content r'.director.solution) l
          ((g.list l).isPinned r.director.solution) (turns.map Turn.element) ∧
        facts r'.director.solution = facts r.director.solution ∧
        ((g.list l).elements r'.director.solution).Nodup ∧
        (rest = [] → ∀ v ∈ elements,
          ∃! e, e < (g.list l).count r'.director.solution ∧ v ∈ (g.list l).list r'.director.solution e))
      fun e _ => e = .faulted .overflow ∧
        (maxCount < r.moves + ∑ j ∈ Finset.range (x.waiting elements r.director.solution).length,
            ((x.positions r.director.solution).length + j) ∨
          maxCount < r.steps + (x.waiting elements r.director.solution).length) := by
  obtain ⟨e₀, hlt₀, hmovable₀⟩ := id hopen
  have hunassigned : x.planned.unassigned r.director.solution = .ok (x.waiting elements r.director.solution) := by
    rw [waiting, hx]
    exact bind_eq_ok_iff.2 ⟨elements, hrange _ rfl 0 (Nat.zero_lt_of_lt hlt₀), rfl⟩
  have hwaiting : ∀ v, v ∈ x.waiting elements r.director.solution ↔
      v ∈ elements ∧ v ∉ (g.list l).elements r.director.solution := by
    intro v
    rw [waiting, hx, List.mem_filter, ListVariable.mem_elements_iff, Bool.not_eq_true', Bool.not_eq_true]
  have hnodup : ((g.content r.director.solution).elements l +
      (x.waiting elements r.director.solution : Multiset (W l))).Nodup :=
    Multiset.nodup_add.2 ⟨hlists, Multiset.coe_nodup.2 (hdistinct.filter _),
      Multiset.disjoint_left.2 fun hv hw => ((hwaiting _).1 hw).2 hv⟩
  have hlisted : ∀ s, facts s = facts r.director.solution → ∀ e < (g.list l).count s,
      ∀ v ∈ x.waiting elements r.director.solution, (g.list l).range.contains s e v = true :=
    fun s hs e he v hv => hcontains s e elements v (hrange s hs e he) ((hwaiting v).1 hv).1
  simp only [run, ends_bind, ends_get, ends_checked, ends_discard, hunassigned]
  refine ⟨fun vs hvs => ?_, fun f hf => by cases hf⟩
  cases hvs
  refine (ends_stepAll hx hreg hD hrecord hpinned h hlisted hopen hnodup).mono (fun _ r₁ hr₁ => ?_)
    fun _ _ he => he.overflow hsafe
  obtain ⟨habides₁, turns, rest, hall, hturns, hrest, hinserts, hgrows, hfacts⟩ := hr₁
  have hlooked := (Quiet.updateBest hreg hD.toPreserves r₁ habides₁).and ends_updateBest_scored
  refine hlooked.mono (fun _ r₂ hr₂ => ?_) fun _ _ he => absurd (hsafe.calculate habides₁.director) he.2
  obtain ⟨⟨-, hlike⟩, -⟩ := hr₂
  rw [← hlike.content] at hgrows
  have helements : (g.list l).elements r₂.director.solution =
      (g.list l).elements r.director.solution + turns.map Turn.element := hgrows.elements
  have hnodup₂ : ((g.list l).elements r₂.director.solution).Nodup := by
    rw [hall, ← Multiset.coe_add, ← add_assoc] at hnodup
    rw [helements]
    exact (Multiset.nodup_add.1 hnodup).1
  refine ⟨turns, rest, r₁, hall, hturns, hrest, fun hr htermination => ?_, hinserts, hgrows, hlike.facts.trans hfacts,
    hnodup₂, fun hdone v hv => ?_⟩
  · by_contra hleft
    have hstops := hrest hleft
    rw [htermination, (hturns.unstopped hr).isPhaseTerminated] at hstops
    cases hstops
  · have hcontent₂ : ((g.content r₂.director.solution).elements l).Nodup := hnodup₂
    refine Content.existsUnique_of_mem_elements hcontent₂ ?_
    change v ∈ (g.list l).elements r₂.director.solution
    rw [helements, Multiset.mem_add]
    rw [hdone, List.append_nil] at hall
    by_cases hassigned : v ∈ (g.list l).elements r.director.solution
    · exact .inl hassigned
    · exact .inr (hall ▸ (hwaiting v).2 ⟨hv, hassigned⟩)

namespace RoutePlan

/-- A vehicle with a visit, a pinned one with a visit, and one without; two visits are on no route. -/
def twoUnserved : RoutePlan where
  vehicles := [⟨0, 5, [0]⟩, ⟨1, 1000, [1]⟩, ⟨2, 5, []⟩]
  visits := (List.range 4).map fun i => { id := i, demand := 1, service := 1, due := 10 }
  travelTimes := []

/-- Routes should be of the same length: the score is the worse the greater the sum of the squares of their lengths. -/
def evenly (p : RoutePlan) : Checked (Score .hardSoft) :=
  .ok ⟨[.zero, .clamp (-sumOf ((List.range p.vehicles.length).map fun i => (p.route i).length ^ 2))], rfl⟩

/-- The insertion of visits into the routes of vehicles that are not pinned. -/
def serving : Insertion RoutePlan Nat .hardSoft where
  planned := { routeVariable with pinned := some isPinned }

/-- A run whose director keeps up the vehicles of visits. -/
def unserved : RunState RoutePlan .hardSoft where
  director :=
    { descriptor := descriptor, solution := twoUnserved, shadows := [vehicleEntry], scoring := .full evenly none }
  generator := .ofSeed 0

/-- A visit that is listed is there. -/
theorem coherent_visits (p : RoutePlan) (e : Nat) (vs : List Nat) (v : Nat)
    (hvs : routeVariable.range.values p e = .ok vs) (hv : v ∈ vs) : routeVariable.range.contains p e v = true := by
  cases hvs
  obtain ⟨i, hi, hget⟩ := List.mem_filterMap.1 hv
  have hget : (if i < p.visits.length then some i else none) = some v := hget
  rw [if_pos (List.mem_range.1 hi)] at hget
  cases hget
  exact decide_eq_true (List.mem_range.1 hi)

/-- As long as the plan is the same but for its routes, there are four visits. -/
theorem values_twoUnserved (p : RoutePlan) (hp : p.fixed = twoUnserved.fixed) (e : Nat) (_ : e < p.vehicles.length) :
    routeVariable.range.values p e = .ok [0, 1, 2, 3] := by
  have hvisits : p.visits.length = twoUnserved.visits.length := by
    have hlength := congrArg (fun p : RoutePlan => p.visits.length) hp
    simpa only [fixed, bare, List.length_map] using hlength
  change (ValueRange.indices fun p : RoutePlan => p.visits.length).values p e = .ok [0, 1, 2, 3]
  simp only [ValueRange.values, ValueRange.indices, hvisits]
  rfl

/-- Plans that are the same but for their routes have the same pinned vehicles. -/
theorem isPinned_eq_of_fixed (p q : RoutePlan) (h : p.fixed = q.fixed) : p.isPinned = q.isPinned := by
  funext i
  rw [← isPinned_fixed, h, isPinned_fixed]

/-- What no move and no listener of vehicles changes governs the moves of routes. -/
theorem regular_vehicles : (routes (some isPinned)).Regular (k := .hardSoft) fixed [vehicleEntry] := by
  refine regular_routes fun e he => ?_
  rw [List.mem_singleton.1 he]
  exact List.mem_cons_self

/-- What the genuine variables hold settles the lengths of routes. -/
theorem settles_evenly : ExhaustiveSearch.Settles (routes (some isPinned)) fixed [vehicleEntry]
    (Director.Full evenly [vehicleEntry]) (scratch evenly) where
  toScores := (routes (some isPinned)).scores_full [vehicleEntry] fun _ _ => rfl
  shadows h := h.shadows
  settled _ _ h := by
    have hroute : RoutePlan.route _ = RoutePlan.route _ := congrArg (fun c => c.lists ()) h.content
    have hcount : List.length (RoutePlan.vehicles _) = List.length _ := congrArg (fun c => c.listCount ()) h.content
    rw [scratch, scratch, evenly, evenly, hroute, hcount]

/-- The director of the run scores in full. -/
theorem abides_unserved : unserved.Abides (Director.Full evenly [vehicleEntry]) := by
  refine ⟨⟨rfl, .inl rfl⟩, fun _ hc => absurd hc List.not_mem_nil, fun c hc => ?_⟩
  obtain ⟨w, hw, -⟩ := hc
  cases hw

/-- The vehicles of visits follow every change, and every plan has a score. -/
theorem dependable_evenly : (routes (some isPinned)).Dependable (Director.Full evenly [vehicleEntry]) := by
  refine Genuine.dependable_full regular_vehicles (fun _ _ => rfl) (fun _ => ⟨_, rfl⟩) fun e he p x => ?_
  obtain rfl := List.mem_singleton.1 he
  obtain ⟨c, i⟩ := x
  match c with
  | 0 => exact ⟨_, rfl⟩
  | 1 => exact ⟨_, rfl⟩
  | _ + 2 => exact ⟨_, rfl⟩

/-- The routes once a run succeeds. -/
def routesOf : EStateM.Result Stop (RunState RoutePlan .hardSoft) Unit → Option (List (List Nat))
  | .ok _ r => some (r.director.solution.vehicles.map Vehicle.visits)
  | .error _ _ => none

/-- A run with routes in the end succeeds. -/
theorem exists_of_routesOf {y : EStateM.Result Stop (RunState RoutePlan .hardSoft) Unit} {rs : List (List Nat)}
    (h : routesOf y = some rs) : ∃ r, y = .ok () r ∧ r.director.solution.vehicles.map Vehicle.visits = rs := by
  cases y with
  | ok u r => exact ⟨r, rfl, Option.some.inj h⟩
  | error e r => cases h

/-- The first of two visits goes to the vehicle without one, and the second to the first position, since all are as
good then. -/
theorem run_inserts_twoUnserved : ∃ r' turns r₁, serving.run unserved = .ok () r' ∧
    r'.director.solution.vehicles.map Vehicle.visits = [[3, 0], [1], [2]] ∧
    serving.Turns turns unserved r₁ ∧ turns.map Insertion.Turn.element = [2, 3] ∧
    (∀ t ∈ turns, serving.Inserts (l := ()) (routes (some isPinned)) fixed (Director.Full evenly [vehicleEntry])
      (scratch evenly) t.element t.before t.after) ∧
    ∀ v ∈ [0, 1, 2, 3], ∃! e, e < r'.director.solution.vehicles.length ∧ v ∈ r'.director.solution.route e := by
  have hroutes : routesOf (serving.run unserved) = some [[3, 0], [1], [2]] := by cbv
  obtain ⟨r', hrun, hroutes⟩ := exists_of_routesOf hroutes
  have hends := Insertion.run_inserts (l := ()) (x := serving) rfl regular_vehicles settles_evenly
    (fun h => ⟨h.shadows, h.scoring⟩) dependable_evenly abides_unserved values_twoUnserved (by decide) coherent_visits
    isPinned_eq_of_fixed ⟨0, by decide, by decide⟩ (by decide)
  obtain ⟨turns, rest, r₁, hall, hturns, -, hunstopped, hinserts, -, -, -, hplaced⟩ := hends.of_ok hrun
  obtain rfl : rest = [] := hunstopped ⟨rfl, rfl, fun _ hw => by cases hw⟩ rfl
  rw [List.append_nil] at hall
  exact ⟨r', turns, r₁, hrun, hroutes, hturns, hall.symm, hinserts, hplaced rfl⟩

end RoutePlan

end Planning
