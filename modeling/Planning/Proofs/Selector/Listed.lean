import Planning.Proofs.Move.Doable
import Planning.Selector.Basic

/-!
# Listed moves

A selector lists moves of genuine variables that suit the solution: changes to values in range, swaps of entities
that hold different values, and moves of lists. In which order they come does not matter.
-/

namespace Planning

open Checked

/-- Members that are exchanged stay members. -/
theorem Generator.perm_shuffleFrom {α : Type} {position fuel : Nat} {c : Chunk} {xs ys : Array α}
    {gen gen' : Generator} (h : (shuffleFrom position c xs fuel).run gen = .ok (ys, gen')) : ys.Perm xs := by
  induction fuel generalizing position c xs gen with
  | zero =>
    cases h
    exact .refl _
  | succ fuel ih =>
    rw [shuffleFrom, StateT.run_bind] at h
    obtain ⟨⟨⟨i, c'⟩, gen₁⟩, -, h⟩ := bind_eq_ok_iff.1 h
    refine (ih h).trans ?_
    unfold Array.swapIfInBounds
    split
    · split
      · exact Array.swap_perm _ _
      · exact .refl _
    · exact .refl _

/-- Shuffled members are the members. -/
theorem Generator.perm_shuffle {α : Type} {l l' : List α} {gen gen' : Generator}
    (h : (shuffle l).run gen = .ok (l', gen')) : l'.Perm l := by
  unfold shuffle at h
  split at h
  · cases h
    exact .refl _
  · rw [StateT.run_bind] at h
    obtain ⟨⟨ys, gen₁⟩, h₁, h⟩ := bind_eq_ok_iff.1 h
    cases h
    exact (perm_shuffleFrom h₁).toList

/-- Members in some order are the members. -/
theorem SelectionOrder.perm_arrange {α : Type} {o : SelectionOrder} {l l' : List α} {gen gen' : Generator}
    (h : (o.arrange l).run gen = .ok (l', gen')) : l'.Perm l := by
  cases o with
  | asListed =>
    cases h
    exact .refl _
  | random => exact Generator.perm_shuffle h

/-- What is drawn for members one after another is drawn for some member each. -/
theorem Generator.exists_of_mem_mapM {α β : Type} {f : α → Draw β} {l : List α} {l' : List β} {gen gen' : Generator}
    (h : (l.mapM f).run gen = .ok (l', gen')) {b : β} (hb : b ∈ l') :
    ∃ a ∈ l, ∃ gen₁ gen₂, (f a).run gen₁ = .ok (b, gen₂) := by
  induction l generalizing l' gen with
  | nil =>
    cases h
    cases hb
  | cons a l ih =>
    rw [List.mapM_cons, StateT.run_bind] at h
    obtain ⟨⟨c, gen₁⟩, hc, h⟩ := bind_eq_ok_iff.1 h
    rw [StateT.run_bind] at h
    obtain ⟨⟨l'', gen₂⟩, hl, h⟩ := bind_eq_ok_iff.1 h
    cases h
    rcases List.mem_cons.1 hb with rfl | hb
    · exact ⟨a, List.mem_cons_self, gen, gen₁, hc⟩
    · obtain ⟨d, hd, hfd⟩ := ih hl hb
      exact ⟨d, List.mem_cons_of_mem a hd, hfd⟩

variable {S B L : Type} {V : B → Type} {W : L → Type}
variable [∀ b, PlanningValue (V b)] [∀ b, DecidableEq (V b)] [∀ l, PlanningValue (W l)] [∀ l, DecidableEq (W l)]
variable {g : Genuine S V W} {s : S} {m : Move S}

omit [∀ b, PlanningValue (V b)] [∀ l, PlanningValue (W l)] [∀ l, DecidableEq (W l)] in
/-- A swap of a neighborhood is a swap. -/
theorem BasicMove.exists_of_mem_swapsAmong {b : B} {es : List Nat} {x : BasicMove (V b)}
    (h : x ∈ swapsAmong (g.basic b) s es) : ∃ i j, x = .swap i j := by
  induction es with
  | nil => cases h
  | cons e es ih =>
    rcases List.mem_append.1 h with h | h
    · obtain ⟨j, -, rfl⟩ := List.mem_map.1 h
      exact ⟨e, j, rfl⟩
    · exact ih h

namespace Genuine

/-- The selectors of moves of genuine variables. -/
inductive Selects (g : Genuine S V W) : MoveSelector S → Prop where
  /-- Changes of a value. -/
  | change (b : B) (o : SelectionOrder) : g.Selects (.change (g.basic b) o)
  /-- Swaps of values. -/
  | swap (b : B) (o : SelectionOrder) : g.Selects (.swap (g.basic b) o)
  /-- Moves of elements. -/
  | listChange (l : L) (o : SelectionOrder) : g.Selects (.listChange (g.list l) o)
  /-- Swaps of elements. -/
  | listSwap (l : L) (o : SelectionOrder) : g.Selects (.listSwap (g.list l) o)
  /-- Reversals of segments. -/
  | listReverse (l : L) (o : SelectionOrder) : g.Selects (.listReverse (g.list l) o)
  /-- Moves of sublists. -/
  | sublistChange (l : L) (o : SelectionOrder) (minimum maximum : Nat) :
    g.Selects (.sublistChange (g.list l) o minimum maximum)
  /-- The moves of several selectors. -/
  | union {xs : List (MoveSelector S)} (h : ∀ x ∈ xs, g.Selects x) : g.Selects (.union xs)

/-- A move that a selector lists: a change to a value in range, a swap of entities that hold different values, or any
move of a list. -/
inductive Listed (g : Genuine S V W) (s : S) : Move S → Prop where
  /-- A change to a value in range. -/
  | change (b : B) {e : Nat} {v : Option (V b)} (h : BasicMove.Legal (g.basic b) s e v) :
    g.Listed s ((BasicMove.change e v).toMove (g.basic b))
  /-- A swap of entities that hold different values. -/
  | swap (b : B) {i j : Nat} (h : .swap i j ∈ BasicMove.swaps (g.basic b) s) :
    g.Listed s ((BasicMove.swap i j).toMove (g.basic b))
  /-- A move of a list. -/
  | list (l : L) (m : ListMove (W l)) : g.Listed s (m.toMove (g.list l))

/-- What a range lists it has. -/
def Coherent (g : Genuine S V W) : Prop :=
  ∀ b s e vs v, (g.basic b).range.values s e = .ok vs → v ∈ vs → (g.basic b).range.contains s e v = true

omit [∀ b, PlanningValue (V b)] [∀ l, PlanningValue (W l)] [∀ l, DecidableEq (W l)] in
/-- Each change of a neighborhood is one to a value in range. -/
theorem legal_of_mem_changes (hcoherent : g.Coherent) {b : B} {l : List (BasicMove (V b))}
    (h : BasicMove.changes (g.basic b) s = .ok l) {x : BasicMove (V b)} (hx : x ∈ l) :
    ∃ e v, x = .change e v ∧ BasicMove.Legal (g.basic b) s e v := by
  obtain ⟨ls, hls, hpure⟩ := bind_eq_ok_iff.1 h
  cases hpure
  obtain ⟨l, hl, hx⟩ := List.mem_flatten.1 hx
  obtain ⟨e, -, hof⟩ := exists_of_mem_mapM hls hl
  obtain ⟨vs, hoptions, hpure⟩ := bind_eq_ok_iff.1 hof
  cases hpure
  obtain ⟨v, hv, rfl⟩ := List.mem_map.1 hx
  refine ⟨e, v, rfl, ?_⟩
  obtain ⟨values, hvalues, hpure⟩ := bind_eq_ok_iff.1 hoptions
  cases hpure
  rcases List.mem_append.1 (List.mem_filter.1 hv).1 with hv | hv
  · obtain ⟨w, hw, rfl⟩ := List.mem_map.1 hv
    exact hcoherent b s e values w hvalues hw
  · split at hv
    · cases List.mem_singleton.1 hv
      assumption
    · cases hv

omit [∀ l, PlanningValue (W l)] [∀ l, DecidableEq (W l)] in
/-- A move of a basic variable that is given is one of those that were to be arranged. -/
theorem exists_of_mem_ofBasic {b : B} {o : SelectionOrder} {l : Checked (List (BasicMove (V b)))}
    {gen gen' : Generator} {moves : List (Move S)}
    (h : (MoveSelector.ofBasic (g.basic b) o l).run gen = .ok (moves, gen')) (hm : m ∈ moves) :
    ∃ xs, l = .ok xs ∧ ∃ x ∈ xs, m = x.toMove (g.basic b) := by
  rw [MoveSelector.ofBasic, StateT.run_bind] at h
  obtain ⟨⟨xs, gen₁⟩, hl, h⟩ := bind_eq_ok_iff.1 h
  rw [StateT.run_bind] at h
  obtain ⟨⟨ys, gen₂⟩, harrange, h⟩ := bind_eq_ok_iff.1 h
  cases h
  obtain ⟨x, hx, rfl⟩ := List.mem_map.1 hm
  obtain ⟨xs', hxs', hpure⟩ := bind_eq_ok_iff.1 hl
  cases hpure
  exact ⟨xs, hxs', x, (SelectionOrder.perm_arrange harrange).mem_iff.1 hx, rfl⟩

/-- A move of a list variable that is given is a move of that variable. -/
theorem listed_of_mem_ofList {l : L} {o : SelectionOrder} {xs : List (ListMove (W l))} {gen gen' : Generator}
    {moves : List (Move S)} (h : (MoveSelector.ofList (g.list l) o xs).run gen = .ok (moves, gen'))
    (hm : m ∈ moves) : g.Listed s m := by
  rw [MoveSelector.ofList, StateT.run_bind] at h
  obtain ⟨⟨ys, gen₂⟩, -, h⟩ := bind_eq_ok_iff.1 h
  cases h
  obtain ⟨x, -, rfl⟩ := List.mem_map.1 hm
  exact .list l x

/-- Each move that a selector gives is listed. -/
theorem Selects.listed (hcoherent : g.Coherent) {x : MoveSelector S} (hx : g.Selects x) {gen gen' : Generator}
    {moves : List (Move S)} (h : (x.moves s).run gen = .ok (moves, gen')) (hm : m ∈ moves) : g.Listed s m := by
  induction hx generalizing gen gen' moves with
  | change b o =>
    obtain ⟨xs, hxs, x, hx, rfl⟩ := exists_of_mem_ofBasic h hm
    obtain ⟨e, v, rfl, hlegal⟩ := legal_of_mem_changes hcoherent hxs hx
    exact .change b hlegal
  | swap b o =>
    obtain ⟨xs, hxs, x, hx, rfl⟩ := exists_of_mem_ofBasic h hm
    cases hxs
    obtain ⟨i, j, rfl⟩ := BasicMove.exists_of_mem_swapsAmong hx
    exact .swap b hx
  | listChange l o => exact listed_of_mem_ofList h hm
  | listSwap l o => exact listed_of_mem_ofList h hm
  | listReverse l o => exact listed_of_mem_ofList h hm
  | sublistChange l o minimum maximum => exact listed_of_mem_ofList h hm
  | union _ ih =>
    -- The lists of the selectors are put together; each was drawn in some state of the stream.
    rw [MoveSelector.union, StateT.run_bind] at h
    obtain ⟨⟨ls, gen₁⟩, hls, h⟩ := bind_eq_ok_iff.1 h
    cases h
    obtain ⟨moves, hmoves, hm⟩ := List.mem_flatten.1 hm
    obtain ⟨x, hx, gen₂, gen₃, hfirst⟩ := Generator.exists_of_mem_mapM hls hmoves
    exact ih x hx hfirst hm

/-- A listed move that cannot be made: a swap of values of which one is not in range for the other entity. -/
def Misfit (g : Genuine S V W) (s : S) (m : Move S) : Prop :=
  ∃ b i j, m = (BasicMove.swap i j).toMove (g.basic b) ∧ .swap i j ∈ BasicMove.swaps (g.basic b) s ∧
    ¬ (BasicMove.Legal (g.basic b) s i ((g.basic b).get? s j) ∧
      BasicMove.Legal (g.basic b) s j ((g.basic b).get? s i))

/-- A listed move is a move of a genuine variable. -/
theorem Listed.moves (h : g.Listed s m) : g.Moves m := by
  cases h with
  | change b h => exact .basic b _
  | swap b h => exact .basic b _
  | list l m => exact .list l m

/-- Each move that a selector gives is a move of a genuine variable. -/
theorem Selects.moves_of_mem {x : MoveSelector S} (hx : g.Selects x) {gen gen' : Generator} {moves : List (Move S)}
    (h : (x.moves s).run gen = .ok (moves, gen')) (hm : m ∈ moves) : g.Moves m := by
  induction hx generalizing gen gen' moves with
  | change b o =>
    obtain ⟨xs, -, x, -, rfl⟩ := exists_of_mem_ofBasic h hm
    exact .basic b x
  | swap b o =>
    obtain ⟨xs, -, x, -, rfl⟩ := exists_of_mem_ofBasic h hm
    exact .basic b x
  | listChange l o => exact (listed_of_mem_ofList (s := s) h hm).moves
  | listSwap l o => exact (listed_of_mem_ofList (s := s) h hm).moves
  | listReverse l o => exact (listed_of_mem_ofList (s := s) h hm).moves
  | sublistChange l o minimum maximum => exact (listed_of_mem_ofList (s := s) h hm).moves
  | union _ ih =>
    rw [MoveSelector.union, StateT.run_bind] at h
    obtain ⟨⟨ls, gen₁⟩, hls, h⟩ := bind_eq_ok_iff.1 h
    cases h
    obtain ⟨moves, hmoves, hm⟩ := List.mem_flatten.1 hm
    obtain ⟨x, hx, gen₂, gen₃, hfirst⟩ := Generator.exists_of_mem_mapM hls hmoves
    exact ih x hx hfirst hm

/-- A listed move that says it is doable can be planned unless it is a misfit. -/
theorem Listed.exists_plan (h : g.Listed s m) (hdoable : m.isDoable s = true) (hfit : ¬ g.Misfit s m) :
    ∃ e, m.plan s = .ok e := by
  cases h with
  | change b hlegal =>
    obtain ⟨u, hcheck⟩ := BasicMove.check_change hdoable hlegal
    exact ⟨_, bind_eq_ok_iff.2 ⟨u, hcheck, rfl⟩⟩
  | swap b hmem =>
    rename_i i j
    have hlegal : BasicMove.Legal (g.basic b) s i ((g.basic b).get? s j) ∧
        BasicMove.Legal (g.basic b) s j ((g.basic b).get? s i) := by
      by_contra hlegal
      exact hfit ⟨b, i, j, rfl, hmem, hlegal⟩
    obtain ⟨u, hcheck⟩ := (BasicMove.check_swap_iff hdoable).2 hlegal
    exact ⟨_, bind_eq_ok_iff.2 ⟨u, hcheck, rfl⟩⟩
  | list l m =>
    obtain ⟨u, hcheck⟩ := exists_of_succeeds (Bool.and_eq_true_iff.1 hdoable).1
    exact ⟨_, bind_eq_ok_iff.2 ⟨u, hcheck, rfl⟩⟩

omit [∀ l, PlanningValue (W l)] [∀ l, DecidableEq (W l)] in
/-- A misfit that says it is doable cannot be planned. -/
theorem Misfit.exists_plan (h : g.Misfit s m) (hdoable : m.isDoable s = true) : ∃ err, m.plan s = .error err := by
  obtain ⟨b, i, j, rfl, -, hlegal⟩ := h
  cases hplan : ((BasicMove.swap i j).toMove (g.basic b)).plan s with
  | error err => exact ⟨err, rfl⟩
  | ok e =>
    obtain ⟨u, hcheck, -⟩ := bind_eq_ok_iff.1 hplan
    exact absurd ((BasicMove.check_swap_iff hdoable).1 ⟨u, hcheck⟩) hlegal

variable [DecidableEq B] [DecidableEq L]

/-- A move that says it is doable and is planned changes what genuine variables hold, if no list holds an element
twice. -/
theorem Moves.exists_apply (hg : g.Lawful) (hnodup : ∀ l e, ((g.list l).list s e).Nodup) (hm : g.Moves m)
    (hdoable : m.isDoable s = true) {e : Edit S} (hplan : m.plan s = .ok e) :
    ∃ s', e.apply s = .ok s' ∧ g.content s' ≠ g.content s := by
  cases hm with
  | basic b m =>
    obtain ⟨u, hcheck, hpure⟩ := bind_eq_ok_iff.1 hplan
    cases hpure
    exact ⟨_, rfl, BasicMove.content_assignAll_ne hg hcheck hdoable⟩
  | list l m =>
    obtain ⟨u, hcheck, hpure⟩ := bind_eq_ok_iff.1 hplan
    cases hpure
    obtain ⟨s', hs'⟩ := ListMove.exists_apply hg hcheck
    exact ⟨s', hs', ListMove.content_ne_of_apply hg (hnodup l) hcheck hdoable hs'⟩

end Genuine

end Planning
