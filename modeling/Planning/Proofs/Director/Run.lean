import Mathlib.Logic.Relation
import Planning.Proofs.Problems.Queens

/-!
# Runs of a director

A caller edits the working solution of a director, announces what it changed, and takes members out before it
moves them and puts them back afterwards. Whenever nothing is pending the director gives the score that its
constraints give when they are loaded with the working solution afresh.
-/

namespace Planning

open Checked

variable {S : Type} {k : ScoreKind} [PlanningSolution S k]

/-- Members that are not out stay where they are, and those that change become stale. -/
structure Edits (cs : ConstraintSet S k) (s s' : S) (p p' : Pending) : Prop where
  /-- Nothing is taken out or put back. -/
  out : p'.out = p.out
  /-- A member that is not out stays in its class, and stays as it is unless it becomes stale. -/
  kept : ∀ cl members, cs.Reads cl members → ∀ i, (cl, i) ∉ p.out →
    ((members s')[i]? = none ↔ (members s)[i]? = none) ∧
      ((cl, i) ∉ p'.stale → (cl, i) ∉ p.stale ∧ (members s')[i]? = (members s)[i]?)

/-- A step of a caller that keeps to the rules, with what is pending before and after it. -/
inductive Director.Step (cs : ConstraintSet S k) :
    Director S k × Pending → Director S k × Pending → Prop where
  /-- The solution is edited. -/
  | edit {dir dir' p p' f} : Director.edit dir f = .ok dir' → Edits cs dir.solution dir'.solution p p' →
    Step cs (dir, p) (dir', p')
  /-- An entity that is not out changed. Other entities may be out only when there are no shadow variables
  that could change there. -/
  | entity {dir dir' p x name} : dir.afterVariableChanged x name = .ok dir' →
    (.entity x.1, x.2) ∉ p.out → (dir.shadows = [] ∨ ∀ y : EntityRef, (.entity y.1, y.2) ∉ p.out) →
    Step cs (dir, p) (dir', ⟨p.stale \ {(.entity x.1, x.2)}, p.out⟩)
  /-- A fact that is not out changed. -/
  | fact {dir dir' p d i} : dir.afterFactChanged d i = .ok dir' → (.fact d, i) ∉ p.out →
    Step cs (dir, p) (dir', ⟨p.stale \ {(.fact d, i)}, p.out⟩)
  /-- An entity is about to come or go. -/
  | beforeEntity {dir dir' p x} : dir.beforeEntityMoved x = .ok dir' →
    (∀ j, (.entity x.1, j) ∉ p.out) → Step cs (dir, p) (dir', p.opened (.entity x.1) x.2)
  /-- An entity came. -/
  | entityAdded {dir dir' p x} : dir.afterEntityAdded x = .ok dir' →
    (∀ j, (.entity x.1, j) ∈ p.out ↔ x.2 ≤ j) →
    (dir.shadows = [] ∨ ∀ y : EntityRef, y.1 ≠ x.1 → (.entity y.1, y.2) ∉ p.out) →
    Step cs (dir, p) (dir', p.closed (.entity x.1) x.2)
  /-- An entity went. -/
  | entityRemoved {dir dir' p x} : dir.afterEntityRemoved x = .ok dir' →
    (∀ j, (.entity x.1, j) ∈ p.out ↔ x.2 ≤ j) →
    (dir.shadows = [] ∨ ∀ y : EntityRef, y.1 ≠ x.1 → (.entity y.1, y.2) ∉ p.out) →
    Step cs (dir, p) (dir', p.closed (.entity x.1) x.2)
  /-- A fact is about to come or go. -/
  | beforeFact {dir dir' p d i} : dir.beforeFactMoved d i = .ok dir' →
    (∀ j, (.fact d, j) ∉ p.out) → Step cs (dir, p) (dir', p.opened (.fact d) i)
  /-- A fact came or went. -/
  | factMoved {dir dir' p d i} : dir.afterFactMoved d i = .ok dir' →
    (∀ j, (.fact d, j) ∈ p.out ↔ i ≤ j) → Step cs (dir, p) (dir', p.closed (.fact d) i)
  /-- The working solution is replaced. -/
  | setSolution {dir dir' p s} : dir.setSolution s = .ok dir' → Step cs (dir, p) (dir', ⟨∅, p.out⟩)
  /-- The shadow variables are made anew. -/
  | trigger {dir dir' p} : dir.triggerListeners = .ok dir' → Step cs (dir, p) (dir', p)
  /-- The matches go. -/
  | reset {dir p} : Step cs (dir, p) (dir.reset, ⟨∅, p.out⟩)
  /-- The score is asked for when nothing is pending. -/
  | calculate {dir dir' score} : dir.calculate = .ok (dir', score) →
    Step cs (dir, .none) (dir', .none)

namespace Director

variable {dir dir' : Director S k} {cs cs' : ConstraintSet S k} {shadows : ShadowCascade S} {p p' : Pending}

/-- A director that is asked for the score has loaded its constraints then. They are in step with the solution and have
that score, which is stored. -/
theorem Follows.exists_live (h : dir.Follows cs .none) {score : Score k}
    (hok : dir.calculate = .ok (dir', score)) :
    ∃ (live : LiveScoring S k) (V : View S), dir'.scoring = .incremental live ∧ live.loaded = true ∧
      live.cached = score ∧ dir'.solution = PlanningSolution.withScore dir.solution score ∧
      dir'.shadows = dir.shadows ∧ live.constraints.reset = cs.reset ∧ V.Shows cs dir.solution .none ∧
      live.constraints.InStep V ∧ score.vector = live.constraints.total := by
  obtain ⟨live, hlive, h⟩ := h
  simp only [Director.calculate, hlive, bind_eq_ok_iff, pure_eq_ok_iff] at hok
  obtain ⟨⟨dir₁, live₁⟩, hload, hpure⟩ := hok
  cases hpure
  unfold Director.load at hload
  split at hload
  · rename_i hl
    cases hload
    obtain ⟨V, hV, hin, hcached⟩ := h.loaded hl
    exact ⟨_, V, rfl, hl, rfl, rfl, rfl, h.reset, hV, hin, hcached⟩
  · rename_i hl
    have hunloaded := h.unloaded (eq_false_of_ne_true hl)
    simp only [bind_eq_ok_iff, pure_eq_ok_iff] at hload
    obtain ⟨⟨loaded, sum⟩, hload, hpure⟩ := hload
    cases hpure
    rw [hunloaded] at hload
    obtain ⟨hin, hreset, htotal⟩ := ConstraintSet.load_inStep hload
    refine ⟨_, _, rfl, rfl, rfl, rfl, rfl, hreset, .of cs dir.solution rfl, hin, ?_⟩
    rw [htotal, Score.vector_zero, zero_add]

/-- A director that follows its solution gives the score of the solution. -/
theorem Follows.calculate (hc : Contract cs shadows) (h : dir.Follows cs .none) {score : Score k}
    (hok : dir.calculate = .ok (dir', score)) :
    dir'.Follows cs .none ∧ dir'.shadows = dir.shadows ∧
      ∀ cs' fresh, cs.reset.load dir.solution .zero = .ok (cs', fresh) → score = fresh := by
  obtain ⟨live, V, hlive, hloaded, hcached, hsolution, hshadows, hreset, hV, hin, hscore⟩ := h.exists_live hok
  have hshows : V.Shows cs dir'.solution .none := by
    rw [hsolution]
    exact hc.shows_withScore hV score
  refine ⟨⟨live, hlive, hreset, fun hl => absurd (hloaded.symm.trans hl) Bool.noConfusion,
    fun _ => ⟨V, hshows, hin, hcached ▸ hscore⟩⟩, hshadows, fun cs' fresh hfresh => ?_⟩
  obtain ⟨hin', hreset', htotal⟩ := ConstraintSet.load_inStep hfresh
  have hsound : cs'.Sound := by
    rw [← ConstraintSet.sound_reset, hreset', ConstraintSet.sound_reset]
    exact hc.sound
  have hreads : ∀ cl members, cs'.Reads cl members → V cl members = View.of dir.solution cl members :=
    fun cl members hr => hV.eq_of ((ConstraintSet.reads_of_reset hreset' cl members).1 hr)
  refine Score.vector_inj.1 ?_
  rw [hscore, htotal, Score.vector_zero, zero_add]
  exact hin'.total_eq hin (hreset.trans hreset'.symm) hsound (fun _ _ _ => rfl) hreads

omit [PlanningSolution S k] in
theorem shadows_resetScoring (dir : Director S k) : dir.resetScoring.shadows = dir.shadows := by
  unfold Director.resetScoring
  split <;> rfl

/-- A step of a caller that keeps to the rules keeps a director following. -/
theorem Follows.step (hc : Contract cs shadows) (hshadows : dir.shadows = shadows) (h : dir.Follows cs p)
    (hstep : Step cs (dir, p) (dir', p')) : dir'.Follows cs p' ∧ dir'.shadows = shadows := by
  cases hstep with
  | edit hok hedits =>
    obtain ⟨h', hs⟩ := h.edit hok hedits.out hedits.kept
    exact ⟨h', hs.trans hshadows⟩
  | entity hok hx hout =>
    rw [hshadows] at hout
    obtain ⟨h', hs⟩ := h.afterVariableChanged hc hshadows hx hout hok
    exact ⟨h', hs.trans hshadows⟩
  | fact hok hi =>
    obtain ⟨h', hs⟩ := h.afterFactChanged hc hi hok
    exact ⟨h', hs.trans hshadows⟩
  | beforeEntity hok hin =>
    obtain ⟨h', hs⟩ := h.beforeEntityMoved hc hin hok
    exact ⟨h', hs.trans hshadows⟩
  | entityAdded hok hin hout =>
    rw [hshadows] at hout
    obtain ⟨h', hs⟩ := h.afterEntityAdded hc hshadows hin hout hok
    exact ⟨h', hs.trans hshadows⟩
  | entityRemoved hok hin hout =>
    rw [hshadows] at hout
    obtain ⟨h', hs⟩ := h.afterEntityRemoved hc hshadows hin hout hok
    exact ⟨h', hs.trans hshadows⟩
  | beforeFact hok hin =>
    obtain ⟨h', hs⟩ := h.beforeFactMoved hc hin hok
    exact ⟨h', hs.trans hshadows⟩
  | factMoved hok hin =>
    obtain ⟨h', hs⟩ := h.afterFactMoved hc hin hok
    exact ⟨h', hs.trans hshadows⟩
  | setSolution hok =>
    simp only [Director.setSolution, bind_eq_ok_iff, pure_eq_ok_iff] at hok
    obtain ⟨s', hs, rfl⟩ := hok
    exact ⟨(h.resetScoring s' _).congr rfl rfl, dir.shadows_resetScoring.trans hshadows⟩
  | trigger hok =>
    unfold Director.triggerListeners at hok
    split at hok
    · rw [h.forget_eq] at hok
      cases hok
      exact ⟨h, hshadows⟩
    · simp only [bind_eq_ok_iff, pure_eq_ok_iff] at hok
      obtain ⟨s', hs, rfl⟩ := hok
      exact ⟨h.resetScoring s' _, dir.shadows_resetScoring.trans hshadows⟩
  | reset =>
    exact ⟨(h.resetScoring _ _).congr rfl rfl, dir.shadows_resetScoring.trans hshadows⟩
  | calculate hok =>
    obtain ⟨h', hs, -⟩ := h.calculate hc hok
    exact ⟨h', hs.trans hshadows⟩

omit [PlanningSolution S k] in
/-- A director follows the solution that it is created with. -/
theorem follows_create {d : ValidatedDescriptor} {s : S}
    (hok : create d shadows (.incremental { constraints := cs.reset }) s = .ok dir) :
    dir.Follows cs .none ∧ dir.shadows = shadows := by
  simp only [Director.create, bind_eq_ok_iff, pure_eq_ok_iff] at hok
  obtain ⟨s', -, rfl⟩ := hok
  exact ⟨⟨_, rfl, ConstraintSet.reset_reset cs, fun _ => rfl, nofun⟩, rfl⟩

/-- Whatever a caller that keeps to the rules has done, the score that a director gives when nothing is pending
is that of its constraints loaded with the working solution afresh. -/
theorem calculate_eq_load {d : ValidatedDescriptor} {s₀ : S} {dir₀ : Director S k} {score fresh : Score k}
    (hc : Contract cs shadows)
    (h₀ : create d shadows (.incremental { constraints := cs.reset }) s₀ = .ok dir₀)
    (hrun : Relation.ReflTransGen (Step cs) (dir₀, .none) (dir, .none))
    (hcalculate : dir.calculate = .ok (dir', score))
    (hfresh : cs.reset.load dir.solution .zero = .ok (cs', fresh)) : score = fresh := by
  obtain ⟨hfollows₀, hshadows₀⟩ := follows_create h₀
  have hfollows : ∀ q : Director S k × Pending, Relation.ReflTransGen (Step cs) (dir₀, .none) q →
      q.1.Follows cs q.2 ∧ q.1.shadows = shadows := by
    intro q hq
    induction hq with
    | refl => exact ⟨hfollows₀, hshadows₀⟩
    | tail _ hstep ih => exact ih.1.step hc ih.2 hstep
  exact ((hfollows _ hrun).1.calculate hc hcalculate).2.2 cs' fresh hfresh

section Boards

open QueensBoard

/-- A change of a row makes its queen stale. -/
theorem edits_setRow {cs : ConstraintSet QueensBoard .simple}
    (hcs : ∀ cl ms, cs.Reads cl ms → cl = .entity 0 ∧ ms = members) (b : QueensBoard) (i : Nat)
    (r : Option Int) (p : Pending) :
    Edits cs b (b.setRow i r) p ⟨p.stale ∪ {(.entity 0, i)}, p.out⟩ where
  out := rfl
  kept cl ms hr j _ := by
    obtain ⟨rfl, rfl⟩ := hcs cl ms hr
    rw [getElem?_members_setRow]
    split
    · rename_i hji
      subst hji
      refine ⟨by simp [members], fun hs => absurd (Or.inr rfl) hs⟩
    · exact ⟨Iff.rfl, fun hs => ⟨fun hs' => hs (.inl hs'), rfl⟩⟩

/-- The description of the problem as it is when it was found to be valid. -/
def queensDescriptor : ValidatedDescriptor :=
  { toSolutionDescriptor := description, shadowOrder := [], dependencies := [] }

/-- A board is scored, its first queen gets another row, and it is scored again: the director before it is
asked, what it answers, and the score made afresh. -/
def rescore (cs : ConstraintSet QueensBoard .simple) (b : QueensBoard) (r : Int) :
    Checked (Director QueensBoard .simple × Score .simple × Score .simple) := do
  let dir₀ ← create queensDescriptor [] (.incremental { constraints := cs.reset }) b
  let (dir, _) ← dir₀.calculate
  let dir ← dir.edit fun b => .ok (b.setRow 0 (some r))
  let dir ← dir.afterVariableChanged (0, 0) "row"
  let (_, score) ← dir.calculate
  let (_, fresh) ← cs.reset.load dir.solution .zero
  return (dir, score, fresh)

/-- Whoever scores a board again keeps to the rules. -/
theorem run_of_rescore {cs : ConstraintSet QueensBoard .simple}
    (hcs : ∀ cl ms, cs.Reads cl ms → cl = .entity 0 ∧ ms = members) {b : QueensBoard} {r : Int}
    {dir : Director QueensBoard .simple} {score fresh : Score .simple}
    (h : rescore cs b r = .ok (dir, score, fresh)) :
    ∃ dir₀ dir' cs', create queensDescriptor [] (.incremental { constraints := cs.reset }) b = .ok dir₀ ∧
      Relation.ReflTransGen (Step cs) (dir₀, .none) (dir, .none) ∧ dir.calculate = .ok (dir', score) ∧
      cs.reset.load dir.solution .zero = .ok (cs', fresh) := by
  simp only [rescore, bind_eq_ok_iff, pure_eq_ok_iff] at h
  obtain ⟨dir₀, h₀, ⟨dir₁, score₁⟩, h₁, dir₂, h₂, dir₃, h₃, ⟨dir', score'⟩, h₄, ⟨cs', fresh'⟩, h₅, hpure⟩ := h
  cases hpure
  refine ⟨dir₀, dir', cs', h₀, ?_, h₄, h₅⟩
  have hsolution : dir₂.solution = dir₁.solution.setRow 0 (some r) := by
    simp only [Director.edit, bind_eq_ok_iff, pure_eq_ok_iff] at h₂
    obtain ⟨b', hb, rfl⟩ := h₂
    exact (Except.ok.inj hb).symm
  have hedits := edits_setRow hcs dir₁.solution 0 (some r) .none
  rw [← hsolution] at hedits
  have hnone : (⟨(∅ ∪ {(.entity 0, 0)}) \ {(.entity 0, 0)}, ∅⟩ : Pending) = .none := by simp [Pending.none]
  have hlast : Step cs (dir₂, ⟨∅ ∪ {(.entity 0, 0)}, ∅⟩)
      (dir, ⟨(∅ ∪ {(.entity 0, 0)}) \ {(.entity 0, 0)}, ∅⟩) :=
    .entity h₃ (Set.notMem_empty _) (.inr fun _ => Set.notMem_empty _)
  rw [hnone] at hlast
  exact .tail (.tail (.tail .refl (.calculate h₁)) (.edit h₂ hedits)) hlast

/-- A board whose first queen changes its row. -/
theorem calculate_eq_load_queens :
    ∃ dir₀ dir dir' score cs' fresh,
      create queensDescriptor [] (.incremental { constraints := QueensBoard.constraints.reset })
        (.ofRows [some 1, some 2, some 3]) = .ok dir₀ ∧
      Relation.ReflTransGen (Step QueensBoard.constraints) (dir₀, .none) (dir, .none) ∧
      dir.calculate = .ok (dir', score) ∧
      QueensBoard.constraints.reset.load dir.solution .zero = .ok (cs', fresh) ∧ score = fresh := by
  obtain ⟨⟨dir, score, fresh⟩, hok⟩ := exists_eq_ok_of_isOk
    (x := rescore QueensBoard.constraints (.ofRows [some 1, some 2, some 3]) 2) (by decide +kernel)
  obtain ⟨dir₀, dir', cs', h₀, hrun, hcalculate, hfresh⟩ :=
    run_of_rescore (fun _ _ => reads_constraints) hok
  exact ⟨dir₀, dir, dir', score, cs', fresh, h₀, hrun, hcalculate, hfresh,
    calculate_eq_load QueensBoard.contract h₀ hrun hcalculate hfresh⟩

/-- The row of the queen that comes first in the list of all queens is earned. -/
def firstOfList : Constraint QueensBoard .simple :=
  ((Stream.forEach (.entity 0) members).collect (.toList .ok)).constraint ⟨"", "first"⟩ .reward (.unit 0)
    fun t => .ok ((t.at? 0).at? 2).toInt

/-- A queen that changes comes last in a list of queens, which is made of them in order afresh. -/
theorem calculate_ne_load :
    ∃ dir₀ dir dir' score cs' fresh,
      create queensDescriptor [] (.incremental { constraints := ConstraintSet.reset [firstOfList] })
        (.ofRows [some 1, some 2]) = .ok dir₀ ∧
      Relation.ReflTransGen (Step [firstOfList]) (dir₀, .none) (dir, .none) ∧
      dir.calculate = .ok (dir', score) ∧
      ConstraintSet.load dir.solution (ConstraintSet.reset [firstOfList]) .zero = .ok (cs', fresh) ∧
      score ≠ fresh := by
  have hscores : (rescore [firstOfList] (.ofRows [some 1, some 2]) 3).map (fun x => decide (x.2.1 = x.2.2)) =
      .ok false := by decide +kernel
  obtain ⟨⟨dir, score, fresh⟩, hok⟩ := exists_eq_ok_of_isOk
    (x := rescore [firstOfList] (.ofRows [some 1, some 2]) 3) (by decide +kernel)
  have hreads : ∀ cl ms, ConstraintSet.Reads [firstOfList] cl ms → cl = .entity 0 ∧ ms = members := by
    rintro cl ms ⟨c, hc, hr⟩
    obtain rfl := List.mem_singleton.1 hc
    exact ⟨hr.1.symm, hr.2.symm⟩
  obtain ⟨dir₀, dir', cs', h₀, hrun, hcalculate, hfresh⟩ := run_of_rescore hreads hok
  refine ⟨dir₀, dir, dir', score, cs', fresh, h₀, hrun, hcalculate, hfresh, ?_⟩
  rw [hok] at hscores
  exact of_decide_eq_false (Except.ok.inj hscores)

end Boards

end Director

end Planning
