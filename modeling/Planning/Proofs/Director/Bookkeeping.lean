import Planning.Proofs.Constraint.Worth
import Planning.Proofs.Director.Run

/-!
# Bookkeeping

Whatever happens to a constraint set, whether or not it is true of a solution, the total of each constraint is
the sum of the impacts of its matches, and what the set answers an event with is what its score changed by.
Constraints that do not read a class may be left out when an event of it is passed on: it goes through their
graphs without a trace. So the score that a director keeps is always the sum of the scores of its constraints,
and an explanation lists the matches that make it up.
-/

namespace Planning

open Checked Delta

variable {S : Type} {k : ScoreKind}

/-! ## Events that are not listened to -/

/-- An event of a class that a graph does not read goes through it without a trace. -/
theorem Node.propagate_of_not_listensTo {n : Node S} {s : S} {e : SourceEvent}
    (h : n.listensTo e.source = false) : n.propagate s e = .ok (n, []) := by
  induction n with
  | source c members =>
    have hc : e.source ≠ c := by simpa [listensTo] using h
    rw [propagate, sourceAnswer, if_pos hc]
  | filter up p passing ih => rw [propagate, ih h]; rfl
  | map up f ih => rw [propagate, ih h]; rfl
  | flatten up expand state ih => rw [propagate, ih h]; rfl
  | join left right rule state ihl ihr =>
    obtain ⟨hl, hr⟩ := Bool.or_eq_false_iff.1 h
    rw [propagate, ihl hl, ihr hr]
    rfl
  | «exists» left right rule state ihl ihr =>
    obtain ⟨hl, hr⟩ := Bool.or_eq_false_iff.1 h
    rw [propagate, ihl hl, ihr hr]
    rfl
  | group up rule state ih => rw [propagate, ih h]; rfl
  | complement up elements rule state ihu ihe =>
    obtain ⟨hu, he⟩ := Bool.or_eq_false_iff.1 h
    rw [propagate, ihu hu, ihe he]
    rfl

/-- Adding zero leaves a score as it is. -/
theorem Score.add_zero (a : Score k) : a.add .zero = .ok a := by
  have hzero : (zero : Score k).toList = List.replicate k.size 0 := by
    rw [toList, zero, List.map_replicate]
    rfl
  refine add_eq_ok_iff.2 (List.ext_getElem (by simp) fun i hi hi' => ?_)
  simp [hzero]

namespace Constraint

variable {c c' : Constraint S k} {s : S} {e : SourceEvent} {T : Tuples} {sum change : Score k}

/-- A constraint answers an event of a class that it does not read with zero, and stays as it is. -/
theorem onEvent_of_not_listensTo (h : c.listensTo e.source = false) : c.onEvent s e = .ok (c, .zero) := by
  have hnode : c.node.propagate s e = .ok (c.node, []) := Node.propagate_of_not_listensTo h
  have happly : c.apply [] = .ok (c, .zero) :=
    bind_eq_ok_iff.2 ⟨(c, .zero), rfl, bind_eq_ok_iff.2 ⟨c.total, Score.add_zero c.total, rfl⟩⟩
  rw [onEvent, hnode]
  exact happly

/-! ## Constraints -/

/-- The tuples of the matches. -/
def tuples (c : Constraint S k) : Tuples := fun i => (c.live.get? i).map Match.tuple

/-- The total is the sum of the impacts of the matches, and each match has the impact of its tuple. -/
structure Balanced (c : Constraint S k) : Prop where
  /-- No match stands twice. -/
  unique : c.live.Unique
  /-- The impact of a match is the weight, costing or earning, times what the weigher gives for the tuple. -/
  impact : ∀ i m, c.live.get? i = some m →
    ∃ n, c.weigher m.tuple = .ok n ∧ m.impact.vector = (c.impact.sign * n) • c.weight.vector
  /-- The impacts add up to the total. -/
  total : c.total.vector = (c.live.map fun e => e.2.impact.vector).sum

/-- Matches that weigh what is to come are of their own tuples. -/
theorem Weighs.eq_tuples (h : c.Weighs T sum) : T = c.tuples := funext fun i => (h.tuple i).symm

/-- The books balance when nothing is to come. -/
theorem Weighs.balanced (h : c.Weighs T .zero) : c.Balanced where
  unique := h.unique
  impact i m hm := exists_of_impactOf (h.impact i m hm)
  total := by rw [h.total, Score.vector_zero, add_zero]

/-- What a graph gives out keeps the books, and the matches follow it. -/
theorem Weighs.follow (h : c.Weighs c.tuples .zero) {node : Node S} (hnode : node.reset = c.node.reset)
    {ds : List Delta} (hok : Constraint.apply { c with node := node } ds = .ok (c', change)) :
    c'.Weighs c'.tuples .zero ∧ c'.reset = c.reset ∧ c'.tuples = ds.foldl Delta.apply c.tuples := by
  have hw : Weighs { c with node := node } c.tuples .zero := ⟨h.unique, h.tuple, h.impact, h.total⟩
  obtain ⟨h', hsame⟩ := hw.apply hok
  have htuples := h'.eq_tuples
  rw [htuples] at h'
  refine ⟨h', ?_, htuples.symm⟩
  rw [hsame]
  simp only [Constraint.reset, hnode]

/-- Loading a solution keeps the books. -/
theorem Weighs.load (h : c.Weighs c.tuples .zero) (hok : c.load s = .ok c') :
    c'.Weighs c'.tuples .zero ∧ c'.reset = c.reset := by
  simp only [Constraint.load, bind_eq_ok_iff, pure_eq_ok_iff] at hok
  obtain ⟨⟨node, ds⟩, hnode, ⟨c₁, change⟩, happly, rfl⟩ := hok
  obtain ⟨h', hreset, -⟩ := h.follow (Node.reset_of_load hnode) happly
  exact ⟨h', hreset⟩

/-- An event keeps the books. -/
theorem Weighs.onEvent (h : c.Weighs c.tuples .zero) (hok : c.onEvent s e = .ok (c', change)) :
    c'.Weighs c'.tuples .zero ∧ c'.reset = c.reset := by
  obtain ⟨⟨node, ds⟩, hnode, happly⟩ := bind_eq_ok_iff.1 hok
  obtain ⟨h', hreset, -⟩ := h.follow (Node.reset_of_propagate hnode) happly
  exact ⟨h', hreset⟩

/-- The analysis of a constraint whose books balance lists the matches, which add up to the score. -/
theorem Balanced.analysis (h : c.Balanced) :
    c.analysis.found.Perm (c.live.map fun e => ⟨c.ref, e.2.impact, c.justify e.2.tuple⟩) ∧
      c.analysis.score = c.total ∧
      (c.analysis.found.map fun m => m.score.vector).sum = c.analysis.score.vector := by
  have hperm : c.analysis.found.Perm (c.live.map fun e => ⟨c.ref, e.2.impact, c.justify e.2.tuple⟩) := by
    have hsorted := (List.mergeSort_perm c.live fun a b => decide (a.1 ≤ b.1)).map Prod.snd
    have hfound := hsorted.map fun m : Match k => (⟨c.ref, m.impact, c.justify m.tuple⟩ : ExplainedMatch k)
    exact hfound.trans (.of_eq List.map_map)
  refine ⟨hperm, rfl, ?_⟩
  rw [(hperm.map _).sum_eq, List.map_map]
  exact h.total.symm

end Constraint

/-! ## Constraint sets -/

namespace ConstraintSet

variable {cs cs' rules : ConstraintSet S k} {s : S} {e : SourceEvent} {sum sum' : Score k}

/-- An event is passed on to all constraints, whatever they read. -/
def tellAll (s : S) (e : SourceEvent) : ConstraintSet S k → Score k → Checked (ConstraintSet S k × Score k)
  | [], sum => .ok ([], sum)
  | c :: cs, sum => do
    let (c, change) ← c.onEvent s e
    let (cs, sum) ← tellAll s e cs (← sum.add change)
    return (c :: cs, sum)

/-- Passing an event on to those that read its class is passing it on to all. -/
theorem onEvent_eq_tellAll (s : S) (e : SourceEvent) (cs : ConstraintSet S k) (sum : Score k) :
    onEvent s e cs sum = tellAll s e cs sum := by
  induction cs generalizing sum with
  | nil => rfl
  | cons c cs ih =>
    rw [onEvent, tellAll]
    by_cases hl : c.listensTo e.source = true
    · rw [if_pos hl]
      simp only [ih]
    · rw [if_neg hl, Constraint.onEvent_of_not_listensTo (eq_false_of_ne_true hl)]
      simp only [ih, bind, Except.bind, Score.add_zero]

/-- What happens to a constraint set: it takes in whatever solutions and events come, true or not. -/
inductive Reached (rules : ConstraintSet S k) : ConstraintSet S k → Prop where
  /-- It begins without matches. -/
  | start : Reached rules rules.reset
  /-- A solution is taken in. -/
  | load {cs cs' : ConstraintSet S k} {s : S} {score : Score k} :
    Reached rules cs → ConstraintSet.load s cs .zero = .ok (cs', score) → Reached rules cs'
  /-- An event is taken in. -/
  | event {cs cs' : ConstraintSet S k} {s : S} {e : SourceEvent} {change : Score k} :
    Reached rules cs → onEvent s e cs .zero = .ok (cs', change) → Reached rules cs'
  /-- The matches go. -/
  | reset {cs : ConstraintSet S k} : Reached rules cs → Reached rules cs.reset

/-- The books of each constraint balance, and their rules are kept. -/
def Weighed (rules cs : ConstraintSet S k) : Prop :=
  cs.reset = rules.reset ∧ ∀ c ∈ cs, c.Weighs c.tuples .zero

/-- Without matches the books balance. -/
theorem weighed_reset (h : cs.reset = rules.reset) : Weighed rules cs.reset := by
  refine ⟨(reset_reset cs).trans h, fun c hc => ?_⟩
  obtain ⟨c, -, rfl⟩ := List.mem_map.1 hc
  have hempty : c.reset.Weighs Tuples.none .zero := .empty rfl rfl
  exact hempty.eq_tuples ▸ hempty

/-- Loading a solution keeps the books. -/
theorem Weighed.load (h : Weighed rules cs) (hok : ConstraintSet.load s cs sum = .ok (cs', sum')) :
    Weighed rules cs' := by
  obtain ⟨hreset, hcs⟩ := h
  suffices hkept : cs'.reset = cs.reset ∧ ∀ c ∈ cs', c.Weighs c.tuples .zero from
    ⟨hkept.1.trans hreset, hkept.2⟩
  clear hreset
  induction cs generalizing cs' sum with
  | nil =>
    cases hok
    exact ⟨rfl, nofun⟩
  | cons c cs ih =>
    obtain ⟨hc, hcs⟩ := List.forall_mem_cons.1 hcs
    simp only [ConstraintSet.load, bind_eq_ok_iff, pure_eq_ok_iff] at hok
    obtain ⟨c', hload, sum₁, -, ⟨cs₁, sum₂⟩, hrest, hpure⟩ := hok
    cases hpure
    obtain ⟨hc', hreset⟩ := hc.load hload
    obtain ⟨hresets, hcs'⟩ := ih hrest hcs
    exact ⟨congrArg₂ List.cons hreset hresets, List.forall_mem_cons.2 ⟨hc', hcs'⟩⟩

/-- An event keeps the books. -/
theorem Weighed.onEvent (h : Weighed rules cs) (hok : ConstraintSet.onEvent s e cs sum = .ok (cs', sum')) :
    Weighed rules cs' := by
  rw [onEvent_eq_tellAll] at hok
  obtain ⟨hreset, hcs⟩ := h
  suffices hkept : cs'.reset = cs.reset ∧ ∀ c ∈ cs', c.Weighs c.tuples .zero from
    ⟨hkept.1.trans hreset, hkept.2⟩
  clear hreset
  induction cs generalizing cs' sum with
  | nil =>
    cases hok
    exact ⟨rfl, nofun⟩
  | cons c cs ih =>
    obtain ⟨hc, hcs⟩ := List.forall_mem_cons.1 hcs
    simp only [tellAll, bind_eq_ok_iff, pure_eq_ok_iff] at hok
    obtain ⟨⟨c', change⟩, hevent, sum₁, -, ⟨cs₁, sum₂⟩, hrest, hpure⟩ := hok
    cases hpure
    obtain ⟨hc', hreset⟩ := hc.onEvent hevent
    obtain ⟨hresets, hcs'⟩ := ih hrest hcs
    exact ⟨congrArg₂ List.cons hreset hresets, List.forall_mem_cons.2 ⟨hc', hcs'⟩⟩

/-- Whatever happens keeps the books. -/
theorem Reached.weighed (h : Reached rules cs) : Weighed rules cs := by
  induction h with
  | start => exact weighed_reset rfl
  | load _ hok ih => exact ih.load hok
  | event _ hok ih => exact ih.onEvent hok
  | reset _ ih => exact weighed_reset ih.1

/-- The score of a set is the sum of the totals. -/
theorem vector_of_score {score : Score k} (h : cs.score = .ok score) : score.vector = cs.total := by
  have hfold : ∀ (cs : ConstraintSet S k) (sum score : Score k),
      cs.foldlM (fun sum c => sum.add c.total) sum = .ok score → score.vector = sum.vector + cs.total := by
    intro cs
    induction cs with
    | nil =>
      rintro sum score ⟨⟩
      exact (add_zero _).symm
    | cons c cs ih =>
      intro sum score h
      rw [List.foldlM_cons] at h
      obtain ⟨sum₁, hsum, h⟩ := bind_eq_ok_iff.1 h
      rw [ih sum₁ score h, Score.vector_of_add hsum, total_cons, add_assoc]
  rw [hfold cs .zero score h, Score.vector_zero, zero_add]

/-- A solution is answered with the sum of the totals. -/
theorem vector_of_load_zero (hok : ConstraintSet.load s cs .zero = .ok (cs', sum)) : sum.vector = cs'.total := by
  rw [vector_of_load hok, Score.vector_zero, zero_add]

/-- An event changes the sum of the totals by what it is answered with. -/
theorem total_of_onEvent (hok : onEvent s e cs .zero = .ok (cs', sum)) : cs'.total = cs.total + sum.vector := by
  have htotal := vector_of_onEvent hok
  rwa [Score.vector_zero, add_zero] at htotal

/-- The books of a constraint set: each constraint is worth its matches, which follow the tuples, and the set is
worth its constraints. -/
structure Books (rules cs : ConstraintSet S k) : Prop where
  /-- The rules are kept. -/
  reset : cs.reset = rules.reset
  /-- The books of each constraint balance. -/
  balanced : ∀ c ∈ cs, c.Balanced
  /-- The matches of a constraint follow what its graph gives out, and its total changes by what it answers. -/
  follows : ∀ c ∈ cs, ∀ s e c' change, c.onEvent s e = .ok (c', change) →
    ∃ node ds, c.node.propagate s e = .ok (node, ds) ∧ c'.tuples = ds.foldl Delta.apply c.tuples ∧
      c'.total.vector = c.total.vector + change.vector
  /-- The score of the set is the sum of the totals. -/
  score : ∀ score, cs.score = .ok score → score.vector = cs.total
  /-- A solution is answered with the score of the set. -/
  loaded : ∀ s cs' score, ConstraintSet.load s cs .zero = .ok (cs', score) → score.vector = cs'.total
  /-- An event is answered with what the score of the set changes by. -/
  changed : ∀ s e cs' change, onEvent s e cs .zero = .ok (cs', change) → cs'.total = cs.total + change.vector
  /-- The analysis of each constraint lists its matches, which add up to its total. -/
  analysis : ∀ c ∈ cs, c.analysis.found.Perm (c.live.map fun e => ⟨c.ref, e.2.impact, c.justify e.2.tuple⟩) ∧
    c.analysis.score = c.total ∧ (c.analysis.found.map fun m => m.score.vector).sum = c.analysis.score.vector

/-- The books of a set that was reached are in order. -/
theorem Weighed.books (h : Weighed rules cs) : Books rules cs where
  reset := h.1
  balanced c hc := (h.2 c hc).balanced
  follows c hc s e c' change hok := by
    obtain ⟨⟨node, ds⟩, hnode, happly⟩ := bind_eq_ok_iff.1 hok
    obtain ⟨-, -, htuples⟩ := (h.2 c hc).follow (Node.reset_of_propagate hnode) happly
    exact ⟨node, ds, hnode, htuples, Constraint.vector_of_onEvent hok⟩
  score _ hscore := vector_of_score hscore
  loaded _ _ _ hok := vector_of_load_zero hok
  changed _ _ _ _ hok := total_of_onEvent hok
  analysis c hc := (h.2 c hc).balanced.analysis

end ConstraintSet

/-! ## Directors -/

/-- A director scores by constraints that were reached, and keeps their score. -/
def Scoring.Balanced (rules : ConstraintSet S k) (scoring : Scoring S k) : Prop :=
  ∃ live, scoring = .incremental live ∧ ConstraintSet.Reached rules live.constraints ∧
    live.cached.vector = live.constraints.total

/-- An operation of a director. Whether what is announced is true is up to the caller. -/
inductive Director.Operates [PlanningSolution S k] : Director S k → Director S k → Prop where
  /-- The solution is edited. -/
  | edit {dir dir' f} : dir.edit f = .ok dir' → Operates dir dir'
  /-- A variable of an entity is about to change. -/
  | beforeEntityChanged {dir} : Operates dir dir.beforeVariableChanged
  /-- A variable of an entity changed. -/
  | entityChanged {dir dir' x name} : dir.afterVariableChanged x name = .ok dir' → Operates dir dir'
  /-- A fact changed. -/
  | factChanged {dir dir' d i} : dir.afterFactChanged d i = .ok dir' → Operates dir dir'
  /-- An entity is about to come or go. -/
  | beforeEntityMoved {dir dir' x} : dir.beforeEntityMoved x = .ok dir' → Operates dir dir'
  /-- An entity came. -/
  | entityAdded {dir dir' x} : dir.afterEntityAdded x = .ok dir' → Operates dir dir'
  /-- An entity went. -/
  | entityRemoved {dir dir' x} : dir.afterEntityRemoved x = .ok dir' → Operates dir dir'
  /-- A fact is about to come or go. -/
  | beforeFactMoved {dir dir' d i} : dir.beforeFactMoved d i = .ok dir' → Operates dir dir'
  /-- A fact came or went. -/
  | factMoved {dir dir' d i} : dir.afterFactMoved d i = .ok dir' → Operates dir dir'
  /-- The working solution is replaced. -/
  | setSolution {dir dir' s} : dir.setSolution s = .ok dir' → Operates dir dir'
  /-- The shadow variables are made anew. -/
  | trigger {dir dir'} : dir.triggerListeners = .ok dir' → Operates dir dir'
  /-- The matches go. -/
  | reset {dir} : Operates dir dir.reset
  /-- The score is asked for. -/
  | calculate {dir dir' score} : dir.calculate = .ok (dir', score) → Operates dir dir'
  /-- The score is compared with the one made afresh. -/
  | assertScore {dir dir' answer} : dir.assertScore = .ok (dir', answer) → Operates dir dir'
  /-- The score is explained. -/
  | explain {dir dir' explanation} : dir.explain = .ok (dir', explanation) → Operates dir dir'
  /-- What was recorded is undone. -/
  | undo {dir dir'} : dir.undoRecording = .ok dir' → Operates dir dir'
  /-- Recordings are opened, written and closed, and events are reported. -/
  | note {dir recordings journal} :
    Operates dir { dir with recordings := recordings, journal := journal }

/-- A score that is reset is that of no matches. -/
theorem ConstraintSet.total_reset (cs : ConstraintSet S k) : cs.reset.total = 0 := by
  induction cs with
  | nil => rfl
  | cons c cs ih =>
    have hcons : total (reset (c :: cs)) = c.reset.total.vector + total (reset cs) := rfl
    rw [hcons, ih, add_zero]
    exact Score.vector_zero

namespace Director

variable {dir dir' : Director S k} {rules : ConstraintSet S k}

/-- A director that forgets keeps its books. -/
theorem balanced_forget (h : dir.scoring.Balanced rules) : dir.forget.scoring.Balanced rules := by
  obtain ⟨live, hlive, hreached, hcached⟩ := h
  have heq : dir.forget = dir := by rw [forget, hlive]
  rw [heq]
  exact ⟨live, hlive, hreached, hcached⟩

/-- A director without matches keeps its books. -/
theorem balanced_resetScoring (h : dir.scoring.Balanced rules) : dir.resetScoring.scoring.Balanced rules := by
  obtain ⟨live, hlive, hreached, -⟩ := h
  rw [resetScoring, hlive]
  exact ⟨_, rfl, hreached.reset, by rw [Score.vector_zero, ConstraintSet.total_reset]⟩

/-- A director that passes on an event keeps its books. -/
theorem balanced_emit (h : dir.scoring.Balanced rules) {e : SourceEvent} (hok : dir.emit e = .ok dir') :
    dir'.scoring.Balanced rules := by
  obtain ⟨live, hlive, hreached, hcached⟩ := h
  simp only [emit, hlive] at hok
  split at hok
  · simp only [bind_eq_ok_iff, pure_eq_ok_iff] at hok
    obtain ⟨⟨cs, change⟩, hevent, cached, hadd, rfl⟩ := hok
    refine ⟨_, rfl, hreached.event hevent, ?_⟩
    rw [Score.vector_of_add hadd, hcached, ConstraintSet.total_of_onEvent hevent]
  · cases hok
    exact ⟨live, hlive, hreached, hcached⟩

/-- Steps that keep the books keep them one after another. -/
theorem balanced_foldlM {α : Type} {step : Director S k → α → Checked (Director S k)}
    (hstep : ∀ {dir a dir'}, dir.scoring.Balanced rules → step dir a = .ok dir' → dir'.scoring.Balanced rules)
    (h : dir.scoring.Balanced rules) {l : List α} (hok : l.foldlM step dir = .ok dir') :
    dir'.scoring.Balanced rules := by
  induction l generalizing dir with
  | nil =>
    cases hok
    exact h
  | cons a l ih =>
    rw [List.foldlM_cons] at hok
    obtain ⟨dir₁, h₁, hok⟩ := bind_eq_ok_iff.1 hok
    exact ih (hstep h h₁) hok

/-- A director that passes on events of a range keeps its books. -/
theorem balanced_emitRange (h : dir.scoring.Balanced rules) {change : Change} {source : SourceClass} {i n : Nat}
    (hok : dir.emitRange change source i n = .ok dir') : dir'.scoring.Balanced rules :=
  balanced_foldlM (fun h hok => balanced_emit h hok) h hok

/-- A director that follows a change keeps its books. -/
theorem balanced_cascade (h : dir.scoring.Balanced rules) {x : EntityRef} {index : Option Nat} {i n : Nat}
    (hok : dir.cascade x index i n = .ok dir') : dir'.scoring.Balanced rules := by
  obtain ⟨⟨s, changed⟩, -, hok⟩ := bind_eq_ok_iff.1 hok
  have hs : ({ dir with solution := s } : Director S k).scoring.Balanced rules := h
  exact balanced_foldlM (fun h hok => balanced_emit h hok) hs hok

/-- A director that is told of a change of an entity keeps its books. -/
theorem balanced_afterVariableChanged (h : dir.scoring.Balanced rules) {x : EntityRef} {name : String}
    (hok : dir.afterVariableChanged x name = .ok dir') : dir'.scoring.Balanced rules := by
  obtain ⟨dir₁, h₁, hok⟩ := bind_eq_ok_iff.1 hok
  obtain ⟨dir₂, h₂, hok⟩ := bind_eq_ok_iff.1 hok
  cases pure_eq_ok_iff.1 hok
  exact balanced_forget (balanced_emit (balanced_cascade h h₁) h₂)

/-- A director that edits its solution keeps its books. -/
theorem balanced_edit (h : dir.scoring.Balanced rules) {f : S → Checked S} (hok : dir.edit f = .ok dir') :
    dir'.scoring.Balanced rules := by
  obtain ⟨s, -, hok⟩ := bind_eq_ok_iff.1 hok
  cases pure_eq_ok_iff.1 hok
  exact balanced_forget h

variable [PlanningSolution S k]

/-- A director that is asked for the score keeps its books and gives the score that it keeps. -/
theorem balanced_calculate (h : dir.scoring.Balanced rules) {score : Score k}
    (hok : dir.calculate = .ok (dir', score)) :
    dir'.scoring.Balanced rules ∧ ∀ live, dir'.scoring = .incremental live → score = live.cached := by
  obtain ⟨live, hlive, hreached, hcached⟩ := h
  simp only [calculate, hlive, bind_eq_ok_iff, pure_eq_ok_iff] at hok
  obtain ⟨⟨dir₁, live₁⟩, hload, hpure⟩ := hok
  cases hpure
  have hlive₁ : ConstraintSet.Reached rules live₁.constraints ∧
      live₁.cached.vector = live₁.constraints.total := by
    unfold load at hload
    split at hload
    · cases hload
      exact ⟨hreached, hcached⟩
    · simp only [bind_eq_ok_iff, pure_eq_ok_iff] at hload
      obtain ⟨⟨cs, sum⟩, hload, hpure⟩ := hload
      cases hpure
      exact ⟨hreached.load hload, ConstraintSet.vector_of_load_zero hload⟩
  refine ⟨⟨_, rfl, hlive₁.1, hlive₁.2⟩, ?_⟩
  rintro live' ⟨⟩
  rfl

/-- A director that explains its score keeps its books and gives the analyses of its constraints. -/
theorem balanced_explain (h : dir.scoring.Balanced rules) {explanation : ScoreExplanation k}
    (hok : dir.explain = .ok (dir', explanation)) :
    dir'.scoring.Balanced rules ∧ ∀ live, dir'.scoring = .incremental live →
      explanation.score = live.cached ∧ explanation.analyses = live.constraints.analyze := by
  obtain ⟨⟨dir₁, score⟩, h₁, hok⟩ := bind_eq_ok_iff.1 hok
  obtain ⟨⟨live, hlive, hreached, hcached⟩, hscore⟩ := balanced_calculate h h₁
  simp only [hlive, pure_eq_ok_iff] at hok
  cases hok
  refine ⟨⟨live, hlive, hreached, hcached⟩, fun live' hlive' => ?_⟩
  rw [hlive] at hlive'
  cases hlive'
  exact ⟨hscore live hlive, rfl⟩

/-- A director keeps its books whatever it does. -/
theorem balanced_operates (h : dir.scoring.Balanced rules) (hdo : Operates dir dir') :
    dir'.scoring.Balanced rules := by
  cases hdo with
  | edit hok => exact balanced_edit h hok
  | beforeEntityChanged => exact balanced_forget h
  | entityChanged hok => exact balanced_afterVariableChanged h hok
  | factChanged hok =>
    obtain ⟨dir₁, h₁, hok⟩ := bind_eq_ok_iff.1 hok
    cases pure_eq_ok_iff.1 hok
    exact balanced_forget (balanced_emit h h₁)
  | beforeEntityMoved hok =>
    obtain ⟨dir₁, h₁, hok⟩ := bind_eq_ok_iff.1 hok
    cases pure_eq_ok_iff.1 hok
    exact balanced_forget (balanced_emitRange h h₁)
  | entityAdded hok =>
    obtain ⟨dir₁, h₁, hok⟩ := bind_eq_ok_iff.1 hok
    obtain ⟨dir₂, h₂, hok⟩ := bind_eq_ok_iff.1 hok
    cases pure_eq_ok_iff.1 hok
    exact balanced_forget (balanced_emitRange (balanced_cascade h h₁) h₂)
  | entityRemoved hok =>
    obtain ⟨dir₁, h₁, hok⟩ := bind_eq_ok_iff.1 hok
    obtain ⟨dir₂, h₂, hok⟩ := bind_eq_ok_iff.1 hok
    cases pure_eq_ok_iff.1 hok
    exact balanced_forget (balanced_emitRange (balanced_foldlM (fun h hok => balanced_cascade h hok) h h₁) h₂)
  | beforeFactMoved hok =>
    obtain ⟨dir₁, h₁, hok⟩ := bind_eq_ok_iff.1 hok
    cases pure_eq_ok_iff.1 hok
    exact balanced_forget (balanced_emitRange h h₁)
  | factMoved hok =>
    obtain ⟨dir₁, h₁, hok⟩ := bind_eq_ok_iff.1 hok
    cases pure_eq_ok_iff.1 hok
    exact balanced_forget (balanced_emitRange h h₁)
  | setSolution hok =>
    obtain ⟨s, -, hok⟩ := bind_eq_ok_iff.1 hok
    cases pure_eq_ok_iff.1 hok
    exact balanced_resetScoring h
  | trigger hok =>
    unfold triggerListeners at hok
    split at hok
    · cases pure_eq_ok_iff.1 hok
      exact balanced_forget h
    · obtain ⟨s, -, hok⟩ := bind_eq_ok_iff.1 hok
      cases pure_eq_ok_iff.1 hok
      exact balanced_resetScoring h
  | reset => exact balanced_resetScoring h
  | calculate hok => exact (balanced_calculate h hok).1
  | assertScore hok =>
    obtain ⟨⟨dir₁, score⟩, h₁, hok⟩ := bind_eq_ok_iff.1 hok
    have h' := (balanced_calculate h h₁).1
    dsimp only at hok
    split at hok
    · cases hok
      exact h'
    · obtain ⟨⟨fresh, scratch⟩, -, hok⟩ := bind_eq_ok_iff.1 hok
      dsimp only at hok
      split at hok
      · cases hok
        exact h'
      · cases hok
        exact h'
  | explain hok => exact (balanced_explain h hok).1
  | undo hok =>
    unfold undoRecording at hok
    split at hok
    · cases pure_eq_ok_iff.1 hok
      exact h
    · rename_i r rs _
      obtain ⟨dir₁, h₁, hok⟩ := bind_eq_ok_iff.1 hok
      obtain ⟨dir₂, h₂, hok⟩ := bind_eq_ok_iff.1 hok
      cases pure_eq_ok_iff.1 hok
      have hopen : ({ dir.forget with recordings := rs } : Director S k).scoring.Balanced rules := balanced_forget h
      have hundone : dir₁.scoring.Balanced rules := balanced_foldlM (fun h hok => balanced_edit h hok) hopen h₁
      have hannounced : dir₂.scoring.Balanced rules :=
        balanced_foldlM (fun h hok => balanced_afterVariableChanged h hok) hundone h₂
      exact hannounced
  | note => exact h

/-- The books of the constraints are in order whatever happens to them; an event of a class that a graph does not
read goes through it without a trace, so that it may be passed on to all constraints or to those that read the
class; and whatever a director does, the score that it keeps is the sum of the scores of its constraints, and its
explanation lists what makes them up. -/
theorem books_kept (rules : ConstraintSet S k) :
    (∀ cs, ConstraintSet.Reached rules cs → ConstraintSet.Books rules cs) ∧
    (∀ (s : S) (e : SourceEvent),
      (∀ n : Node S, n.listensTo e.source = false → n.propagate s e = .ok (n, [])) ∧
      ∀ (cs : ConstraintSet S k) (sum : Score k),
        ConstraintSet.onEvent s e cs sum = ConstraintSet.tellAll s e cs sum) ∧
    ∀ (d : ValidatedDescriptor) (shadows : ShadowCascade S) (s : S) (dir₀ dir : Director S k),
      create d shadows (.incremental { constraints := rules.reset }) s = .ok dir₀ →
      Relation.ReflTransGen Operates dir₀ dir →
      ∃ live, dir.scoring = .incremental live ∧ ConstraintSet.Books rules live.constraints ∧
        live.cached.vector = live.constraints.total ∧
        (∀ score, live.constraints.score = .ok score → score = live.cached) ∧
        ∀ dir' explanation, dir.explain = .ok (dir', explanation) →
          ∃ live', dir'.scoring = .incremental live' ∧ ConstraintSet.Books rules live'.constraints ∧
            explanation.score = live'.cached ∧ explanation.analyses = live'.constraints.analyze ∧
            (explanation.analyses.map fun a => a.score.vector).sum = explanation.score.vector := by
  refine ⟨fun cs h => h.weighed.books,
    fun s e => ⟨fun n h => Node.propagate_of_not_listensTo h, ConstraintSet.onEvent_eq_tellAll s e⟩,
    fun d shadows s dir₀ dir h₀ hrun => ?_⟩
  obtain ⟨s', -, h₀⟩ := bind_eq_ok_iff.1 h₀
  cases pure_eq_ok_iff.1 h₀
  have hbalanced : dir.scoring.Balanced rules := by
    induction hrun with
    | refl => exact ⟨_, rfl, .start, Score.vector_zero.trans (ConstraintSet.total_reset rules).symm⟩
    | tail _ hdo ih => exact balanced_operates ih hdo
  obtain ⟨live, hlive, hreached, hcached⟩ := hbalanced
  refine ⟨live, hlive, hreached.weighed.books, hcached, fun score hscore => ?_, fun dir' explanation hexplain => ?_⟩
  · exact Score.vector_inj.1 ((ConstraintSet.vector_of_score hscore).trans hcached.symm)
  · obtain ⟨⟨live', hlive', hreached', hcached'⟩, hexplanation⟩ :=
      balanced_explain ⟨live, hlive, hreached, hcached⟩ hexplain
    obtain ⟨hscore, hanalyses⟩ := hexplanation live' hlive'
    refine ⟨live', hlive', hreached'.weighed.books, hscore, hanalyses, ?_⟩
    rw [hanalyses, hscore, hcached', ConstraintSet.analyze, List.map_map]
    rfl

/-- A board whose first queen changes its row. -/
theorem books_kept_queens :
    ∃ (dir₀ dir : Director QueensBoard .simple) (live : LiveScoring QueensBoard .simple),
      create queensDescriptor [] (.incremental { constraints := QueensBoard.constraints.reset })
        (.ofRows [some 1, some 2, some 3]) = .ok dir₀ ∧
      Relation.ReflTransGen Operates dir₀ dir ∧ dir.scoring = .incremental live ∧
      ConstraintSet.Books QueensBoard.constraints live.constraints ∧
      live.cached.vector = live.constraints.total := by
  obtain ⟨⟨dir, score, fresh⟩, hok⟩ := exists_eq_ok_of_isOk
    (x := rescore QueensBoard.constraints (.ofRows [some 1, some 2, some 3]) 2) (by decide +kernel)
  simp only [rescore, bind_eq_ok_iff, pure_eq_ok_iff] at hok
  obtain ⟨dir₀, h₀, ⟨dir₁, score₁⟩, h₁, dir₂, h₂, dir₃, h₃, -⟩ := hok
  have hrun : Relation.ReflTransGen Operates dir₀ dir₃ :=
    .tail (.tail (.tail .refl (.calculate h₁)) (.edit h₂)) (.entityChanged h₃)
  obtain ⟨live, hlive, hbooks, hcached, -⟩ := (books_kept QueensBoard.constraints).2.2 _ _ _ dir₀ dir₃ h₀ hrun
  exact ⟨dir₀, dir₃, live, h₀, hrun, hlive, hbooks, hcached⟩

end Director

end Planning
