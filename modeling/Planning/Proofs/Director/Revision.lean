import Planning.Problem
import Planning.ProblemChange
import Planning.Proofs.Constraint.Worth
import Planning.Proofs.Director.Evolution
import Planning.Proofs.Director.Run
import Planning.Proofs.Director.Trial
import Planning.Proofs.Sequence

/-!
# Revisions

Moves are made and undone, and the problem itself is amended: entities and facts come and go at any position, and
values are set from outside. A director that scores incrementally follows its solution through all of it, so that
the score it gives is what its constraints are worth in the working solution.
-/

namespace Planning

open Checked

variable {S : Type} {k : ScoreKind} [PlanningSolution S k]

/-- An amendment of a problem: where something comes, goes or changes, and the edit that does it. -/
inductive Amendment (S : Type) where
  /-- An entity comes at a position. -/
  | comes (x : EntityRef) (f : S → Checked S)
  /-- An entity goes from a position. -/
  | goes (x : EntityRef) (f : S → Checked S)
  /-- A fact comes at a position or goes from it. -/
  | fact (factClass i : Nat) (f : S → Checked S)
  /-- A variable of an entity is set. -/
  | varies (x : EntityRef) (name : String) (f : S → Checked S)

/-- An edit keeps the members of other classes, and those of its class before a position. -/
def KeepsBefore (cs : ConstraintSet S k) (cl : SourceClass) (i : Nat) (s s' : S) : Prop :=
  ∀ cl' members, cs.Reads cl' members → ∀ j, cl' ≠ cl ∨ j < i → (members s')[j]? = (members s)[j]?

/-- An amendment changes what it announces and nothing else. -/
def Amendment.Sound (cs : ConstraintSet S k) (s : S) : Amendment S → Prop
  | comes x f => ∀ s', f s = .ok s' → KeepsBefore cs (.entity x.1) x.2 s s'
  | goes x f => ∀ s', f s = .ok s' → KeepsBefore cs (.entity x.1) x.2 s s'
  | fact d i f => ∀ s', f s = .ok s' → KeepsBefore cs (.fact d) i s s'
  | varies x _ f => ∀ s', f s = .ok s' → Reported cs s s' [x]

namespace Pending

/-- What was taken out and came back is not pending. -/
theorem closed_opened_none (cl : SourceClass) (i : Nat) : (none.opened cl i).closed cl i = none := by
  simp [none, opened, closed]

end Pending

namespace Director

variable {dir dir' dir'' : Director S k} {cs : ConstraintSet S k} {shadows : ShadowCascade S}
variable {P : Move S → Prop} {A : S → Amendment S → Prop}

/-- The director after an amendment. -/
def amend (dir : Director S k) : Amendment S → Checked (Director S k)
  | .comes x f => dir.addEntity x f
  | .goes x f => dir.removeEntity x f
  | .fact d i f => dir.moveFact d i f
  | .varies x name f => dir.changeVariable x name f

omit [PlanningSolution S k] in
/-- Members that an edit keeps are neither out nor stale after it. -/
theorem Follows.keeps {cl : SourceClass} {i : Nat} (h : dir.Follows cs (Pending.none.opened cl i))
    {f : S → Checked S} (hf : ∀ s', f dir.solution = .ok s' → KeepsBefore cs cl i dir.solution s')
    (hok : dir.edit f = .ok dir') :
    dir'.Follows cs (Pending.none.opened cl i) ∧ dir'.shadows = dir.shadows := by
  refine h.edit hok rfl fun cl' members hr j hj => ?_
  have hkept : cl' ≠ cl ∨ j < i := by
    by_contra hne
    simp only [not_or, not_not, Nat.not_lt] at hne
    exact hj (.inr hne)
  rw [hf _ (edit_eq hok).1 cl' members hr j hkept]
  exact ⟨Iff.rfl, fun hstale => ⟨hstale, rfl⟩⟩

/-- After a sound amendment a director follows its solution. -/
theorem Follows.amend (hc : Contract cs shadows) (hshadows : dir.shadows = shadows) (h : dir.Follows cs .none)
    {a : Amendment S} (ha : a.Sound cs dir.solution) (hok : dir.amend a = .ok dir') :
    dir'.Follows cs .none ∧ dir'.shadows = shadows := by
  have hin : ∀ (cl : SourceClass) (i j : Nat), (cl, j) ∈ (Pending.none.opened cl i).out ↔ i ≤ j := by
    intro cl i j
    simp [Pending.none, Pending.opened]
  have hout : ∀ (x y : EntityRef), y.1 ≠ x.1 →
      (SourceClass.entity y.1, y.2) ∉ (Pending.none.opened (.entity x.1) x.2).out := by
    intro x y hne
    simpa [Pending.none, Pending.opened] using fun heq => absurd heq hne
  cases a with
  | comes x f =>
    obtain ⟨dir₁, h₁, hrest⟩ := bind_eq_ok_iff.1 hok
    obtain ⟨dir₂, h₂, h₃⟩ := bind_eq_ok_iff.1 hrest
    obtain ⟨hf₁, hs₁⟩ := h.beforeEntityMoved hc (fun j => Set.notMem_empty _) h₁
    have hsame : dir₁.solution = dir.solution := by rw [beforeEntityMoved_eq h₁]
    obtain ⟨hf₂, hs₂⟩ := hf₁.keeps (by rw [hsame]; exact ha) h₂
    have hs := hs₂.trans (hs₁.trans hshadows)
    obtain ⟨hf₃, hs₃⟩ := hf₂.afterEntityAdded hc hs (hin _ _) (.inr (hout x)) h₃
    rw [Pending.closed_opened_none] at hf₃
    exact ⟨hf₃, hs₃.trans hs⟩
  | goes x f =>
    obtain ⟨dir₁, h₁, hrest⟩ := bind_eq_ok_iff.1 hok
    obtain ⟨dir₂, h₂, h₃⟩ := bind_eq_ok_iff.1 hrest
    obtain ⟨hf₁, hs₁⟩ := h.beforeEntityMoved hc (fun j => Set.notMem_empty _) h₁
    have hsame : dir₁.solution = dir.solution := by rw [beforeEntityMoved_eq h₁]
    obtain ⟨hf₂, hs₂⟩ := hf₁.keeps (by rw [hsame]; exact ha) h₂
    have hs := hs₂.trans (hs₁.trans hshadows)
    obtain ⟨hf₃, hs₃⟩ := hf₂.afterEntityRemoved hc hs (hin _ _) (.inr (hout x)) h₃
    rw [Pending.closed_opened_none] at hf₃
    exact ⟨hf₃, hs₃.trans hs⟩
  | fact d i f =>
    obtain ⟨dir₁, h₁, hrest⟩ := bind_eq_ok_iff.1 hok
    obtain ⟨dir₂, h₂, h₃⟩ := bind_eq_ok_iff.1 hrest
    obtain ⟨hf₁, hs₁⟩ := h.beforeFactMoved hc (fun j => Set.notMem_empty _) h₁
    have hsame : dir₁.solution = dir.solution := by rw [beforeFactMoved_eq h₁]
    obtain ⟨hf₂, hs₂⟩ := hf₁.keeps (by rw [hsame]; exact ha) h₂
    obtain ⟨hf₃, hs₃⟩ := hf₂.afterFactMoved hc (hin _ _) h₃
    rw [Pending.closed_opened_none] at hf₃
    exact ⟨hf₃, hs₃.trans (hs₂.trans (hs₁.trans hshadows))⟩
  | varies x name f =>
    obtain ⟨dir₁, h₁, h₂⟩ := bind_eq_ok_iff.1 hok
    rw [beforeVariableChanged, h.forget_eq] at h₁
    obtain ⟨hs₁, heq₁⟩ := edit_eq h₁
    have hedits : [f].foldlM (fun dir f => dir.edit f) dir = .ok dir₁ := by
      rw [List.foldlM_cons, h₁]
      rfl
    have hf₁ := h.reported hc (ha _ hs₁) (h.scoring_editAll hedits)
    have hannounced : [x].foldlM (fun dir x => dir.afterVariableChanged x name) dir₁ = .ok dir' := by
      rw [List.foldlM_cons, h₂]
      rfl
    obtain ⟨hf₂, hs₂⟩ := hf₁.announced hc (by rw [heq₁, hshadows]) hannounced
    rw [sdiff_self] at hf₂
    exact ⟨hf₂, hs₂⟩

end Director

section Changes

variable {E V : Type} [PlanningValue V] {dir dir' : Director S k}

/-- The amendment that a change of the problem makes in a solution, unless it is refused. -/
inductive ProblemChange.Makes : ProblemChange S k → S → Amendment S → Prop where
  /-- An entity comes behind the others. -/
  | addEntity {E : Type} (c : Collection S E) (d : Nat) (a : E) (text : String) (s : S) :
    Makes (.addEntity c d a text) s
      (.comes (d, (c.members s).length) (c.edit fun l => insertAt l (c.members s).length a))
  /-- An entity goes. -/
  | removeEntity {E : Type} (c : Collection S E) (d i : Nat) (s : S) :
    Makes (.removeEntity c d i) s (.goes (d, i) (c.edit fun l => removeAt l i))
  /-- A fact comes behind the others. -/
  | addFact {E : Type} (c : Collection S E) (d : Nat) (a : E) (text : String) (s : S) :
    Makes (.addFact c d a text) s
      (.fact d (c.members s).length (c.edit fun l => insertAt l (c.members s).length a))
  /-- A fact goes. -/
  | removeFact {E : Type} (c : Collection S E) (d i : Nat) (s : S) :
    Makes (.removeFact c d i) s (.fact d i (c.edit fun l => removeAt l i))
  /-- An entity takes another value, or none. -/
  | setValue {V : Type} [PlanningValue V] (x : BasicVariable S V) (e : Nat) (v : Option V) (s : S) :
    Makes (.setValue x e v) s (.varies (x.entityClass, e) x.name fun s => .ok (x.set s e v))

omit [PlanningSolution S k] in
/-- Putting a member behind the others is putting it in at their number. -/
theorem Collection.edit_append (c : Collection S E) (s : S) (a : E) :
    c.edit (fun l => .ok (l ++ [a])) s = c.edit (fun l => insertAt l (c.members s).length a) s := by
  rw [edit, edit, insertAt, if_pos le_rfl, List.take_length, List.drop_length]

namespace Director

omit [PlanningSolution S k] in
/-- What an edit does is a matter of the working solution. -/
theorem edit_congr {f f' : S → Checked S} (h : f dir.solution = f' dir.solution) : dir.edit f = dir.edit f' := by
  rw [edit, edit, h]

/-- A change of the problem is refused and does nothing, or makes its amendment. -/
theorem amend_of_apply {c : ProblemChange S k} {a : Amendment S} (hc : c.Makes dir.solution a)
    {refusal : Option SolverError} (hok : c.apply dir = .ok (dir', refusal)) :
    refusal ≠ none ∧ dir' = dir ∨ refusal = none ∧ dir.amend a = .ok dir' := by
  cases hc with
  | addEntity c d a text =>
    obtain ⟨dir₁, h₁, hpure⟩ := bind_eq_ok_iff.1 hok
    cases hpure
    obtain ⟨dir₂, h₂, hrest⟩ := bind_eq_ok_iff.1 h₁
    have hsame : dir₂.solution = dir.solution := by rw [beforeEntityMoved_eq h₂]
    rw [edit_congr ((c.edit_append dir₂.solution a).trans (by rw [hsame]))] at hrest
    exact .inr ⟨rfl, bind_eq_ok_iff.2 ⟨dir₂, h₂, hrest⟩⟩
  | removeEntity c d i =>
    dsimp only [ProblemChange.removeEntity] at hok
    split at hok
    · cases hok
      exact .inl ⟨Option.some_ne_none _, rfl⟩
    · obtain ⟨dir₁, h₁, hpure⟩ := bind_eq_ok_iff.1 hok
      cases hpure
      exact .inr ⟨rfl, h₁⟩
  | addFact c d a text =>
    obtain ⟨dir₁, h₁, hpure⟩ := bind_eq_ok_iff.1 hok
    cases hpure
    obtain ⟨dir₂, h₂, hrest⟩ := bind_eq_ok_iff.1 h₁
    have hsame : dir₂.solution = dir.solution := by rw [beforeFactMoved_eq h₂]
    rw [edit_congr ((c.edit_append dir₂.solution a).trans (by rw [hsame]))] at hrest
    exact .inr ⟨rfl, bind_eq_ok_iff.2 ⟨dir₂, h₂, hrest⟩⟩
  | removeFact c d i =>
    dsimp only [ProblemChange.removeFact] at hok
    split at hok
    · cases hok
      exact .inl ⟨Option.some_ne_none _, rfl⟩
    · obtain ⟨dir₁, h₁, hpure⟩ := bind_eq_ok_iff.1 hok
      cases hpure
      exact .inr ⟨rfl, h₁⟩
  | setValue x e v =>
    dsimp only [ProblemChange.setValue] at hok
    split at hok
    · cases hok
      exact .inl ⟨Option.some_ne_none _, rfl⟩
    · split at hok
      · cases hok
        exact .inl ⟨Option.some_ne_none _, rfl⟩
      · obtain ⟨dir₁, h₁, hpure⟩ := bind_eq_ok_iff.1 hok
        cases hpure
        exact .inr ⟨rfl, h₁⟩

end Director

end Changes

/-- Undoing moves of some kind changes the entities that the moves announce and nothing else. -/
def Retraced (cs : ConstraintSet S k) (P : Move S → Prop) : Prop :=
  ∀ m, P m → ∀ s e, m.plan s = .ok e → ∀ t t', e.undo t = .ok t' → Reported cs t t' e.entities

namespace Director

variable {dir dir' dir'' : Director S k} {cs : ConstraintSet S k} {shadows : ShadowCascade S}
variable {P : Move S → Prop} {A : S → Amendment S → Prop}

/-- Undoing what the innermost recording remembers changes the entities that it tracked and nothing else. -/
def Retraces (cs : ConstraintSet S k) (dir : Director S k) : Prop :=
  ∃ r rs, dir.recordings = r :: rs ∧ ∀ undo ∈ r.undos, ∀ t t', undo t = .ok t' → Reported cs t t' r.modified

/-- A step of a caller that tries moves keeps what a recording remembers and what it tracked together. -/
theorem Retraces.trial (h : dir.Retraces cs) (hP : Retraced cs P) (hstep : Trial P dir dir') : dir'.Retraces cs := by
  obtain ⟨r, rs, hr, hundos⟩ := h
  rcases hstep.cases with ⟨m, e, hm, hplan, hperform⟩ | ⟨-, heq⟩
  · obtain ⟨s, -, -, heq⟩ := perform_eq hperform
    have htracked : (dir.trackAll e.entities).recordings =
        r.trackAll e.entities :: rs.map fun r => r.trackAll e.entities := by
      rw [trackAll, hr, List.map_cons]
    refine ⟨⟨e.undo :: (r.trackAll e.entities).undos, (r.trackAll e.entities).modified⟩,
      rs.map fun r => r.trackAll e.entities, ?_, ?_⟩
    · rw [heq]
      simp only [remember, htracked]
    · intro undo hundo t t' ht
      rw [Recording.undos_trackAll] at hundo
      rcases List.mem_cons.1 hundo with rfl | hundo
      · exact (Reported.chains cs).mono (hP m hm _ e hplan t t' ht) fun y hy =>
          Recording.mem_modified_trackAll.2 (.inr hy)
      · exact (Reported.chains cs).mono (hundos undo hundo t t' ht) fun y hy =>
          Recording.mem_modified_trackAll.2 (.inl hy)
  · refine ⟨r, rs, ?_, hundos⟩
    rw [heq]
    exact hr

/-- A director follows its solution after what was tried is undone. -/
theorem Follows.undone (hc : Contract cs shadows) (hshadows : dir.shadows = shadows) (h : dir.Follows cs .none)
    (hP : Announced cs P) (hP' : Retraced cs P) (htrials : Relation.ReflTransGen (Trial P) dir.record dir')
    (hundo : dir'.undoRecording = .ok dir'') : dir''.Follows cs .none ∧ dir''.shadows = shadows := by
  have hrecord : dir.record.Follows cs .none := h.congr rfl rfl
  have hs : dir.record.shadows = shadows := hshadows
  obtain ⟨h', hs'⟩ := hrecord.trials hc hs hP htrials
  have hretraces : dir'.Retraces cs := by
    clear hundo h' hs'
    induction htrials with
    | refl => exact ⟨{}, dir.recordings, rfl, nofun⟩
    | tail _ hstep ih => exact ih.trial hP' hstep
  obtain ⟨r, rs, hr, hundos⟩ := hretraces
  refine h'.undoRecording hc hs' hr (fun s hs => ?_) hundo
  generalize r.modified = xs at hundos
  clear hundo htrials hr
  generalize dir'.solution = t at hs
  generalize r.undos = undos at hs hundos
  induction undos generalizing t with
  | nil =>
    cases hs
    exact (Reported.chains cs).mono ((Reported.chains cs).refl _) (List.nil_subset _)
  | cons undo undos ih =>
    rw [List.foldlM_cons] at hs
    obtain ⟨t₁, h₁, hs⟩ := bind_eq_ok_iff.1 hs
    have hfirst := hundos undo List.mem_cons_self t t₁ h₁
    have hrest := ih t₁ hs fun undo hundo => hundos undo (List.mem_cons_of_mem _ hundo)
    exact (Reported.chains cs).mono ((Reported.chains cs).trans hfirst hrest) fun y hy =>
      (List.mem_append.1 hy).elim id id

/-- A revision: a move of some kind is made or the score is asked for, what was tried is undone, or an amendment of
some kind is made, also by a change of the problem that makes it or is refused. -/
inductive Revision (P : Move S → Prop) (A : S → Amendment S → Prop) : Director S k → Director S k → Prop where
  /-- A move is made, unless it cannot be, or the score is asked for. -/
  | trial {dir dir' : Director S k} (h : Trial P dir dir') : Revision P A dir dir'
  /-- Moves are made and undone. -/
  | undone {dir dir' dir'' : Director S k} (h : Relation.ReflTransGen (Trial P) dir.record dir')
    (hundo : dir'.undoRecording = .ok dir'') : Revision P A dir dir''.stopRecording
  /-- The problem is amended. -/
  | amended {a : Amendment S} {dir dir' : Director S k} (ha : A dir.solution a) (h : dir.amend a = .ok dir') :
    Revision P A dir dir'
  /-- The problem is changed. -/
  | changed {c : ProblemChange S k} {a : Amendment S} {dir dir' : Director S k} {refusal : Option SolverError}
    (hc : c.Makes dir.solution a) (ha : refusal = none → A dir.solution a) (h : c.apply dir = .ok (dir', refusal)) :
    Revision P A dir dir'

/-- A director follows its solution after a revision. -/
theorem Follows.revision (hc : Contract cs shadows) (hshadows : dir.shadows = shadows) (h : dir.Follows cs .none)
    (hP : Announced cs P) (hP' : Retraced cs P) (hA : ∀ s a, A s a → a.Sound cs s)
    (hstep : Revision P A dir dir') : dir'.Follows cs .none ∧ dir'.shadows = shadows := by
  cases hstep with
  | trial htrial => exact h.trial hc hshadows hP htrial
  | undone htrials hundo =>
    obtain ⟨h', hs'⟩ := h.undone hc hshadows hP hP' htrials hundo
    exact ⟨h'.congr rfl rfl, hs'⟩
  | amended ha hok => exact h.amend hc hshadows (hA _ _ ha) hok
  | changed hmakes ha hok =>
    rcases amend_of_apply hmakes hok with ⟨-, rfl⟩ | ⟨hdone, hamend⟩
    · exact ⟨h, hshadows⟩
    · exact h.amend hc hshadows (hA _ _ (ha hdone)) hamend

/-- A director follows its solution after any revisions. -/
theorem Follows.revisions (hc : Contract cs shadows) (hshadows : dir.shadows = shadows) (h : dir.Follows cs .none)
    (hP : Announced cs P) (hP' : Retraced cs P) (hA : ∀ s a, A s a → a.Sound cs s)
    (hsteps : Relation.ReflTransGen (Revision P A) dir dir') : dir'.Follows cs .none ∧ dir'.shadows = shadows := by
  induction hsteps with
  | refl => exact ⟨h, hshadows⟩
  | tail _ hstep ih => exact ih.1.revision hc ih.2 hP hP' hA hstep

/-- The score of a director that follows its solution is what its constraints are worth there, and the keys of their
joins are defined. -/
theorem Follows.vector_of_calculate (hc : Contract cs shadows) (h : dir.Follows cs .none) {score : Score k}
    (hok : dir.calculate = .ok (dir', score)) :
    score.vector = cs.worth dir.solution ∧ ∀ c ∈ cs, c.node.HasKeys dir.solution := by
  obtain ⟨live, V, hreset, hV, hin, hscore⟩ := h.loaded_of_calculate hok
  have hsound : live.Sound := by
    rw [← ConstraintSet.sound_reset, hreset, ConstraintSet.sound_reset]
    exact hc.sound
  obtain ⟨htotal, hkeys⟩ := hin.total_eq_worth (s := dir.solution) hsound fun cl members hr =>
    hV.eq_of ((ConstraintSet.reads_of_reset hreset cl members).1 hr)
  refine ⟨?_, fun c hc => ?_⟩
  · rw [hscore, htotal, ← ConstraintSet.worth_reset, hreset, ConstraintSet.worth_reset]
  · have hmem : c.reset ∈ live.reset := by
      rw [hreset]
      exact List.mem_map.2 ⟨c, hc, rfl⟩
    obtain ⟨c', hc', heq⟩ := List.mem_map.1 hmem
    have hnode : c'.node.reset = c.node.reset := congrArg Constraint.node heq
    rw [← Node.hasKeys_reset, ← hnode, Node.hasKeys_reset]
    exact hkeys c' hc'

/-- After any revisions of a problem that is scored incrementally the score is what the constraints are worth in the
working solution, and the keys of their joins are defined. -/
theorem vector_of_revisions {problem : PlanningProblem S k} {s : S} (hc : Contract problem.constraints shadows)
    (hreset : problem.constraints.reset = problem.constraints) (h₀ : problem.incremental s = .ok (.ok dir))
    (hshadows : dir.shadows = shadows) (hP : Announced problem.constraints P) (hP' : Retraced problem.constraints P)
    (hA : ∀ s a, A s a → a.Sound problem.constraints s) (hsteps : Relation.ReflTransGen (Revision P A) dir dir')
    {score : Score k} (hok : dir'.calculate = .ok (dir'', score)) :
    score.vector = problem.constraints.worth dir'.solution ∧
      ∀ c ∈ problem.constraints, c.node.HasKeys dir'.solution := by
  have hfollows : dir.Follows problem.constraints .none := by
    unfold PlanningProblem.incremental PlanningProblem.director at h₀
    split at h₀
    · cases h₀
    · split at h₀
      · cases h₀
      · obtain ⟨dir₁, hcreate, hpure⟩ := bind_eq_ok_iff.1 h₀
        cases hpure
        rw [← hreset] at hcreate
        exact (follows_create hcreate).1
  exact (hfollows.revisions hc hshadows hP hP' hA hsteps).1.vector_of_calculate hc hok

omit [PlanningSolution S k] in
/-- The director of a problem without listeners has none. -/
theorem shadows_of_incremental {problem : PlanningProblem S k} {s : S} (hlisteners : problem.listeners = [])
    (h₀ : problem.incremental s = .ok (.ok dir)) : dir.shadows = [] := by
  unfold PlanningProblem.incremental PlanningProblem.director at h₀
  rw [hlisteners] at h₀
  split at h₀
  · cases h₀
  · obtain ⟨dir₁, hcreate, hpure⟩ := bind_eq_ok_iff.1 h₀
    cases hpure
    obtain ⟨s', -, hpure⟩ := bind_eq_ok_iff.1 hcreate
    cases hpure
    exact List.mergeSort_nil

end Director

section Variables

variable {V : Type} [PlanningValue V] [DecidableEq V] {cs : ConstraintSet S k}

/-- A move of a variable of a class whose values are set in a certain way. -/
def Moved (d : Nat) (set : S → Nat → Option V → S) (m : Move S) : Prop :=
  ∃ (x : BasicVariable S V) (b : BasicMove V), x.entityClass = d ∧ x.set = set ∧ m = b.toMove x

variable {d : Nat} {set : S → Nat → Option V → S}

omit [PlanningValue V] [DecidableEq V] in
/-- Values that are set one after another show in the entities that they are set for. -/
theorem reported_assignAll (hset : ∀ s e v, Reported cs s (set s e v) [(d, e)]) {x : BasicVariable S V}
    (hx : x.set = set) (s : S) (l : List (Nat × Option V)) :
    Reported cs s (BasicMove.assignAll x s l) (l.map fun p => (d, p.1)) := by
  induction l generalizing s with
  | nil => exact (Reported.chains cs).refl s
  | cons p l ih =>
    have hfirst := hset s p.1 p.2
    rw [← hx] at hfirst
    exact (Reported.chains cs).trans hfirst (ih (x.set s p.1 p.2))

/-- Moves of a variable announce the entities whose values they set, and undoing them sets no others. -/
theorem announced_moved (hset : ∀ s e v, Reported cs s (set s e v) [(d, e)]) :
    Announced cs (Moved d set) ∧ Retraced cs (Moved d set) := by
  constructor
  · rintro _ ⟨x, b, rfl, hx, rfl⟩ s e hplan s' hs'
    obtain ⟨_, -, hpure⟩ := bind_eq_ok_iff.1 hplan
    cases hpure
    cases hs'
    have hentities : ((b.result x s).map fun p => (x.entityClass, p.1)) =
        b.entities.map fun e => (x.entityClass, e) := by cases b <;> rfl
    have hreported := reported_assignAll hset hx s (b.result x s)
    rwa [hentities] at hreported
  · rintro _ ⟨x, b, rfl, hx, rfl⟩ s e hplan t t' ht'
    obtain ⟨_, -, hpure⟩ := bind_eq_ok_iff.1 hplan
    cases hpure
    cases ht'
    have hreported := reported_assignAll hset hx t (b.entities.map fun e => (e, x.get? s e))
    rwa [List.map_map] at hreported

end Variables

section Collections

variable {E : Type} {c : Collection S E} {cs : ConstraintSet S k} {cl : SourceClass} {s s' : S} {i : Nat} {a : E}

/-- The members of a collection are those of a class, one by one, and no matter to other classes. -/
structure Collection.Lists (c : Collection S E) (cs : ConstraintSet S k) (cl : SourceClass) : Prop where
  /-- The members are those that were written. -/
  members : ∀ s l, c.members (c.withMembers s l) = l
  /-- The members of the class are read one by one. -/
  own : ∀ ms, cs.Reads cl ms → ∃ f : E → Value, ∀ s, ms s = (c.members s).map f
  /-- The members of other classes are left alone. -/
  other : ∀ cl' ms, cs.Reads cl' ms → cl' ≠ cl → ∀ s l, ms (c.withMembers s l) = ms s

namespace Collection.Lists

variable (h : c.Lists cs cl)

include h

omit [PlanningSolution S k] in
/-- An edit that leaves the members before a position alone keeps what there is but for those behind it. -/
theorem keeps {l : List E} (hl : ∀ j < i, l[j]? = (c.members s)[j]?) : KeepsBefore cs cl i s (c.withMembers s l) := by
  intro cl' ms hr j hj
  by_cases hcl : cl' = cl
  · subst hcl
    obtain ⟨f, hf⟩ := h.own ms hr
    rw [hf, hf, h.members, List.getElem?_map, List.getElem?_map, hl j (hj.resolve_left (absurd rfl))]
  · rw [h.other cl' ms hr hcl]

omit [PlanningSolution S k] in
/-- Putting a member in keeps what there is but for the members behind it. -/
theorem keeps_insertAt (hok : c.edit (fun l => insertAt l i a) s = .ok s') : KeepsBefore cs cl i s s' := by
  obtain ⟨l, hl, rfl⟩ := edit_eq_ok_iff.1 hok
  refine h.keeps fun j hj => ?_
  rw [getElem?_of_insertAt_of_ne hl (Nat.ne_of_lt hj), if_pos hj]

omit [PlanningSolution S k] in
/-- Taking a member out keeps what there is but for the members behind it. -/
theorem keeps_removeAt (hok : c.edit (fun l => removeAt l i) s = .ok s') : KeepsBefore cs cl i s s' := by
  obtain ⟨l, hl, rfl⟩ := edit_eq_ok_iff.1 hok
  refine h.keeps fun j hj => ?_
  rw [getElem?_of_removeAt hl, if_pos hj]

end Collection.Lists

end Collections

end Planning
