import Mathlib.Logic.Relation
import Planning.Move.Value
import Planning.Proofs.Director.Solution
import Planning.Proofs.Move.Content
import Planning.Proofs.Move.List

/-!
# Moves taken back

What undoes a move writes the values that the entities had before it.
-/

/-!
## Moves of basic variables taken back

A move of a basic variable writes the values of a few entities that exist, and what undoes it writes the values
that they had before.
-/

namespace Planning.BasicMove

open Checked

variable {S B L : Type} {V : B → Type} {W : L → Type} [DecidableEq B] [DecidableEq L]
variable {g : Genuine S V W} {b : B} {s : S}

/-- Values are written one after another for entities that exist. -/
theorem content_assignAll (hg : g.Lawful) {l : List (Nat × Option (V b))}
    (hl : ∀ y ∈ l, y.1 < (g.basic b).count s) :
    g.content (assignAll (g.basic b) s l) = l.foldl (fun c y => c.setValue b y.1 y.2) (g.content s) := by
  induction l generalizing s with
  | nil => rfl
  | cons y l ih =>
    obtain ⟨hy, hl⟩ := List.forall_mem_cons.1 hl
    have hset := hg.set_basic b s y.1 y.2 hy
    have hcount : (g.basic b).count ((g.basic b).set s y.1 y.2) = (g.basic b).count s :=
      congrArg (fun c => c.valueCount b) hset
    have hrest := ih (s := (g.basic b).set s y.1 y.2) fun z hz => hcount.symm ▸ hl z hz
    rw [hset] at hrest
    exact hrest

omit [DecidableEq L] in
/-- Writing values changes no number of entities. -/
theorem valueCount_foldl (l : List (Nat × Option (V b))) (c : Content V W) :
    (l.foldl (fun c y => c.setValue b y.1 y.2) c).valueCount = c.valueCount := by
  induction l generalizing c with
  | nil => rfl
  | cons y l ih => exact ih (c.setValue b y.1 y.2)

variable [∀ b, PlanningValue (V b)] {m : BasicMove (V b)} {e : Edit S}

omit [DecidableEq B] [DecidableEq L] in
/-- The entities of a move that is planned exist. -/
theorem lt_of_check {u : Unit} (h : m.check (g.basic b) s = .ok u) :
    ∀ i ∈ m.entities, i < (g.basic b).count s := by
  cases m with
  | change i v =>
    obtain ⟨_, hi, -⟩ := bind_eq_ok_iff.1 h
    exact List.forall_mem_singleton.2 (lt_of_checkMovable hi)
  | swap i j =>
    obtain ⟨_, hi, h⟩ := bind_eq_ok_iff.1 h
    obtain ⟨_, hj, -⟩ := bind_eq_ok_iff.1 h
    exact List.forall_mem_cons.2 ⟨lt_of_checkMovable hi, List.forall_mem_singleton.2 (lt_of_checkMovable hj)⟩

omit [DecidableEq L] [∀ b, PlanningValue (V b)] in
/-- The values that entities had before a move undo it. -/
theorem foldl_setValue_back (m : BasicMove (V b)) (s : S) :
    (m.entities.map fun i => (i, (g.basic b).get? s i)).foldl (fun c y => c.setValue b y.1 y.2)
      ((m.result (g.basic b) s).foldl (fun c y => c.setValue b y.1 y.2) (g.content s)) = g.content s := by
  have hget : ∀ i, (g.basic b).get? s i = (g.content s).values b i := fun i => rfl
  cases m with
  | change i v => simp only [entities, result, List.map_cons, List.map_nil, List.foldl_cons, List.foldl_nil,
      hget, Content.setValue_setValue, Content.setValue_values]
  | swap i j =>
    simp only [entities, result, List.map_cons, List.map_nil, List.foldl_cons, List.foldl_nil, hget]
    by_cases hij : i = j
    · subst hij
      simp only [Content.setValue_values]
    · rw [Content.setValue_comm (g.content s) hij, Content.setValue_setValue,
        Content.setValue_comm (g.content s) (Ne.symm hij), Content.setValue_values,
        Content.setValue_setValue, Content.setValue_values]

omit [DecidableEq B] [DecidableEq L] in
/-- The entities that get a value from a move that is planned exist. -/
theorem lt_of_mem_result {u : Unit} (h : m.check (g.basic b) s = .ok u) :
    ∀ y ∈ m.result (g.basic b) s, y.1 < (g.basic b).count s := by
  intro y hy
  refine lt_of_check h y.1 ?_
  cases m with
  | change i v => simp_all [result, entities]
  | swap i j => simp only [result, entities, List.mem_cons, List.not_mem_nil, or_false] at hy ⊢; grind

/-- A move that is planned is taken back. -/
theorem reversible (hg : g.Lawful) (h : m.plan (g.basic b) s = .ok e) : g.Reversible s e := by
  obtain ⟨_, hcheck, hpure⟩ := bind_eq_ok_iff.1 h
  cases hpure
  have hlt := lt_of_check hcheck
  intro s' happly t ht
  cases happly
  rw [content_assignAll hg (lt_of_mem_result hcheck)] at ht
  have hcount : (g.basic b).count t = (g.basic b).count s := by
    have hcounts := congrArg Content.valueCount ht
    rw [valueCount_foldl] at hcounts
    exact congrFun hcounts b
  refine ⟨_, rfl, ?_⟩
  rw [content_assignAll hg, ht]
  · exact foldl_setValue_back m s
  · intro y hy
    obtain ⟨i, hi, rfl⟩ := List.mem_map.1 hy
    rw [hcount]
    exact hlt i hi

end Planning.BasicMove

/-!
## Recordings undone

While a recording is open moves are made and scores are asked for. The edits that the recording remembers, run
backwards, give back what the genuine variables held when it was opened; neither the cascades nor the scores in
between matter to them.
-/

namespace Planning

open Checked

variable {S B L : Type} {V : B → Type} {W : L → Type} [DecidableEq B] [DecidableEq L]
variable [∀ b, PlanningValue (V b)] [∀ b, DecidableEq (V b)] [∀ l, PlanningValue (W l)] [∀ l, DecidableEq (W l)]
variable {k : ScoreKind} [PlanningSolution S k] {g : Genuine S V W}

/-- The moves of genuine variables. -/
inductive Genuine.Moves (g : Genuine S V W) : Move S → Prop where
  /-- A move of a variable that holds a value. -/
  | basic (b : B) (m : BasicMove (V b)) : g.Moves (m.toMove (g.basic b))
  /-- A move of a variable that holds a list. -/
  | list (l : L) (m : ListMove (W l)) : g.Moves (m.toMove (g.list l))

omit [PlanningSolution S k] in
/-- A move of a genuine variable that is planned is taken back. -/
theorem Genuine.Moves.reversible (hg : g.Lawful) {m : Move S} (hm : g.Moves m) {s : S} {e : Edit S}
    (h : m.plan s = .ok e) : g.Reversible s e := by
  cases hm with
  | basic b m => exact BasicMove.reversible hg h
  | list l m => exact ListMove.reversible hg h

/-- Neither listeners nor stored scores concern genuine variables. -/
structure Genuine.Apart (g : Genuine S V W) (shadows : ShadowCascade S) : Prop where
  /-- A listener changes shadow variables only. -/
  listener : ∀ e ∈ shadows, ∀ s x s' changed, e.listener.update s x = .ok (s', changed) →
    g.content s' = g.content s
  /-- A stored score is no variable. -/
  score : ∀ s (score : Score k), g.content (PlanningSolution.withScore s score) = g.content s

/-- Undoing edits where the content is as in a solution gives the content of another. -/
def Genuine.Restores (g : Genuine S V W) (s₀ s : S) (undos : List (S → Checked S)) : Prop :=
  ∀ t, g.content t = g.content s →
    ∃ u, undos.foldlM (fun s f => f s) t = .ok u ∧ g.content u = g.content s₀

/-- A step of a caller that tries moves of some kind: a move is made, or the score is asked for. -/
inductive Director.Trial (P : Move S → Prop) : Director S k → Director S k → Prop where
  /-- A move is made, unless it cannot be. -/
  | move {dir dir' m result} : P m → Director.doMove dir m = .ok (dir', result) → Trial P dir dir'
  /-- The score is asked for. -/
  | calculate {dir dir' score} : Director.calculate dir = .ok (dir', score) → Trial P dir dir'

namespace Director

variable {dir dir' : Director S k} {P : Move S → Prop}

/-- A step either performs a planned edit or keeps all but the stored score. -/
theorem Trial.cases (h : Trial P dir dir') :
    (∃ m e, P m ∧ m.plan dir.solution = .ok e ∧ dir.perform e = .ok dir') ∨
      (dir'.solution = dir.solution ∨ ∃ score, dir'.solution = PlanningSolution.withScore dir.solution score) ∧
        dir' = { dir with solution := dir'.solution, scoring := dir'.scoring, journal := dir'.journal } := by
  cases h with
  | move hm h =>
    rename_i m result
    unfold doMove at h
    split at h
    · cases h
      exact .inr ⟨.inl rfl, rfl⟩
    · rename_i e he
      obtain ⟨dir₁, h₁, h⟩ := bind_eq_ok_iff.1 h
      cases h
      exact .inl ⟨m, e, hm, he, h₁⟩
  | calculate h =>
    obtain ⟨hs, heq⟩ := calculate_solution h
    exact .inr ⟨hs.imp_right fun hs => ⟨_, hs⟩, heq⟩

/-- A step keeps the undoing of what was done before it, and adds that of what it does. -/
theorem Trial.restores (hg : g.Lawful) (hapart : g.Apart dir.shadows) (h : Trial g.Moves dir dir')
    {r : Recording S} {rs : List (Recording S)} (hr : dir.recordings = r :: rs) {s₀ : S}
    (hrestores : g.Restores s₀ dir.solution r.undos) :
    ∃ r' rs', dir'.recordings = r' :: rs' ∧ g.Restores s₀ dir'.solution r'.undos ∧
      dir'.shadows = dir.shadows := by
  rcases h.cases with ⟨m, e, hm, he, hperform⟩ | ⟨hs, heq⟩
  · obtain ⟨s, happly, hcascade, heq⟩ := perform_eq hperform
    have hcontent : g.content dir'.solution = g.content s :=
      ShadowCascade.kept_cascadeAll hapart.listener hcascade
    have hrecordings : dir'.recordings =
        { r.trackAll e.entities with undos := e.undo :: r.undos } :: rs.map fun r => r.trackAll e.entities := by
      rw [heq, trackAll, hr]
      rw [← r.undos_trackAll e.entities]
      rfl
    refine ⟨_, _, hrecordings, fun t ht => ?_, by rw [heq, trackAll, hr]; rfl⟩
    obtain ⟨u, hu, hback⟩ := hm.reversible hg he s happly t (ht.trans hcontent)
    obtain ⟨u', hu', hback'⟩ := hrestores u hback
    refine ⟨u', ?_, hback'⟩
    rw [List.foldlM_cons]
    exact bind_eq_ok_iff.2 ⟨u, hu, hu'⟩
  · have hcontent : g.content dir'.solution = g.content dir.solution := by
      rcases hs with hs | ⟨score, hs⟩
      · rw [hs]
      · rw [hs, hapart.score]
    refine ⟨r, rs, by rw [heq, hr], fun t ht => hrestores t (ht.trans hcontent), by rw [heq]⟩

/-- After any steps the edits that a recording remembers restore what there was when it was opened. -/
theorem restores_of_trials (hg : g.Lawful) (hapart : g.Apart dir.shadows)
    (h : Relation.ReflTransGen (Trial g.Moves) dir.record dir') :
    ∃ r rs, dir'.recordings = r :: rs ∧ g.Restores dir.solution dir'.solution r.undos ∧
      dir'.shadows = dir.shadows := by
  induction h with
  | refl => exact ⟨{}, dir.recordings, rfl, fun t ht => ⟨t, rfl, ht⟩, rfl⟩
  | tail _ hstep ih =>
    obtain ⟨r, rs, hr, hrestores, hshadows⟩ := ih
    obtain ⟨r', rs', hr', hrestores', hshadows'⟩ := hstep.restores hg (hshadows.symm ▸ hapart) hr hrestores
    exact ⟨r', rs', hr', hrestores', hshadows'.trans hshadows⟩

/-- Undoing a recording gives back what genuine variables held when it was opened. -/
theorem content_undoRecording (hg : g.Lawful) (hapart : g.Apart dir.shadows)
    (h : Relation.ReflTransGen (Trial g.Moves) dir.record dir') :
    (∃ s, dir'.recording.undos.foldlM (fun s f => f s) dir'.solution = .ok s ∧
      g.content s = g.content dir.solution) ∧
    ∀ dir'', dir'.undoRecording = .ok dir'' →
      g.content dir''.solution = g.content dir.solution ∧ dir''.recording = {} := by
  obtain ⟨r, rs, hr, hrestores, hshadows⟩ := restores_of_trials hg hapart h
  obtain ⟨s, hs, hcontent⟩ := hrestores dir'.solution rfl
  refine ⟨⟨s, by rw [recording, hr]; exact hs, hcontent⟩, fun dir'' hundo => ?_⟩
  obtain ⟨s', hs', hcascade, heq⟩ := undoRecording_eq hr hundo
  rw [hs] at hs'
  cases hs'
  rw [hshadows] at hcascade
  refine ⟨(ShadowCascade.kept_cascadeAll hapart.listener hcascade).trans hcontent, ?_⟩
  rw [heq]
  rfl

end Director

end Planning
