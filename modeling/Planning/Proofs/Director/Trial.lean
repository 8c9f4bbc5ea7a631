import Planning.Proofs.Director.Run
import Planning.Proofs.Move.Undo

/-!
# Scores while moves are tried

A move announces the entities that it changes, and the undoing of a recording announces those that the recording
tracked. A director that follows its solution therefore still follows it after moves and after their undoing, and
solutions whose members read the same have the same score, however the directors came to them.
-/

namespace Planning

open Checked

variable {S : Type} {k : ScoreKind} [PlanningSolution S k]

/-- The members at the places of entities. -/
def EntityRef.places (xs : List EntityRef) : Set MemberRef := {z | ∃ x ∈ xs, z = (.entity x.1, x.2)}

/-- Moves of some kind announce what they change. -/
def Announced (cs : ConstraintSet S k) (P : Move S → Prop) : Prop :=
  ∀ m, P m → ∀ s e, m.plan s = .ok e → ∀ s', e.apply s = .ok s' → Reported cs s s' e.entities

namespace Director

variable {dir dir' : Director S k} {cs : ConstraintSet S k} {shadows : ShadowCascade S} {p : Pending}

/-- Entities that are announced one after another are settled. -/
theorem Follows.announced (hc : Contract cs shadows) (hshadows : dir.shadows = shadows) {stale : Set MemberRef}
    (h : dir.Follows cs ⟨stale, ∅⟩) {name : String} {xs : List EntityRef}
    (hok : xs.foldlM (fun dir x => dir.afterVariableChanged x name) dir = .ok dir') :
    dir'.Follows cs ⟨stale \ EntityRef.places xs, ∅⟩ ∧ dir'.shadows = shadows := by
  induction xs generalizing dir stale with
  | nil =>
    cases hok
    refine ⟨?_, hshadows⟩
    convert h using 2
    simp [EntityRef.places]
  | cons x xs ih =>
    rw [List.foldlM_cons] at hok
    obtain ⟨dir₁, h₁, hok⟩ := bind_eq_ok_iff.1 hok
    obtain ⟨h₁, hs₁⟩ := h.afterVariableChanged hc hshadows (Set.notMem_empty _)
      (.inr fun _ => Set.notMem_empty _) h₁
    obtain ⟨h', hs'⟩ := ih (hs₁.trans hshadows) h₁ hok
    refine ⟨?_, hs'⟩
    convert h' using 2
    ext z
    simp [EntityRef.places, and_assoc]

omit [PlanningSolution S k] in
/-- Edits leave the constraints alone. -/
theorem Follows.scoring_editAll (h : dir.Follows cs p) {fs : List (S → Checked S)}
    (hok : fs.foldlM (fun dir f => dir.edit f) dir = .ok dir') : dir'.scoring = dir.scoring := by
  obtain ⟨live, hlive, -⟩ := h
  rw [hlive]
  induction fs generalizing dir with
  | nil =>
    cases hok
    exact hlive
  | cons f fs ih =>
    rw [List.foldlM_cons] at hok
    obtain ⟨dir₁, h₁, hok⟩ := bind_eq_ok_iff.1 hok
    obtain ⟨s, -, h₁⟩ := bind_eq_ok_iff.1 h₁
    cases h₁
    refine ih hok ?_
    simp only [Director.forget, hlive]

/-- A director follows a solution in which members at the places of some entities changed. -/
theorem Follows.reported (hc : Contract cs shadows) (h : dir.Follows cs .none) {xs : List EntityRef}
    (hreported : Reported cs dir.solution dir'.solution xs) (hscoring : dir'.scoring = dir.scoring) :
    dir'.Follows cs ⟨EntityRef.places xs, ∅⟩ := by
  have hmoved : { dir with solution := dir'.solution }.Follows cs ⟨EntityRef.places xs, ∅⟩ := by
    refine h.moved rfl fun cl members hr i _ => ⟨?_, fun hstale => ⟨Set.notMem_empty _, ?_⟩⟩
    · rw [List.getElem?_eq_none_iff, List.getElem?_eq_none_iff, hc.sized cl members hr,
        hc.sized cl members hr, hreported.1]
    · by_contra hne
      exact hstale (hreported.2 cl members hr i hne)
  exact hmoved.congr rfl hscoring

/-- A director follows its solution after an edit that announces what it changes. -/
theorem Follows.perform (hc : Contract cs shadows) (hshadows : dir.shadows = shadows) (h : dir.Follows cs .none)
    {e : Edit S} (he : ∀ s, e.apply dir.solution = .ok s → Reported cs dir.solution s e.entities)
    (hok : dir.perform e = .ok dir') : dir'.Follows cs .none ∧ dir'.shadows = shadows := by
  obtain ⟨dir₁, h₁, hok⟩ := bind_eq_ok_iff.1 hok
  obtain ⟨dir₂, h₂, hok⟩ := bind_eq_ok_iff.1 hok
  cases hok
  rw [beforeVariableChanged, h.forget_eq] at h₁
  obtain ⟨hs₁, heq₁⟩ := edit_eq h₁
  have hedits : [e.apply].foldlM (fun dir f => dir.edit f) dir = .ok dir₁ := by
    rw [List.foldlM_cons, h₁]
    rfl
  have hscoring : dir₁.scoring = dir.scoring := h.scoring_editAll hedits
  have h₁ := h.reported hc (he _ hs₁) hscoring
  obtain ⟨h₂, hshadows₂⟩ := h₁.announced hc (by rw [heq₁, hshadows]) h₂
  rw [sdiff_self] at h₂
  have hremember : (dir₂.remember e.undo).solution = dir₂.solution ∧
      (dir₂.remember e.undo).scoring = dir₂.scoring ∧ (dir₂.remember e.undo).shadows = dir₂.shadows := by
    unfold remember
    split <;> exact ⟨rfl, rfl, rfl⟩
  obtain ⟨hsolution, hscoring, hs⟩ := hremember
  exact ⟨h₂.congr hsolution hscoring, hs.trans hshadows₂⟩

/-- A step of a caller that tries moves keeps a director following. -/
theorem Follows.trial (hc : Contract cs shadows) (hshadows : dir.shadows = shadows) (h : dir.Follows cs .none)
    {P : Move S → Prop} (hP : Announced cs P) (hstep : Trial P dir dir') :
    dir'.Follows cs .none ∧ dir'.shadows = shadows := by
  cases hstep with
  | move hm hok =>
    unfold doMove at hok
    split at hok
    · cases hok
      exact ⟨h, hshadows⟩
    · rename_i e he
      obtain ⟨dir₁, h₁, hok⟩ := bind_eq_ok_iff.1 hok
      cases hok
      exact h.perform hc hshadows (hP _ hm _ _ he) h₁
  | calculate hok =>
    obtain ⟨h', hs, -⟩ := h.calculate hc hok
    exact ⟨h', hs.trans hshadows⟩

/-- Steps of a caller that tries moves keep a director following. -/
theorem Follows.trials (hc : Contract cs shadows) (hshadows : dir.shadows = shadows) (h : dir.Follows cs .none)
    {P : Move S → Prop} (hP : Announced cs P) (hsteps : Relation.ReflTransGen (Trial P) dir dir') :
    dir'.Follows cs .none ∧ dir'.shadows = shadows := by
  induction hsteps with
  | refl => exact ⟨h, hshadows⟩
  | tail _ hstep ih => exact ih.1.trial hc ih.2 hP hstep

/-- A director follows its solution after the undoing of a recording that tracked what changed. -/
theorem Follows.undoRecording (hc : Contract cs shadows) (hshadows : dir.shadows = shadows)
    (h : dir.Follows cs .none) {r : Recording S} {rs : List (Recording S)} (hr : dir.recordings = r :: rs)
    (hundos : ∀ s, r.undos.foldlM (fun s f => f s) dir.solution = .ok s →
      Reported cs dir.solution s r.modified)
    (hok : dir.undoRecording = .ok dir') : dir'.Follows cs .none ∧ dir'.shadows = shadows := by
  unfold Director.undoRecording at hok
  rw [hr] at hok
  obtain ⟨dir₁, h₁, hok⟩ := bind_eq_ok_iff.1 hok
  obtain ⟨dir₂, h₂, hok⟩ := bind_eq_ok_iff.1 hok
  cases hok
  rw [beforeVariableChanged, h.forget_eq] at h₁
  have hbare : { dir with recordings := rs }.Follows cs .none := h.congr rfl rfl
  obtain ⟨hs₁, heq₁⟩ := editAll_eq h₁
  have h₁ := hbare.reported hc (hundos _ hs₁) (hbare.scoring_editAll h₁)
  obtain ⟨h₂, hshadows₂⟩ := h₁.announced hc (by rw [heq₁]; exact hshadows) h₂
  rw [sdiff_self] at h₂
  exact ⟨h₂.congr rfl rfl, hshadows₂⟩

/-- A director that was asked for the score has loaded its constraints, and they have that score. -/
theorem Follows.loaded_of_calculate (h : dir.Follows cs .none) {score : Score k}
    (hok : dir.calculate = .ok (dir', score)) :
    ∃ (live : ConstraintSet S k) (V : View S), live.reset = cs.reset ∧ V.Shows cs dir.solution .none ∧
      live.InStep V ∧ score.vector = live.total := by
  obtain ⟨live, V, -, -, -, -, -, hreset, hV, hin, hscore⟩ := h.exists_live hok
  exact ⟨live.constraints, V, hreset, hV, hin, hscore⟩

/-- Directors whose solutions read the same give the same score. -/
theorem Follows.calculate_unique (hc : Contract cs shadows) {dir₁ dir₂ dir₁' dir₂' : Director S k}
    (h₁ : dir₁.Follows cs .none) (h₂ : dir₂.Follows cs .none)
    (hsame : ∀ cl members, cs.Reads cl members → members dir₁.solution = members dir₂.solution)
    {score₁ score₂ : Score k} (hok₁ : dir₁.calculate = .ok (dir₁', score₁))
    (hok₂ : dir₂.calculate = .ok (dir₂', score₂)) : score₁ = score₂ := by
  obtain ⟨live₁, V₁, hreset₁, hV₁, hin₁, hscore₁⟩ := h₁.loaded_of_calculate hok₁
  obtain ⟨live₂, V₂, hreset₂, hV₂, hin₂, hscore₂⟩ := h₂.loaded_of_calculate hok₂
  have hsound : live₁.Sound := by
    rw [← ConstraintSet.sound_reset, hreset₁, ConstraintSet.sound_reset]
    exact hc.sound
  refine Score.vector_inj.1 ?_
  rw [hscore₁, hscore₂]
  refine (hin₁.total_eq (s := dir₁.solution) hin₂ (hreset₂.trans hreset₁.symm) hsound ?_ ?_).symm
  · intro cl members hr
    exact hV₁.eq_of ((ConstraintSet.reads_of_reset hreset₁ cl members).1 hr)
  · intro cl members hr
    have hr := (ConstraintSet.reads_of_reset hreset₁ cl members).1 hr
    rw [hV₂.eq_of hr]
    funext i
    simp only [View.of, hsame cl members hr]

end Director

end Planning
