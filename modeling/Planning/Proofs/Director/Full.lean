import Planning.Proofs.Run.Track

/-!
# Directors that score in full

A director that scores the whole solution forgets the score it knew as soon as anything changes. So the score that it
gives is always the one that its working solution has from scratch.
-/

namespace Planning

open Checked

variable {S : Type} {k : ScoreKind} {f : S → Checked (Score k)} {known : Option (Score k)}

/-- The score of a solution from scratch; zero where there is none. -/
def scratch (f : S → Checked (Score k)) (s : S) : Score k := (f s).toOption.getD .zero

/-- A score that is calculated is the one from scratch. -/
theorem eq_scratch {s : S} {score : Score k} (h : f s = .ok score) : score = scratch f s := by
  rw [scratch, h]
  rfl

namespace Director

variable {dir dir' : Director S k} {x : EntityRef} {name : String} {shadows : ShadowCascade S}

/-- A director scores in full and knows no score. -/
def Forgot (f : S → Checked (Score k)) (dir : Director S k) : Prop := dir.scoring = .full f none

/-- A director with given listeners scores in full, and the score that it knows is that of its solution. -/
structure Full (f : S → Checked (Score k)) (shadows : ShadowCascade S) (dir : Director S k) : Prop where
  /-- The director has the listeners. -/
  shadows : dir.shadows = shadows
  /-- A score that is known is right. -/
  scoring : dir.Forgot f ∨ dir.scoring = .full f (some (scratch f dir.solution))

/-- A director that scores in full does so with or without a known score. -/
theorem Full.exists_known (h : dir.Full f shadows) : ∃ known, dir.scoring = .full f known := by
  rcases h.scoring with h | h
  · exact ⟨_, h⟩
  · exact ⟨_, h⟩

/-- Forgetting leaves no known score. -/
theorem forgot_forget (h : dir.scoring = .full f known) : dir.forget.Forgot f := by
  unfold forget
  rw [h]
  rfl

/-- An edit leaves no known score. -/
theorem forgot_edit (h : dir.scoring = .full f known) {edit : S → Checked S} (hd : dir.edit edit = .ok dir') :
    dir'.Forgot f := by
  obtain ⟨s, -, hpure⟩ := bind_eq_ok_iff.1 hd
  cases hpure
  exact forgot_forget h

/-- An entity that is announced leaves no known score. -/
theorem forgot_afterVariableChanged (h : dir.scoring = .full f known)
    (hd : dir.afterVariableChanged x name = .ok dir') : dir'.Forgot f := by
  obtain ⟨dir₁, h₁, hd⟩ := bind_eq_ok_iff.1 hd
  obtain ⟨dir₂, h₂, hpure⟩ := bind_eq_ok_iff.1 hd
  cases hpure
  obtain ⟨⟨s, changed⟩, -, hemits⟩ := bind_eq_ok_iff.1 h₁
  have hfull : { dir with solution := s }.scoring = .full f known := h
  dsimp only at hemits
  rw [emitAll_of_full hfull] at hemits
  cases hemits
  rw [emit_of_full hfull] at h₂
  cases h₂
  exact forgot_forget hfull

/-- Entities that are announced leave no known score. -/
theorem forgot_announce {xs : List EntityRef} (h : dir.Forgot f)
    (hd : xs.foldlM (fun dir x => dir.afterVariableChanged x name) dir = .ok dir') : dir'.Forgot f := by
  induction xs generalizing dir with
  | nil =>
    cases hd
    exact h
  | cons x xs ih =>
    rw [List.foldlM_cons] at hd
    obtain ⟨dir₁, h₁, hd⟩ := bind_eq_ok_iff.1 hd
    exact ih (forgot_afterVariableChanged h h₁) hd

/-- Edits leave no known score. -/
theorem forgot_editAll {edits : List (S → Checked S)} (h : dir.Forgot f)
    (hd : edits.foldlM (fun dir edit => dir.edit edit) dir = .ok dir') : dir'.Forgot f := by
  induction edits generalizing dir with
  | nil =>
    cases hd
    exact h
  | cons edit edits ih =>
    rw [List.foldlM_cons] at hd
    obtain ⟨dir₁, h₁, hd⟩ := bind_eq_ok_iff.1 hd
    exact ih (forgot_edit h h₁) hd

/-- A planned edit leaves no known score. -/
theorem forgot_perform (h : dir.scoring = .full f known) {e : Edit S} (hd : dir.perform e = .ok dir') :
    dir'.Forgot f := by
  obtain ⟨dir₁, h₁, hd⟩ := bind_eq_ok_iff.1 hd
  obtain ⟨dir₂, h₂, hpure⟩ := bind_eq_ok_iff.1 hd
  cases hpure
  have hforgot := forgot_announce (forgot_edit (forgot_forget h) h₁) h₂
  unfold Forgot remember
  split <;> exact hforgot

/-- Undoing what was recorded leaves no known score. -/
theorem forgot_undoRecording (h : dir.scoring = .full f known) {r : Recording S} {rs : List (Recording S)}
    (hr : dir.recordings = r :: rs) (hd : dir.undoRecording = .ok dir') : dir'.Forgot f := by
  rw [Director.undoRecording, hr] at hd
  obtain ⟨dir₁, h₁, hd⟩ := bind_eq_ok_iff.1 hd
  obtain ⟨dir₂, h₂, hpure⟩ := bind_eq_ok_iff.1 hd
  cases hpure
  have hforget : { dir.beforeVariableChanged with recordings := rs }.Forgot f := forgot_forget h
  have hforgot := forgot_announce (forgot_editAll hforget h₁) h₂
  exact hforgot

/-- A planned edit leaves no wrong score. -/
theorem Full.perform (h : dir.Full f shadows) {e : Edit S} (hd : dir.perform e = .ok dir') :
    dir'.Full f shadows := by
  obtain ⟨known, hscoring⟩ := h.exists_known
  exact ⟨(shadows_perform hd).trans h.shadows, .inl (forgot_perform hscoring hd)⟩

/-- Undoing leaves no known score, unless there is nothing to undo. -/
theorem Full.undoRecording (h : dir.Full f shadows) (hd : dir.undoRecording = .ok dir') :
    dir'.Full f shadows := by
  obtain ⟨known, hscoring⟩ := h.exists_known
  cases hr : dir.recordings with
  | nil =>
    rw [Director.undoRecording, hr] at hd
    cases hd
    exact h
  | cons r rs => exact ⟨(shadows_undoRecording hd).trans h.shadows, .inl (forgot_undoRecording hscoring hr hd)⟩

/-- Giving a value to an entity leaves no known score. -/
theorem Full.assign (h : dir.Full f shadows) {V : Type} {planned : BasicVariable S V} {e : Nat} {v : Option V}
    (hd : dir.assign planned e v = .ok dir') : dir'.Full f shadows := by
  obtain ⟨known, hscoring⟩ := h.exists_known
  obtain ⟨dir₁, h₁, hd⟩ := bind_eq_ok_iff.1 hd
  have hforgot := forgot_edit (forgot_forget hscoring) h₁
  rw [beforeVariableChanged, forget_eq] at h₁
  obtain ⟨-, heq₁⟩ := edit_eq h₁
  obtain ⟨-, -, heq⟩ := afterVariableChanged_eq hd
  refine ⟨?_, .inl (forgot_afterVariableChanged hforgot hd)⟩
  rw [heq, trackAll, heq₁]
  exact h.shadows

/-- A move that is made or refused leaves no wrong score. -/
theorem Full.doMove (h : dir.Full f shadows) {m : Move S} {result : Except MoveError Unit}
    (hd : dir.doMove m = .ok (dir', result)) : dir'.Full f shadows := by
  rcases cases_doMove hd with ⟨err, -, -, rfl⟩ | ⟨e, -, -, hperform⟩
  · exact h
  · exact h.perform hperform

variable [PlanningSolution S k] (hstored : ∀ s score, f (PlanningSolution.withScore s score) = f s)
include hstored

/-- A score that is asked for is that of the working solution, and is known then. -/
theorem Full.calculate (h : dir.Full f shadows) {score : Score k} (hd : dir.calculate = .ok (dir', score)) :
    dir'.Full f shadows ∧ score = scratch f dir.solution := by
  obtain ⟨hs, heq⟩ := calculate_solution hd
  have hshadows : dir'.shadows = shadows := by
    rw [heq]
    exact h.shadows
  unfold Director.calculate at hd
  rcases h.scoring with hforgot | hknown
  · rw [hforgot] at hd
    obtain ⟨score', hscore, hpure⟩ := bind_eq_ok_iff.1 hd
    cases hpure
    refine ⟨⟨hshadows, .inr ?_⟩, eq_scratch hscore⟩
    rw [scratch, hstored, hscore]
    rfl
  · rw [hknown] at hd
    cases hd
    exact ⟨h, rfl⟩

/-- A score that is checked is never found wrong. -/
theorem Full.assertScore (h : dir.Full f shadows) {out : Except ScoreCorruption (Score k)}
    (hd : dir.assertScore = .ok (dir', out)) : dir'.Full f shadows := by
  obtain ⟨⟨dir₁, score⟩, h₁, hd⟩ := bind_eq_ok_iff.1 hd
  obtain ⟨hfull₁, -⟩ := h.calculate hstored h₁
  obtain ⟨known, hscoring⟩ := hfull₁.exists_known
  dsimp only at hd
  rw [hscoring] at hd
  cases hd
  exact hfull₁

omit hstored in
/-- A solution that has a score is scored. -/
theorem Full.exists_calculate (h : dir.Full f shadows) (hf : ∃ score, f dir.solution = .ok score) :
    ∃ dir' score, dir.calculate = .ok (dir', score) := by
  unfold Director.calculate
  rcases h.scoring with hforgot | hknown
  · obtain ⟨score, hscore⟩ := hf
    rw [hforgot]
    exact ⟨_, _, bind_eq_ok_iff.2 ⟨score, hscore, rfl⟩⟩
  · rw [hknown]
    exact ⟨_, _, rfl⟩

/-- A score that is checked is found right. -/
theorem Full.exists_assertScore (h : dir.Full f shadows) (hf : ∃ score, f dir.solution = .ok score) :
    ∃ dir' score, dir.assertScore = .ok (dir', .ok score) := by
  obtain ⟨dir', score, hscore⟩ := h.exists_calculate hf
  obtain ⟨known, hscoring⟩ := (h.calculate hstored hscore).1.exists_known
  refine ⟨dir', score, bind_eq_ok_iff.2 ⟨_, hscore, ?_⟩⟩
  dsimp only
  rw [hscoring]
  rfl

/-- A score, checked or not, is given. -/
theorem Full.exists_scored (h : dir.Full f shadows) (hf : ∃ score, f dir.solution = .ok score) (check : Bool) :
    ∃ dir' score, dir.scored check = .ok (dir', .ok score) := by
  cases check with
  | true => exact h.exists_assertScore hstored hf
  | false =>
    obtain ⟨dir', score, hscore⟩ := h.exists_calculate hf
    exact ⟨dir', score, bind_eq_ok_iff.2 ⟨_, hscore, rfl⟩⟩

/-- A score, checked or not, leaves no wrong score. -/
theorem Full.scored (h : dir.Full f shadows) {check : Bool} {out : Except ScoreCorruption (Score k)}
    (hd : dir.scored check = .ok (dir', out)) : dir'.Full f shadows := by
  unfold Director.scored at hd
  split at hd
  · exact h.assertScore hstored hd
  · obtain ⟨⟨dir₁, score⟩, h₁, hpure⟩ := bind_eq_ok_iff.1 hd
    cases hpure
    exact (h.calculate hstored h₁).1

/-- A move that is evaluated leaves no wrong score. -/
theorem Full.evaluate (h : dir.Full f shadows) {m : Move S} {check : Bool} {out : Except SolverError (Score k)}
    (hd : dir.evaluate m check = .ok (dir', out)) : dir'.Full f shadows := by
  obtain ⟨⟨dir₁, result⟩, h₁, hd⟩ := bind_eq_ok_iff.1 hd
  have hrecord : dir.record.Full f shadows := ⟨h.shadows, h.scoring⟩
  have hfull₁ := hrecord.doMove h₁
  have hclosed : ∀ {d : Director S k}, d.Full f shadows → d.stopRecording.Full f shadows :=
    fun hfull => ⟨hfull.shadows, hfull.scoring⟩
  cases result with
  | error err =>
    obtain ⟨dir₂, h₂, hpure⟩ := bind_eq_ok_iff.1 hd
    cases hpure
    exact hclosed (hfull₁.undoRecording h₂)
  | ok _ =>
    obtain ⟨⟨dir₂, scored⟩, h₂, hd⟩ := bind_eq_ok_iff.1 hd
    have hfull₂ := hfull₁.scored hstored h₂
    cases scored with
    | error c =>
      cases hd
      exact hclosed hfull₂
    | ok score =>
      obtain ⟨dir₃, h₃, hd⟩ := bind_eq_ok_iff.1 hd
      have hfull₃ := hfull₂.undoRecording h₃
      split at hd
      · cases hd
        exact hclosed hfull₃
      · obtain ⟨⟨dir₄, asserted⟩, h₄, hd⟩ := bind_eq_ok_iff.1 hd
        have hfull₄ := hfull₃.assertScore hstored h₄
        cases asserted with
        | error c =>
          cases hd
          exact hclosed hfull₄
        | ok score' =>
          cases hd
          exact hclosed hfull₄

end Director

variable {B L : Type} {V : B → Type} {W : L → Type} [PlanningSolution S k]
variable [∀ b, PlanningValue (V b)] [∀ b, DecidableEq (V b)] [∀ l, PlanningValue (W l)] [∀ l, DecidableEq (W l)]

/-- Directors that score in full give their solutions the scores that they have from scratch, if a stored score does not
count. -/
theorem Genuine.scores_full (g : Genuine S V W) (shadows : ShadowCascade S)
    (hstored : ∀ s score, f (PlanningSolution.withScore s score) = f s) :
    g.Scores (Director.Full f shadows) (scratch f) where
  journal _ h := ⟨h.shadows, h.scoring⟩
  calculate h hd := (h.calculate hstored hd).1
  assertScore h hd := h.assertScore hstored hd
  doMove _ h hd := h.doMove hd
  evaluate _ h hd := h.evaluate hstored hd
  assign h hd := h.assign hd
  right h hd := (h.calculate hstored hd).2
  stored s score := by rw [scratch, hstored, scratch]

end Planning
