import Planning.Move.Basic
import Planning.Proofs.Move.Alike

/-!
# Moves made and evaluated

A move that is made leaves solutions alike that were alike. Evaluating a move leaves the solution like it was before,
unless the score with the move is checked and found wrong: then the move is not taken back.
-/

namespace Planning.Director

open Checked

variable {S : Type} {k : ScoreKind} [PlanningSolution S k] {dir dir' : Director S k}

/-- Checking the score stores it and nothing else. -/
theorem assertScore_solution {out : Except ScoreCorruption (Score k)} (h : dir.assertScore = .ok (dir', out)) :
    (dir'.solution = dir.solution ∨ ∃ score, dir'.solution = PlanningSolution.withScore dir.solution score) ∧
      dir' = { dir with solution := dir'.solution, scoring := dir'.scoring, journal := dir'.journal } := by
  obtain ⟨⟨dir₁, score⟩, h₁, h⟩ := bind_eq_ok_iff.1 h
  obtain ⟨hs₁, heq₁⟩ := calculate_solution h₁
  have hs₁ : dir₁.solution = dir.solution ∨ ∃ score, dir₁.solution = PlanningSolution.withScore dir.solution score :=
    hs₁.imp_right fun hs => ⟨score, hs⟩
  dsimp only at h
  split at h
  · cases h
    exact ⟨hs₁, heq₁⟩
  · obtain ⟨⟨fresh, scratch⟩, -, h⟩ := bind_eq_ok_iff.1 h
    dsimp only at h
    split at h
    · cases h
      exact ⟨hs₁, heq₁⟩
    · cases h
      refine ⟨hs₁, ?_⟩
      rw [heq₁]
      rfl

/-- Asking for a score, checked or not, stores it and nothing else. -/
theorem scored_solution {check : Bool} {out : Except ScoreCorruption (Score k)}
    (h : dir.scored check = .ok (dir', out)) :
    (dir'.solution = dir.solution ∨ ∃ score, dir'.solution = PlanningSolution.withScore dir.solution score) ∧
      dir' = { dir with solution := dir'.solution, scoring := dir'.scoring, journal := dir'.journal } := by
  unfold scored at h
  split at h
  · exact assertScore_solution h
  · obtain ⟨⟨dir₁, score⟩, h₁, h⟩ := bind_eq_ok_iff.1 h
    cases h
    obtain ⟨hs₁, heq₁⟩ := calculate_solution h₁
    exact ⟨hs₁.imp_right fun hs => ⟨score, hs⟩, heq₁⟩

/-- A score that is not checked is not found wrong. -/
theorem of_scored_error {check : Bool} {c : ScoreCorruption} (h : dir.scored check = .ok (dir', .error c)) :
    check = true ∧ dir.assertScore = .ok (dir', .error c) := by
  unfold scored at h
  split at h
  · rename_i hcheck
    exact ⟨hcheck, h⟩
  · obtain ⟨⟨dir₁, score⟩, -, h⟩ := bind_eq_ok_iff.1 h
    cases h

omit [PlanningSolution S k] in
/-- A move is made if it can be planned. -/
theorem cases_doMove {m : Move S} {result : Except MoveError Unit} (h : dir.doMove m = .ok (dir', result)) :
    (∃ err, m.plan dir.solution = .error err ∧ result = .error err ∧ dir' = dir) ∨
      ∃ e, m.plan dir.solution = .ok e ∧ result = .ok () ∧ dir.perform e = .ok dir' := by
  unfold doMove at h
  split at h
  · rename_i err hplan
    cases h
    exact .inl ⟨err, hplan, rfl, rfl⟩
  · rename_i e hplan
    obtain ⟨dir₁, h₁, h⟩ := bind_eq_ok_iff.1 h
    cases h
    exact .inr ⟨e, hplan, rfl, h₁⟩

section Listeners

omit [PlanningSolution S k] in
/-- A planned edit keeps the listeners. -/
theorem shadows_perform {e : Edit S} (h : dir.perform e = .ok dir') : dir'.shadows = dir.shadows := by
  obtain ⟨-, -, -, heq⟩ := perform_eq h
  rw [heq, remember]
  split <;> rfl

omit [PlanningSolution S k] in
/-- A move keeps the listeners. -/
theorem shadows_doMove {m : Move S} {result : Except MoveError Unit} (h : dir.doMove m = .ok (dir', result)) :
    dir'.shadows = dir.shadows := by
  rcases cases_doMove h with ⟨-, -, -, rfl⟩ | ⟨e, -, -, hperform⟩
  · rfl
  · exact shadows_perform hperform

omit [PlanningSolution S k] in
/-- Undoing keeps the listeners. -/
theorem shadows_undoRecording (h : dir.undoRecording = .ok dir') : dir'.shadows = dir.shadows := by
  cases hr : dir.recordings with
  | nil =>
    rw [undoRecording, hr] at h
    cases h
    rfl
  | cons r rs =>
    obtain ⟨-, -, -, heq⟩ := undoRecording_eq hr h
    rw [heq]

/-- Evaluating a move keeps the listeners. -/
theorem shadows_evaluate {m : Move S} {check : Bool} {out : Except SolverError (Score k)}
    (h : dir.evaluate m check = .ok (dir', out)) : dir'.shadows = dir.shadows := by
  obtain ⟨⟨dir₁, result⟩, hmove, h⟩ := bind_eq_ok_iff.1 h
  have h₁ : dir₁.shadows = dir.record.shadows := shadows_doMove hmove
  cases result with
  | error err =>
    obtain ⟨dir₂, hundo, h⟩ := bind_eq_ok_iff.1 h
    cases h
    exact (shadows_undoRecording hundo).trans h₁
  | ok _ =>
    obtain ⟨⟨dir₂, scored⟩, hscored, h⟩ := bind_eq_ok_iff.1 h
    have h₂ : dir₂.shadows = dir.record.shadows := by rw [(scored_solution hscored).2, h₁]
    cases scored with
    | error c =>
      cases h
      exact h₂
    | ok score =>
      obtain ⟨dir₃, hundo, h⟩ := bind_eq_ok_iff.1 h
      have h₃ := (shadows_undoRecording hundo).trans h₂
      split at h
      · cases h
        exact h₃
      · obtain ⟨⟨dir₄, asserted⟩, hassert, h⟩ := bind_eq_ok_iff.1 h
        have h₄ : dir₄.shadows = dir.record.shadows := by rw [(assertScore_solution hassert).2, h₃]
        cases asserted with
        | error c =>
          cases h
          exact h₄
        | ok score' =>
          cases h
          exact h₄

end Listeners

variable {B L F : Type} {V : B → Type} {W : L → Type} [DecidableEq B] [DecidableEq L]
variable {g : Genuine S V W} {facts : S → F} {shadows : ShadowCascade S} {m : Move S}

/-- Cascades leave a solution like it was. -/
theorem alike_of_cascadeAll (hreg : g.Regular facts shadows) {index : Nat → Option Nat} {s s' : S}
    {xs : List EntityRef} (h : shadows.cascadeAll index s xs = .ok s') : g.Alike facts s' s where
  content := ShadowCascade.kept_cascadeAll hreg.apart.listener h
  facts := ShadowCascade.kept_cascadeAll hreg.governed.listener h

/-- A stored score leaves a solution like it was. -/
theorem alike_of_stored (hreg : g.Regular facts shadows) {s s' : S}
    (h : s' = s ∨ ∃ score, s' = PlanningSolution.withScore s score) : g.Alike facts s' s := by
  rcases h with rfl | ⟨score, rfl⟩
  · exact .refl s'
  · exact ⟨hreg.apart.score s score, hreg.governed.score s score⟩

/-- Asking for the score leaves a solution like it was. -/
theorem calculate_alike (hreg : g.Regular facts shadows) {score : Score k}
    (h : dir.calculate = .ok (dir', score)) :
    g.Alike facts dir'.solution dir.solution ∧ dir'.shadows = dir.shadows := by
  obtain ⟨hs, heq⟩ := calculate_solution h
  exact ⟨alike_of_stored hreg (hs.imp_right fun hs => ⟨score, hs⟩), by rw [heq]⟩

/-- After an edit that a move planned the solution is like the edited one. -/
theorem perform_alike (hreg : g.Regular facts shadows) (hshadows : dir.shadows = shadows) {e : Edit S}
    (h : dir.perform e = .ok dir') :
    ∃ s, e.apply dir.solution = .ok s ∧ g.Alike facts dir'.solution s ∧ dir'.shadows = shadows := by
  obtain ⟨s, happly, hcascade, heq⟩ := perform_eq h
  rw [hshadows] at hcascade
  exact ⟨s, happly, alike_of_cascadeAll hreg hcascade, (shadows_perform h).trans hshadows⟩

variable [∀ b, PlanningValue (V b)] [∀ b, DecidableEq (V b)] [∀ l, PlanningValue (W l)] [∀ l, DecidableEq (W l)]

/-- A move makes solutions alike that were alike, and can be made in both if it can be made in one. -/
theorem doMove_alike (hreg : g.Regular facts shadows) (hm : g.Moves m) {fork fork' : Director S k}
    (hshadows : dir.shadows = shadows) (hfork : fork.shadows = shadows)
    (h : g.Alike facts dir.solution fork.solution) {result result' : Except MoveError Unit}
    (hdir : dir.doMove m = .ok (dir', result)) (hdo : fork.doMove m = .ok (fork', result')) :
    result' = result ∧ g.Alike facts dir'.solution fork'.solution ∧ dir'.shadows = shadows ∧
      fork'.shadows = shadows := by
  rcases cases_doMove hdir with ⟨err, hplan, rfl, rfl⟩ | ⟨e, hplan, rfl, hperform⟩
  · rcases cases_doMove hdo with ⟨err', hplan', rfl, rfl⟩ | ⟨e', hplan', rfl, hperform'⟩
    · rw [hm.plan_alike hreg.governed h hplan] at hplan'
      cases hplan'
      exact ⟨rfl, h, hshadows, hfork⟩
    · rw [hm.plan_alike hreg.governed h hplan] at hplan'
      cases hplan'
  · rcases cases_doMove hdo with ⟨err', hplan', rfl, rfl⟩ | ⟨e', hplan', rfl, hperform'⟩
    · rw [hm.plan_alike hreg.governed h.symm hplan'] at hplan
      cases hplan
    · obtain ⟨s, happly, hs, hkept⟩ := perform_alike hreg hshadows hperform
      obtain ⟨t, happly', ht, hkept'⟩ := perform_alike hreg hfork hperform'
      have hst := hm.apply_alike hreg.lawful hreg.governed hplan hplan' h happly happly'
      exact ⟨rfl, hs.trans (hst.trans ht.symm), hkept, hkept'⟩

/-- A move that was made is taken back, whatever was scored in between. -/
theorem undo_alike (hreg : g.Regular facts shadows) (hm : g.Moves m) (hshadows : dir.shadows = shadows) {e : Edit S}
    (hplan : m.plan dir.solution = .ok e) {dir₁ dir₂ dir₃ : Director S k} (hperform : dir.record.perform e = .ok dir₁)
    (hrecordings : dir₂.recordings = dir₁.recordings) (hshadows₂ : dir₂.shadows = dir₁.shadows)
    (h : g.Alike facts dir₂.solution dir₁.solution) (hundo : dir₂.undoRecording = .ok dir₃) :
    g.Alike facts dir₃.solution dir.solution := by
  have hrecord : dir.record.shadows = shadows := hshadows
  obtain ⟨s₁, happly, hs₁, hkept⟩ := perform_alike hreg hrecord hperform
  obtain ⟨s, -, -, heq⟩ := perform_eq hperform
  let r : Recording S := ({} : Recording S).trackAll e.entities
  have hr : dir₂.recordings = { r with undos := e.undo :: r.undos } ::
      dir.recordings.map fun r => r.trackAll e.entities := by
    rw [hrecordings, heq]
    rfl
  obtain ⟨s₂, hundos, hcascade, -⟩ := undoRecording_eq hr hundo
  have hundos : [e.undo].foldlM (fun s f => f s) dir₂.solution = .ok s₂ := by
    rwa [show r.undos = [] from Recording.undos_trackAll {} e.entities] at hundos
  rw [List.foldlM_cons] at hundos
  obtain ⟨u, hundos, hpure⟩ := bind_eq_ok_iff.1 hundos
  cases hpure
  rw [hshadows₂, hkept] at hcascade
  have hlike := alike_of_cascadeAll hreg hcascade
  have hchain := h.trans hs₁
  obtain ⟨u, hu, hback⟩ := hm.reversible hreg.lawful hplan s₁ happly dir₂.solution hchain.content
  rw [hundos] at hu
  cases hu
  refine ⟨hlike.content.trans hback, ?_⟩
  have hfacts := hm.facts_eq hreg.governed hplan
  exact hlike.facts.trans ((hfacts.2 _ _ hundos).trans (hchain.facts.trans (hfacts.1 _ _ happly)))

/-- With a move made, the score is found wrong, and a director is left with the move. -/
def FailsMidway (dir : Director S k) (m : Move S) (c : ScoreCorruption) (dir' : Director S k) : Prop :=
  ∃ dir₁ dir₂, dir.record.doMove m = .ok (dir₁, .ok ()) ∧ dir₁.assertScore = .ok (dir₂, .error c) ∧
    dir' = dir₂.stopRecording

/-- Evaluating a move leaves the solution like it was, whether the move gives a score, cannot be planned, or leaves a
score that is found wrong once it is taken back; only where the score with the move is found wrong the solution stays
as the move left it. -/
theorem cases_evaluate (hreg : g.Regular facts shadows) (hm : g.Moves m) (hshadows : dir.shadows = shadows)
    {check : Bool} {out : Except SolverError (Score k)} (h : dir.evaluate m check = .ok (dir', out)) :
    (∃ score e, out = .ok score ∧ m.plan dir.solution = .ok e ∧ g.Alike facts dir'.solution dir.solution) ∨
      (∃ err, out = .error (.moveApplication err) ∧ m.plan dir.solution = .error err ∧
        g.Alike facts dir'.solution dir.solution) ∨
      ∃ c, out = .error (.scoreCorruption c) ∧ check = true ∧
        (g.Alike facts dir'.solution dir.solution ∨ dir.FailsMidway m c dir') := by
  obtain ⟨⟨dir₁, result⟩, hmove, h⟩ := bind_eq_ok_iff.1 h
  rcases cases_doMove hmove with ⟨err, hplan, rfl, rfl⟩ | ⟨e, hplan, rfl, hperform⟩
  · -- Nothing was recorded, so there is nothing to take back.
    obtain ⟨dir₂, hundo, h⟩ := bind_eq_ok_iff.1 h
    cases h
    obtain ⟨s, hs, hcascade, heq⟩ := undoRecording_eq (r := {}) rfl hundo
    cases hs
    have hsame : dir₂.solution = dir.solution := (Except.ok.inj hcascade).symm
    have hlike : g.Alike facts dir₂.solution dir.solution := by
      rw [hsame]
      exact .refl _
    exact .inr (.inl ⟨err, rfl, hplan, hlike⟩)
  · obtain ⟨⟨dir₂, scored⟩, hscored, h⟩ := bind_eq_ok_iff.1 h
    obtain ⟨hs₂, heq₂⟩ := scored_solution hscored
    cases scored with
    | error c =>
      cases h
      obtain ⟨hcheck, hassert⟩ := of_scored_error hscored
      exact .inr (.inr ⟨c, rfl, hcheck, .inr ⟨dir₁, dir₂, hmove, hassert, rfl⟩⟩)
    | ok score =>
      obtain ⟨dir₃, hundo, h⟩ := bind_eq_ok_iff.1 h
      have hback : g.Alike facts dir₃.solution dir.solution :=
        undo_alike hreg hm hshadows hplan hperform (by rw [heq₂]) (by rw [heq₂]) (alike_of_stored hreg hs₂) hundo
      split at h
      · cases h
        exact .inl ⟨score, e, rfl, hplan, hback⟩
      · rename_i hcheck
        obtain ⟨⟨dir₄, asserted⟩, hassert, h⟩ := bind_eq_ok_iff.1 h
        have hback₄ := (alike_of_stored hreg (assertScore_solution hassert).1).trans hback
        cases asserted with
        | error c =>
          cases h
          exact .inr (.inr ⟨c, rfl, by simpa using hcheck, .inl hback₄⟩)
        | ok score' =>
          cases h
          exact .inl ⟨score, e, rfl, hplan, hback₄⟩

end Planning.Director
