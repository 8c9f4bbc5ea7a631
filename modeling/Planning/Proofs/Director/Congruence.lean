import Planning.Proofs.Director.Full

/-!
# Directors that cannot be told apart

A director that was copied goes its own way: it tries other moves than the one that it was copied from, and is asked
for other scores. As long as both make the same moves they still answer alike. That is so for directors that score in
full: their working solutions are alike, and a score that one of them knows is the one that the other would calculate.
-/

namespace Planning

open Checked

variable {S : Type} {k : ScoreKind} [PlanningSolution S k]

/-- A relation of directors that what they do respects, for some moves: related directors answer alike, stay related
when they make the same moves, and whatever one tries leaves it related to itself as it was. -/
structure Congruence (P : Move S → Prop) (C : Director S k → Director S k → Prop) : Prop where
  /-- It makes no difference which of the two comes first. -/
  symm : ∀ {dir dir'}, C dir dir' → C dir' dir
  /-- Directors that cannot be told apart from a third one cannot be told apart. -/
  trans : ∀ {dir dir' dir''}, C dir dir' → C dir' dir'' → C dir dir''
  /-- What was reported cannot be told. -/
  journal : ∀ {dir dir'} journal, C dir dir' → C { dir with journal := journal } dir'
  /-- The working solutions are the same but for the stored score. -/
  stored : ∀ {dir dir'}, C dir dir' → ∀ score,
    PlanningSolution.withScore dir.solution score = PlanningSolution.withScore dir'.solution score
  /-- Both working solutions are initialized or neither is. -/
  initialized : ∀ {dir dir'}, C dir dir' →
    PlanningSolution.isInitialized dir.solution = PlanningSolution.isInitialized dir'.solution
  /-- A move would change both working solutions or neither. -/
  doable : ∀ {m dir dir'}, P m → C dir dir' → m.isDoable dir.solution = m.isDoable dir'.solution
  /-- A move would change the same in both working solutions. -/
  signature : ∀ {m dir dir'}, P m → C dir dir' → m.signature dir.solution = m.signature dir'.solution
  /-- The score is the same, and that it was asked for cannot be told. -/
  calculate : ∀ {dir dir' d score}, C dir dir' → dir.calculate = .ok (d, score) →
    C d dir ∧ ∃ d', dir'.calculate = .ok (d', score)
  /-- The score is found right by both or by neither, and that it was checked cannot be told. -/
  assertScore : ∀ {dir dir' d score}, C dir dir' → dir.assertScore = .ok (d, .ok score) →
    C d dir ∧ ∃ d', dir'.assertScore = .ok (d', .ok score)
  /-- A move has the same score, and that it was tried cannot be told. -/
  evaluate : ∀ {m dir dir' d check score}, P m → C dir dir' → dir.evaluate m check = .ok (d, .ok score) →
    C d dir ∧ ∃ d', dir'.evaluate m check = .ok (d', .ok score)
  /-- A move that one makes the other makes, and they cannot be told apart after it. -/
  doMove : ∀ {m dir dir' d}, P m → C dir dir' → dir.doMove m = .ok (d, .ok ()) →
    ∃ d', dir'.doMove m = .ok (d', .ok ()) ∧ C d d'

/-- A change of the problem is made by both of two directors that cannot be told apart or refused by both, and they
cannot be told apart after it; a director that refuses it is as it was. -/
def ProblemChange.Respects (C : Director S k → Director S k → Prop) (c : ProblemChange S k) : Prop :=
  ∀ dir dir' d refusal, C dir dir' → c.apply dir = .ok (d, refusal) →
    (∃ d', c.apply dir' = .ok (d', refusal) ∧ C d d') ∧ (refusal.isSome = true → C d dir)

namespace Director

variable {dir d : Director S k} {m : Move S} {check : Bool} {score : Score k}

/-- A move has a score when it can be made, scored and taken back, and the score is right again then if it is
checked. -/
theorem evaluate_eq_ok_iff : dir.evaluate m check = .ok (d, .ok score) ↔ ∃ dir₁ dir₂ dir₃,
    dir.record.doMove m = .ok (dir₁, .ok ()) ∧ dir₁.scored check = .ok (dir₂, .ok score) ∧
      dir₂.undoRecording = .ok dir₃ ∧ (check = false → d = dir₃.stopRecording) ∧
      (check = true → ∃ dir₄ score', dir₃.assertScore = .ok (dir₄, .ok score') ∧ d = dir₄.stopRecording) := by
  constructor
  · intro h
    obtain ⟨⟨dir₁, result⟩, hmove, h⟩ := bind_eq_ok_iff.1 h
    cases result with
    | error err =>
      obtain ⟨dir₂, -, h⟩ := bind_eq_ok_iff.1 h
      cases h
    | ok u =>
      obtain ⟨⟨dir₂, out⟩, hscored, h⟩ := bind_eq_ok_iff.1 h
      cases out with
      | error c => cases h
      | ok score' =>
        obtain ⟨dir₃, hundo, h⟩ := bind_eq_ok_iff.1 h
        cases check with
        | false =>
          cases h
          exact ⟨dir₁, dir₂, dir₃, hmove, hscored, hundo, fun _ => rfl, nofun⟩
        | true =>
          obtain ⟨⟨dir₄, asserted⟩, hassert, h⟩ := bind_eq_ok_iff.1 h
          cases asserted with
          | error c => cases h
          | ok score'' =>
            cases h
            exact ⟨dir₁, dir₂, dir₃, hmove, hscored, hundo, nofun, fun _ => ⟨dir₄, score'', hassert, rfl⟩⟩
  · rintro ⟨dir₁, dir₂, dir₃, hmove, hscored, hundo, hunchecked, hchecked⟩
    refine bind_eq_ok_iff.2 ⟨_, hmove, bind_eq_ok_iff.2 ⟨_, hscored, bind_eq_ok_iff.2 ⟨_, hundo, ?_⟩⟩⟩
    cases check with
    | false =>
      rw [hunchecked rfl]
      rfl
    | true =>
      obtain ⟨dir₄, score', hassert, rfl⟩ := hchecked rfl
      exact bind_eq_ok_iff.2 ⟨_, hassert, rfl⟩

/-- A director without listeners scores in full, and a score that it knows is that of its solution. -/
structure Rated (f : S → Checked (Score k)) (dir : Director S k) : Prop where
  /-- There are no listeners. -/
  shadows : dir.shadows = []
  /-- A score that is known is right. -/
  scoring : ∃ known, dir.scoring = .full f known ∧ ∀ score ∈ known, f dir.solution = .ok score

section Rated

variable {f : S → Checked (Score k)} {e : Edit S} {s : S}

omit [PlanningSolution S k] in
/-- A director that knows no score knows no wrong one. -/
theorem Rated.of_forgot (hshadows : dir.shadows = []) (h : dir.Forgot f) : dir.Rated f :=
  ⟨hshadows, none, h, fun _ => nofun⟩

omit [PlanningSolution S k] in
/-- Cascades without listeners do nothing. -/
theorem cascadeAll_nil (index : Nat → Option Nat) (s : S) (xs : List EntityRef) :
    ShadowCascade.cascadeAll [] index s xs = .ok s := by
  induction xs with
  | nil => rfl
  | cons x xs ih => exact ShadowCascade.cascadeAll_cons_eq_ok_iff.2 ⟨s, _, rfl, ih⟩

omit [PlanningSolution S k] in
/-- A planned edit gives the solution that it says, and no score is known of it. -/
theorem Rated.perform (h : dir.Rated f) (hd : dir.perform e = .ok d) :
    e.apply dir.solution = .ok d.solution ∧ d.Forgot f ∧ d.shadows = [] := by
  obtain ⟨known, hscoring, -⟩ := h.scoring
  obtain ⟨s, happly, hcascade, -⟩ := perform_eq hd
  rw [h.shadows, cascadeAll_nil] at hcascade
  cases hcascade
  exact ⟨happly, forgot_perform hscoring hd, (shadows_perform hd).trans h.shadows⟩

omit [PlanningSolution S k] in
/-- An edit that can be made is made. -/
theorem Rated.exists_perform (h : dir.Rated f) (happly : e.apply dir.solution = .ok s) :
    ∃ d, dir.perform e = .ok d := by
  obtain ⟨known, hscoring, -⟩ := h.scoring
  have hcascade : dir.shadows.cascadeAll (fun c => dir.variableIndex? c e.name) s e.entities = .ok s := by
    rw [h.shadows]
    exact cascadeAll_nil _ _ _
  exact Director.exists_perform hscoring happly hcascade

omit [PlanningSolution S k] in
/-- A planned edit is what there is to undo in the innermost recording. -/
theorem exists_recordings_perform (h : dir.record.perform e = .ok d) :
    ∃ modified rs, d.recordings = ⟨[e.undo], modified⟩ :: rs := by
  obtain ⟨s, -, -, heq⟩ := perform_eq h
  let r : Recording S := ({} : Recording S).trackAll e.entities
  have hrecordings : d.recordings = { r with undos := e.undo :: r.undos } ::
      dir.recordings.map fun r => r.trackAll e.entities := by
    rw [heq]
    rfl
  rw [show r.undos = [] from Recording.undos_trackAll {} e.entities] at hrecordings
  exact ⟨r.modified, _, hrecordings⟩

variable (hstored : ∀ s score, f (PlanningSolution.withScore s score) = f s)
include hstored

/-- A score that is asked for is that of the working solution, and is known then. -/
theorem Rated.calculate (h : dir.Rated f) (hd : dir.calculate = .ok (d, score)) :
    f dir.solution = .ok score ∧ d.Rated f ∧ f d.solution = f dir.solution := by
  obtain ⟨known, hscoring, hknown⟩ := h.scoring
  unfold Director.calculate at hd
  rw [hscoring] at hd
  cases known with
  | none =>
    obtain ⟨score', hscore, hpure⟩ := bind_eq_ok_iff.1 hd
    cases hpure
    refine ⟨hscore, ⟨h.shadows, some score, rfl, fun score' hmem => ?_⟩, hstored _ _⟩
    cases hmem
    exact (hstored _ _).trans hscore
  | some score' =>
    cases hd
    exact ⟨hknown _ rfl, h, rfl⟩

omit hstored in
/-- A solution that has a score is scored. -/
theorem Rated.exists_calculate (h : dir.Rated f) (hscore : f dir.solution = .ok score) :
    ∃ d, dir.calculate = .ok (d, score) := by
  obtain ⟨known, hscoring, hknown⟩ := h.scoring
  unfold Director.calculate
  rw [hscoring]
  cases known with
  | none => exact ⟨_, bind_eq_ok_iff.2 ⟨score, hscore, rfl⟩⟩
  | some score' =>
    have hsame := (hknown _ rfl).symm.trans hscore
    cases hsame
    exact ⟨dir, rfl⟩

/-- A score that is checked is one that is asked for. -/
theorem Rated.assertScore_eq_ok_iff (h : dir.Rated f) {out : Except ScoreCorruption (Score k)} :
    dir.assertScore = .ok (d, out) ↔ ∃ score, out = .ok score ∧ dir.calculate = .ok (d, score) := by
  have hrest : ∀ {dir₁ : Director S k} {score₁}, dir.calculate = .ok (dir₁, score₁) →
      dir.assertScore = .ok (dir₁, .ok score₁) := by
    intro dir₁ score₁ hcalculate
    obtain ⟨known, hscoring, -⟩ := (h.calculate hstored hcalculate).2.1.scoring
    refine bind_eq_ok_iff.2 ⟨_, hcalculate, ?_⟩
    dsimp only
    rw [hscoring]
    rfl
  constructor
  · intro hd
    obtain ⟨⟨dir₁, score₁⟩, hcalculate, -⟩ := bind_eq_ok_iff.1 hd
    rw [hrest hcalculate] at hd
    cases hd
    exact ⟨score₁, rfl, hcalculate⟩
  · rintro ⟨score, rfl, hcalculate⟩
    exact hrest hcalculate

/-- A score, checked or not, is one that is asked for. -/
theorem Rated.scored_eq_ok_iff (h : dir.Rated f) {out : Except ScoreCorruption (Score k)} :
    dir.scored check = .ok (d, out) ↔ ∃ score, out = .ok score ∧ dir.calculate = .ok (d, score) := by
  cases check with
  | true => exact h.assertScore_eq_ok_iff hstored
  | false =>
    simp only [Director.scored, bind_eq_ok_iff, pure_eq_ok_iff, Prod.exists, Prod.mk.injEq, Bool.false_eq_true,
      if_false]
    constructor
    · rintro ⟨_, score, hcalculate, rfl, rfl⟩
      exact ⟨score, rfl, hcalculate⟩
    · rintro ⟨score, rfl, hcalculate⟩
      exact ⟨_, score, hcalculate, rfl, rfl⟩

end Rated

end Director

namespace Genuine

variable {B L F : Type} {V : B → Type} {W : L → Type}
variable [∀ b, PlanningValue (V b)] [∀ b, DecidableEq (V b)]
variable {g : Genuine S V W} {facts : S → F} {f : S → Checked (Score k)} {m : Move S}

omit [PlanningSolution S k] in
/-- The moves of variables that hold values. -/
def ValueMoves (g : Genuine S V W) (m : Move S) : Prop := ∃ b, ∃ n : BasicMove (V b), m = n.toMove (g.basic b)

omit [PlanningSolution S k] in
/-- The edit of a move of values can be made and taken back everywhere. -/
theorem ValueMoves.exists_apply (hm : g.ValueMoves m) {s : S} {e : Edit S} (hplan : m.plan s = .ok e) (t : S) :
    (∃ t', e.apply t = .ok t') ∧ ∃ t', e.undo t = .ok t' := by
  obtain ⟨b, n, rfl⟩ := hm
  obtain ⟨-, -, hpure⟩ := bind_eq_ok_iff.1 hplan
  cases hpure
  exact ⟨⟨_, rfl⟩, _, rfl⟩

/-- Two directors score solutions in full that are alike. -/
structure Peers (g : Genuine S V W) (facts : S → F) (f : S → Checked (Score k)) (dir dir' : Director S k) : Prop where
  /-- The one knows no wrong score. -/
  left : dir.Rated f
  /-- The other knows no wrong score. -/
  right : dir'.Rated f
  /-- The solutions are alike. -/
  alike : g.Alike facts dir.solution dir'.solution

variable [DecidableEq B] [DecidableEq L] [∀ l, PlanningValue (W l)] [∀ l, DecidableEq (W l)]

omit [PlanningSolution S k] [DecidableEq B] [DecidableEq L] in
/-- The moves of values are moves. -/
theorem ValueMoves.moves (hm : g.ValueMoves m) : g.Moves m := by
  obtain ⟨b, n, rfl⟩ := hm
  exact .basic b n

namespace Peers

variable {dir dir' d : Director S k} {check : Bool} {score : Score k} (hreg : g.Regular facts [])
variable (hstored : ∀ s score, f (PlanningSolution.withScore s score) = f s)
include hreg

/-- A move that one makes the other makes, and they are peers after it. -/
theorem doMove (hm : g.ValueMoves m) (h : g.Peers facts f dir dir') (hd : dir.doMove m = .ok (d, .ok ())) :
    ∃ d', dir'.doMove m = .ok (d', .ok ()) ∧ g.Peers facts f d d' := by
  rcases Director.cases_doMove hd with ⟨err, -, hout, -⟩ | ⟨e, hplan, -, hperform⟩
  · cases hout
  · obtain ⟨e', hplan'⟩ := hm.moves.exists_plan_alike hreg.governed h.alike ⟨e, hplan⟩
    obtain ⟨t, happly⟩ := (hm.exists_apply hplan' dir'.solution).1
    obtain ⟨d', hperform'⟩ := h.right.exists_perform happly
    have hd' : dir'.doMove m = .ok (d', .ok ()) := by
      rw [Director.doMove, hplan']
      exact bind_eq_ok_iff.2 ⟨d', hperform', rfl⟩
    obtain ⟨-, hforgot, hs⟩ := h.left.perform hperform
    obtain ⟨-, hforgot', hs'⟩ := h.right.perform hperform'
    obtain ⟨-, hlike, -⟩ :=
      Director.doMove_alike hreg hm.moves h.left.shadows h.right.shadows h.alike hd hd'
    exact ⟨d', hd', .of_forgot hs hforgot, .of_forgot hs' hforgot', hlike⟩

include hstored

omit [∀ b, PlanningValue (V b)] [∀ b, DecidableEq (V b)] [∀ l, PlanningValue (W l)] [∀ l, DecidableEq (W l)] in
/-- A director that was asked for its score is a peer of itself as it was. -/
theorem of_calculate (h : dir.Rated f) (hd : dir.calculate = .ok (d, score)) : g.Peers facts f d dir :=
  ⟨(h.calculate hstored hd).2.1, h, (Director.calculate_alike hreg hd).1⟩

/-- A director that tried a move and took it back is a peer of itself as it was. -/
theorem of_undone (hm : g.ValueMoves m) (h : dir.Rated f) {dir₁ dir₂ dir₃ : Director S k}
    (hmove : dir.record.doMove m = .ok (dir₁, .ok ())) (hscored : dir₁.calculate = .ok (dir₂, score))
    (hundo : dir₂.undoRecording = .ok dir₃) : g.Peers facts f dir₃ dir := by
  have hrecord : dir.record.Rated f := ⟨h.shadows, h.scoring⟩
  rcases Director.cases_doMove hmove with ⟨err, -, hout, -⟩ | ⟨e, hplan, -, hperform⟩
  · cases hout
  · obtain ⟨-, hforgot₁, hs₁⟩ := hrecord.perform hperform
    have hrated₁ : dir₁.Rated f := .of_forgot hs₁ hforgot₁
    obtain ⟨-, hrated₂, -⟩ := hrated₁.calculate hstored hscored
    obtain ⟨known, hscoring₂, -⟩ := hrated₂.scoring
    obtain ⟨hs₂, heq₂⟩ := Director.calculate_solution hscored
    have hrecordings : dir₂.recordings = dir₁.recordings := by rw [heq₂]
    obtain ⟨modified, rs, hr⟩ := Director.exists_recordings_perform hperform
    have hforgot₃ := Director.forgot_undoRecording hscoring₂ (hrecordings.trans hr) hundo
    have hs₃ : dir₃.shadows = [] := (Director.shadows_undoRecording hundo).trans hrated₂.shadows
    refine ⟨.of_forgot hs₃ hforgot₃, h, ?_⟩
    exact Director.undo_alike hreg hm.moves h.shadows hplan hperform hrecordings (hrated₂.shadows.trans hs₁.symm)
      (Director.calculate_alike hreg hscored).1 hundo

/-- A director that evaluated a move is a peer of itself as it was. -/
theorem of_evaluate (hm : g.ValueMoves m) (h : dir.Rated f) (hd : dir.evaluate m check = .ok (d, .ok score)) :
    g.Peers facts f d dir := by
  obtain ⟨dir₁, dir₂, dir₃, hmove, hscored, hundo, hunchecked, hchecked⟩ := Director.evaluate_eq_ok_iff.1 hd
  have hrecord : dir.record.Rated f := ⟨h.shadows, h.scoring⟩
  rcases Director.cases_doMove hmove with ⟨err, -, hout, -⟩ | ⟨e, -, -, hperform⟩
  · cases hout
  · obtain ⟨-, hforgot₁, hs₁⟩ := hrecord.perform hperform
    have hrated₁ : dir₁.Rated f := .of_forgot hs₁ hforgot₁
    obtain ⟨_, -, hcalculate⟩ := (hrated₁.scored_eq_ok_iff hstored).1 hscored
    obtain ⟨hrated₃, -, hlike₃⟩ := of_undone hreg hstored hm h hmove hcalculate hundo
    cases check with
    | false =>
      rw [hunchecked rfl]
      exact ⟨⟨hrated₃.shadows, hrated₃.scoring⟩, h, hlike₃⟩
    | true =>
      obtain ⟨dir₄, _, hassert, rfl⟩ := hchecked rfl
      obtain ⟨_, -, hcalculate₄⟩ := (hrated₃.assertScore_eq_ok_iff hstored).1 hassert
      obtain ⟨hrated₄, -, hlike₄⟩ := of_calculate hreg hstored hrated₃ hcalculate₄
      exact ⟨⟨hrated₄.shadows, hrated₄.scoring⟩, h, hlike₄.trans hlike₃⟩

/-- A move that one of two peers evaluates the other evaluates, and they give it the same score. -/
theorem exists_evaluate (hm : g.ValueMoves m) (hf : ∀ {s t}, g.Alike facts s t → f s = f t)
    (h : g.Peers facts f dir dir') (hd : dir.evaluate m check = .ok (d, .ok score)) :
    ∃ d', dir'.evaluate m check = .ok (d', .ok score) := by
  obtain ⟨dir₁, dir₂, dir₃, hmove, hscored, hundo, -, hchecked⟩ := Director.evaluate_eq_ok_iff.1 hd
  have hrecord : g.Peers facts f dir.record dir'.record :=
    ⟨⟨h.left.shadows, h.left.scoring⟩, ⟨h.right.shadows, h.right.scoring⟩, h.alike⟩
  obtain ⟨dir₁', hmove', hpeers₁⟩ := hrecord.doMove hreg hm hmove
  -- With the move made the solutions are alike, so one has the score of the other.
  obtain ⟨_, hscore, hcalculate⟩ := (hpeers₁.left.scored_eq_ok_iff hstored).1 hscored
  cases hscore
  obtain ⟨hscore, -, -⟩ := hpeers₁.left.calculate hstored hcalculate
  obtain ⟨dir₂', hcalculate'⟩ := hpeers₁.right.exists_calculate ((hf hpeers₁.alike).symm.trans hscore)
  have hscored' : dir₁'.scored check = .ok (dir₂', .ok score) :=
    (hpeers₁.right.scored_eq_ok_iff hstored).2 ⟨score, rfl, hcalculate'⟩
  obtain ⟨-, hrated₂, -⟩ := hpeers₁.right.calculate hstored hcalculate'
  obtain ⟨known, hscoring₂, -⟩ := hrated₂.scoring
  rcases Director.cases_doMove hmove' with ⟨err, -, hout, -⟩ | ⟨e', hplan', -, hperform'⟩
  · cases hout
  · obtain ⟨modified, rs, hr⟩ := Director.exists_recordings_perform hperform'
    have hr₂ : dir₂'.recordings = ⟨[e'.undo], modified⟩ :: rs := by
      rw [(Director.scored_solution hscored').2, hr]
    obtain ⟨t, ht⟩ := (hm.exists_apply hplan' dir₂'.solution).2
    have hcascade : dir₂'.shadows.cascadeAll (fun _ => none) t modified = .ok t := by
      rw [hrated₂.shadows]
      exact Director.cascadeAll_nil _ _ _
    obtain ⟨dir₃', hundo'⟩ :=
      Director.exists_undoRecording hscoring₂ hr₂ (s := t) (bind_eq_ok_iff.2 ⟨t, ht, rfl⟩) hcascade
    cases check with
    | false => exact ⟨_, Director.evaluate_eq_ok_iff.2 ⟨_, _, _, hmove', hscored', hundo', fun _ => rfl, nofun⟩⟩
    | true =>
      -- With the move taken back the solutions are alike again, so one is found right like the other.
      obtain ⟨_, score₄, hassert, -⟩ := hchecked rfl
      have hpeers₃ := of_undone hreg hstored hm h.left hmove hcalculate hundo
      have hpeers₃' := of_undone hreg hstored hm h.right hmove' hcalculate' hundo'
      obtain ⟨_, -, hcalculate₄⟩ := (hpeers₃.left.assertScore_eq_ok_iff hstored).1 hassert
      obtain ⟨hscore₄, -, -⟩ := hpeers₃.left.calculate hstored hcalculate₄
      have hlike := hpeers₃'.alike.trans (h.alike.symm.trans hpeers₃.alike.symm)
      obtain ⟨dir₄', hcalculate₄'⟩ := hpeers₃'.left.exists_calculate ((hf hlike).trans hscore₄)
      have hassert' := (hpeers₃'.left.assertScore_eq_ok_iff hstored).2 ⟨_, rfl, hcalculate₄'⟩
      exact ⟨_, Director.evaluate_eq_ok_iff.2
        ⟨_, _, _, hmove', hscored', hundo', nofun, fun _ => ⟨dir₄', _, hassert', rfl⟩⟩⟩

end Peers

/-- Directors without listeners that score solutions in full cannot be told apart where these are alike, as far as
moves of values are concerned, if what is alike has the same score, from scratch and with a score stored in it. -/
theorem congruence_full (hreg : g.Regular facts []) (hstored : ∀ s score, f (PlanningSolution.withScore s score) = f s)
    (hf : ∀ {s t}, g.Alike facts s t → f s = f t)
    (hwith : ∀ {s t}, g.Alike facts s t → ∀ score : Score k,
      PlanningSolution.withScore s score = PlanningSolution.withScore t score)
    (hinitialized : ∀ {s t}, g.Alike facts s t →
      PlanningSolution.isInitialized (k := k) s = PlanningSolution.isInitialized t) :
    Congruence g.ValueMoves (g.Peers facts f) where
  symm h := ⟨h.right, h.left, h.alike.symm⟩
  trans h h' := ⟨h.left, h'.right, h.alike.trans h'.alike⟩
  journal _ h := ⟨⟨h.left.shadows, h.left.scoring⟩, h.right, h.alike⟩
  stored h := hwith h.alike
  initialized h := hinitialized h.alike
  doable hm h := hm.moves.isDoable_alike hreg.governed h.alike
  signature hm h := hm.moves.signature_alike h.alike.content
  calculate h hd := by
    obtain ⟨hscore, -, -⟩ := h.left.calculate hstored hd
    exact ⟨Peers.of_calculate hreg hstored h.left hd, h.right.exists_calculate ((hf h.alike).symm.trans hscore)⟩
  assertScore h hd := by
    obtain ⟨_, hout, hcalculate⟩ := (h.left.assertScore_eq_ok_iff hstored).1 hd
    cases hout
    obtain ⟨hscore, -, -⟩ := h.left.calculate hstored hcalculate
    obtain ⟨d', hcalculate'⟩ := h.right.exists_calculate ((hf h.alike).symm.trans hscore)
    exact ⟨Peers.of_calculate hreg hstored h.left hcalculate,
      d', (h.right.assertScore_eq_ok_iff hstored).2 ⟨_, rfl, hcalculate'⟩⟩
  evaluate hm h hd :=
    ⟨Peers.of_evaluate hreg hstored hm h.left hd, Peers.exists_evaluate hreg hstored hm hf h hd⟩
  doMove hm h hd := h.doMove hreg hm hd

end Genuine

end Planning
