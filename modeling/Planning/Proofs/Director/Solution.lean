import Planning.Move.Basic
import Planning.ProblemChange
import Planning.Proofs.Director.Shadow

/-!
# What directors do to their solutions

Whatever way a director scores, its working solution changes only by edits and by the cascades that follow the
announcement of entities, one entity after another. Scoring a solution stores the score and nothing else.
-/

namespace Planning

open Checked

variable {S : Type} {k : ScoreKind}

/-- Entities whose variables changed, one after another. -/
def Recording.trackAll (r : Recording S) (xs : List EntityRef) : Recording S := xs.foldl track r

/-- Tracking adds no edit. -/
theorem Recording.undos_trackAll (r : Recording S) (xs : List EntityRef) : (r.trackAll xs).undos = r.undos := by
  induction xs generalizing r with
  | nil => rfl
  | cons x xs ih =>
    refine (ih (r.track x)).trans ?_
    unfold track
    split <;> rfl

/-- What is tracked was tracked before or is tracked now. -/
theorem Recording.mem_modified_trackAll {r : Recording S} {xs : List EntityRef} {y : EntityRef} :
    y ∈ (r.trackAll xs).modified ↔ y ∈ r.modified ∨ y ∈ xs := by
  induction xs generalizing r with
  | nil => simp [trackAll]
  | cons x xs ih =>
    refine ih.trans ?_
    unfold track
    split
    · rename_i hx
      have hx : x ∈ r.modified := List.contains_iff_mem.1 hx
      rw [List.mem_cons]
      grind
    · rw [List.mem_append, List.mem_singleton, List.mem_cons, or_assoc]

namespace Director

variable {dir dir' : Director S k} {x : EntityRef} {name : String}

/-- Every open recording notes entities one after another. -/
def trackAll (dir : Director S k) (xs : List EntityRef) : Director S k :=
  { dir with recordings := dir.recordings.map fun r => r.trackAll xs }

/-- Forgetting concerns the scoring. -/
theorem forget_eq (dir : Director S k) : dir.forget = { dir with scoring := dir.forget.scoring } := by
  unfold forget
  split <;> rfl

/-- An event concerns the scoring. -/
theorem emit_eq {e : SourceEvent} (h : dir.emit e = .ok dir') :
    dir' = { dir with scoring := dir'.scoring } := by
  unfold emit at h
  split at h
  · split at h
    · obtain ⟨⟨cs, change⟩, -, h⟩ := bind_eq_ok_iff.1 h
      obtain ⟨cached, -, h⟩ := bind_eq_ok_iff.1 h
      cases h
      rfl
    · cases h
      rfl
  · cases h
    rfl

/-- Events one after another concern the scoring. -/
theorem emitAll_eq {α : Type} {f : α → SourceEvent} {xs : List α}
    (h : xs.foldlM (fun dir x => dir.emit (f x)) dir = .ok dir') :
    dir' = { dir with scoring := dir'.scoring } := by
  induction xs generalizing dir with
  | nil =>
    cases h
    rfl
  | cons x xs ih =>
    rw [List.foldlM_cons] at h
    obtain ⟨dir₁, h₁, h⟩ := bind_eq_ok_iff.1 h
    rw [ih h, emit_eq h₁]

/-- What follows from a change is what the cascade says. -/
theorem cascade_eq {index : Option Nat} {i n : Nat} (h : dir.cascade x index i n = .ok dir') :
    ∃ changed, dir.shadows.cascade dir.solution x index = .ok (dir'.solution, changed) ∧
      dir' = { dir with solution := dir'.solution, scoring := dir'.scoring } := by
  obtain ⟨⟨s, changed⟩, hs, h⟩ := bind_eq_ok_iff.1 h
  have heq := emitAll_eq h
  exact ⟨changed, by rw [heq, hs], by rw [heq]⟩

/-- An edit is made. -/
theorem edit_eq {f : S → Checked S} (h : dir.edit f = .ok dir') :
    f dir.solution = .ok dir'.solution ∧
      dir' = { dir with solution := dir'.solution, scoring := dir'.scoring } := by
  obtain ⟨s, hs, h⟩ := bind_eq_ok_iff.1 h
  cases h
  exact ⟨hs, by rw [forget_eq]⟩

/-- Edits are made one after another. -/
theorem editAll_eq {fs : List (S → Checked S)} (h : fs.foldlM (fun dir f => dir.edit f) dir = .ok dir') :
    fs.foldlM (fun s f => f s) dir.solution = .ok dir'.solution ∧
      dir' = { dir with solution := dir'.solution, scoring := dir'.scoring } := by
  induction fs generalizing dir with
  | nil =>
    cases h
    exact ⟨rfl, rfl⟩
  | cons f fs ih =>
    rw [List.foldlM_cons] at h ⊢
    obtain ⟨dir₁, h₁, h⟩ := bind_eq_ok_iff.1 h
    obtain ⟨hs₁, heq₁⟩ := edit_eq h₁
    obtain ⟨hs, heq⟩ := ih h
    exact ⟨bind_eq_ok_iff.2 ⟨_, hs₁, hs⟩, by rw [heq, heq₁]⟩

/-- An entity that is announced is followed by a cascade. -/
theorem afterVariableChanged_eq (h : dir.afterVariableChanged x name = .ok dir') :
    ∃ changed, dir.shadows.cascade dir.solution x (dir.variableIndex? x.1 name) = .ok (dir'.solution, changed) ∧
      dir' = { dir.trackAll [x] with solution := dir'.solution, scoring := dir'.scoring } := by
  obtain ⟨dir₁, h₁, h⟩ := bind_eq_ok_iff.1 h
  obtain ⟨dir₂, h₂, h⟩ := bind_eq_ok_iff.1 h
  cases h
  obtain ⟨changed, hs, heq₁⟩ := cascade_eq h₁
  have heq₂ := emit_eq h₂
  rw [heq₂, forget_eq]
  exact ⟨changed, hs, by rw [heq₁]; rfl⟩

/-- Entities that are announced one after another are followed by cascades. -/
theorem announce_eq {xs : List EntityRef}
    (h : xs.foldlM (fun dir x => dir.afterVariableChanged x name) dir = .ok dir') :
    dir.shadows.cascadeAll (fun d => dir.variableIndex? d name) dir.solution xs = .ok dir'.solution ∧
      dir' = { dir.trackAll xs with solution := dir'.solution, scoring := dir'.scoring } := by
  induction xs generalizing dir with
  | nil =>
    cases h
    refine ⟨rfl, ?_⟩
    have hnone : dir'.recordings.map (fun r => r.trackAll []) = dir'.recordings := List.map_id' _
    rw [trackAll, hnone]
  | cons x xs ih =>
    rw [List.foldlM_cons] at h
    obtain ⟨dir₁, h₁, h⟩ := bind_eq_ok_iff.1 h
    obtain ⟨changed, hs₁, heq₁⟩ := afterVariableChanged_eq h₁
    obtain ⟨hs, heq⟩ := ih h
    have hshadows : dir₁.shadows = dir.shadows := by rw [heq₁]; rfl
    have hindex : (fun d => dir₁.variableIndex? d name) = fun d => dir.variableIndex? d name := by
      rw [heq₁]
      rfl
    rw [hshadows, hindex] at hs
    refine ⟨?_, ?_⟩
    · exact ShadowCascade.cascadeAll_cons_eq_ok_iff.2 ⟨_, changed, hs₁, hs⟩
    · rw [heq, heq₁]
      simp only [trackAll, List.map_map]
      rfl

/-- What is remembered concerns the recordings. -/
theorem remember_eq (dir : Director S k) (undo : S → Checked S) (s : S) (scoring : Scoring S k) :
    { dir with solution := s, scoring := scoring }.remember undo =
      { dir.remember undo with solution := s, scoring := scoring } := by
  obtain ⟨_, _, _, _, recordings, _⟩ := dir
  cases recordings <;> rfl

/-- A planned edit is made and its entities are announced. -/
theorem perform_eq {e : Edit S} (h : dir.perform e = .ok dir') :
    ∃ s, e.apply dir.solution = .ok s ∧
      dir.shadows.cascadeAll (fun d => dir.variableIndex? d e.name) s e.entities = .ok dir'.solution ∧
      dir' = { (dir.trackAll e.entities).remember e.undo with
        solution := dir'.solution, scoring := dir'.scoring } := by
  obtain ⟨dir₁, h₁, h⟩ := bind_eq_ok_iff.1 h
  obtain ⟨dir₂, h₂, h⟩ := bind_eq_ok_iff.1 h
  cases h
  rw [beforeVariableChanged, forget_eq] at h₁
  obtain ⟨hs₁, heq₁⟩ := edit_eq h₁
  obtain ⟨hs₂, heq₂⟩ := announce_eq h₂
  have hsolution : (dir₂.remember e.undo).solution = dir₂.solution := by
    unfold remember
    split <;> rfl
  have hshadows : dir₁.shadows = dir.shadows := by rw [heq₁]
  have hindex : (fun d => dir₁.variableIndex? d e.name) = fun d => dir.variableIndex? d e.name := by
    rw [heq₁]
    rfl
  rw [hshadows, hindex] at hs₂
  refine ⟨dir₁.solution, hs₁, hsolution.symm ▸ hs₂, ?_⟩
  have heq : dir₂ = { dir.trackAll e.entities with solution := dir₂.solution, scoring := dir₂.scoring } := by
    rw [heq₂, heq₁]
    rfl
  rw [heq, remember_eq]

/-- The innermost recording is undone: its edits are made, and its entities are announced. -/
theorem undoRecording_eq {r : Recording S} {rs : List (Recording S)} (hr : dir.recordings = r :: rs)
    (h : dir.undoRecording = .ok dir') :
    ∃ s, r.undos.foldlM (fun s f => f s) dir.solution = .ok s ∧
      dir.shadows.cascadeAll (fun _ => none) s r.modified = .ok dir'.solution ∧
      dir' = { dir with
        solution := dir'.solution, scoring := dir'.scoring,
        recordings := {} :: rs.map fun r' => r'.trackAll r.modified } := by
  unfold undoRecording at h
  rw [hr] at h
  obtain ⟨dir₁, h₁, h⟩ := bind_eq_ok_iff.1 h
  obtain ⟨dir₂, h₂, h⟩ := bind_eq_ok_iff.1 h
  cases h
  rw [beforeVariableChanged, forget_eq] at h₁
  obtain ⟨hs₁, heq₁⟩ := editAll_eq h₁
  obtain ⟨hs₂, heq₂⟩ := announce_eq h₂
  have hshadows : dir₁.shadows = dir.shadows := by rw [heq₁]
  rw [hshadows] at hs₂
  exact ⟨dir₁.solution, hs₁, hs₂, by rw [heq₂, heq₁]; rfl⟩

section Full

variable {calculate : S → Checked (Score k)} {known : Option (Score k)}

/-- An event is no matter to a director that scores in full. -/
theorem emit_of_full (h : dir.scoring = .full calculate known) (e : SourceEvent) : dir.emit e = .ok dir := by
  rw [emit, h]
  rfl

/-- Events one after another are no matter to a director that scores in full. -/
theorem emitAll_of_full (h : dir.scoring = .full calculate known) {α : Type} (f : α → SourceEvent) (xs : List α) :
    xs.foldlM (fun dir x => dir.emit (f x)) dir = .ok dir := by
  induction xs with
  | nil => rfl
  | cons x xs ih =>
    rw [List.foldlM_cons, emit_of_full h]
    exact ih

/-- A cascade of a director that scores in full is that of its listeners. -/
theorem cascade_of_full (h : dir.scoring = .full calculate known) {index : Option Nat} {s : S}
    {changed : List EntityRef} (start finish : Nat)
    (hcascade : dir.shadows.cascade dir.solution x index = .ok (s, changed)) :
    dir.cascade x index start finish = .ok { dir with solution := s } := by
  let dir₁ : Director S k := { dir with solution := s }
  have h₁ : dir₁.scoring = .full calculate known := h
  exact bind_eq_ok_iff.2 ⟨_, hcascade, emitAll_of_full h₁ _ _⟩

/-- A director that scores in full lets an announcement fail only with its cascade. -/
theorem exists_announce {d : Director S k} (n : String) (hfull : d.scoring = .full calculate known) {s : S}
    {xs : List EntityRef}
    (h : d.shadows.cascadeAll (fun c => d.variableIndex? c n) d.solution xs = .ok s) :
    ∃ dir', xs.foldlM (fun dir x => dir.afterVariableChanged x n) d = .ok dir' := by
  induction xs generalizing d known with
  | nil => exact ⟨d, rfl⟩
  | cons x xs ih =>
    obtain ⟨s₁, changed, h₁, h⟩ := ShadowCascade.cascadeAll_cons_eq_ok_iff.1 h
    let dir₁ : Director S k := { d with solution := s₁ }
    have hfull₁ : dir₁.scoring = .full calculate known := hfull
    have hcascade : d.cascade x (d.variableIndex? x.1 n) x.2 (x.2 + 1) = .ok dir₁ := cascade_of_full hfull _ _ h₁
    have hafter : d.afterVariableChanged x n = .ok (dir₁.forget.track x) :=
      bind_eq_ok_iff.2 ⟨dir₁, hcascade, bind_eq_ok_iff.2 ⟨dir₁, emit_of_full hfull₁ _, rfl⟩⟩
    have hforget : dir₁.forget = { dir₁ with scoring := .full calculate none } := by rw [forget, hfull₁]
    rw [hforget] at hafter
    obtain ⟨dir', h'⟩ := ih (d := { dir₁ with scoring := .full calculate none }.track x) rfl h
    exact ⟨dir', by rw [List.foldlM_cons]; exact bind_eq_ok_iff.2 ⟨_, hafter, h'⟩⟩

/-- A director that scores in full lets a planned edit fail only with the edit or a cascade. -/
theorem exists_perform (hfull : dir.scoring = .full calculate known) {e : Edit S} {s s' : S}
    (hs : e.apply dir.solution = .ok s)
    (hs' : dir.shadows.cascadeAll (fun c => dir.variableIndex? c e.name) s e.entities = .ok s') :
    ∃ dir', dir.perform e = .ok dir' := by
  have hforget : dir.forget = { dir with scoring := .full calculate none } := by rw [forget, hfull]
  have hedit : dir.beforeVariableChanged.edit e.apply =
      .ok { dir with solution := s, scoring := .full calculate none } := by
    rw [beforeVariableChanged, hforget]
    exact bind_eq_ok_iff.2 ⟨s, hs, rfl⟩
  obtain ⟨dir₂, h₂⟩ := exists_announce (d := { dir with solution := s, scoring := .full calculate none }) e.name rfl hs'
  exact ⟨dir₂.remember e.undo, bind_eq_ok_iff.2 ⟨_, hedit, bind_eq_ok_iff.2 ⟨dir₂, h₂, rfl⟩⟩⟩

/-- A director that scores in full lets the undoing of a recording fail only with an edit or a cascade. -/
theorem exists_undoRecording (hfull : dir.scoring = .full calculate known) {r : Recording S}
    {rs : List (Recording S)} (hr : dir.recordings = r :: rs) {s s' : S}
    (hs : r.undos.foldlM (fun s f => f s) dir.solution = .ok s)
    (hs' : dir.shadows.cascadeAll (fun _ => none) s r.modified = .ok s') :
    ∃ dir', dir.undoRecording = .ok dir' := by
  have hedits : ∀ (fs : List (S → Checked S)) (dir : Director S k) s known,
      dir.scoring = .full calculate known → fs.foldlM (fun s f => f s) dir.solution = .ok s →
      ∃ known', fs.foldlM (fun dir f => dir.edit f) dir =
        .ok { dir with solution := s, scoring := .full calculate known' } := by
    intro fs
    induction fs with
    | nil =>
      intro dir s known hdir hs
      cases hs
      exact ⟨known, by rw [← hdir]; rfl⟩
    | cons f fs ih =>
      intro dir s known hdir hs
      rw [List.foldlM_cons] at hs
      obtain ⟨s₁, hs₁, hs⟩ := bind_eq_ok_iff.1 hs
      have hedit : dir.edit f = .ok { dir with solution := s₁, scoring := .full calculate none } := by
        rw [edit, hs₁, forget, hdir]
        rfl
      obtain ⟨known', h'⟩ := ih { dir with solution := s₁, scoring := .full calculate none } s none rfl hs
      exact ⟨known', by rw [List.foldlM_cons, hedit]; exact h'⟩
  have hforget : dir.forget = { dir with scoring := .full calculate none } := by rw [forget, hfull]
  obtain ⟨known', h₁⟩ := hedits r.undos { dir.forget with recordings := rs } s none (by rw [hforget])
    (by rw [hforget]; exact hs)
  let dir₁ : Director S k :=
    { dir.forget with recordings := rs, solution := s, scoring := .full calculate known' }
  have hcascade : dir₁.shadows.cascadeAll (fun c => dir₁.variableIndex? c "") dir₁.solution r.modified = .ok s' := by
    simp only [dir₁, hforget]
    exact hs'
  obtain ⟨dir₂, h₂⟩ := exists_announce "" rfl hcascade
  refine ⟨{ dir₂ with recordings := {} :: dir₂.recordings }, ?_⟩
  rw [undoRecording, hr]
  exact bind_eq_ok_iff.2 ⟨_, h₁, bind_eq_ok_iff.2 ⟨dir₂, h₂, rfl⟩⟩

end Full

variable [PlanningSolution S k]

omit [PlanningSolution S k] in
/-- A director whose constraints take in the solution reports that and is otherwise as it was. -/
theorem load_eq {live live' : LiveScoring S k} (h : dir.load live = .ok (dir', live')) :
    dir' = { dir with journal := dir'.journal } := by
  unfold load at h
  split at h
  · cases h
    rfl
  · obtain ⟨⟨cs, sum⟩, -, h⟩ := bind_eq_ok_iff.1 h
    cases h
    rfl

/-- Scoring a solution stores the score and nothing else. -/
theorem calculate_solution {score : Score k} (h : dir.calculate = .ok (dir', score)) :
    (dir'.solution = dir.solution ∨ dir'.solution = PlanningSolution.withScore dir.solution score) ∧
      dir' = { dir with
        solution := dir'.solution, scoring := dir'.scoring, journal := dir'.journal } := by
  unfold calculate at h
  split at h
  · obtain ⟨⟨dir₁, live⟩, h₁, h⟩ := bind_eq_ok_iff.1 h
    have heq₁ := load_eq h₁
    cases h
    exact ⟨.inr (by rw [heq₁]), by rw [heq₁]⟩
  · split at h
    · cases h
      exact ⟨.inl rfl, rfl⟩
    · obtain ⟨score', -, h⟩ := bind_eq_ok_iff.1 h
      cases h
      exact ⟨.inr rfl, rfl⟩

/-- Before an entity comes or goes nothing happens to the solution. -/
theorem beforeEntityMoved_eq (h : dir.beforeEntityMoved x = .ok dir') :
    dir' = { dir with scoring := dir'.scoring } := by
  obtain ⟨dir₁, h₁, h⟩ := bind_eq_ok_iff.1 h
  cases h
  have heq₁ := emitAll_eq h₁
  rw [forget_eq, heq₁]

/-- An entity that comes is put in and followed by a cascade. -/
theorem addEntity_eq {f : S → Checked S} (h : dir.addEntity x f = .ok dir') :
    ∃ s changed, f dir.solution = .ok s ∧ dir.shadows.cascade s x none = .ok (dir'.solution, changed) ∧
      dir' = { dir with solution := dir'.solution, scoring := dir'.scoring } := by
  obtain ⟨dir₁, h₁, h⟩ := bind_eq_ok_iff.1 h
  obtain ⟨dir₂, h₂, h⟩ := bind_eq_ok_iff.1 h
  obtain ⟨dir₃, h₃, h⟩ := bind_eq_ok_iff.1 h
  obtain ⟨dir₄, h₄, h⟩ := bind_eq_ok_iff.1 h
  cases h
  rw [beforeEntityMoved_eq h₁] at h₂
  obtain ⟨hs₂, heq₂⟩ := edit_eq h₂
  obtain ⟨changed, hs₃, heq₃⟩ := cascade_eq h₃
  have heq₄ := emitAll_eq h₄
  have hshadows : dir₂.shadows = dir.shadows := by rw [heq₂]
  rw [hshadows] at hs₃
  rw [forget_eq, heq₄]
  exact ⟨dir₂.solution, changed, hs₂, hs₃, by rw [heq₃, heq₂]⟩

omit [PlanningSolution S k] in
/-- Cascades one after another are what the cascades say. -/
theorem cascades_eq {d start n : Nat} {is : List Nat}
    (h : is.foldlM (fun dir i => dir.cascade (d, i) none start n) dir = .ok dir') :
    dir.shadows.cascadeAll (fun _ => none) dir.solution (is.map fun i => (d, i)) = .ok dir'.solution ∧
      dir' = { dir with solution := dir'.solution, scoring := dir'.scoring } := by
  induction is generalizing dir with
  | nil =>
    cases h
    exact ⟨rfl, rfl⟩
  | cons i is ih =>
    rw [List.foldlM_cons] at h
    obtain ⟨dir₁, h₁, h⟩ := bind_eq_ok_iff.1 h
    obtain ⟨changed, hs₁, heq₁⟩ := cascade_eq h₁
    obtain ⟨hs, heq⟩ := ih h
    have hshadows : dir₁.shadows = dir.shadows := by rw [heq₁]
    rw [hshadows] at hs
    refine ⟨?_, by rw [heq, heq₁]⟩
    exact ShadowCascade.cascadeAll_cons_eq_ok_iff.2 ⟨_, changed, hs₁, hs⟩

/-- An entity that goes is taken out, and every position from there on is followed by a cascade. -/
theorem removeEntity_eq {f : S → Checked S} (h : dir.removeEntity x f = .ok dir') :
    ∃ s, f dir.solution = .ok s ∧
      dir.shadows.cascadeAll (fun _ => none) s
        ((List.range' x.2 (max (PlanningSolution.entityCount s x.1) (x.2 + 1) - x.2)).map fun i => (x.1, i)) =
          .ok dir'.solution ∧
      dir' = { dir with solution := dir'.solution, scoring := dir'.scoring } := by
  obtain ⟨dir₁, h₁, h⟩ := bind_eq_ok_iff.1 h
  obtain ⟨dir₂, h₂, h⟩ := bind_eq_ok_iff.1 h
  obtain ⟨dir₃, h₃, h⟩ := bind_eq_ok_iff.1 h
  obtain ⟨dir₄, h₄, h⟩ := bind_eq_ok_iff.1 h
  cases h
  rw [beforeEntityMoved_eq h₁] at h₂
  obtain ⟨hs₂, heq₂⟩ := edit_eq h₂
  obtain ⟨hs₃, heq₃⟩ := cascades_eq h₃
  have heq₄ := emitAll_eq h₄
  have hshadows : dir₂.shadows = dir.shadows := by rw [heq₂]
  rw [hshadows] at hs₃
  rw [forget_eq, heq₄]
  exact ⟨dir₂.solution, hs₂, hs₃, by rw [heq₃, heq₂]⟩

end Director

end Planning
