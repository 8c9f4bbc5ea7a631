import Planning.Proofs.Director.Evolution
import Planning.Proofs.Director.Full
import Planning.Proofs.Problems.Timetable

/-!
# Changes of the problem taken in

Changes of the problem wait until a run takes them in. Each is checked against the solution as those before it have
left it. If the solution admits it, it is made and the shadow variables follow; if not, it is skipped, and nothing
happens but that this is reported. Once any has been made the best solution no longer counts, and the working solution
takes its place.
-/

namespace Planning

open Checked

variable {S : Type} {k : ScoreKind}

/-- A change of the problem that is checked before it is made. -/
inductive TypedChange (S : Type) : Type 1 where
  /-- An entity takes another value, or none. -/
  | setValue {V : Type} [PlanningValue V] (x : BasicVariable S V) (e : Nat) (v : Option V)
  /-- An entity comes behind the others of its class. -/
  | addEntity {E : Type} (c : Collection S E) (entityClass : Nat) (entity : E) (text : String)
  /-- An entity goes. -/
  | removeEntity {E : Type} (c : Collection S E) (entityClass i : Nat)
  /-- A fact comes behind the others of its class. -/
  | addFact {E : Type} (c : Collection S E) (factClass : Nat) (fact : E) (text : String)
  /-- A fact goes. -/
  | removeFact {E : Type} (c : Collection S E) (factClass i : Nat)

namespace TypedChange

/-- A solution admits a change: what is to change or to go is there, and a value is in range. -/
def admits (s : S) : TypedChange S → Bool
  | setValue x e (some v) => decide (e < x.count s) && x.range.contains s e v
  | setValue x e none => decide (e < x.count s) && x.allowsUnassigned
  | removeEntity c _ i | removeFact c _ i => decide (i < (c.members s).length)
  | addEntity .. | addFact .. => true

/-- The solution with a change before the shadow variables follow it. -/
def edited (s : S) : TypedChange S → S
  | setValue x e v => x.set s e v
  | addEntity c _ a _ | addFact c _ a _ => c.withMembers s (c.members s ++ [a])
  | removeEntity c _ i | removeFact c _ i => c.withMembers s ((c.members s).eraseIdx i)

/-- The name of the variable that changes; none if an entity or a fact comes or goes. -/
def variableName : TypedChange S → String
  | setValue x _ _ => x.name
  | _ => ""

variable [PlanningSolution S k]

/-- The entities whose change the shadow variables follow: the one that changes or comes, or all from the place of
one that goes. -/
def followed (s : S) : TypedChange S → List EntityRef
  | setValue x e _ => [(x.entityClass, e)]
  | addEntity c d _ _ => [(d, (c.members s).length)]
  | removeEntity c d i =>
    let n := PlanningSolution.entityCount (c.withMembers s ((c.members s).eraseIdx i)) d
    (List.range' i (max n (i + 1) - i)).map fun j => (d, j)
  | addFact .. | removeFact .. => []

/-- The solution with a change and with the shadow variables that follow it. -/
def make (shadows : ShadowCascade S) (index : Nat → String → Option Nat) (c : TypedChange S) (s : S) : Checked S :=
  shadows.cascadeAll (fun d => index d c.variableName) (c.edited s) (c.followed s)

/-- Changes are made in their order, each if the solution admits it by then; the others are skipped. What results is
the solution and the number of changes that were made. -/
def makeAll (shadows : ShadowCascade S) (index : Nat → String → Option Nat) :
    List (TypedChange S) → S → Checked (S × Nat)
  | [], s => .ok (s, 0)
  | c :: cs, s => do
    if c.admits s then
      let (s, n) ← makeAll shadows index cs (← c.make shadows index s)
      return (s, n + 1)
    else makeAll shadows index cs s

/-- The change as a change of the problem. -/
def change : TypedChange S → ProblemChange S k
  | setValue x e v => .setValue x e v
  | addEntity c d a text => .addEntity c d a text
  | removeEntity c d i => .removeEntity c d i
  | addFact c d a text => .addFact c d a text
  | removeFact c d i => .removeFact c d i

end TypedChange

namespace Director

variable {dir dir' : Director S k}

/-- A director has no score in mind: its constraints follow each change, or its next score is made anew. -/
def Stale (dir : Director S k) : Prop := ∀ calculate known, dir.scoring = .full calculate known → known = none

/-- What was known is forgotten. -/
theorem stale_forget (dir : Director S k) : dir.forget.Stale := by
  intro calculate known h
  unfold forget at h
  split at h
  · rename_i hscoring
    rw [hscoring] at h
    cases h
  · cases h
    rfl

/-- The next score of a director that has none in mind is stored in the solution. -/
theorem solution_of_calculate [PlanningSolution S k] (hstale : dir.Stale) {score : Score k}
    (h : dir.calculate = .ok (dir', score)) : dir'.solution = PlanningSolution.withScore dir.solution score := by
  unfold calculate at h
  split at h
  · obtain ⟨⟨dir₁, live⟩, h₁, h⟩ := bind_eq_ok_iff.1 h
    cases h
    rw [load_eq h₁]
  · rename_i calculate known hscoring
    cases hstale calculate known hscoring
    obtain ⟨score', -, h⟩ := bind_eq_ok_iff.1 h
    cases h
    rfl

/-- What forgets in the end leaves no score in mind. -/
theorem stale_of_forget {x : Checked (Director S k)} (h : (do return (← x).forget) = .ok dir') : dir'.Stale := by
  obtain ⟨dir₁, -, hpure⟩ := bind_eq_ok_iff.1 h
  cases hpure
  exact stale_forget dir₁

/-- A variable that changes leaves no score in mind. -/
theorem stale_changeVariable {x : EntityRef} {name : String} {f : S → Checked S}
    (h : dir.changeVariable x name f = .ok dir') : dir'.Stale := by
  obtain ⟨dir₁, -, h⟩ := bind_eq_ok_iff.1 h
  obtain ⟨dir₂, -, h⟩ := bind_eq_ok_iff.1 h
  obtain ⟨dir₃, -, hpure⟩ := bind_eq_ok_iff.1 h
  cases hpure
  exact stale_forget dir₃

section Moved

variable [PlanningSolution S k]

/-- An entity that comes leaves no score in mind. -/
theorem stale_addEntity {x : EntityRef} {f : S → Checked S} (h : dir.addEntity x f = .ok dir') : dir'.Stale := by
  obtain ⟨dir₁, -, h⟩ := bind_eq_ok_iff.1 h
  obtain ⟨dir₂, -, h⟩ := bind_eq_ok_iff.1 h
  obtain ⟨dir₃, -, h⟩ := bind_eq_ok_iff.1 h
  exact stale_of_forget h

/-- An entity that goes leaves no score in mind. -/
theorem stale_removeEntity {x : EntityRef} {f : S → Checked S} (h : dir.removeEntity x f = .ok dir') :
    dir'.Stale := by
  obtain ⟨dir₁, -, h⟩ := bind_eq_ok_iff.1 h
  obtain ⟨dir₂, -, h⟩ := bind_eq_ok_iff.1 h
  obtain ⟨dir₃, -, h⟩ := bind_eq_ok_iff.1 h
  exact stale_of_forget h

/-- A fact that comes or goes leaves no score in mind. -/
theorem stale_moveFact {d i : Nat} {f : S → Checked S} (h : dir.moveFact d i f = .ok dir') : dir'.Stale := by
  obtain ⟨dir₁, -, h⟩ := bind_eq_ok_iff.1 h
  obtain ⟨dir₂, -, h⟩ := bind_eq_ok_iff.1 h
  exact stale_of_forget h

end Moved

section Full

variable {f : S → Checked (Score k)} {known : Option (Score k)} (hfull : dir.scoring = .full f known)
include hfull

/-- Events in a range are no matter to a director that scores in full. -/
theorem emitRange_of_full (change : Change) (source : SourceClass) (start count : Nat) :
    dir.emitRange change source start count = .ok dir :=
  emitAll_of_full hfull _ _

/-- Cascades of a director that scores in full are those of its listeners. -/
theorem cascades_of_full {d start n : Nat} {is : List Nat} {s : S}
    (h : dir.shadows.cascadeAll (fun _ => none) dir.solution (is.map fun i => (d, i)) = .ok s) :
    is.foldlM (fun dir i => dir.cascade (d, i) none start n) dir = .ok { dir with solution := s } := by
  induction is generalizing dir with
  | nil =>
    cases h
    rfl
  | cons i is ih =>
    obtain ⟨s₁, changed, h₁, h⟩ := ShadowCascade.cascadeAll_cons_eq_ok_iff.1 h
    rw [List.foldlM_cons]
    let dir₁ : Director S k := { dir with solution := s₁ }
    have hfull₁ : dir₁.scoring = .full f known := hfull
    exact bind_eq_ok_iff.2 ⟨dir₁, cascade_of_full hfull start n h₁, ih hfull₁ h⟩

/-- A director that scores in full and forgets has no known score. -/
theorem forget_of_full : dir.forget = { dir with scoring := .full f none } := by rw [forget, hfull]

variable [PlanningSolution S k]

/-- A director that scores in full lets a fact come or go if the edit does not fail. -/
theorem moveFact_of_full {d i : Nat} {edit : S → Checked S} {s : S} (h : edit dir.solution = .ok s) :
    dir.moveFact d i edit = .ok { dir with solution := s, scoring := .full f none } := by
  have hbefore : dir.beforeFactMoved d i = .ok { dir with scoring := .full f none } :=
    bind_eq_ok_iff.2 ⟨dir, emitRange_of_full hfull _ _ _ _, by rw [forget_of_full hfull]; rfl⟩
  refine bind_eq_ok_iff.2 ⟨_, hbefore, bind_eq_ok_iff.2 ⟨_, bind_eq_ok_iff.2 ⟨s, h, rfl⟩, ?_⟩⟩
  exact bind_eq_ok_iff.2 ⟨_, emitRange_of_full rfl _ _ _ _, rfl⟩

/-- A director that scores in full forgets when an entity is about to come or to go. -/
theorem beforeEntityMoved_of_full (x : EntityRef) :
    dir.beforeEntityMoved x = .ok { dir with scoring := .full f none } :=
  bind_eq_ok_iff.2 ⟨dir, emitRange_of_full hfull _ _ _ _, by rw [forget_of_full hfull]; rfl⟩

/-- A director that scores in full lets an entity come if neither the edit nor the cascade fails. -/
theorem addEntity_of_full {x : EntityRef} {edit : S → Checked S} {s s' : S} {changed : List EntityRef}
    (h : edit dir.solution = .ok s) (hcascade : dir.shadows.cascade s x none = .ok (s', changed)) :
    dir.addEntity x edit = .ok { dir with solution := s', scoring := .full f none } := by
  refine bind_eq_ok_iff.2 ⟨_, beforeEntityMoved_of_full hfull x, ?_⟩
  refine bind_eq_ok_iff.2 ⟨_, bind_eq_ok_iff.2 ⟨s, h, rfl⟩, ?_⟩
  refine bind_eq_ok_iff.2 ⟨_, cascade_of_full rfl _ _ hcascade, ?_⟩
  exact bind_eq_ok_iff.2 ⟨_, emitRange_of_full rfl _ _ _ _, rfl⟩

/-- A director that scores in full lets an entity go if neither the edit nor a cascade fails. -/
theorem removeEntity_of_full {x : EntityRef} {edit : S → Checked S} {s s' : S} (h : edit dir.solution = .ok s)
    (hcascade : dir.shadows.cascadeAll (fun _ => none) s
      ((List.range' x.2 (max (PlanningSolution.entityCount s x.1) (x.2 + 1) - x.2)).map fun i => (x.1, i)) = .ok s') :
    dir.removeEntity x edit = .ok { dir with solution := s', scoring := .full f none } := by
  refine bind_eq_ok_iff.2 ⟨_, beforeEntityMoved_of_full hfull x, ?_⟩
  refine bind_eq_ok_iff.2 ⟨_, bind_eq_ok_iff.2 ⟨s, h, rfl⟩, ?_⟩
  refine bind_eq_ok_iff.2 ⟨_, cascades_of_full rfl hcascade, ?_⟩
  exact bind_eq_ok_iff.2 ⟨_, emitRange_of_full rfl _ _ _ _, rfl⟩

end Full

end Director

namespace TypedChange

variable [PlanningSolution S k] {c : TypedChange S} {cs : List (TypedChange S)} {dir dir' : Director S k}

/-- What the director does for a change that is admitted. -/
def perform (dir : Director S k) : TypedChange S → Checked (Director S k)
  | setValue x e v => dir.changeVariable (x.entityClass, e) x.name fun s => .ok (x.set s e v)
  | addEntity c d a _ => dir.addEntity (d, (c.members dir.solution).length) (c.edit fun l => .ok (l ++ [a]))
  | removeEntity c d i => dir.removeEntity (d, i) (c.edit fun l => removeAt l i)
  | addFact c d a _ => dir.moveFact d (c.members dir.solution).length (c.edit fun l => .ok (l ++ [a]))
  | removeFact c d i => dir.moveFact d i (c.edit fun l => removeAt l i)

/-- A change that is admitted is made. -/
theorem apply_of_admits (h : c.admits dir.solution = true) :
    c.change.apply dir = (do return (← c.perform dir, none)) := by
  cases c with
  | setValue x e v =>
    have hlegal : e < x.count dir.solution ∧ x.checkValue dir.solution e v = .ok () := by
      unfold BasicVariable.checkValue
      cases v with
      | none => simpa [admits] using h
      | some v => simpa [admits] using h
    change (if x.count dir.solution ≤ e then _ else _) = _
    rw [if_neg (Nat.not_le.2 hlegal.1), hlegal.2]
    rfl
  | addEntity c d a text => rfl
  | removeEntity c d i => exact if_neg (Nat.not_le.2 (of_decide_eq_true h))
  | addFact c d a text => rfl
  | removeFact c d i => exact if_neg (Nat.not_le.2 (of_decide_eq_true h))

/-- A change that is not admitted is refused, and the director is as before. -/
theorem apply_of_not_admits (h : c.admits dir.solution = false) :
    ∃ err, c.change.apply dir = .ok (dir, some err) := by
  cases c with
  | setValue x e v =>
    by_cases he : e < x.count dir.solution
    · have hillegal : x.checkValue dir.solution e v = .error (.valueOutOfRange x.name e (optionText v)) := by
        cases v with
        | none => exact if_neg (by simpa [admits, he] using h)
        | some v => exact if_neg (by simpa [admits, he] using h)
      refine ⟨.moveApplication (.valueOutOfRange x.name e (optionText v)), ?_⟩
      change (if x.count dir.solution ≤ e then _ else _) = _
      rw [if_neg (Nat.not_le.2 he), hillegal]
      rfl
    · exact ⟨_, if_pos (Nat.not_lt.1 he)⟩
  | addEntity c d a text => cases h
  | removeEntity c d i => exact ⟨_, if_pos (Nat.not_lt.1 (of_decide_eq_false h))⟩
  | addFact c d a text => cases h
  | removeFact c d i => exact ⟨_, if_pos (Nat.not_lt.1 (of_decide_eq_false h))⟩

/-- A change that is made gives the solution what the change makes of it, keeps the listeners and the description, and
leaves no score in mind. -/
theorem make_of_perform (h : c.perform dir = .ok dir') :
    c.make dir.shadows dir.variableIndex? dir.solution = .ok dir'.solution ∧
      dir' = { dir with solution := dir'.solution, scoring := dir'.scoring, recordings := dir'.recordings } := by
  cases c with
  | setValue x e v =>
    obtain ⟨dir₁, h₁, h₂⟩ := bind_eq_ok_iff.1 h
    rw [Director.beforeVariableChanged, Director.forget_eq] at h₁
    obtain ⟨hs₁, heq₁⟩ := Director.edit_eq h₁
    have hs₁ : x.set dir.solution e v = dir₁.solution := Except.ok.inj hs₁
    obtain ⟨changed, hcascade, heq⟩ := Director.afterVariableChanged_eq h₂
    rw [heq₁, ← hs₁] at hcascade heq
    exact ⟨ShadowCascade.cascadeAll_cons_eq_ok_iff.2 ⟨_, changed, hcascade, rfl⟩, by rw [heq]; rfl⟩
  | addEntity d i a text =>
    obtain ⟨s, changed, hedit, hcascade, heq⟩ := Director.addEntity_eq h
    obtain ⟨l, hl, rfl⟩ := Collection.edit_eq_ok_iff.1 hedit
    cases hl
    exact ⟨ShadowCascade.cascadeAll_cons_eq_ok_iff.2 ⟨_, changed, hcascade, rfl⟩, by rw [heq]⟩
  | removeEntity c d i =>
    obtain ⟨s, hedit, hcascade, heq⟩ := Director.removeEntity_eq h
    obtain ⟨l, hl, rfl⟩ := Collection.edit_eq_ok_iff.1 hedit
    obtain ⟨-, rfl⟩ := removeAt_eq_ok_iff.1 hl
    exact ⟨hcascade, by rw [heq]⟩
  | addFact c d a text =>
    obtain ⟨hedit, heq⟩ := Director.moveFact_eq h
    obtain ⟨l, hl, hs⟩ := Collection.edit_eq_ok_iff.1 hedit
    cases hl
    exact ⟨congrArg _ hs.symm, by rw [heq]⟩
  | removeFact c d i =>
    obtain ⟨hedit, heq⟩ := Director.moveFact_eq h
    obtain ⟨l, hl, hs⟩ := Collection.edit_eq_ok_iff.1 hedit
    obtain ⟨-, rfl⟩ := removeAt_eq_ok_iff.1 hl
    exact ⟨congrArg _ hs.symm, by rw [heq]⟩

/-- A change that is made leaves no score in mind. -/
theorem stale_of_perform (h : c.perform dir = .ok dir') : dir'.Stale := by
  cases c with
  | setValue x e v => exact Director.stale_changeVariable h
  | addEntity c d a text => exact Director.stale_addEntity h
  | removeEntity c d i => exact Director.stale_removeEntity h
  | addFact c d a text => exact Director.stale_moveFact h
  | removeFact c d i => exact Director.stale_moveFact h

/-- A director that scores in full makes a change that is admitted if no cascade fails. -/
theorem perform_of_full (hadmits : c.admits dir.solution = true) {f : S → Checked (Score k)}
    {known : Option (Score k)} (hfull : dir.scoring = .full f known) {s : S}
    (hmake : c.make dir.shadows dir.variableIndex? dir.solution = .ok s) :
    ∃ dir', c.perform dir = .ok dir' ∧ dir'.scoring = .full f none := by
  cases c with
  | setValue x e v =>
    let dir₁ : Director S k := { dir with solution := x.set dir.solution e v, scoring := .full f none }
    have hedit : dir.beforeVariableChanged.edit (fun s => .ok (x.set s e v)) = .ok dir₁ := by
      rw [Director.beforeVariableChanged, Director.forget_of_full hfull]
      rfl
    obtain ⟨s', changed, hcascade, -⟩ := ShadowCascade.cascadeAll_cons_eq_ok_iff.1 hmake
    have hafter : dir₁.afterVariableChanged (x.entityClass, e) x.name =
        .ok ({ dir₁ with solution := s' }.forget.track (x.entityClass, e)) :=
      bind_eq_ok_iff.2 ⟨_, Director.cascade_of_full rfl _ _ hcascade,
        bind_eq_ok_iff.2 ⟨_, Director.emit_of_full rfl _, rfl⟩⟩
    exact ⟨_, bind_eq_ok_iff.2 ⟨dir₁, hedit, hafter⟩, rfl⟩
  | addEntity c d a text =>
    obtain ⟨s', changed, hcascade, -⟩ := ShadowCascade.cascadeAll_cons_eq_ok_iff.1 hmake
    exact ⟨_, Director.addEntity_of_full hfull (Collection.edit_eq_ok_iff.2 ⟨_, rfl, rfl⟩) hcascade, rfl⟩
  | removeEntity c d i =>
    have hremove := removeAt_eq_ok_iff.2 ⟨of_decide_eq_true hadmits, rfl⟩
    exact ⟨_, Director.removeEntity_of_full hfull (Collection.edit_eq_ok_iff.2 ⟨_, hremove, rfl⟩) hmake, rfl⟩
  | addFact c d a text =>
    exact ⟨_, Director.moveFact_of_full hfull (Collection.edit_eq_ok_iff.2 ⟨_, rfl, rfl⟩), rfl⟩
  | removeFact c d i =>
    have hremove := removeAt_eq_ok_iff.2 ⟨of_decide_eq_true hadmits, rfl⟩
    exact ⟨_, Director.moveFact_of_full hfull (Collection.edit_eq_ok_iff.2 ⟨_, hremove, rfl⟩), rfl⟩

/-- A director that scores in full does so after a change, and knows no score. -/
theorem scoring_of_perform (hadmits : c.admits dir.solution = true) {f : S → Checked (Score k)}
    {known : Option (Score k)} (hfull : dir.scoring = .full f known) (h : c.perform dir = .ok dir') :
    dir'.scoring = .full f none := by
  obtain ⟨dir₁, h₁, hscoring⟩ := perform_of_full hadmits hfull (make_of_perform h).1
  rw [h] at h₁
  cases h₁
  exact hscoring

/-- Changes are taken in one after another: one that is admitted is made, another is skipped and leaves the director
as it is, but for what that reports. They are counted. -/
inductive Takes : List (TypedChange S) → Director S k → Director S k → Nat → Prop where
  /-- No change is left. -/
  | done {dir : Director S k} : Takes [] dir dir 0
  /-- A change is made. -/
  | made {c : TypedChange S} {cs : List (TypedChange S)} {dir dir₁ dir' : Director S k} {n : Nat}
    (hadmits : c.admits dir.solution = true) (h : c.change.apply dir = .ok (dir₁, none)) (journal : List LogEvent)
    (hrest : Takes cs { dir₁ with journal := journal } dir' n) : Takes (c :: cs) dir dir' (n + 1)
  /-- A change is skipped. -/
  | skipped {c : TypedChange S} {cs : List (TypedChange S)} {dir dir' : Director S k} {n : Nat}
    (hadmits : c.admits dir.solution = false) (journal : List LogEvent)
    (hrest : Takes cs { dir with journal := journal } dir' n) : Takes (c :: cs) dir dir' n

/-- Changes are taken in up to one that is admitted and ends in a fault. -/
inductive Breaks : List (TypedChange S) → Director S k → Fault → Prop where
  /-- The first change ends in a fault. -/
  | here {c : TypedChange S} {cs : List (TypedChange S)} {dir : Director S k} {f : Fault}
    (hadmits : c.admits dir.solution = true) (h : c.change.apply dir = .error f) : Breaks (c :: cs) dir f
  /-- A change is made, and one behind it ends in a fault. -/
  | made {c : TypedChange S} {cs : List (TypedChange S)} {dir dir₁ : Director S k} {f : Fault}
    (hadmits : c.admits dir.solution = true) (h : c.change.apply dir = .ok (dir₁, none)) (journal : List LogEvent)
    (hrest : Breaks cs { dir₁ with journal := journal } f) : Breaks (c :: cs) dir f
  /-- A change is skipped, and one behind it ends in a fault. -/
  | skipped {c : TypedChange S} {cs : List (TypedChange S)} {dir : Director S k} {f : Fault}
    (hadmits : c.admits dir.solution = false) (journal : List LogEvent)
    (hrest : Breaks cs { dir with journal := journal } f) : Breaks (c :: cs) dir f

variable {n : Nat}

/-- A change that is made is performed. -/
theorem perform_of_apply (hadmits : c.admits dir.solution = true) (h : c.change.apply dir = .ok (dir', none)) :
    c.perform dir = .ok dir' := by
  rw [apply_of_admits hadmits] at h
  obtain ⟨dir₁, h₁, hpure⟩ := bind_eq_ok_iff.1 h
  cases hpure
  exact h₁

/-- The solution, in the end, is what the changes make of it that are admitted at their turn. -/
theorem Takes.makeAll (h : Takes cs dir dir' n) :
    makeAll dir.shadows dir.variableIndex? cs dir.solution = .ok (dir'.solution, n) := by
  induction h with
  | done => rfl
  | made hadmits h journal _ ih =>
    obtain ⟨hmake, heq⟩ := make_of_perform (perform_of_apply hadmits h)
    rw [heq] at ih
    rw [TypedChange.makeAll, if_pos hadmits]
    exact bind_eq_ok_iff.2 ⟨_, hmake, bind_eq_ok_iff.2 ⟨_, ih, rfl⟩⟩
  | skipped hadmits journal _ ih =>
    rw [TypedChange.makeAll, if_neg (Bool.not_eq_true _ ▸ hadmits)]
    exact ih

/-- What changes that are made keep holds after changes are taken in. -/
theorem Takes.keeps {D : Director S k → Prop} (h : Takes cs dir dir' n)
    (hjournal : ∀ {dir} journal, D dir → D { dir with journal := journal })
    (hmade : ∀ {c : TypedChange S} {dir dir'}, c.admits dir.solution = true → c.perform dir = .ok dir' → D dir → D dir')
    (hD : D dir) : D dir' := by
  induction h with
  | done => exact hD
  | made hadmits h journal _ ih => exact ih (hjournal journal (hmade hadmits (perform_of_apply hadmits h) hD))
  | skipped _ journal _ ih => exact ih (hjournal journal hD)

section Full

variable {calculate : S → Checked (Score k)} {known : Option (Score k)} {shadows : ShadowCascade S}

/-- A director that scores in full does so after it took in changes. -/
theorem Takes.scoring_full (h : Takes cs dir dir' n) (hfull : dir.scoring = .full calculate known) :
    ∃ known', dir'.scoring = .full calculate known' := by
  refine h.keeps (D := fun dir => ∃ known, dir.scoring = .full calculate known) (fun _ => id) ?_ ⟨known, hfull⟩
  rintro c dir dir' hadmits hperform ⟨known, hfull⟩
  exact ⟨none, scoring_of_perform hadmits hfull hperform⟩

/-- A director that scores in full and knows the right score, if any, does so after it took in changes. -/
theorem Takes.full (h : Takes cs dir dir' n) (hfull : dir.Full calculate shadows) : dir'.Full calculate shadows := by
  refine h.keeps (D := Director.Full calculate shadows) (fun _ h => ⟨h.shadows, h.scoring⟩) ?_ hfull
  intro c dir dir' hadmits hperform hfull
  obtain ⟨known, hknown⟩ := hfull.exists_known
  have hshadows : dir'.shadows = dir.shadows := by rw [(make_of_perform hperform).2]
  exact ⟨hshadows.trans hfull.shadows, .inl (scoring_of_perform hadmits hknown hperform)⟩

end Full

/-- Without any change that is made the director is as before, but for what it reports. -/
theorem Takes.eq_of_zero (h : Takes cs dir dir' 0) : dir' = { dir with journal := dir'.journal } := by
  generalize hn : 0 = n at h
  induction h with
  | done => rfl
  | made => cases hn
  | skipped _ journal _ ih => rw [ih hn]

/-- With any change that is made no score is left in mind. -/
theorem Takes.stale (h : Takes cs dir dir' n) (hn : 0 < n ∨ dir.Stale) : dir'.Stale := by
  induction h with
  | done => exact hn.resolve_left (Nat.lt_irrefl 0)
  | made hadmits h journal _ ih =>
    have hstale := stale_of_perform (perform_of_apply hadmits h)
    exact ih (.inr hstale)
  | skipped _ journal _ ih => exact ih hn

/-- A director that scores in full takes in changes without a fault if no cascade fails. -/
theorem Breaks.false_of_full {f : Fault} (h : Breaks cs dir f) {calculate : S → Checked (Score k)}
    {known : Option (Score k)} (hfull : dir.scoring = .full calculate known) {s : S}
    (hmake : TypedChange.makeAll dir.shadows dir.variableIndex? cs dir.solution = .ok (s, n)) : False := by
  induction h generalizing known n with
  | here hadmits h =>
    rw [TypedChange.makeAll, if_pos hadmits] at hmake
    obtain ⟨s₁, hmake, -⟩ := bind_eq_ok_iff.1 hmake
    obtain ⟨dir₁, hperform, -⟩ := perform_of_full hadmits hfull hmake
    rw [apply_of_admits hadmits, hperform] at h
    cases h
  | made hadmits h journal _ ih =>
    rw [TypedChange.makeAll, if_pos hadmits] at hmake
    obtain ⟨s₁, hfirst, hmake⟩ := bind_eq_ok_iff.1 hmake
    obtain ⟨⟨s', m⟩, hrest, hpure⟩ := bind_eq_ok_iff.1 hmake
    cases hpure
    have hperform := perform_of_apply hadmits h
    obtain ⟨hmade, heq⟩ := make_of_perform hperform
    rw [hmade] at hfirst
    cases hfirst
    have hscoring := scoring_of_perform hadmits hfull hperform
    refine ih (n := m) hscoring ?_
    rw [heq]
    exact hrest
  | skipped hadmits journal _ ih =>
    rw [TypedChange.makeAll, if_neg (Bool.not_eq_true _ ▸ hadmits)] at hmake
    exact ih hfull hmake

end TypedChange

namespace Running

variable [PlanningSolution S k] {r : RunState S k} {cs : List (TypedChange S)} {E : Stop → RunState S k → Prop}

/-- A change is made if it is admitted, and otherwise skipped. Only a change that is admitted ends in a fault. -/
theorem ends_applyChange_typed {c : TypedChange S} :
    Ends (applyChange c.change) r
      (fun made r' => ∃ dir journal, r' = { r with director := { dir with journal := journal }, log := r'.log } ∧
        (made = true ∧ c.admits r.director.solution = true ∧ c.change.apply r.director = .ok (dir, none) ∨
          made = false ∧ c.admits r.director.solution = false ∧ dir = r.director))
      fun e _ => ∃ f, e = .faulted f ∧ c.admits r.director.solution = true ∧ c.change.apply r.director = .error f := by
  simp only [applyChange, ends_bind, ends_direct]
  cases hadmits : c.admits r.director.solution with
  | true =>
    refine ⟨fun dir refusal hd => ?_, fun f hd => ⟨f, rfl, rfl, hd⟩⟩
    have hmade := hd
    rw [TypedChange.apply_of_admits hadmits] at hd
    obtain ⟨dir', -, hpure⟩ := bind_eq_ok_iff.1 hd
    cases hpure
    simp only [ends_bind, ends_pure]
    exact ends_logAt_eq.mono (fun _ r' hr' => ⟨dir, _, hr', .inl ⟨trivial, trivial, hmade⟩⟩) fun _ _ => id
  | false =>
    obtain ⟨err, hrefused⟩ := TypedChange.apply_of_not_admits hadmits
    rw [hrefused]
    refine ⟨fun dir refusal hd => ?_, fun f hd => by cases hd⟩
    cases hd
    simp only [ends_bind, ends_pure]
    exact ends_logAt_eq.mono (fun _ r' hr' => ⟨r.director, _, hr', .inr ⟨trivial, trivial, rfl⟩⟩) fun _ _ => id

/-- Changes are applied in their order: what is kept of them are those that were made. -/
theorem ends_filterAuxM_typed (kept : List (ProblemChange S k)) :
    Ends ((cs.map TypedChange.change).filterAuxM applyChange kept) r
      (fun out r' => ∃ n, out.length = n + kept.length ∧ TypedChange.Takes cs r.director r'.director n ∧
        r' = { r with director := r'.director, log := r'.log })
      fun e _ => ∃ f, e = .faulted f ∧ TypedChange.Breaks cs r.director f := by
  induction cs generalizing r kept with
  | nil => exact ⟨0, (Nat.zero_add _).symm, .done, rfl⟩
  | cons c cs ih =>
    simp only [List.map_cons, List.filterAuxM, ends_bind]
    refine ends_applyChange_typed.mono (fun made r₁ hr₁ => ?_) fun e _ he => ?_
    · obtain ⟨dir, journal, heq, ⟨rfl, hadmits, hmade⟩ | ⟨rfl, hadmits, rfl⟩⟩ := hr₁
      · refine (ih _).mono (fun out r₂ hr₂ => ?_) fun e _ he => ?_
        · obtain ⟨n, hlength, htakes, heq₂⟩ := hr₂
          rw [heq] at htakes heq₂
          exact ⟨n + 1, by rw [hlength]; simp; omega, .made hadmits hmade journal htakes, heq₂⟩
        · obtain ⟨f, rfl, hbreaks⟩ := he
          rw [heq] at hbreaks
          exact ⟨f, rfl, .made hadmits hmade journal hbreaks⟩
      · refine (ih _).mono (fun out r₂ hr₂ => ?_) fun e _ he => ?_
        · obtain ⟨n, hlength, htakes, heq₂⟩ := hr₂
          rw [heq] at htakes heq₂
          exact ⟨n, hlength, .skipped hadmits journal htakes, heq₂⟩
        · obtain ⟨f, rfl, hbreaks⟩ := he
          rw [heq] at hbreaks
          exact ⟨f, rfl, .skipped hadmits journal hbreaks⟩
    · obtain ⟨f, rfl, hadmits, hfault⟩ := he
      exact ⟨f, rfl, .here hadmits hfault⟩

/-- A solution that becomes the best one is kept and told, and nothing else happens but that this is logged. -/
theorem ends_setBest_eq {s : S} {score : Score k} :
    Ends (setBest s score) r (fun _ r' => r' = { r with
      director := { r.director with journal := r'.director.journal }
      log := r'.log
      best := some ⟨PlanningSolution.withScore s score, score⟩
      improvement := r.mark
      history := .best (PlanningSolution.withScore s score) score :: r.history }) E := by
  simp only [setBest, report, ends_bind, ends_get, ends_modify]
  refine ends_logAt_eq.mono (fun _ r₁ hr₁ => ?_) fun _ _ => id
  simp only [tell, ends_bind, ends_modify, ends_get]
  rw [hr₁]
  split
  · split
    · exact ends_logAt_eq
    · rfl
  · rfl

section Taken

variable (F : S → Score k) (hpending : r.pending = cs.map TypedChange.change) (htaking : r.takesChanges = true)
  (hscore : ∀ dir n, TypedChange.Takes cs r.director dir n →
    ∀ dir' score, dir.calculate = .ok (dir', score) → score = F dir.solution)
include hpending htaking hscore

/-- A run takes in the changes that wait. -/
theorem ends_takeChanges_typed :
    Ends takeChanges r
      (fun n r' => ∃ dir, TypedChange.Takes cs r.director dir n ∧
        (n = 0 → r' = { r with
          director := { r.director with journal := r'.director.journal }, log := r'.log, pending := [] }) ∧
        (0 < n → r'.pending = [] ∧
          r'.director.solution = PlanningSolution.withScore dir.solution (F dir.solution) ∧
          r'.best = some ⟨PlanningSolution.withScore r'.director.solution (F dir.solution), F dir.solution⟩))
      fun e _ => ∃ f, e = .faulted f ∧ (TypedChange.Breaks cs r.director f ∨
        ∃ dir n, 0 < n ∧ TypedChange.Takes cs r.director dir n ∧ dir.calculate = .error f) := by
  simp only [takeChanges, ends_bind, ends_get, ends_ite, ends_pure, ends_modify]
  refine ⟨fun hnone => ?_, fun _ => ?_⟩
  · have hempty : r.pending = [] := by simpa [htaking] using hnone
    obtain rfl : cs = [] := List.map_eq_nil_iff.1 (hpending.symm.trans hempty)
    exact ⟨r.director, .done, fun _ => by rw [← hempty], fun hn => absurd hn (Nat.lt_irrefl 0)⟩
  rw [hpending]
  simp only [List.filterM, ends_bind, ends_pure]
  refine (ends_filterAuxM_typed []).mono (fun out r₁ hr₁ => ?_) fun e _ he => ?_
  · obtain ⟨n, hlength, htakes, heq⟩ := hr₁
    obtain rfl : out.reverse.length = n := by rw [List.length_reverse, hlength, List.length_nil, Nat.add_zero]
    refine ⟨fun hnone => ?_, fun hsome => ?_⟩
    · rw [List.isEmpty_iff.1 hnone] at htakes
      have hdir := htakes.eq_of_zero
      refine ⟨r₁.director, htakes, fun _ => ?_, fun hn => absurd hn (Nat.lt_irrefl 0)⟩
      exact heq.trans (congrArg (fun dir => { r with director := dir, log := r₁.log, pending := [] }) hdir)
    · have hn : 0 < out.reverse.length := List.length_pos_iff.2 fun hnil => hsome (List.isEmpty_iff.2 hnil)
      rw [ends_calculate]
      refine ⟨fun dir score hd => ?_, fun f hd => ⟨f, rfl, .inr ⟨r₁.director, _, hn, htakes, hd⟩⟩⟩
      have hstored := Director.solution_of_calculate (htakes.stale (.inl hn)) hd
      obtain rfl := hscore _ _ htakes _ _ hd
      refine ends_setBest_eq.mono (fun _ r₃ hr₃ => ?_) fun _ _ => id
      refine ends_logAt_eq.mono (fun _ r₄ hr₄ => ?_) fun _ _ => id
      refine ⟨r₁.director, htakes, fun hzero => absurd hzero hn.ne', fun _ => ?_⟩
      have hsolution : r₄.director.solution = dir.solution := by rw [hr₄, hr₃]
      rw [hsolution]
      exact ⟨by rw [hr₄, hr₃, heq], hstored, by rw [hr₄, hr₃]⟩
  · obtain ⟨f, rfl, hbreaks⟩ := he
    exact ⟨f, rfl, .inl hbreaks⟩

/-- Changes of the problem that wait are taken in as a whole and in their order: what results is the number of those
that are admitted at their turn, and the working solution is what these make of it; the others leave the director as it
is. If there were any the working solution becomes the best one with its score, and otherwise the run stays as it is.
Only what a listener, a constraint or the score does can end in a fault; a director that scores in full is not stopped
as long as no cascade fails and there is a score in the end. -/
theorem takeChanges_typed :
    Ends takeChanges r
      (fun n r' => ∃ dir, TypedChange.Takes cs r.director dir n ∧
        TypedChange.makeAll r.director.shadows r.director.variableIndex? cs r.director.solution =
          .ok (dir.solution, n) ∧
        (n = 0 → r' = { r with
          director := { r.director with journal := r'.director.journal }, log := r'.log, pending := [] }) ∧
        (0 < n → r'.pending = [] ∧
          r'.director.solution = PlanningSolution.withScore dir.solution (F dir.solution) ∧
          r'.best = some ⟨PlanningSolution.withScore r'.director.solution (F dir.solution), F dir.solution⟩))
      (fun e _ => ∃ f, e = .faulted f ∧ (TypedChange.Breaks cs r.director f ∨
        ∃ dir n, 0 < n ∧ TypedChange.Takes cs r.director dir n ∧ dir.calculate = .error f)) ∧
    ∀ calculate known s n, r.director.scoring = .full calculate known →
      TypedChange.makeAll r.director.shadows r.director.variableIndex? cs r.director.solution = .ok (s, n) →
      (0 < n → ∃ score, calculate s = .ok score) → ∃ r', takeChanges r = .ok n r' := by
  have hends := ends_takeChanges_typed F hpending htaking hscore
  refine ⟨hends.mono (fun n r' hr' => ?_) fun _ _ => id, fun calculate known s n hfull hmake hscored => ?_⟩
  · obtain ⟨dir, htakes, hzero, hpos⟩ := hr'
    exact ⟨dir, htakes, htakes.makeAll, hzero, hpos⟩
  cases hrun : takeChanges r with
  | ok m r' =>
    obtain ⟨dir, htakes, -⟩ := hends.of_ok hrun
    have hsame := htakes.makeAll
    rw [hmake] at hsame
    cases hsame
    exact ⟨r', rfl⟩
  | error e r' =>
    obtain ⟨f, -, hbreaks | ⟨dir, m, hm, htakes, hfault⟩⟩ := hends.of_error hrun
    · exact (hbreaks.false_of_full hfull hmake).elim
    · have hsame := htakes.makeAll
      rw [hmake] at hsame
      cases hsame
      obtain ⟨score, hscore⟩ := hscored hm
      obtain ⟨known', hfull'⟩ := htakes.scoring_full hfull
      obtain rfl := htakes.stale (.inl hm) _ _ hfull'
      rw [Director.calculate, hfull'] at hfault
      change (calculate dir.solution >>= _) = .error f at hfault
      rw [hscore] at hfault
      cases hfault

end Taken

end Running

namespace Timetable

/-- Two lessons in two rooms. -/
def housed : Timetable where
  rooms := [⟨0, "A", 30⟩, ⟨1, "B", 20⟩]
  lessons := [⟨0, "Curie", 25, 0, some 0⟩, ⟨1, "Turing", 18, 1, some 1⟩]

/-- A lesson is to move to a room that only comes then, and a lesson is to move after the one before it went. -/
def requests : List (TypedChange Timetable) :=
  [.setValue roomVariable 0 (some 2), .addFact roomCollection 0 ⟨2, "C", 40⟩ "C", .setValue roomVariable 0 (some 2),
    .removeEntity lessonCollection 0 1, .setValue roomVariable 1 (some 0)]

/-- The run in which these changes wait. -/
def requested : RunState Timetable .hardSoft where
  director := directorOf housed
  generator := .ofSeed 0
  pending := requests.map TypedChange.change

/-- The one lesson that is left, in the room that came. -/
def rehoused : Timetable where
  rooms := [⟨0, "A", 30⟩, ⟨1, "B", 20⟩, ⟨2, "C", 40⟩]
  lessons := [⟨0, "Curie", 25, 0, some 2⟩]

/-- Three of the changes are made, and two are skipped. -/
theorem takeChanges_requested : ∃ r' score, Running.takeChanges requested = .ok 3 r' ∧
    score = scratch calculate rehoused ∧ r'.director.solution = { rehoused with score := some score } ∧
    r'.best = some ⟨{ rehoused with score := some score }, score⟩ := by
  have hfull : (directorOf housed).Full calculate [] := ⟨rfl, .inl rfl⟩
  have hscore : ∀ dir n, TypedChange.Takes requests (directorOf housed) dir n →
      ∀ dir' score, dir.calculate = .ok (dir', score) → score = scratch calculate dir.solution :=
    fun dir n htakes dir' score hd => ((htakes.full hfull).calculate (fun _ _ => rfl) hd).2
  obtain ⟨hends, htotal⟩ := Running.takeChanges_typed (r := requested) (scratch calculate) rfl rfl hscore
  have hmake : TypedChange.makeAll [] (directorOf housed).variableIndex? requests housed = .ok (rehoused, 3) := rfl
  obtain ⟨r', hrun⟩ := htotal calculate none rehoused 3 rfl hmake fun _ => ⟨scratch calculate rehoused, by rfl⟩
  obtain ⟨dir, htakes, hsame, -, hmade⟩ := hends.of_ok hrun
  obtain ⟨hsolution, -⟩ := Prod.mk.inj (Except.ok.inj (hmake.symm.trans hsame))
  obtain ⟨-, hworking, hbest⟩ := hmade (by decide)
  rw [← hsolution] at hworking hbest
  rw [hworking] at hbest
  exact ⟨r', _, hrun, rfl, hworking, hbest⟩

end Timetable

end Planning
