import Planning.Proofs.Director.InRange

/-!
# How a director evolves

While a problem is solved its director makes and evaluates moves, gives values to entities, is asked for the score and
takes in changes of the problem. All of it leaves values in range, but for changes that expose values: a member goes
from a class that ranges are drawn from, or an entity comes with a value that is out of range.
-/

namespace Planning

open Checked

variable {S B L F : Type} {V : B → Type} {W : L → Type} {k : ScoreKind} [PlanningSolution S k]
variable [∀ b, PlanningValue (V b)] [∀ b, DecidableEq (V b)] [∀ l, PlanningValue (W l)] [∀ l, DecidableEq (W l)]
variable {g : Genuine S V W} {facts : S → F} {shadows : ShadowCascade S} {dir dir' dir'' : Director S k}

namespace Director

omit [∀ b, PlanningValue (V b)] [∀ b, DecidableEq (V b)] [∀ l, PlanningValue (W l)] [∀ l, DecidableEq (W l)]

/-- Before a fact comes or goes nothing happens to the solution. -/
theorem beforeFactMoved_eq {d i : Nat} (h : dir.beforeFactMoved d i = .ok dir') :
    dir' = { dir with scoring := dir'.scoring } := by
  obtain ⟨dir₁, h₁, h⟩ := bind_eq_ok_iff.1 h
  cases h
  rw [forget_eq, emitAll_eq h₁]

/-- A fact that comes or goes is put in or taken out, and nothing else happens to the solution. -/
theorem moveFact_eq {d i : Nat} {f : S → Checked S} (h : dir.moveFact d i f = .ok dir') :
    f dir.solution = .ok dir'.solution ∧
      dir' = { dir with solution := dir'.solution, scoring := dir'.scoring } := by
  obtain ⟨dir₁, h₁, h⟩ := bind_eq_ok_iff.1 h
  obtain ⟨dir₂, h₂, h₃⟩ := bind_eq_ok_iff.1 h
  obtain ⟨dir₄, h₄, hpure⟩ := bind_eq_ok_iff.1 h₃
  cases hpure
  rw [beforeFactMoved_eq h₁] at h₂
  obtain ⟨hs₂, heq₂⟩ := edit_eq h₂
  rw [forget_eq, emitAll_eq h₄]
  exact ⟨hs₂, by rw [heq₂]⟩

end Director

namespace Collection

variable {E : Type} {c : Collection S E} {s s' : S}

omit [PlanningSolution S k] in
/-- An edit of the members that succeeds gives the solution with the edited members. -/
theorem edit_eq_ok_iff {f : List E → Checked (List E)} :
    c.edit f s = .ok s' ↔ ∃ l, f (c.members s) = .ok l ∧ s' = c.withMembers s l := by
  unfold edit
  rw [bind_eq_ok_iff]
  constructor
  · rintro ⟨l, hl, hpure⟩
    cases hpure
    exact ⟨l, hl, rfl⟩
  · rintro ⟨l, hl, rfl⟩
    exact ⟨l, hl, rfl⟩

end Collection

namespace Genuine

/-- The changes of a problem by which values are set and members of its classes come and go. -/
inductive Typed (g : Genuine S V W) : ProblemChange S k → Prop where
  /-- An entity takes another value, or none. -/
  | setValue (b : B) (e : Nat) (v : Option (V b)) : g.Typed (.setValue (g.basic b) e v)
  /-- An entity comes. -/
  | addEntity {E : Type} {c : Collection S E} (hc : c.Suits g) (d : Nat) (a : E) (text : String) :
    g.Typed (.addEntity c d a text)
  /-- An entity goes. -/
  | removeEntity {E : Type} {c : Collection S E} (hc : c.Suits g) (d i : Nat) : g.Typed (.removeEntity c d i)
  /-- A fact comes. -/
  | addFact {E : Type} {c : Collection S E} (hc : c.Suits g) (hfact : ∀ b, c.Avoids (g.basic b)) (d : Nat) (a : E)
    (text : String) : g.Typed (.addFact c d a text)
  /-- A fact goes. -/
  | removeFact {E : Type} {c : Collection S E} (hc : c.Suits g) (hfact : ∀ b, c.Avoids (g.basic b)) (d i : Nat) :
    g.Typed (.removeFact c d i)

omit [∀ b, PlanningValue (V b)] [∀ b, DecidableEq (V b)] [∀ l, PlanningValue (W l)] [∀ l, DecidableEq (W l)] in
/-- The changes of a problem that may take values out of range. -/
inductive Exposes (g : Genuine S V W) : ProblemChange S k → S → Prop where
  /-- An entity comes with a value that is out of range. -/
  | addEntity {E : Type} {c : Collection S E} {d : Nat} {a : E} {text : String} {s : S} (h : ¬ c.Fits g a s) :
    Exposes g (.addEntity c d a text) s
  /-- An entity goes from a class that ranges are drawn from. -/
  | removeEntity {E : Type} {c : Collection S E} {d i : Nat} {s : S} (h : ¬ c.Frees g) :
    Exposes g (.removeEntity c d i) s
  /-- A fact goes from a class that ranges are drawn from. -/
  | removeFact {E : Type} {c : Collection S E} {d i : Nat} {s : S} (h : ¬ c.Frees g) :
    Exposes g (.removeFact c d i) s

end Genuine

variable [DecidableEq B] [DecidableEq L] (hreg : g.Regular facts shadows)

namespace Collection

variable {E : Type} {c : Collection S E} {d i : Nat} {a : E} (hshadows : dir.shadows = shadows)
include hreg hshadows

omit [∀ b, PlanningValue (V b)] [∀ b, DecidableEq (V b)] [∀ l, PlanningValue (W l)] [∀ l, DecidableEq (W l)] in
/-- Where an entity comes the solution is like one that merely has it. -/
theorem alike_addEntity (h : dir.addEntity (d, i) (c.edit fun l => .ok (l ++ [a])) = .ok dir') :
    g.Alike facts dir'.solution (c.withMembers dir.solution (c.members dir.solution ++ [a])) ∧
      dir'.shadows = shadows := by
  obtain ⟨s, changed, hedit, hcascade, heq⟩ := Director.addEntity_eq h
  obtain ⟨l, hl, rfl⟩ := edit_eq_ok_iff.1 hedit
  cases hl
  rw [hshadows] at hcascade
  have hall : shadows.cascadeAll (fun _ => none) (c.withMembers dir.solution (c.members dir.solution ++ [a])) [(d, i)] =
      .ok dir'.solution := ShadowCascade.cascadeAll_cons_eq_ok_iff.2 ⟨_, changed, hcascade, rfl⟩
  exact ⟨Director.alike_of_cascadeAll hreg hall, by rw [heq, hshadows]⟩

omit [∀ b, PlanningValue (V b)] [∀ b, DecidableEq (V b)] [∀ l, PlanningValue (W l)] [∀ l, DecidableEq (W l)] in
/-- Where an entity goes the solution is like one that merely lacks it. -/
theorem alike_removeEntity (h : dir.removeEntity (d, i) (c.edit fun l => removeAt l i) = .ok dir') :
    g.Alike facts dir'.solution (c.withMembers dir.solution ((c.members dir.solution).eraseIdx i)) ∧
      dir'.shadows = shadows := by
  obtain ⟨s, hedit, hcascade, heq⟩ := Director.removeEntity_eq h
  obtain ⟨l, hl, rfl⟩ := edit_eq_ok_iff.1 hedit
  rw [hshadows, (removeAt_eq_ok_iff.1 hl).2] at hcascade
  exact ⟨Director.alike_of_cascadeAll hreg hcascade, by rw [heq, hshadows]⟩

end Collection

namespace Genuine.Typed

variable {c : ProblemChange S k} {refusal : Option SolverError}

omit [∀ b, DecidableEq (V b)] [∀ l, PlanningValue (W l)] [∀ l, DecidableEq (W l)] in
include hreg in
/-- A change of the problem is refused and does nothing, or it is made: then values that were in range are in range in a
solution that is alike, unless the change exposes them. -/
theorem cases_apply (hdraws : g.Draws facts) (hc : g.Typed c) (h : c.apply dir = .ok (dir', refusal))
    (hshadows : dir.shadows = shadows) :
    refusal ≠ none ∧ dir' = dir ∨ refusal = none ∧ dir'.shadows = shadows ∧
      (g.InRange dir.solution → g.InRange dir'.solution ∨ g.Exposes c dir.solution) := by
  cases hc with
  | setValue b e v =>
    dsimp only [ProblemChange.setValue] at h
    split at h
    · cases h
      exact .inl ⟨Option.some_ne_none _, rfl⟩
    · rename_i he
      split at h
      · cases h
        exact .inl ⟨Option.some_ne_none _, rfl⟩
      · rename_i hcheck
        obtain ⟨dir₁, h₁, hpure⟩ := bind_eq_ok_iff.1 h
        cases hpure
        have hassign : dir.assign (g.basic b) e v = .ok dir' := h₁
        have hlegal := BasicMove.checkValue_eq_ok_iff.1 hcheck
        refine .inr ⟨rfl, (Director.alike_assign hreg hshadows hassign).2, fun hin => .inl ?_⟩
        refine Director.inRange_assign hreg hdraws hshadows hin (Nat.lt_of_not_le he) (fun w hw => ?_) hassign
        subst hw
        exact hlegal
  | @addEntity E c hc d a text =>
    obtain ⟨dir₁, h₁, hpure⟩ := bind_eq_ok_iff.1 h
    cases hpure
    obtain ⟨hlike, hsame⟩ := Collection.alike_addEntity hreg hshadows h₁
    refine .inr ⟨rfl, hsame, fun hin => ?_⟩
    by_cases hfits : c.Fits g a dir.solution
    · exact .inl ((hc.inRange_append hin (.inl hfits)).alike hdraws hlike)
    · exact .inr (.addEntity hfits)
  | @removeEntity E c hc d i =>
    dsimp only [ProblemChange.removeEntity] at h
    split at h
    · cases h
      exact .inl ⟨Option.some_ne_none _, rfl⟩
    · obtain ⟨dir₁, h₁, hpure⟩ := bind_eq_ok_iff.1 h
      cases hpure
      obtain ⟨hlike, hsame⟩ := Collection.alike_removeEntity hreg hshadows h₁
      refine .inr ⟨rfl, hsame, fun hin => ?_⟩
      by_cases hfree : c.Frees g
      · exact .inl ((hc.inRange_erase hfree hin i).alike hdraws hlike)
      · exact .inr (.removeEntity hfree)
  | addFact hc hfact d a text =>
    obtain ⟨dir₁, h₁, hpure⟩ := bind_eq_ok_iff.1 h
    cases hpure
    obtain ⟨hedit, heq⟩ := Director.moveFact_eq h₁
    obtain ⟨l, hl, hs⟩ := Collection.edit_eq_ok_iff.1 hedit
    cases hl
    refine .inr ⟨rfl, by rw [heq, hshadows], fun hin => .inl ?_⟩
    rw [hs]
    exact hc.inRange_append hin (.inr hfact)
  | @removeFact E c hc hfact d i =>
    dsimp only [ProblemChange.removeFact] at h
    split at h
    · cases h
      exact .inl ⟨Option.some_ne_none _, rfl⟩
    · obtain ⟨dir₁, h₁, hpure⟩ := bind_eq_ok_iff.1 h
      cases hpure
      obtain ⟨hedit, heq⟩ := Director.moveFact_eq h₁
      obtain ⟨l, hl, hs⟩ := Collection.edit_eq_ok_iff.1 hedit
      refine .inr ⟨rfl, by rw [heq, hshadows], fun hin => ?_⟩
      by_cases hfree : c.Frees g
      · rw [hs, (removeAt_eq_ok_iff.1 hl).2]
        exact .inl (hc.inRange_erase hfree hin i)
      · exact .inr (.removeFact hfree)

end Genuine.Typed

namespace Genuine

omit [DecidableEq B] [DecidableEq L] in
/-- What may happen to a director while a problem is solved, where the changes of the problem are of some kind. -/
inductive Evolve (g : Genuine S V W) (P : ProblemChange S k → Director S k → Director S k → Prop) :
    Director S k → Director S k → Prop where
  /-- Something is reported, or what was reported is taken away. -/
  | report {dir : Director S k} (journal : List LogEvent) : Evolve g P dir { dir with journal := journal }
  /-- The score is asked for. -/
  | calculate {dir dir' : Director S k} {score : Score k} (h : dir.calculate = .ok (dir', score)) : Evolve g P dir dir'
  /-- The score is checked. -/
  | assertScore {dir dir' : Director S k} {out : Except ScoreCorruption (Score k)}
    (h : dir.assertScore = .ok (dir', out)) : Evolve g P dir dir'
  /-- A move is made. -/
  | doMove {m : Move S} {dir dir' : Director S k} {result : Except MoveError Unit} (hm : g.Moves m)
    (h : dir.doMove m = .ok (dir', result)) : Evolve g P dir dir'
  /-- A move is evaluated. -/
  | evaluate {m : Move S} {dir dir' : Director S k} {check : Bool} {out : Except SolverError (Score k)} (hm : g.Moves m)
    (h : dir.evaluate m check = .ok (dir', out)) : Evolve g P dir dir'
  /-- An entity is given a value that is in range, or none. -/
  | assign {b : B} {e : Nat} {v : Option (V b)} {dir dir' : Director S k} (he : e < (g.basic b).count dir.solution)
    (hv : ∀ w, v = some w → (g.basic b).range.contains dir.solution e w = true)
    (h : dir.assign (g.basic b) e v = .ok dir') : Evolve g P dir dir'
  /-- A change of the problem is made, or refused. -/
  | change {c : ProblemChange S k} {refusal : Option SolverError} {dir dir' : Director S k} (hc : g.Typed c)
    (h : c.apply dir = .ok (dir', refusal)) (hP : P c dir dir') : Evolve g P dir dir'

/-- What may happen to a director, one thing after another. -/
abbrev Evolves (g : Genuine S V W) (P : ProblemChange S k → Director S k → Director S k → Prop) :
    Director S k → Director S k → Prop := Relation.ReflTransGen (g.Evolve P)

/-- A change that exposes values spares them: they are in range after it. -/
def Sparing (g : Genuine S V W) (c : ProblemChange S k) (dir dir' : Director S k) : Prop :=
  g.Exposes c dir.solution → g.InRange dir'.solution

/-- On the way from a director to another a change of the problem exposed values and took some out of range; up to then
all such changes spared them. -/
def Exposed (g : Genuine S V W) (dir dir' : Director S k) : Prop :=
  ∃ c dir₁ dir₂, g.Evolves g.Sparing dir dir₁ ∧ g.Typed c ∧ g.Exposes c dir₁.solution ∧
    c.apply dir₁ = .ok (dir₂, none) ∧ ¬ g.InRange dir₂.solution ∧ g.Evolves (fun _ _ _ => True) dir₂ dir'

variable {P : ProblemChange S k → Director S k → Director S k → Prop} (hdraws : g.Draws facts)
include hreg hdraws

/-- Whatever happens to a director it keeps the listeners. -/
theorem Evolve.shadows_eq (h : g.Evolve P dir dir') (hshadows : dir.shadows = shadows) : dir'.shadows = shadows := by
  cases h with
  | report journal => exact hshadows
  | calculate h => rw [(Director.calculate_solution h).2, hshadows]
  | assertScore h => rw [(Director.assertScore_solution h).2, hshadows]
  | doMove hm h => exact (Director.shadows_doMove h).trans hshadows
  | evaluate hm h => exact (Director.shadows_evaluate h).trans hshadows
  | assign he hv h => exact (Director.alike_assign hreg hshadows h).2
  | change hc h hP =>
    rcases hc.cases_apply hreg hdraws h hshadows with ⟨-, rfl⟩ | ⟨-, hsame, -⟩
    · exact hshadows
    · exact hsame

/-- Whatever happens to a director leaves values in range, if changes that expose values spare them. -/
theorem Evolve.inRange (h : g.Evolve g.Sparing dir dir') (hshadows : dir.shadows = shadows)
    (hin : g.InRange dir.solution) : g.InRange dir'.solution := by
  cases h with
  | report journal => exact hin
  | calculate h => exact hin.alike hdraws (Director.calculate_alike hreg h).1
  | assertScore h => exact Director.inRange_assertScore hreg hdraws hin h
  | doMove hm h => exact Director.inRange_doMove hreg hdraws hshadows hin hm h
  | evaluate hm h => exact Director.inRange_evaluate hreg hdraws hshadows hin hm h
  | assign he hv h => exact Director.inRange_assign hreg hdraws hshadows hin he hv h
  | change hc h hsparing =>
    rcases hc.cases_apply hreg hdraws h hshadows with ⟨-, rfl⟩ | ⟨-, -, hleaves⟩
    · exact hin
    · exact (hleaves hin).elim id hsparing

/-- A director keeps the listeners, one thing after another. -/
theorem Evolves.shadows_eq (h : g.Evolves P dir dir') (hshadows : dir.shadows = shadows) : dir'.shadows = shadows := by
  induction h with
  | refl => exact hshadows
  | tail _ hstep ih => exact hstep.shadows_eq hreg hdraws ih

/-- Whatever happens to a director, one thing after another, leaves values in range, if changes that expose values spare
them. -/
theorem Evolves.inRange (h : g.Evolves g.Sparing dir dir') (hshadows : dir.shadows = shadows)
    (hin : g.InRange dir.solution) : g.InRange dir'.solution := by
  induction h with
  | refl => exact hin
  | tail hpath hstep ih => exact hstep.inRange hreg hdraws (Evolves.shadows_eq hreg hdraws hpath hshadows) ih

omit hreg hdraws [DecidableEq B] [DecidableEq L] in
/-- What happens to a director spares values, or is a change that exposes values and leaves some out of range. -/
theorem Evolve.sparing_or (h : g.Evolve (fun _ _ _ => True) dir dir') : g.Evolve g.Sparing dir dir' ∨
    ∃ c refusal, g.Typed c ∧ g.Exposes c dir.solution ∧ c.apply dir = .ok (dir', refusal) ∧ ¬ g.InRange dir'.solution := by
  cases h with
  | report journal => exact .inl (.report journal)
  | calculate h => exact .inl (.calculate h)
  | assertScore h => exact .inl (.assertScore h)
  | doMove hm h => exact .inl (.doMove hm h)
  | evaluate hm h => exact .inl (.evaluate hm h)
  | assign he hv h => exact .inl (.assign he hv h)
  | @change c refusal _ _ hc h _ =>
    by_cases hsparing : g.Sparing c dir dir'
    · exact .inl (.change hc h hsparing)
    · obtain ⟨hexposes, hout⟩ := Classical.not_imp.1 hsparing
      exact .inr ⟨c, refusal, hc, hexposes, h, hout⟩

/-- Whatever happens to a director, one thing after another, spares values up to a change that exposes values and leaves
some out of range. -/
theorem Evolves.sparing_or_exposed (h : g.Evolves (fun _ _ _ => True) dir dir') (hshadows : dir.shadows = shadows)
    (hin : g.InRange dir.solution) : g.Evolves g.Sparing dir dir' ∨ g.Exposed dir dir' := by
  induction h with
  | refl => exact .inl .refl
  | tail _ hstep ih =>
    rcases ih with hpath | ⟨c, dir₁, dir₂, hpath, hc, hexposes, happly, hout, hrest⟩
    · rcases hstep.sparing_or with hstep | ⟨c, refusal, hc, hexposes, happly, hout⟩
      · exact .inl (hpath.tail hstep)
      · -- A change that is refused does nothing, so it leaves nothing out of range.
        have hmid := Evolves.inRange hreg hdraws hpath hshadows hin
        rcases hc.cases_apply hreg hdraws happly (Evolves.shadows_eq hreg hdraws hpath hshadows) with
          ⟨-, rfl⟩ | ⟨rfl, -, -⟩
        · exact absurd hmid hout
        · exact .inr ⟨c, _, _, hpath, hc, hexposes, happly, hout, .refl⟩
    · exact .inr ⟨c, dir₁, dir₂, hpath, hc, hexposes, happly, hout, hrest.tail hstep⟩

end Genuine

end Planning
