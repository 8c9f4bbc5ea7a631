import Mathlib.Logic.Relation
import Planning.ProblemChange
import Planning.Proofs.Director.Evaluate
import Planning.Proofs.Move.Doable
import Planning.Proofs.Run.Steady

/-!
# Values in range

A value that a move gives to an entity is in range, and is in range as long as the facts are the same. Facts and
entities come and go by changes of the problem: one that comes adds to the ranges that are drawn from its class, so it
takes no value out of range; one that goes may.
-/

namespace Planning

open Checked

variable {S E B L F : Type} {V : B → Type} {W : L → Type}
variable {g : Genuine S V W} {facts : S → F} {s s' : S}

/-- The values that entities have are legal. -/
def Content.Within (c : Content V W) (legal : ∀ b, Nat → V b → Bool) : Prop :=
  ∀ b e v, e < c.valueCount b → c.values b e = some v → legal b e v = true

namespace Content.Within

variable {c : Content V W} {legal : ∀ b, Nat → V b → Bool} [DecidableEq B]

/-- A legal value is given to an entity, or none. -/
theorem setValue {b : B} {e : Nat} {v : Option (V b)} (h : c.Within legal)
    (hv : ∀ w, v = some w → legal b e w = true) : (c.setValue b e v).Within legal := by
  intro b' e' w hlt hw
  by_cases hb : b' = b
  · subst hb
    simp only [Content.setValue, Function.update_self] at hw
    by_cases he : e' = e
    · subst he
      rw [Function.update_self] at hw
      exact hv w hw
    · rw [Function.update_of_ne he] at hw
      exact h b' e' w hlt hw
  · simp only [Content.setValue, Function.update_of_ne hb] at hw
    exact h b' e' w hlt hw

/-- Legal values are given to entities one after another. -/
theorem setValues {b : B} {l : List (Nat × Option (V b))} (h : c.Within legal)
    (hl : ∀ y ∈ l, ∀ w, y.2 = some w → legal b y.1 w = true) :
    (l.foldl (fun c y => c.setValue b y.1 y.2) c).Within legal := by
  induction l generalizing c with
  | nil => exact h
  | cons y l ih =>
    obtain ⟨hy, hl⟩ := List.forall_mem_cons.1 hl
    exact ih (h.setValue hy) hl

omit [DecidableEq B] in
/-- Lists are no values. -/
theorem congr {c' : Content V W} (h : c.Within legal) (hvalues : c'.values = c.values)
    (hcount : c'.valueCount = c.valueCount) : c'.Within legal := by
  intro b e v hlt hv
  rw [hcount] at hlt
  rw [hvalues] at hv
  exact h b e v hlt hv

end Content.Within

namespace Genuine

/-- Every value that an entity has is in its range. -/
def InRange (g : Genuine S V W) (s : S) : Prop := (g.content s).Within fun b => (g.basic b).range.contains s

/-- Ranges are drawn from the facts: what is in range is the same for the same facts. -/
def Draws (g : Genuine S V W) (facts : S → F) : Prop :=
  ∀ b s t, facts s = facts t → (g.basic b).range.contains s = (g.basic b).range.contains t

/-- Values are in range where the facts are the same and the values are legal. -/
theorem Draws.inRange (hdraws : g.Draws facts) (hfacts : facts s' = facts s)
    (h : (g.content s').Within fun b => (g.basic b).range.contains s) : g.InRange s' := by
  intro b e v hlt hv
  dsimp only
  rw [hdraws b s' s hfacts]
  exact h b e v hlt hv

/-- Values are in range in a solution that is alike. -/
theorem InRange.alike (hdraws : g.Draws facts) (h : g.InRange s) (hlike : g.Alike facts s' s) : g.InRange s' := by
  refine hdraws.inRange hlike.facts ?_
  rw [hlike.content]
  exact h

section List

variable [DecidableEq B] [DecidableEq L]

/-- A move of a list leaves all values alone. -/
theorem values_of_apply {l : L} [PlanningValue (W l)] [DecidableEq (W l)] (hg : g.Lawful) {m : ListMove (W l)}
    {u : Unit} (hcheck : m.check (g.list l) s = .ok u) (h : m.apply (g.list l) s = .ok s') :
    (g.content s').values = (g.content s).values ∧ (g.content s').valueCount = (g.content s).valueCount := by
  -- The entities whose lists are written exist all the time.
  let R (s s' : S) : Prop := (∀ d ∈ m.entities, d < (g.list l).count s) →
    (∀ d ∈ m.entities, d < (g.list l).count s') ∧ (g.content s').values = (g.content s).values ∧
      (g.content s').valueCount = (g.content s).valueCount
  have htrans : ∀ ⦃r s t⦄, R r s → R s t → R r t := by
    intro r s t hrs hst hlt
    obtain ⟨hlt, hvalues, hcount⟩ := hrs hlt
    obtain ⟨hlt, hvalues', hcount'⟩ := hst hlt
    exact ⟨hlt, hvalues'.trans hvalues, hcount'.trans hcount⟩
  have hset : ∀ d ∈ m.entities, ∀ s w s', (g.list l).set s d w = .ok s' → R s s' := by
    intro d hd s w s' hs hlt
    obtain ⟨t, ht, hcontent⟩ := hg.set_list l s d w (hlt d hd)
    rw [hs] at ht
    cases ht
    refine ⟨fun i hi => ?_, by rw [hcontent]; rfl, by rw [hcontent]; rfl⟩
    rw [count_of_setList hcontent]
    exact hlt i hi
  exact (ListMove.apply_rel htrans hset h (ListMove.lt_of_check hcheck)).2

end List

end Genuine

/-- The values that a planned move gives to entities are in range. -/
theorem BasicMove.legal_of_mem_result [∀ b, PlanningValue (V b)] {b : B} {m : BasicMove (V b)} {u : Unit}
    (hcheck : m.check (g.basic b) s = .ok u) :
    ∀ y ∈ m.result (g.basic b) s, BasicMove.Legal (g.basic b) s y.1 y.2 := by
  cases m with
  | change e v =>
    obtain ⟨_, -, hv⟩ := bind_eq_ok_iff.1 hcheck
    exact List.forall_mem_singleton.2 (checkValue_eq_ok_iff.1 hv)
  | swap i j =>
    obtain ⟨_, -, hcheck⟩ := bind_eq_ok_iff.1 hcheck
    obtain ⟨_, -, hcheck⟩ := bind_eq_ok_iff.1 hcheck
    obtain ⟨_, hleft, hright⟩ := bind_eq_ok_iff.1 hcheck
    exact List.forall_mem_cons.2
      ⟨checkValue_eq_ok_iff.1 hleft, List.forall_mem_singleton.2 (checkValue_eq_ok_iff.1 hright)⟩

section Moves

variable {k : ScoreKind} [PlanningSolution S k] {shadows : ShadowCascade S} {dir dir' : Director S k} {m : Move S}
variable [DecidableEq B] [DecidableEq L]
variable [∀ b, PlanningValue (V b)] [∀ b, DecidableEq (V b)] [∀ l, PlanningValue (W l)] [∀ l, DecidableEq (W l)]
variable (hreg : g.Regular facts shadows) (hdraws : g.Draws facts)
include hreg hdraws

/-- A planned move leaves values in range. -/
theorem Genuine.Moves.inRange (hm : g.Moves m) {e : Edit S} (hplan : m.plan s = .ok e) (happly : e.apply s = .ok s')
    (h : g.InRange s) : g.InRange s' := by
  refine hdraws.inRange ((hm.facts_eq hreg.governed hplan).1 _ _ happly) ?_
  cases hm with
  | basic b m =>
    obtain ⟨_, hcheck, hpure⟩ := bind_eq_ok_iff.1 hplan
    cases hpure
    cases happly
    rw [BasicMove.content_assignAll hreg.lawful (BasicMove.lt_of_mem_result hcheck)]
    refine h.setValues fun y hy w hw => ?_
    have hlegal := BasicMove.legal_of_mem_result hcheck y hy
    rwa [hw] at hlegal
  | list l m =>
    obtain ⟨_, hcheck, hpure⟩ := bind_eq_ok_iff.1 hplan
    cases hpure
    obtain ⟨hvalues, hcount⟩ := Genuine.values_of_apply hreg.lawful hcheck happly
    exact h.congr hvalues hcount

namespace Director

omit [∀ b, PlanningValue (V b)] [∀ b, DecidableEq (V b)] [∀ l, PlanningValue (W l)] [∀ l, DecidableEq (W l)] in
/-- Checking the score leaves values in range. -/
theorem inRange_assertScore (hin : g.InRange dir.solution) {out : Except ScoreCorruption (Score k)}
    (h : dir.assertScore = .ok (dir', out)) : g.InRange dir'.solution :=
  hin.alike hdraws (alike_of_stored hreg (assertScore_solution h).1)

variable (hshadows : dir.shadows = shadows) (hin : g.InRange dir.solution)
include hshadows hin

/-- Making a move leaves values in range. -/
theorem inRange_doMove (hm : g.Moves m) {result : Except MoveError Unit} (h : dir.doMove m = .ok (dir', result)) :
    g.InRange dir'.solution := by
  rcases cases_doMove h with ⟨err, -, -, rfl⟩ | ⟨e, hplan, -, hperform⟩
  · exact hin
  · obtain ⟨s, happly, hlike, -⟩ := perform_alike hreg hshadows hperform
    exact (hm.inRange hreg hdraws hplan happly hin).alike hdraws hlike

/-- Evaluating a move leaves values in range, also where the move is not taken back. -/
theorem inRange_evaluate (hm : g.Moves m) {check : Bool} {out : Except SolverError (Score k)}
    (h : dir.evaluate m check = .ok (dir', out)) : g.InRange dir'.solution := by
  rcases cases_evaluate hreg hm hshadows h with ⟨_, _, -, -, hlike⟩ | ⟨_, -, -, hlike⟩ | ⟨_, -, -, hlike | hmidway⟩
  · exact hin.alike hdraws hlike
  · exact hin.alike hdraws hlike
  · exact hin.alike hdraws hlike
  · obtain ⟨dir₁, dir₂, hmove, hassert, rfl⟩ := hmidway
    have hrecord : dir.record.shadows = shadows := hshadows
    have hmade : g.InRange dir₁.solution := inRange_doMove hreg hdraws hrecord hin hm hmove
    have hasserted : g.InRange dir₂.solution := inRange_assertScore hreg hdraws hmade hassert
    exact hasserted

omit hdraws hin [∀ b, PlanningValue (V b)] [∀ b, DecidableEq (V b)] [∀ l, PlanningValue (W l)]
  [∀ l, DecidableEq (W l)] in
/-- A solution in which an entity is given a value is like one where the value was only written. -/
theorem alike_assign {b : B} {e : Nat} {v : Option (V b)} (h : dir.assign (g.basic b) e v = .ok dir') :
    g.Alike facts dir'.solution ((g.basic b).set dir.solution e v) ∧ dir'.shadows = shadows := by
  obtain ⟨dir₁, h₁, hafter⟩ := bind_eq_ok_iff.1 h
  rw [beforeVariableChanged, forget_eq] at h₁
  obtain ⟨hs₁, heq₁⟩ := edit_eq h₁
  obtain ⟨changed, hcascade, heq⟩ := afterVariableChanged_eq hafter
  have hsame : dir₁.shadows = shadows := by rw [heq₁, ← hshadows]
  rw [hsame] at hcascade
  have hall : shadows.cascadeAll (fun d => dir₁.variableIndex? d (g.basic b).name) dir₁.solution
      [((g.basic b).entityClass, e)] = .ok dir'.solution :=
    ShadowCascade.cascadeAll_cons_eq_ok_iff.2 ⟨_, changed, hcascade, rfl⟩
  have hset : (g.basic b).set dir.solution e v = dir₁.solution := Except.ok.inj hs₁
  rw [hset]
  exact ⟨alike_of_cascadeAll hreg hall, by rw [heq, trackAll, hsame]⟩

omit [∀ b, PlanningValue (V b)] [∀ b, DecidableEq (V b)] [∀ l, PlanningValue (W l)] [∀ l, DecidableEq (W l)] in
/-- Giving an entity a value that is in range leaves values in range. -/
theorem inRange_assign {b : B} {e : Nat} {v : Option (V b)} (he : e < (g.basic b).count dir.solution)
    (hv : ∀ w, v = some w → (g.basic b).range.contains dir.solution e w = true)
    (h : dir.assign (g.basic b) e v = .ok dir') : g.InRange dir'.solution := by
  obtain ⟨hlike, -⟩ := alike_assign hreg hshadows h
  refine (hdraws.inRange (hreg.governed.set_basic b dir.solution e v) ?_).alike hdraws hlike
  rw [hreg.lawful.set_basic b dir.solution e v he]
  exact Content.Within.setValue hin hv

end Director

end Moves

namespace Collection

variable {U : Type} (c : Collection S E)

/-- The entities of a variable are the members, and each has its value of itself. -/
structure Holds (x : BasicVariable S U) : Prop where
  /-- There are as many entities as members. -/
  count : ∀ s, x.count s = (c.members s).length
  /-- An entity keeps its value wherever it stands among the members. -/
  get? : ∀ s l d e, l[e]? = (c.members s)[d]? → x.get? (c.withMembers s l) e = x.get? s d

/-- The members are no matter to the entities of a variable and their values. -/
structure Avoids (x : BasicVariable S U) : Prop where
  /-- There are as many entities. -/
  count : ∀ s l, x.count (c.withMembers s l) = x.count s
  /-- The entities have the same values. -/
  get? : ∀ s l, x.get? (c.withMembers s l) = x.get? s

/-- A class of a problem: its members are the entities of variables or no matter to them, and ranges may be drawn from
them. -/
structure Suits (g : Genuine S V W) : Prop where
  /-- The members are those that were written. -/
  members : ∀ s l, c.members (c.withMembers s l) = l
  /-- The members are the entities of a variable, or no matter to them. -/
  place : ∀ b, c.Holds (g.basic b) ∨ c.Avoids (g.basic b)
  /-- One more member takes no value out of range. -/
  grows : ∀ b s a e v, (g.basic b).range.contains s e v = true →
    (g.basic b).range.contains (c.withMembers s (c.members s ++ [a])) e v = true

/-- No range is drawn from the members: what is in range for an entity stays so, wherever it stands. -/
def Frees (g : Genuine S V W) : Prop :=
  ∀ b, c.Holds (g.basic b) ∧ (∀ s l d e, l[e]? = (c.members s)[d]? →
      (g.basic b).range.contains (c.withMembers s l) e = (g.basic b).range.contains s d) ∨
    c.Avoids (g.basic b) ∧ ∀ s l, (g.basic b).range.contains (c.withMembers s l) = (g.basic b).range.contains s

/-- A member that comes as an entity has values in range, if any. -/
def Fits (g : Genuine S V W) (a : E) (s : S) : Prop :=
  ∀ b v, c.Holds (g.basic b) → let s' := c.withMembers s (c.members s ++ [a])
    (g.basic b).get? s' (c.members s).length = some v →
      (g.basic b).range.contains s' (c.members s).length v = true

variable {c}

/-- A member that comes leaves values in range, if it has such itself where it is an entity. -/
theorem Suits.inRange_append (hc : c.Suits g) (h : g.InRange s) {a : E}
    (hfits : c.Fits g a s ∨ ∀ b, c.Avoids (g.basic b)) : g.InRange (c.withMembers s (c.members s ++ [a])) := by
  intro b e v hlt hv
  change e < (g.basic b).count _ at hlt
  change (g.basic b).get? _ e = some v at hv
  have havoids : c.Avoids (g.basic b) →
      (g.basic b).range.contains (c.withMembers s (c.members s ++ [a])) e v = true := by
    intro hb
    rw [hb.count] at hlt
    rw [hb.get?] at hv
    exact hc.grows b s a e v (h b e v hlt hv)
  rcases hc.place b with hb | hb
  · rcases hfits with hfits | hall
    · rw [hb.count, hc.members, List.length_append, List.length_singleton] at hlt
      by_cases he : e = (c.members s).length
      · subst he
        exact hfits b v hb hv
      · have hold : e < (c.members s).length := by omega
        rw [hb.get? s _ e e (List.getElem?_append_left hold)] at hv
        rw [← hb.count] at hold
        exact hc.grows b s a e v (h b e v hold hv)
    · exact havoids (hall b)
  · exact havoids hb

/-- A member that goes leaves values in range if no range is drawn from the members. -/
theorem Suits.inRange_erase (hc : c.Suits g) (hfree : c.Frees g) (h : g.InRange s) (i : Nat) :
    g.InRange (c.withMembers s ((c.members s).eraseIdx i)) := by
  intro b e v hlt hv
  change e < (g.basic b).count _ at hlt
  change (g.basic b).get? _ e = some v at hv
  rcases hfree b with ⟨hb, hrange⟩ | ⟨hb, hrange⟩
  · rw [hb.count, hc.members] at hlt
    -- The entity stood at the same place, or one further on.
    obtain ⟨d, hd⟩ : ∃ d, ((c.members s).eraseIdx i)[e]? = (c.members s)[d]? := by
      rw [List.getElem?_eraseIdx]
      split
      · exact ⟨e, rfl⟩
      · exact ⟨e + 1, rfl⟩
    have hold : d < (c.members s).length := by
      rw [List.getElem?_eq_getElem hlt] at hd
      exact (List.getElem?_eq_some_iff.1 hd.symm).1
    rw [hb.get? s _ d e hd] at hv
    rw [← hb.count] at hold
    dsimp only
    rw [hrange s _ d e hd]
    exact h b d v hold hv
  · rw [hb.count] at hlt
    rw [hb.get?] at hv
    dsimp only
    rw [hrange]
    exact h b e v hlt hv

end Collection

end Planning
