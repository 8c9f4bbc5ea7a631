import Planning.Proofs.Phase.Greedy
import Planning.Proofs.Selector.Neighborhood

/-!
# What a construction makes of a solution

Each entity without a value has its turn once. It gets the first of its values with the best score, where the score of
a value is that of the solution of the moment with the value given to the entity. Nothing else changes.
-/

namespace Planning

open Checked RunState Running

variable {S T : Type} {k : ScoreKind} {D : Director S k → Prop} {F : S → Score k} {B L : Type} {V : B → Type}
variable {W : L → Type} {g : Genuine S V W} {facts : S → T} {shadows : ShadowCascade S} {b : B} {e : Nat} {v : V b}

/-- What genuine variables hold is the same, but for the values that some entities have of one of them. -/
structure Content.SameBut (c c' : Content V W) (b : B) (es : List Nat) : Prop where
  /-- The other values are the same. -/
  values : ∀ b' e, (b' = b → e ∉ es) → c'.values b' e = c.values b' e
  /-- The lists are the same. -/
  lists : c'.lists = c.lists
  /-- As many entities have values. -/
  valueCount : c'.valueCount = c.valueCount
  /-- As many entities have lists. -/
  listCount : c'.listCount = c.listCount

namespace Content

variable {c c' : Content V W} {w : Option (V b)} {es : List Nat}

/-- Entities without a value are without one in any order. -/
theorem Vacant.perm {es' : List Nat} (h : c.Vacant b es) (hperm : es'.Perm es) : c.Vacant b es' :=
  ⟨hperm.nodup_iff.2 h.nodup, fun e he => h.lt e (hperm.mem_iff.1 he), fun e he => h.none e (hperm.mem_iff.1 he)⟩

variable [DecidableEq B]

/-- An entity gets a value before others do. -/
theorem SameBut.cons (h : (c.setValue b e w).SameBut c' b es) : c.SameBut c' b (e :: es) where
  values b' e' hne := by
    rw [h.values b' e' fun hb => List.not_mem_of_not_mem_cons (hne hb),
      values_setValue_of_ne _ fun hb => List.ne_of_not_mem_cons (hne hb)]
  lists := h.lists
  valueCount := h.valueCount
  listCount := h.listCount

/-- Behind an entity that gets a value the others have none yet. -/
theorem Vacant.tail (h : c.Vacant b (e :: es)) : (c.setValue b e w).Vacant b es := by
  obtain ⟨hmem, hnodup⟩ := List.nodup_cons.1 h.nodup
  refine ⟨hnodup, fun d hd => h.lt d (List.mem_cons_of_mem e hd), fun d hd => ?_⟩
  have hne : d ≠ e := fun hde => hmem (hde ▸ hd)
  rw [values_setValue_of_ne _ fun _ => hne]
  exact h.none d (List.mem_cons_of_mem e hd)

end Content

/-- A score is that of solutions that are like a given one with a value given to an entity. -/
def Genuine.Rates [DecidableEq B] (g : Genuine S V W) (facts : S → T) (D : Director S k → Prop) (F : S → Score k)
    (s : S) (b : B) (e : Nat) (v : V b) (score : Score k) : Prop :=
  ∃ dir, D dir ∧ g.content dir.solution = (g.content s).setValue b e (some v) ∧ facts dir.solution = facts s ∧
    F dir.solution = score

/-- What a draw gives that only computes something is what is computed. -/
theorem Generator.eq_ok_of_run {α : Type} {y : Checked α} {gen gen' : Generator} {a : α}
    (h : (liftM y : Generator.Draw α).run gen = .ok (a, gen')) : y = .ok a := by
  cases y with
  | error f => cases h
  | ok c =>
    cases h
    rfl

namespace Construction

section Orders

variable {U : Type} {x : Construction S U k} {s : S} {values : List U} {entities : List Nat}

/-- The values of an entity in the order in which a construction tries them. -/
def Offers (x : Construction S U k) (s : S) (e : Nat) (values : List U) : Prop :=
  ∃ listed, x.planned.range.values s e = .ok listed ∧
    match x.kind.valueOrder, x.planned.strength with
    | .weakestFirst, some strength => SortsBy (fun m n => decide (m ≤ n)) (strength s) listed values
    | .strongestFirst, some strength => SortsBy (fun m n => decide (n ≤ m)) (strength s) listed values
    | _, _ => values = listed

/-- The entities without a value in the order in which a construction goes through them. -/
def Queues (x : Construction S U k) (s : S) (entities : List Nat) : Prop :=
  match x.kind.sortsEntities, x.planned.difficulty with
  | true, some difficulty => SortsBy (fun m n => decide (n ≤ m)) (difficulty s) (x.planned.unassigned s) entities
  | _, _ => entities = x.planned.unassigned s

/-- The entities that have their turns are those without a value that may be changed. -/
theorem Queues.perm (h : x.Queues s entities) :
    entities.Perm (x.planned.unassigned s) := by
  unfold Queues at h
  split at h
  · exact SortsBy.perm h
  · rw [h]

/-- The values that are tried are those that are listed. -/
theorem Offers.mem (h : x.Offers s e values) :
    ∃ listed, x.planned.range.values s e = .ok listed ∧ ∀ v ∈ values, v ∈ listed := by
  obtain ⟨listed, hlisted, h⟩ := h
  refine ⟨listed, hlisted, fun v hv => ?_⟩
  have hperm : values.Perm listed := by
    split at h
    · exact h.perm
    · exact h.perm
    · rw [h]
  exact hperm.mem_iff.1 hv

/-- The values of an entity are found in the order in which they are tried, and nothing is drawn for it. -/
theorem offers_of_orderedValues {gen gen' : Generator}
    (h : (x.planned.orderedValues x.kind.valueOrder s e).run gen = .ok (values, gen')) : x.Offers s e values := by
  rw [BasicVariable.orderedValues, StateT.run_bind] at h
  obtain ⟨⟨listed, gen₁⟩, hlisted, h⟩ := bind_eq_ok_iff.1 h
  refine ⟨listed, Generator.eq_ok_of_run hlisted, ?_⟩
  dsimp only at h
  cases hkind : x.kind.valueOrder with
  | arranged o =>
    have ho : o = .asListed := by
      cases hx : x.kind <;> rw [hx] at hkind <;> cases hkind <;> rfl
    rw [hkind] at h
    subst ho
    cases h
    rfl
  | weakestFirst =>
    rw [hkind] at h
    cases hstrength : x.planned.strength with
    | none =>
      rw [hstrength] at h
      cases h
      rfl
    | some strength =>
      rw [hstrength] at h
      exact sortByKey_sorts (Generator.eq_ok_of_run h)
  | strongestFirst =>
    rw [hkind] at h
    cases hstrength : x.planned.strength with
    | none =>
      rw [hstrength] at h
      cases h
      rfl
    | some strength =>
      rw [hstrength] at h
      exact sortByKeyDescending_sorts (Generator.eq_ok_of_run h)

/-- The entities without a value are found in the order in which they have their turns. -/
theorem queues_of_unassignedSorted (h : x.planned.unassignedSorted x.kind.sortsEntities s = .ok entities) :
    x.Queues s entities := by
  unfold BasicVariable.unassignedSorted at h
  unfold Queues
  cases hsorted : x.kind.sortsEntities with
  | false =>
    rw [hsorted] at h
    cases h
    rfl
  | true =>
    rw [hsorted] at h
    cases hdifficulty : x.planned.difficulty with
    | none =>
      rw [hdifficulty] at h
      cases h
      rfl
    | some difficulty =>
      rw [hdifficulty] at h
      exact sortByKeyDescending_sorts h

end Orders

/-- The turn of an entity, with the working solution before and after it. -/
structure Turn (S : Type) where
  /-- The entity. -/
  entity : Nat
  /-- The working solution before the turn. -/
  before : S
  /-- The working solution after the turn. -/
  after : S

/-- What becomes of a solution when an entity has its turn: the entity gets the first of its values with the best score,
if it may be changed and has any, and nothing else changes. -/
def Serves [DecidableEq B] (x : Construction S (V b) k) (g : Genuine S V W) (facts : S → T) (D : Director S k → Prop)
    (F : S → Score k) (e : Nat) (s s' : S) : Prop :=
  ∃ (values : List (V b)) (rated : List (V b × Score k)) (best : Option (V b × Score k)), x.Offers s e values ∧
    rated.map Prod.fst = (if (g.basic b).isPinned s e then [] else values) ∧
    (∀ p ∈ rated, g.Rates facts D F s b e p.1 p.2) ∧ FirstBest Prod.snd rated best ∧
    g.content s' = (g.content s).setValue b e (best.map Prod.fst) ∧ facts s' = facts s

/-- An entity that still has no value when it was served may not be changed or has no value to take. -/
theorem Serves.unassigned [DecidableEq B] {x : Construction S (V b) k} {s s' : S} (h : x.Serves g facts D F e s s')
    (hnone : (g.basic b).get? s' e = none) : (g.basic b).isPinned s e = true ∨ x.Offers s e [] := by
  obtain ⟨values, rated, best, hoffers, hvalues, -, hfirst, hcontent, -⟩ := h
  have hbest : best.map Prod.fst = none := by
    have hvalue : (g.basic b).get? s' e = best.map Prod.fst := by
      change (g.content s').values b e = _
      simp only [hcontent, Content.setValue, Function.update_self]
    rw [← hvalue, hnone]
  rw [Option.map_eq_none_iff] at hbest
  subst hbest
  obtain rfl : rated = [] := hfirst
  split at hvalues
  · rename_i hpinned
    exact .inl hpinned
  · rw [List.map_nil] at hvalues
    rw [← hvalues] at hoffers
    exact .inr hoffers

section Trials

variable [∀ b, PlanningValue (V b)] [∀ b, DecidableEq (V b)] {x : Construction S (V b) k} {s : S} {r : RunState S k}
variable (hx : x.planned = g.basic b)
include hx

/-- The changes that an entity without a value may be given are those to its values, if it may be changed. -/
theorem ends_candidates (hlt : e < (g.basic b).count r.director.solution)
    (hnone : (g.basic b).get? r.director.solution e = none) :
    Ends (x.candidates e) r (fun moves r' => r' = { r with generator := r'.generator } ∧ ∃ values,
        x.Offers r.director.solution e values ∧
        moves = (if (g.basic b).isPinned r.director.solution e then [] else values).map fun v =>
          (BasicMove.change e (some v)).toMove (g.basic b))
      fun e _ => e.IsMishap := by
  have hsome : ∀ v, ((BasicMove.change e (some v)).toMove (g.basic b)).isDoable r.director.solution =
      !(g.basic b).isPinned r.director.solution e := by
    intro v
    change (succeeds ((g.basic b).checkEntity r.director.solution e) && _) = _
    rw [hnone, BasicVariable.checkEntity, checkMovable, if_neg (Nat.not_le_of_lt hlt)]
    cases (g.basic b).isPinned r.director.solution e <;> rfl
  have hleft : ((BasicMove.change e none).toMove (g.basic b)).isDoable r.director.solution = false := by
    change (_ && ((g.basic b).get? r.director.solution e != none)) = false
    rw [hnone, bne_self_eq_false, Bool.and_false]
  simp only [candidates, ends_bind, ends_get, ends_draw, ends_pure]
  refine ⟨fun options gen hoptions => ⟨trivial, ?_⟩, fun f _ => .inl ⟨f, rfl⟩⟩
  rw [BasicVariable.candidates, StateT.run_bind] at hoptions
  obtain ⟨⟨values, gen₁⟩, hvalues, hpure⟩ := bind_eq_ok_iff.1 hoptions
  cases hpure
  refine ⟨values, offers_of_orderedValues hvalues, ?_⟩
  have hend : (((if x.planned.allowsUnassigned then [none] else []).map fun v =>
      (BasicMove.change e v).toMove (g.basic b)).filter fun m => m.isDoable r.director.solution) = [] := by
    split
    · exact List.filter_cons_of_neg (by rw [hleft]; exact Bool.false_ne_true)
    · rfl
  rw [hx] at hend ⊢
  rw [List.map_append, List.filter_append, hend, List.append_nil, List.map_map]
  cases hpinned : (g.basic b).isPinned r.director.solution e with
  | true =>
    refine List.filter_eq_nil_iff.2 fun m hm => ?_
    obtain ⟨v, -, rfl⟩ := List.mem_map.1 hm
    simp [hsome, hpinned]
  | false =>
    refine List.filter_eq_self.2 fun m hm => ?_
    obtain ⟨v, -, rfl⟩ := List.mem_map.1 hm
    simp [hsome, hpinned]

/-- A change to a value that is tried gives the entity the value. -/
theorem leadsTo_of_offers [DecidableEq B] [DecidableEq L] [∀ l, PlanningValue (W l)] [∀ l, DecidableEq (W l)]
    (hg : g.Lawful) (hcontains : ∀ s e vs v, (g.basic b).range.values s e = .ok vs → v ∈ vs →
      (g.basic b).range.contains s e v = true) {values : List (V b)} (hoffers : x.Offers s e values)
    (hlt : e < (g.basic b).count s) (hnone : (g.basic b).get? s e = none)
    (hpinned : (g.basic b).isPinned s e = false) {v : V b} (hv : v ∈ values) :
    g.LeadsTo s ((BasicMove.change e (some v)).toMove (g.basic b)) ((g.content s).setValue b e (some v)) := by
  obtain ⟨listed, hlisted, hmem⟩ := hoffers.mem
  rw [hx] at hlisted
  have hdoable : (BasicMove.change e (some v)).isDoable (g.basic b) s = true := by
    change (succeeds ((g.basic b).checkEntity s e) && _) = true
    rw [hnone, BasicVariable.checkEntity, checkMovable, if_neg (Nat.not_le_of_lt hlt), hpinned]
    rfl
  obtain ⟨u, hcheck⟩ := BasicMove.check_change hdoable (hcontains s e listed v hlisted (hmem v hv))
  refine ⟨.basic b _, _, _, bind_eq_ok_iff.2 ⟨u, hcheck, rfl⟩, rfl, ?_⟩
  exact BasicMove.content_assignAll hg (BasicMove.lt_of_mem_result hcheck)

end Trials

end Construction

variable [PlanningSolution S k]
variable [∀ b, PlanningValue (V b)] [∀ b, DecidableEq (V b)] [∀ l, PlanningValue (W l)] [∀ l, DecidableEq (W l)]
variable [DecidableEq B] [DecidableEq L]

namespace Construction

variable {x : Construction S (V b) k} {s : S} {r r' : RunState S k}

/-- Entities have their turns in a run, one after another; none comes once the phase has to stop. -/
inductive Turns {U : Type} [PlanningValue U] [DecidableEq U] (x : Construction S U k) :
    List (Turn S) → RunState S k → RunState S k → Prop
  /-- No entity has its turn. -/
  | done (r : RunState S k) : Turns x [] r r
  /-- An entity has its turn before others. -/
  | next {e r r₁ turns r'} : r.isPhaseTerminated x.termination = false → x.step e r = .ok () r₁ → Turns x turns r₁ r' →
      Turns x (⟨e, r.director.solution, r₁.director.solution⟩ :: turns) r r'

section Step

variable (hx : x.planned = g.basic b) (hreg : g.Regular facts shadows)
variable (hD : ExhaustiveSearch.Settles g facts shadows D F) (hrecord : ∀ {dir}, D dir → D dir.record)
variable (hcontains : ∀ s e vs v, (g.basic b).range.values s e = .ok vs → v ∈ vs →
  (g.basic b).range.contains s e v = true)
include hx hreg hD hrecord hcontains

/-- The step of an entity without a value serves it. -/
theorem ends_step (h : r.Abides D) (hlt : e < (g.basic b).count r.director.solution)
    (hnone : (g.basic b).get? r.director.solution e = none) :
    Ends (x.step e) r
      (fun _ r' => r'.Abides D ∧ x.Serves g facts D F e r.director.solution r'.director.solution)
      fun e _ => e.IsMishap := by
  have hnoted : Ends stepStarted r (fun _ r₁ => r.Noted r₁) fun e _ => e.IsMishap := by
    simp only [Running.stepStarted, ends_bind, ends_get]
    exact .tell fun _ => id
  simp only [step, ends_bind]
  refine hnoted.mono (fun _ r₁ hr₁ => ?_) fun _ _ => id
  have habides₁ := h.noted hD.journal hr₁
  rw [← hr₁.solution] at hlt hnone ⊢
  refine (ends_candidates hx hlt hnone).mono (fun moves r₂ hr₂ => ?_) fun _ _ => id
  obtain ⟨hdrawn, values, hoffers, rfl⟩ := hr₂
  have habides₂ : r₂.Abides D := by
    rw [hdrawn]
    exact ⟨habides₁.director, habides₁.pending, habides₁.asked⟩
  have hsame : r₂.director.solution = r₁.director.solution := by rw [hdrawn]
  rw [← hsame] at hlt hnone hoffers ⊢
  have hleads : ∀ v ∈ (if (g.basic b).isPinned r₂.director.solution e then [] else values),
      g.LeadsTo r₂.director.solution ((BasicMove.change e (some v)).toMove (g.basic b))
        ((g.content r₂.director.solution).setValue b e (some v)) := by
    intro v hv
    split at hv
    · cases hv
    · rename_i hpinned
      exact leadsTo_of_offers hx hreg.lawful hcontains hoffers hlt hnone (by simpa using hpinned) hv
  refine (ends_stepWithBest_rated hreg hD hrecord habides₂ hleads).mono (fun made r₃ hr₃ => ?_) fun _ _ he => he.mishap
  obtain ⟨habides₃, rated, best, hvalues, hscores, hfirst, -, hcontent, hfacts, -⟩ := hr₃
  have hset : g.content r₃.director.solution =
      (g.content r₂.director.solution).setValue b e (best.map Prod.fst) := by
    rw [hcontent]
    cases best with
    | none =>
      have hsame : (g.content r₂.director.solution).values b e = none := hnone
      rw [Option.map_none, ← hsame, Content.setValue_values]
      rfl
    | some p => rfl
  simp only [ends_ite, ends_pure]
  refine ⟨fun _ => .logAt fun r₄ hr₄ => ?_, fun _ => ?_⟩
  · refine ⟨habides₃.noted hD.journal hr₄, values, rated, best, hoffers, hvalues, hscores, hfirst, ?_, ?_⟩
    · rw [hr₄.solution, hset]
    · rw [hr₄.solution, hfacts]
  · exact ⟨habides₃, values, rated, best, hoffers, hvalues, hscores, hfirst, hset, hfacts⟩

/-- The entities without a value have their turns one after another, until all of them had theirs or the phase has to
stop. Each of them is served, and nothing else changes. -/
theorem ends_stepAll {es : List Nat} (h : r.Abides D) (hopen : (g.content r.director.solution).Vacant b es) :
    Ends (x.stepAll es) r
      (fun _ r' => r'.Abides D ∧ ∃ turns rest, es = turns.map Turn.entity ++ rest ∧ x.Turns turns r r' ∧
        (rest ≠ [] → r'.isPhaseTerminated x.termination = true) ∧
        (∀ t ∈ turns, x.Serves g facts D F t.entity t.before t.after ∧
          (g.basic b).get? r'.director.solution t.entity = (g.basic b).get? t.after t.entity) ∧
        (g.content r.director.solution).SameBut (g.content r'.director.solution) b (turns.map Turn.entity) ∧
        facts r'.director.solution = facts r.director.solution)
      fun e _ => e.IsMishap := by
  induction es generalizing r with
  | nil =>
    refine ⟨h, [], [], rfl, .done r, fun hnil => absurd rfl hnil, fun _ ht => absurd ht List.not_mem_nil, ?_, rfl⟩
    exact ⟨fun _ _ _ => rfl, rfl, rfl, rfl⟩
  | cons e es ih =>
    simp only [stepAll, ends_bind, ends_get, ends_ite, ends_pure, Bool.not_eq_true]
    refine ⟨fun hstops => ?_, fun hgoes => ?_⟩
    · refine ⟨h, [], e :: es, rfl, .done r, fun _ => hstops, fun _ ht => absurd ht List.not_mem_nil, ?_, trivial⟩
      exact ⟨fun _ _ _ => rfl, rfl, rfl, rfl⟩
    have hlt := hopen.lt e List.mem_cons_self
    have hnone := hopen.none e List.mem_cons_self
    refine (ends_step hx hreg hD hrecord hcontains h hlt hnone).eq.mono (fun _ r₁ hr₁ => ?_) fun _ _ => id
    obtain ⟨⟨habides₁, hserves⟩, hstep⟩ := hr₁
    obtain ⟨values, rated, best, hoffers, hvalues, hrates, hfirst, hcontent, hfacts⟩ := id hserves
    have hopen₁ : (g.content r₁.director.solution).Vacant b es := by
      rw [hcontent]
      exact hopen.tail
    refine (ih habides₁ hopen₁).mono (fun _ r₂ hr₂ => ?_) fun _ _ => id
    obtain ⟨habides₂, turns, rest, rfl, hturns, hrest, hserved, hsame, hfacts₂⟩ := hr₂
    refine ⟨habides₂, ⟨e, r.director.solution, r₁.director.solution⟩ :: turns, rest, rfl, .next hgoes hstep hturns,
      hrest, List.forall_mem_cons.2 ⟨⟨hserves, ?_⟩, hserved⟩, ?_, hfacts₂.trans hfacts⟩
    · have hmem := (List.nodup_cons.1 hopen.nodup).1
      exact hsame.values b e fun _ he => hmem (List.mem_append_left rest he)
    · rw [hcontent] at hsame
      exact hsame.cons

end Step

/-- A step asks no run to stop. -/
theorem unstopping_step {U : Type} [PlanningValue U] [DecidableEq U] (x : Construction S U k) (e : Nat) :
    Unstopping (x.step e) := by
  have hdraw : ∀ {α : Type} (y : Generator.Draw α), Unstopping (draw y : Running S k α) := fun _ =>
    Leads.draw fun _ _ hr => ⟨⟨hr.stopping, hr.termination, hr.watch⟩, fun _ => ⟨hr.stopping, hr.termination, hr.watch⟩⟩
  refine .bind Unstopping.stepStarted fun _ => ?_
  refine .bind (.bind .get fun _ => .bind (hdraw _) fun _ => .pure _) fun moves => ?_
  exact .bind (unstopping_stepWithBest moves) fun _ => .ite (Unstopping.logAt _ _) (.pure _)

/-- What nothing stopped before the turns of entities nothing stops after them. -/
theorem Turns.unstopped {U : Type} [PlanningValue U] [DecidableEq U] {x : Construction S U k} {turns : List (Turn S)}
    (h : x.Turns turns r r') (hr : r.Unstopped) : r'.Unstopped := by
  induction h with
  | done r => exact hr
  | next _ hstep _ ih => exact ih ((unstopping_step x _ _ hr).of_ok hstep).1

end Construction

/-- A construction gives each entity that has no value and may be changed the first of its values with the best score,
one entity after another, and changes nothing else. The entities have their turns once, in the order of their indices or
the hardest first, and the values are tried in the order of the range or of their strength; the score of a value is that
of the solution of the moment with the value. In a run that is not stopped all of them have their turns, so in the end
only those have no value that may not be changed or had no value to take. No move is refused. -/
theorem Construction.run_serves {x : Construction S (V b) k} (hx : x.planned = g.basic b)
    (hreg : g.Regular facts shadows) (hD : ExhaustiveSearch.Settles g facts shadows D F)
    (hrecord : ∀ {dir}, D dir → D dir.record)
    (hcontains : ∀ s e vs v, (g.basic b).range.values s e = .ok vs → v ∈ vs →
      (g.basic b).range.contains s e v = true) {r : RunState S k} (h : r.Abides D) :
    Ends x.run r
      (fun _ r' => ∃ entities turns rest r₁, x.Queues r.director.solution entities ∧
        entities = turns.map Turn.entity ++ rest ∧ x.Turns turns r r₁ ∧
        (rest ≠ [] → r₁.isPhaseTerminated x.termination = true) ∧
        (r.Unstopped → x.termination = none → rest = []) ∧
        (entities.Nodup ∧ ∀ e, e ∈ entities ↔ e < (g.basic b).count r.director.solution ∧
          (g.basic b).get? r.director.solution e = none ∧ (g.basic b).isPinned r.director.solution e = false) ∧
        (∀ t ∈ turns, x.Serves g facts D F t.entity t.before t.after) ∧
        (g.content r.director.solution).SameBut (g.content r'.director.solution) b (turns.map Turn.entity) ∧
        facts r'.director.solution = facts r.director.solution ∧
        (rest = [] → ∀ e < (g.basic b).count r.director.solution, (g.basic b).get? r'.director.solution e = none →
          (g.basic b).isPinned r.director.solution e = true ∨ ∃ t ∈ turns, t.entity = e ∧
            ((g.basic b).isPinned t.before e = true ∨ x.Offers t.before e [])))
      fun e _ => e.IsMishap := by
  simp only [run, ends_bind, ends_get, ends_checked, ends_discard]
  refine ⟨fun entities hentities => ?_, fun f _ => .inl ⟨f, rfl⟩⟩
  have hqueues := queues_of_unassignedSorted hentities
  have hperm : entities.Perm ((g.basic b).unassigned r.director.solution) := by
    rw [← hx]
    exact hqueues.perm
  have hopen : (g.content r.director.solution).Vacant b entities := (ExhaustiveSearch.vacant_unassigned b _).perm hperm
  refine (ends_stepAll hx hreg hD hrecord hcontains h hopen).mono (fun _ r₁ hr₁ => ?_) fun _ _ => id
  obtain ⟨habides₁, turns, rest, rfl, hturns, hrest, hserved, hsame, hfacts⟩ := hr₁
  refine (Quiet.updateBest hreg hD.toPreserves r₁ habides₁).mono (fun _ r₂ hr₂ => ?_) fun _ _ => id
  obtain ⟨-, hlike⟩ := hr₂
  have hmem : ∀ e, e ∈ turns.map Turn.entity ++ rest ↔ e < (g.basic b).count r.director.solution ∧
      (g.basic b).get? r.director.solution e = none ∧ (g.basic b).isPinned r.director.solution e = false := by
    intro e
    rw [hperm.mem_iff, BasicVariable.unassigned, List.mem_filter, List.mem_range]
    simp
  refine ⟨_, turns, rest, r₁, hqueues, rfl, hturns, hrest, fun hr htermination => ?_, ⟨hopen.nodup, hmem⟩,
    fun t ht => (hserved t ht).1, ?_, hlike.facts.trans hfacts, fun hall e he hnone => ?_⟩
  · by_contra hleft
    have hstops := hrest hleft
    rw [htermination, (hturns.unstopped hr).isPhaseTerminated] at hstops
    cases hstops
  · rw [hlike.content]
    exact hsame
  · have hnone₁ : (g.basic b).get? r₁.director.solution e = none := by
      rw [← hnone]
      exact congrArg (fun c => c.values b e) hlike.content.symm
    by_cases hturn : e ∈ turns.map Turn.entity
    · obtain ⟨t, ht, rfl⟩ := List.mem_map.1 hturn
      obtain ⟨hserves, hkept⟩ := hserved t ht
      exact .inr ⟨t, ht, rfl, hserves.unassigned (hkept.symm.trans hnone₁)⟩
    · left
      by_contra hpinned
      have hbefore : (g.basic b).get? r.director.solution e = none :=
        (hsame.values b e fun _ => hturn).symm.trans hnone₁
      have hqueued := (hmem e).2 ⟨he, hbefore, by simpa using hpinned⟩
      rw [hall, List.append_nil] at hqueued
      exact hturn hqueued

namespace Timetable

/-- A construction that gives each lesson the first of the best rooms. -/
def firstRooms : Construction Timetable Nat .hardSoft where
  planned := roomVariable
  kind := .firstFit

/-- The rooms of lessons once a run succeeds. -/
def roomsOf : EStateM.Result Stop (RunState Timetable .hardSoft) Unit → Option (List (Option Nat))
  | .ok _ r => some (r.director.solution.lessons.map Lesson.room)
  | .error _ _ => none

/-- A run with rooms in the end succeeds. -/
theorem exists_of_roomsOf {y : EStateM.Result Stop (RunState Timetable .hardSoft) Unit} {rooms : List (Option Nat)}
    (h : roomsOf y = some rooms) : ∃ r, y = .ok () r ∧ r.director.solution.lessons.map Lesson.room = rooms := by
  cases y with
  | ok u r => exact ⟨r, rfl, Option.some.inj h⟩
  | error e r => cases h

/-- Two lessons that must not be in the same room are served one after the other. -/
theorem run_serves_firstRooms : ∃ r' turns r₁, firstRooms.run separating = .ok () r' ∧
    r'.director.solution.lessons.map Lesson.room = [some 0, some 1] ∧
    firstRooms.Turns turns separating r₁ ∧ turns.map Construction.Turn.entity = [0, 1] ∧
    ∀ t ∈ turns, firstRooms.Serves (b := ()) givenRooms bare (Director.Full keepApart []) (scratch keepApart) t.entity
      t.before t.after := by
  have hrooms : roomsOf (firstRooms.run separating) = some [some 0, some 1] := by decide +kernel
  obtain ⟨r', hrun, hrooms⟩ := exists_of_roomsOf hrooms
  have hends := Construction.run_serves (b := ()) (x := firstRooms) rfl regular_givenRooms settles_keepApart
    (fun h => ⟨h.shadows, h.scoring⟩) (coherent_givenRooms ()) abides_separating
  obtain ⟨entities, turns, rest, r₁, hqueues, hall, hturns, -, hunstopped, -, hserves, -⟩ := hends.of_ok hrun
  obtain rfl : rest = [] := hunstopped unstopped_separating rfl
  have hentities : entities = [0, 1] := hqueues
  rw [hentities, List.append_nil] at hall
  exact ⟨r', turns, r₁, hrun, hrooms, hturns, hall.symm, hserves⟩

end Timetable

end Planning
