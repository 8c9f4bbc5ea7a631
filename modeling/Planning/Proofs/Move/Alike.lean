import Planning.Proofs.Move.Undo

/-!
# What moves depend on

Besides what its genuine variables hold a problem has facts, which say what is pinned and what is in range. No move
changes them. Solutions with the same facts whose genuine variables hold the same are alike for moves: what speaks
against a move in one speaks against it in the other, and after the move they are alike again.
-/

namespace Planning

open Checked

variable {S B L F : Type} {V : B → Type} {W : L → Type} [DecidableEq B] [DecidableEq L]
variable {g : Genuine S V W} {facts : S → F} {s s' t t' u : S}

namespace Genuine

/-- Two solutions have the same facts, and their genuine variables hold the same. -/
structure Alike (g : Genuine S V W) (facts : S → F) (s t : S) : Prop where
  /-- The genuine variables hold the same. -/
  content : g.content s = g.content t
  /-- The facts are the same. -/
  facts : facts s = facts t

namespace Alike

omit [DecidableEq B] [DecidableEq L]

/-- A solution is like itself. -/
theorem refl (s : S) : g.Alike facts s s := ⟨rfl, rfl⟩

/-- Solutions are like each other. -/
theorem symm (h : g.Alike facts s t) : g.Alike facts t s := ⟨h.content.symm, h.facts.symm⟩

/-- What is like something that is like a third is like that. -/
theorem trans (h : g.Alike facts s t) (h' : g.Alike facts t u) : g.Alike facts s u :=
  ⟨h.content.trans h'.content, h.facts.trans h'.facts⟩

end Alike

/-- Facts that no move, no listener and no stored score changes, and that settle, with what the genuine variables
hold, what is pinned and what is in range. -/
structure Governed [PlanningSolution S k] (g : Genuine S V W) (facts : S → F) (shadows : ShadowCascade S) :
    Prop where
  /-- A value that is written is no fact. -/
  set_basic : ∀ b s e v, facts ((g.basic b).set s e v) = facts s
  /-- A list that is written is no fact. -/
  set_list : ∀ l s e w s', (g.list l).set s e w = .ok s' → facts s' = facts s
  /-- A shadow variable is no fact. -/
  listener : ∀ e ∈ shadows, ∀ s x s' changed, e.listener.update s x = .ok (s', changed) → facts s' = facts s
  /-- A stored score is no fact. -/
  score : ∀ s (score : Score k), facts (PlanningSolution.withScore s score) = facts s
  /-- What is pinned is the same in solutions that are alike. -/
  pinned : ∀ {s t}, g.Alike facts s t →
    (∀ b, (g.basic b).isPinned s = (g.basic b).isPinned t) ∧ ∀ l, (g.list l).isPinned s = (g.list l).isPinned t
  /-- What is in range is the same in solutions that are alike. -/
  contains : ∀ {s t}, g.Alike facts s t → (∀ b, (g.basic b).range.contains s = (g.basic b).range.contains t) ∧
    ∀ l, (g.list l).range.contains s = (g.list l).range.contains t

/-- A problem whose genuine variables are lawful and apart from the rest, with facts that govern moves. -/
structure Regular [PlanningSolution S k] (g : Genuine S V W) (facts : S → F) (shadows : ShadowCascade S) :
    Prop where
  /-- The genuine variables are independent of each other. -/
  lawful : g.Lawful
  /-- Listeners and stored scores leave them alone. -/
  apart : g.Apart (k := k) shadows
  /-- The facts govern moves. -/
  governed : g.Governed facts shadows

/-- An edit of the same list gives the same list. -/
theorem Lawful.content_edit {l : L} {e : Nat} {f : List (W l) → Checked (List (W l))} (hg : g.Lawful)
    (he : e < (g.list l).count s) (h : g.content s = g.content t) (hs : (g.list l).edit s e f = .ok s')
    (ht : (g.list l).edit t e f = .ok t') : g.content s' = g.content t' := by
  have hlist : (g.list l).list s = (g.list l).list t := congrArg (fun c => c.lists l) h
  have hcount : (g.list l).count s = (g.list l).count t := congrArg (fun c => c.listCount l) h
  obtain ⟨w, hw, hs'⟩ := hg.edit_eq_ok he hs
  obtain ⟨w', hw', ht'⟩ := hg.edit_eq_ok (hcount ▸ he) ht
  rw [hlist, hw'] at hw
  cases hw
  rw [hs', ht', h]

section List

variable {l : L} {a i b j n : Nat} (hg : g.Lawful) (ha : a < (g.list l).count s) (hb : b < (g.list l).count s)
  (h : g.content s = g.content t)
include hg ha hb h

/-- Elements go to the same positions. -/
theorem content_transfer (hs : ListMove.transfer (g.list l) s a i b j = .ok s')
    (ht : ListMove.transfer (g.list l) t a i b j = .ok t') : g.content s' = g.content t' := by
  have hlist : (g.list l).list s = (g.list l).list t := congrArg (fun c => c.lists l) h
  obtain ⟨v, hv, hs⟩ := bind_eq_ok_iff.1 hs
  obtain ⟨v', hv', ht⟩ := bind_eq_ok_iff.1 ht
  rw [hlist, hv'] at hv
  cases hv
  obtain ⟨s₁, hs₁, hs⟩ := bind_eq_ok_iff.1 hs
  obtain ⟨t₁, ht₁, ht⟩ := bind_eq_ok_iff.1 ht
  obtain ⟨w, -, hw⟩ := hg.edit_eq_ok ha hs₁
  exact hg.content_edit ((count_of_setList hw).symm ▸ hb) (hg.content_edit ha h hs₁ ht₁) hs ht

/-- Sublists go to the same positions. -/
theorem content_transferAll (hs : ListMove.transferAll (g.list l) s a i j b n = .ok s')
    (ht : ListMove.transferAll (g.list l) t a i j b n = .ok t') : g.content s' = g.content t' := by
  have hlist : (g.list l).list s = (g.list l).list t := congrArg (fun c => c.lists l) h
  obtain ⟨⟨part, rest⟩, hcut, hs⟩ := bind_eq_ok_iff.1 hs
  obtain ⟨⟨part', rest'⟩, hcut', ht⟩ := bind_eq_ok_iff.1 ht
  rw [hlist, hcut'] at hcut
  cases hcut
  obtain ⟨s₁, hs₁, hs⟩ := bind_eq_ok_iff.1 hs
  obtain ⟨t₁, ht₁, ht⟩ := bind_eq_ok_iff.1 ht
  have hs₁ : (g.list l).edit s a (fun _ => .ok rest) = .ok s₁ := hs₁
  have ht₁ : (g.list l).edit t a (fun _ => .ok rest) = .ok t₁ := ht₁
  obtain ⟨w, -, hw⟩ := hg.edit_eq_ok ha hs₁
  exact hg.content_edit ((count_of_setList hw).symm ▸ hb) (hg.content_edit ha h hs₁ ht₁) hs ht

/-- The same elements are exchanged. -/
theorem content_exchange {v w : W l} (hs : ListMove.exchange (g.list l) s a i b j v w = .ok s')
    (ht : ListMove.exchange (g.list l) t a i b j v w = .ok t') : g.content s' = g.content t' := by
  unfold ListMove.exchange at hs ht
  split at hs
  · rename_i hab
    rw [if_pos hab] at ht
    exact hg.content_edit ha h hs ht
  · rename_i hab
    rw [if_neg hab] at ht
    obtain ⟨s₁, hs₁, hs⟩ := bind_eq_ok_iff.1 hs
    obtain ⟨t₁, ht₁, ht⟩ := bind_eq_ok_iff.1 ht
    obtain ⟨w, -, hw⟩ := hg.edit_eq_ok ha hs₁
    exact hg.content_edit ((count_of_setList hw).symm ▸ hb) (hg.content_edit ha h hs₁ ht₁) hs ht

end List

end Genuine

variable {k : ScoreKind} [PlanningSolution S k] {shadows : ShadowCascade S}
variable [∀ b, PlanningValue (V b)] [∀ b, DecidableEq (V b)] [∀ l, PlanningValue (W l)] [∀ l, DecidableEq (W l)]

namespace Genuine

section Checks

omit [DecidableEq B] [DecidableEq L]

variable (hgov : g.Governed facts shadows) (h : g.Alike facts s t)
include hgov h

omit [∀ b, PlanningValue (V b)] [∀ b, DecidableEq (V b)] [∀ l, PlanningValue (W l)]
  [∀ l, DecidableEq (W l)] in
/-- An entity that may be changed may be changed in a solution that is alike. -/
theorem checkEntity_basic (b : B) (e : Nat) : (g.basic b).checkEntity s e = (g.basic b).checkEntity t e := by
  have hcount : (g.basic b).count s = (g.basic b).count t := congrArg (fun c => c.valueCount b) h.content
  rw [BasicVariable.checkEntity, BasicVariable.checkEntity, hcount, (hgov.pinned h).1 b]

omit [∀ b, PlanningValue (V b)] [∀ b, DecidableEq (V b)] [∀ l, PlanningValue (W l)]
  [∀ l, DecidableEq (W l)] in
/-- An entity whose list may be changed may be changed in a solution that is alike. -/
theorem checkEntity_list (l : L) (e : Nat) : (g.list l).checkEntity s e = (g.list l).checkEntity t e := by
  have hcount : (g.list l).count s = (g.list l).count t := congrArg (fun c => c.listCount l) h.content
  rw [ListVariable.checkEntity, ListVariable.checkEntity, hcount, (hgov.pinned h).2 l]

omit [∀ b, DecidableEq (V b)] [∀ l, PlanningValue (W l)] [∀ l, DecidableEq (W l)] in
/-- A value that an entity may take it may take in a solution that is alike. -/
theorem checkValue_basic (b : B) (e : Nat) (v : Option (V b)) :
    (g.basic b).checkValue s e v = (g.basic b).checkValue t e v := by
  unfold BasicVariable.checkValue
  rw [(hgov.contains h).1 b]

omit [∀ l, PlanningValue (W l)] [∀ l, DecidableEq (W l)] [∀ b, DecidableEq (V b)] in
/-- What speaks against a move of a value speaks against it in a solution that is alike. -/
theorem check_basic (b : B) (m : BasicMove (V b)) : m.check (g.basic b) s = m.check (g.basic b) t := by
  have hget : (g.basic b).get? s = (g.basic b).get? t := congrArg (fun c => c.values b) h.content
  cases m <;> simp only [BasicMove.check, checkEntity_basic hgov h, checkValue_basic hgov h, hget]

omit [∀ b, PlanningValue (V b)] [∀ b, DecidableEq (V b)] in
/-- What speaks against a move of a list speaks against it in a solution that is alike. -/
theorem check_list (l : L) (m : ListMove (W l)) : m.check (g.list l) s = m.check (g.list l) t := by
  have hlist : (g.list l).list s = (g.list l).list t := congrArg (fun c => c.lists l) h.content
  have hcount : (g.list l).count s = (g.list l).count t := congrArg (fun c => c.listCount l) h.content
  have hsize : (g.list l).size s = (g.list l).size t := by
    funext e
    rw [ListVariable.size, ListVariable.size, hlist]
  have hindex : (g.list l).checkIndex s = (g.list l).checkIndex t := by
    funext e i n
    rw [ListVariable.checkIndex, ListVariable.checkIndex, hsize]
  have helement : (g.list l).checkElement s = (g.list l).checkElement t := by
    funext e v
    rw [ListVariable.checkElement, ListVariable.checkElement, (hgov.contains h).2 l]
  have hassigned : (g.list l).isAssigned s = (g.list l).isAssigned t := by
    funext v
    rw [ListVariable.isAssigned, ListVariable.isAssigned, hlist, hcount]
  cases m <;>
    simp only [ListMove.check, checkEntity_list hgov h, hindex, hsize, helement, hassigned]

/-- A move that would change a solution would change one that is alike. -/
theorem Moves.isDoable_alike {m : Move S} (hm : g.Moves m) : m.isDoable s = m.isDoable t := by
  cases hm with
  | basic b m =>
    have hget : (g.basic b).get? s = (g.basic b).get? t := congrArg (fun c => c.values b) h.content
    change m.isDoable (g.basic b) s = m.isDoable (g.basic b) t
    cases m <;> simp only [BasicMove.isDoable, checkEntity_basic hgov h, hget]
  | list l m =>
    have hlist : (g.list l).list s = (g.list l).list t := congrArg (fun c => c.lists l) h.content
    change m.isDoable (g.list l) s = m.isDoable (g.list l) t
    unfold ListMove.isDoable
    rw [check_list hgov h l m, hlist]

/-- A move that cannot be planned cannot be planned in a solution that is alike, for the same reason. -/
theorem Moves.plan_alike {m : Move S} (hm : g.Moves m) {err : MoveError} (hplan : m.plan s = .error err) :
    m.plan t = .error err := by
  cases hm with
  | basic b m =>
    change m.plan (g.basic b) s = .error err at hplan
    change m.plan (g.basic b) t = .error err
    unfold BasicMove.plan at hplan ⊢
    rw [← check_basic hgov h b m]
    cases hcheck : m.check (g.basic b) s with
    | error e =>
      rw [hcheck] at hplan
      exact hplan
    | ok u =>
      rw [hcheck] at hplan
      cases hplan
  | list l m =>
    change m.plan (g.list l) s = .error err at hplan
    change m.plan (g.list l) t = .error err
    unfold ListMove.plan at hplan ⊢
    rw [← check_list hgov h l m]
    cases hcheck : m.check (g.list l) s with
    | error e =>
      rw [hcheck] at hplan
      exact hplan
    | ok u =>
      rw [hcheck] at hplan
      cases hplan

/-- A move that can be planned can be planned in a solution that is alike. -/
theorem Moves.exists_plan_alike {m : Move S} (hm : g.Moves m) (hplan : ∃ e, m.plan s = .ok e) :
    ∃ e, m.plan t = .ok e := by
  obtain ⟨e, he⟩ := hplan
  cases ht : m.plan t with
  | ok e' => exact ⟨e', rfl⟩
  | error err =>
    rw [hm.plan_alike hgov h.symm ht] at he
    cases he

end Checks

omit [PlanningSolution S k] [DecidableEq B] [DecidableEq L] in
/-- A move would change the same in solutions whose genuine variables hold the same. -/
theorem Moves.signature_alike {m : Move S} (hm : g.Moves m) (h : g.content s = g.content t) :
    m.signature s = m.signature t := by
  cases hm with
  | basic b m =>
    have hget : (g.basic b).get? s = (g.basic b).get? t := congrArg (fun c => c.values b) h
    change m.signature (g.basic b) s = m.signature (g.basic b) t
    cases m <;> simp only [BasicMove.signature, hget]
  | list l m =>
    have hlist : (g.list l).list s = (g.list l).list t := congrArg (fun c => c.lists l) h
    change m.signature (g.list l) s = m.signature (g.list l) t
    cases m <;> simp only [ListMove.signature, hlist]

section Facts

omit [DecidableEq B] [DecidableEq L]

/-- A move changes no facts, nor does what undoes it. -/
theorem Moves.facts_eq (hgov : g.Governed facts shadows) {m : Move S} (hm : g.Moves m) {e : Edit S}
    (h : m.plan s = .ok e) : (∀ t t', e.apply t = .ok t' → facts t' = facts t) ∧
      ∀ t t', e.undo t = .ok t' → facts t' = facts t := by
  cases hm with
  | basic b m =>
    obtain ⟨_, -, hpure⟩ := bind_eq_ok_iff.1 h
    cases hpure
    have hassign : ∀ (vs : List (Nat × Option (V b))) t, facts (BasicMove.assignAll (g.basic b) t vs) = facts t := by
      intro vs
      induction vs with
      | nil => exact fun _ => rfl
      | cons v vs ih => exact fun t => (ih _).trans (hgov.set_basic b t v.1 v.2)
    refine ⟨fun t t' ht => ?_, fun t t' ht => ?_⟩
    · cases ht
      exact hassign _ t
    · cases ht
      exact hassign _ t
  | list l m =>
    obtain ⟨_, -, hpure⟩ := bind_eq_ok_iff.1 h
    cases hpure
    have hset : ∀ d ∈ m.entities, ∀ s w s', (g.list l).set s d w = .ok s' → facts s' = facts s :=
      fun d _ s w s' => hgov.set_list l s d w s'
    exact ⟨fun t t' => ListMove.apply_rel (fun _ _ _ h h' => h'.trans h) hset,
      fun t t' => ListMove.undo_rel (fun _ _ _ h h' => h'.trans h) hset⟩

end Facts

omit [∀ b, PlanningValue (V b)] [∀ b, DecidableEq (V b)] in
/-- A move of a list does the same to lists that are the same. -/
theorem content_apply {l : L} (hg : g.Lawful) {m : ListMove (W l)} {u : Unit} (hcheck : m.check (g.list l) s = .ok u)
    (h : g.content s = g.content t) (hs : m.apply (g.list l) s = .ok s') (ht : m.apply (g.list l) t = .ok t') :
    g.content s' = g.content t' := by
  have hlist : (g.list l).list s = (g.list l).list t := congrArg (fun c => c.lists l) h
  have hlt := ListMove.lt_of_check hcheck
  cases m with
  | change a i b j =>
    exact content_transfer hg (hlt a (ListMove.mem_oneOrTwo.2 (.inl rfl)))
      (hlt b (ListMove.mem_oneOrTwo.2 (.inr rfl))) h hs ht
  | swap a i b j =>
    obtain ⟨v, hv, hs⟩ := bind_eq_ok_iff.1 hs
    obtain ⟨w, hw, hs⟩ := bind_eq_ok_iff.1 hs
    obtain ⟨v', hv', ht⟩ := bind_eq_ok_iff.1 ht
    obtain ⟨w', hw', ht⟩ := bind_eq_ok_iff.1 ht
    rw [hlist, hv'] at hv
    rw [hlist, hw'] at hw
    cases hv
    cases hw
    exact content_exchange hg (hlt a (ListMove.mem_oneOrTwo.2 (.inl rfl)))
      (hlt b (ListMove.mem_oneOrTwo.2 (.inr rfl))) h hs ht
  | reverse e i j =>
    exact hg.content_edit (f := fun l => reverseAt l i j) (hlt e (List.mem_singleton_self e)) h hs ht
  | sublistChange a i j b n =>
    exact content_transferAll hg (hlt a (ListMove.mem_oneOrTwo.2 (.inl rfl)))
      (hlt b (ListMove.mem_oneOrTwo.2 (.inr rfl))) h hs ht
  | assign v e i =>
    exact hg.content_edit (f := fun l => insertAt l i v) (hlt e (List.mem_singleton_self e)) h hs ht

/-- After a move solutions that are alike are alike again. -/
theorem Moves.apply_alike (hg : g.Lawful) (hgov : g.Governed facts shadows) {m : Move S} (hm : g.Moves m)
    {e e' : Edit S} (hs : m.plan s = .ok e) (ht : m.plan t = .ok e') (h : g.Alike facts s t)
    (hs' : e.apply s = .ok s') (ht' : e'.apply t = .ok t') : g.Alike facts s' t' := by
  refine ⟨?_, ?_⟩
  · cases hm with
    | basic b m =>
      obtain ⟨_, hcheck, hpure⟩ := bind_eq_ok_iff.1 hs
      cases hpure
      obtain ⟨_, hcheck', hpure⟩ := bind_eq_ok_iff.1 ht
      cases hpure
      cases hs'
      cases ht'
      have hresult : m.result (g.basic b) s = m.result (g.basic b) t := by
        have hget : (g.basic b).get? s = (g.basic b).get? t := congrArg (fun c => c.values b) h.content
        cases m <;> simp only [BasicMove.result, hget]
      rw [BasicMove.content_assignAll hg (BasicMove.lt_of_mem_result hcheck),
        BasicMove.content_assignAll hg (BasicMove.lt_of_mem_result hcheck'), hresult, h.content]
    | list l m =>
      obtain ⟨_, hcheck, hpure⟩ := bind_eq_ok_iff.1 hs
      cases hpure
      obtain ⟨_, -, hpure⟩ := bind_eq_ok_iff.1 ht
      cases hpure
      exact content_apply hg hcheck h.content hs' ht'
  · exact ((hm.facts_eq hgov hs).1 _ _ hs').trans (h.facts.trans ((hm.facts_eq hgov ht).1 _ _ ht').symm)

end Genuine

end Planning
