import Planning.Proofs.Move.Alike

/-!
# Moves that change something

A move of a list variable that nothing speaks against can be made. If it says it is doable it changes the list of
an entity, as long as no list holds an element twice. A change of a value can be made if the value is in range.
Only a swap of values may say that it is doable and still be refused: it does not ask whether the values are in
range for the other entity.
-/

namespace Planning

open Checked

variable {S B L : Type} {V : B → Type} {W : L → Type} [DecidableEq B] [DecidableEq L]
variable {g : Genuine S V W} {s s' : S}

/-- What succeeds has a result. -/
theorem exists_of_succeeds {ε α : Type} {x : Except ε α} (h : succeeds x = true) : ∃ a, x = .ok a := by
  cases x with
  | error e => cases h
  | ok a => exact ⟨a, rfl⟩

namespace Genuine

omit [DecidableEq B] [DecidableEq L] in
/-- Genuine variables hold something else when an entity has another list. -/
theorem content_ne_of_list (l : L) (e : Nat) (h : (g.list l).list s' e ≠ (g.list l).list s e) :
    g.content s' ≠ g.content s :=
  fun heq => h (congrArg (fun c => c.lists l e) heq)

omit [DecidableEq B] [DecidableEq L] in
/-- Genuine variables hold something else when an entity has another value. -/
theorem content_ne_of_value (b : B) (e : Nat) (h : (g.basic b).get? s' e ≠ (g.basic b).get? s e) :
    g.content s' ≠ g.content s :=
  fun heq => h (congrArg (fun c => c.values b e) heq)

end Genuine

namespace ListMove

open Genuine

variable {l : L} {a i b j n e : Nat}

section Made

variable (hg : g.Lawful) (ha : a < (g.list l).count s) (hb : b < (g.list l).count s)
include hg ha hb

/-- An element goes from a position of a list to one that there is when it is taken out. -/
theorem exists_transfer (hi : i < (g.list l).size s a)
    (hj : j < (g.list l).size s b + if a = b then 0 else 1) :
    ∃ s', transfer (g.list l) s a i b j = .ok s' := by
  have hv := List.getElem?_eq_getElem hi
  have hremove : removeAt ((g.list l).list s a) i = .ok (((g.list l).list s a).eraseIdx i) :=
    removeAt_eq_ok_iff.2 ⟨hi, rfl⟩
  obtain ⟨s₁, hs₁, hc₁⟩ := hg.edit_ok ha (f := fun l => removeAt l i) hremove
  have hb₁ : b < (g.list l).count s₁ := (count_of_setList hc₁).symm ▸ hb
  have hplace : j ≤ ((g.list l).list s₁ b).length := by
    by_cases hab : a = b
    · subst hab
      have hlength := List.length_eraseIdx_of_lt hi
      rw [list_of_setList hc₁]
      simp only [if_true, ListVariable.size] at hj
      omega
    · rw [list_of_setList_of_ne hc₁ (Ne.symm hab)]
      simp only [if_neg hab] at hj
      exact Nat.le_of_lt_succ hj
  obtain ⟨s', hs', -⟩ := hg.edit_ok hb₁ (f := fun l => insertAt l j _) (insertAt_eq_ok_iff.2 ⟨hplace, rfl⟩)
  exact ⟨s', bind_eq_ok_iff.2 ⟨_, member_eq_ok_iff.2 hv, bind_eq_ok_iff.2 ⟨s₁, hs₁, hs'⟩⟩⟩

/-- A sublist goes from its place to a position that there is when it is taken out. -/
theorem exists_transferAll (hij : i < j) (hj : j ≤ (g.list l).size s a)
    (hn : n ≤ if a = b then (g.list l).size s b - (j - i) else (g.list l).size s b) :
    ∃ s', transferAll (g.list l) s a i j b n = .ok s' := by
  obtain ⟨⟨part, rest⟩, hcut⟩ : ∃ r, cutAt ((g.list l).list s a) i j = .ok r :=
    ⟨_, if_pos ⟨hij.le, hj⟩⟩
  have hrest := (length_of_cutAt hcut).2
  obtain ⟨s₁, hs₁, hc₁⟩ := hg.set_list l s a rest ha
  have hb₁ : b < (g.list l).count s₁ := (count_of_setList hc₁).symm ▸ hb
  have hplace : n ≤ ((g.list l).list s₁ b).length := by
    by_cases hab : a = b
    · subst hab
      rw [if_pos rfl] at hn
      rw [list_of_setList hc₁, hrest]
      exact hn
    · rw [if_neg hab] at hn
      rw [list_of_setList_of_ne hc₁ (Ne.symm hab)]
      exact hn
  obtain ⟨s', hs', -⟩ :=
    hg.edit_ok hb₁ (f := fun l => insertAllAt l n part) (insertAllAt_eq_ok_iff.2 ⟨hplace, rfl⟩)
  exact ⟨s', bind_eq_ok_iff.2 ⟨_, hcut, bind_eq_ok_iff.2 ⟨s₁, hs₁, hs'⟩⟩⟩

/-- Elements of lists are exchanged. -/
theorem exists_exchange {v w : W l} (hv : ((g.list l).list s a)[i]? = some v)
    (hw : ((g.list l).list s b)[j]? = some w) : ∃ s', exchange (g.list l) s a i b j v w = .ok s' := by
  obtain ⟨hi, -⟩ := List.getElem?_eq_some_iff.1 hv
  obtain ⟨hj, -⟩ := List.getElem?_eq_some_iff.1 hw
  unfold exchange
  by_cases hab : a = b
  · subst hab
    obtain ⟨s', hs', -⟩ :=
      hg.edit_ok ha (f := fun l => swapAt l i j) (swapAt_eq_ok_iff.2 ⟨v, w, hv, hw, rfl⟩)
    exact ⟨s', by rw [if_pos rfl]; exact hs'⟩
  · obtain ⟨s₁, hs₁, hc₁⟩ := hg.edit_ok ha (f := fun l => replaceAt l i w) (replaceAt_eq_ok_iff.2 ⟨hi, rfl⟩)
    have hb₁ : b < (g.list l).count s₁ := (count_of_setList hc₁).symm ▸ hb
    rw [← list_of_setList_of_ne hc₁ (Ne.symm hab)] at hj
    obtain ⟨s', hs', -⟩ := hg.edit_ok hb₁ (f := fun l => replaceAt l j v) (replaceAt_eq_ok_iff.2 ⟨hj, rfl⟩)
    exact ⟨s', by rw [if_neg hab]; exact bind_eq_ok_iff.2 ⟨s₁, hs₁, hs'⟩⟩

/-- An element that went to another position changed a list. -/
theorem content_ne_of_transfer (h : transfer (g.list l) s a i b j = .ok s')
    (hnodup : ((g.list l).list s a).Nodup) (hne : ¬ (a = b ∧ i = j)) : g.content s' ≠ g.content s := by
  obtain ⟨v, hv, h⟩ := bind_eq_ok_iff.1 h
  obtain ⟨s₁, h₁, h₂⟩ := bind_eq_ok_iff.1 h
  rw [member_eq_ok_iff] at hv
  obtain ⟨hi, -⟩ := List.getElem?_eq_some_iff.1 hv
  obtain ⟨w₁, hw₁, hs₁⟩ := hg.edit_eq_ok ha h₁
  obtain ⟨w₂, hw₂, hs'⟩ := hg.edit_eq_ok ((count_of_setList hs₁).symm ▸ hb) h₂
  refine content_ne_of_list l a fun hsame => ?_
  by_cases hab : a = b
  · subst hab
    rw [list_of_setList hs'] at hsame
    have hmoved := getElem?_of_insertAt hw₂
    rw [hsame, ← hv] at hmoved
    exact hne ⟨rfl, (List.getElem?_inj hi hnodup).1 hmoved.symm⟩
  · have hshorter := (perm_of_removeAt hw₁ hv).length_eq
    rw [list_of_setList_of_ne hs' hab, list_of_setList hs₁] at hsame
    rw [hsame, List.length_cons] at hshorter
    omega

/-- A sublist that went to another position changed a list. -/
theorem content_ne_of_transferAll (h : transferAll (g.list l) s a i j b n = .ok s')
    (hnodup : ((g.list l).list s a).Nodup) (hij : i < j) (hj : j ≤ (g.list l).size s a)
    (hne : ¬ (a = b ∧ n = i)) : g.content s' ≠ g.content s := by
  obtain ⟨⟨part, rest⟩, hcut, h⟩ := bind_eq_ok_iff.1 h
  obtain ⟨s₁, h₁, h₂⟩ := bind_eq_ok_iff.1 h
  obtain ⟨hpart, hrest⟩ := length_of_cutAt hcut
  obtain ⟨w₁, hw₁, hs₁⟩ := hg.edit_eq_ok ha (f := fun _ => .ok rest) h₁
  cases hw₁
  obtain ⟨w₂, hw₂, hs'⟩ := hg.edit_eq_ok ((count_of_setList hs₁).symm ▸ hb) h₂
  refine content_ne_of_list l a fun hsame => ?_
  by_cases hab : a = b
  · subst hab
    rw [list_of_setList hs'] at hsame
    have hmoved := getElem?_of_insertAllAt hw₂ (d := 0) (by omega)
    rw [getElem?_of_cutAt hcut (by omega), hsame] at hmoved
    exact hne ⟨rfl, ((List.getElem?_inj (lt_of_lt_of_le hij hj) hnodup).1 hmoved.symm).symm⟩
  · rw [list_of_setList_of_ne hs' hab, list_of_setList hs₁] at hsame
    rw [hsame] at hrest
    unfold ListVariable.size at hj
    omega

/-- Different elements that were exchanged changed a list. -/
theorem content_ne_of_exchange {v w : W l} (hv : ((g.list l).list s a)[i]? = some v)
    (hw : ((g.list l).list s b)[j]? = some w) (h : exchange (g.list l) s a i b j v w = .ok s')
    (hne : v ≠ w) : g.content s' ≠ g.content s := by
  obtain ⟨hi, -⟩ := List.getElem?_eq_some_iff.1 hv
  refine content_ne_of_list l a fun hsame => ?_
  unfold exchange at h
  by_cases hab : a = b
  · subst hab
    rw [if_pos rfl] at h
    obtain ⟨_, hswap, hs'⟩ := hg.edit_eq_ok ha h
    obtain ⟨v', w', hv', hw', rfl⟩ := swapAt_eq_ok_iff.1 hswap
    rw [hv] at hv'
    rw [hw] at hw'
    cases hv'
    cases hw'
    rw [list_of_setList hs'] at hsame
    have hmoved : (((g.list l).list s a).set i w |>.set j v)[i]? = some w := by
      by_cases hij : j = i
      · subst hij
        rw [hv] at hw
        exact absurd (Option.some.inj hw) hne
      · simp [hij, hi]
    rw [hsame, hv] at hmoved
    exact hne (Option.some.inj hmoved)
  · rw [if_neg hab] at h
    obtain ⟨s₁, h₁, h₂⟩ := bind_eq_ok_iff.1 h
    obtain ⟨_, hreplace, hs₁⟩ := hg.edit_eq_ok ha h₁
    obtain ⟨-, rfl⟩ := replaceAt_eq_ok_iff.1 hreplace
    obtain ⟨_, -, hs'⟩ := hg.edit_eq_ok ((count_of_setList hs₁).symm ▸ hb) h₂
    rw [list_of_setList_of_ne hs' hab, list_of_setList hs₁] at hsame
    have hmoved : (((g.list l).list s a).set i w)[i]? = some w := by simp [hi]
    rw [hsame, hv] at hmoved
    exact hne (Option.some.inj hmoved)

end Made

variable [∀ l, PlanningValue (W l)] [∀ l, DecidableEq (W l)]

omit [DecidableEq B] [DecidableEq L] [∀ l, PlanningValue (W l)] [∀ l, DecidableEq (W l)] in
/-- A position that was checked is in the list, or among the few behind its end. -/
theorem lt_of_checkIndex {slack : Nat} {u : Unit} (h : (g.list l).checkIndex s e i slack = .ok u) :
    i < (g.list l).size s e + slack := by
  unfold ListVariable.checkIndex at h
  split at h
  · assumption
  · cases h

/-- A move of a list that nothing speaks against can be made. -/
theorem exists_apply (hg : g.Lawful) {m : ListMove (W l)} {u : Unit} (hcheck : m.check (g.list l) s = .ok u) :
    ∃ s', m.apply (g.list l) s = .ok s' := by
  have hlt := lt_of_check hcheck
  cases m with
  | change a i b j =>
    obtain ⟨_, -, hcheck⟩ := bind_eq_ok_iff.1 hcheck
    obtain ⟨_, -, hcheck⟩ := bind_eq_ok_iff.1 hcheck
    obtain ⟨_, hi, hj⟩ := bind_eq_ok_iff.1 hcheck
    exact exists_transfer hg (hlt a (mem_oneOrTwo.2 (.inl rfl))) (hlt b (mem_oneOrTwo.2 (.inr rfl)))
      (lt_of_checkIndex hi) (lt_of_checkIndex hj)
  | swap a i b j =>
    obtain ⟨_, -, hcheck⟩ := bind_eq_ok_iff.1 hcheck
    obtain ⟨_, hi, hcheck⟩ := bind_eq_ok_iff.1 hcheck
    obtain ⟨_, -, hj⟩ := bind_eq_ok_iff.1 hcheck
    have hv := List.getElem?_eq_getElem (lt_of_checkIndex hi)
    have hw := List.getElem?_eq_getElem (lt_of_checkIndex hj)
    obtain ⟨s', hs'⟩ := exists_exchange hg (hlt a (mem_oneOrTwo.2 (.inl rfl)))
      (hlt b (mem_oneOrTwo.2 (.inr rfl))) hv hw
    exact ⟨s', bind_eq_ok_iff.2 ⟨_, member_eq_ok_iff.2 hv, bind_eq_ok_iff.2 ⟨_, member_eq_ok_iff.2 hw, hs'⟩⟩⟩
  | reverse e i j =>
    obtain ⟨_, -, hcheck⟩ := bind_eq_ok_iff.1 hcheck
    obtain ⟨hij, hj⟩ := of_unless_ok hcheck
    have hj := Nat.le_of_lt_succ (lt_of_checkIndex hj)
    obtain ⟨⟨part, rest⟩, hcut⟩ : ∃ r, cutAt ((g.list l).list s e) i j = .ok r :=
      ⟨_, if_pos ⟨by omega, hj⟩⟩
    have hrest := (length_of_cutAt hcut).2
    have hplace : i ≤ rest.length := by
      unfold ListVariable.size at hj
      omega
    obtain ⟨w, hw⟩ : ∃ w, reverseAt ((g.list l).list s e) i j = .ok w :=
      ⟨_, bind_eq_ok_iff.2 ⟨_, hcut, insertAllAt_eq_ok_iff.2 ⟨hplace, rfl⟩⟩⟩
    obtain ⟨s', hs', -⟩ := hg.edit_ok (f := fun l => reverseAt l i j) (hlt e (List.mem_singleton_self e)) hw
    exact ⟨s', hs'⟩
  | sublistChange a i j b n =>
    obtain ⟨_, -, hcheck⟩ := bind_eq_ok_iff.1 hcheck
    obtain ⟨_, -, hcheck⟩ := bind_eq_ok_iff.1 hcheck
    obtain ⟨hij, hcheck⟩ := of_unless_ok hcheck
    obtain ⟨_, hj, hcheck⟩ := bind_eq_ok_iff.1 hcheck
    obtain ⟨hn, -⟩ := of_unless_ok hcheck
    exact exists_transferAll hg (hlt a (mem_oneOrTwo.2 (.inl rfl))) (hlt b (mem_oneOrTwo.2 (.inr rfl)))
      (by omega) (Nat.le_of_lt_succ (lt_of_checkIndex hj)) (by omega)
  | assign v e i =>
    obtain ⟨_, -, hcheck⟩ := bind_eq_ok_iff.1 hcheck
    obtain ⟨_, -, hcheck⟩ := bind_eq_ok_iff.1 hcheck
    obtain ⟨_, hi, -⟩ := bind_eq_ok_iff.1 hcheck
    have hinsert := insertAt_eq_ok_iff (a := v).2 ⟨Nat.le_of_lt_succ (lt_of_checkIndex hi), rfl⟩
    obtain ⟨s', hs', -⟩ := hg.edit_ok (f := fun l => insertAt l i v) (hlt e (List.mem_singleton_self e)) hinsert
    exact ⟨s', hs'⟩

/-- A move of a list that says it is doable changes a list when it is made, if no list holds an element
twice. -/
theorem content_ne_of_apply (hg : g.Lawful) {m : ListMove (W l)} {u : Unit}
    (hnodup : ∀ e, ((g.list l).list s e).Nodup) (hcheck : m.check (g.list l) s = .ok u)
    (hdoable : m.isDoable (g.list l) s = true) (h : m.apply (g.list l) s = .ok s') :
    g.content s' ≠ g.content s := by
  have hlt := lt_of_check hcheck
  unfold isDoable at hdoable
  have hdoable := (Bool.and_eq_true_iff.1 hdoable).2
  cases m with
  | change a i b j =>
    refine content_ne_of_transfer hg (hlt a (mem_oneOrTwo.2 (.inl rfl))) (hlt b (mem_oneOrTwo.2 (.inr rfl))) h
      (hnodup a) fun hsame => ?_
    simp [hsame] at hdoable
  | swap a i b j =>
    obtain ⟨v, hv, h⟩ := bind_eq_ok_iff.1 h
    obtain ⟨w, hw, h⟩ := bind_eq_ok_iff.1 h
    rw [member_eq_ok_iff] at hv hw
    refine content_ne_of_exchange hg (hlt a (mem_oneOrTwo.2 (.inl rfl))) (hlt b (mem_oneOrTwo.2 (.inr rfl)))
      hv hw h fun hsame => ?_
    simp [hv, hw, hsame] at hdoable
  | reverse e i j =>
    obtain ⟨_, -, hcheck⟩ := bind_eq_ok_iff.1 hcheck
    obtain ⟨-, hj⟩ := of_unless_ok hcheck
    have hj := Nat.le_of_lt_succ (lt_of_checkIndex hj)
    have hij : i + 2 ≤ j := by simpa using hdoable
    have h : (g.list l).edit s e (fun l => reverseAt l i j) = .ok s' := h
    obtain ⟨w, hw, hs'⟩ := hg.edit_eq_ok (hlt e (List.mem_singleton_self e)) h
    refine content_ne_of_list l e fun hsame => ?_
    have hfirst := getElem?_of_reverseAt hw (by omega)
    rw [list_of_setList hs'] at hsame
    rw [hsame] at hfirst
    have heq := (List.getElem?_inj (lt_of_lt_of_le (by omega) hj) (hnodup e)).1 hfirst
    omega
  | sublistChange a i j b n =>
    obtain ⟨_, -, hcheck⟩ := bind_eq_ok_iff.1 hcheck
    obtain ⟨_, -, hcheck⟩ := bind_eq_ok_iff.1 hcheck
    obtain ⟨hij, hcheck⟩ := of_unless_ok hcheck
    obtain ⟨_, hj, -⟩ := bind_eq_ok_iff.1 hcheck
    refine content_ne_of_transferAll hg (hlt a (mem_oneOrTwo.2 (.inl rfl))) (hlt b (mem_oneOrTwo.2 (.inr rfl)))
      h (hnodup a) (by omega) (Nat.le_of_lt_succ (lt_of_checkIndex hj)) fun hsame => ?_
    simp [hsame] at hdoable
  | assign v e i =>
    have h : (g.list l).edit s e (fun l => insertAt l i v) = .ok s' := h
    obtain ⟨w, hw, hs'⟩ := hg.edit_eq_ok (hlt e (List.mem_singleton_self e)) h
    refine content_ne_of_list l e fun hsame => ?_
    have hlonger := (perm_of_insertAt hw).length_eq
    rw [list_of_setList hs'] at hsame
    rw [hsame, List.length_cons] at hlonger
    omega

end ListMove

namespace BasicMove

variable [∀ b, PlanningValue (V b)] [∀ b, DecidableEq (V b)] {b : B}

/-- A value that is in range: the range has it, or it is none and entities may be left without one. -/
def Legal (x : BasicVariable S (V b)) (s : S) (e : Nat) (v : Option (V b)) : Prop :=
  match v with
  | some v => x.range.contains s e v = true
  | none => x.allowsUnassigned = true

omit [DecidableEq B] [∀ b, DecidableEq (V b)] in
/-- A value may be taken if it is in range. -/
theorem checkValue_eq_ok_iff {x : BasicVariable S (V b)} {e : Nat} {v : Option (V b)} {u : Unit} :
    x.checkValue s e v = .ok u ↔ Legal x s e v := by
  unfold BasicVariable.checkValue Legal
  cases v <;> simp

/-- A move that gives an entity another value changes a value. -/
theorem content_assignAll_ne (hg : g.Lawful) {m : BasicMove (V b)} {u : Unit}
    (hcheck : m.check (g.basic b) s = .ok u) (h : m.isDoable (g.basic b) s = true) :
    g.content (assignAll (g.basic b) s (m.result (g.basic b) s)) ≠ g.content s := by
  have hcontent := content_assignAll hg (lt_of_mem_result hcheck)
  cases m with
  | change e v =>
    refine Genuine.content_ne_of_value b e ?_
    have hvalue : (g.basic b).get? (assignAll (g.basic b) s [(e, v)]) e = v :=
      (congrArg (fun c => c.values b e) hcontent).trans (by simp [result, Content.setValue])
    have hother : (g.basic b).get? s e ≠ v := by simpa using (Bool.and_eq_true_iff.1 h).2
    intro hsame
    exact hother (hsame.symm.trans hvalue)
  | swap i j =>
    simp only [isDoable, Bool.and_eq_true, bne_iff_ne] at h
    refine Genuine.content_ne_of_value b i ?_
    have hvalue : (g.basic b).get? (assignAll (g.basic b) s (result (g.basic b) s (swap i j))) i =
        (g.basic b).get? s j :=
      (congrArg (fun c => c.values b i) hcontent).trans (by simp [result, Content.setValue, h.1.1.1])
    intro hsame
    exact h.2 (hsame.symm.trans hvalue)

omit [DecidableEq B] [DecidableEq L] in
/-- A change that says it is doable can be made when its value is in range. -/
theorem check_change {e : Nat} {v : Option (V b)} (h : (change e v).isDoable (g.basic b) s = true)
    (hv : Legal (g.basic b) s e v) : ∃ u, (change e v).check (g.basic b) s = .ok u := by
  obtain ⟨u, hentity⟩ := exists_of_succeeds (Bool.and_eq_true_iff.1 h).1
  exact ⟨(), bind_eq_ok_iff.2 ⟨u, hentity, checkValue_eq_ok_iff.2 hv⟩⟩

omit [DecidableEq B] [DecidableEq L] in
/-- A swap that says it is doable can be made exactly when each value is in range for the other entity. -/
theorem check_swap_iff {i j : Nat} (h : (swap i j).isDoable (g.basic b) s = true) :
    (∃ u, (swap i j : BasicMove (V b)).check (g.basic b) s = .ok u) ↔
      Legal (g.basic b) s i ((g.basic b).get? s j) ∧ Legal (g.basic b) s j ((g.basic b).get? s i) := by
  simp only [isDoable, Bool.and_eq_true] at h
  obtain ⟨u, hi⟩ := exists_of_succeeds h.1.1.2
  obtain ⟨u', hj⟩ := exists_of_succeeds h.1.2
  constructor
  · rintro ⟨u, hcheck⟩
    obtain ⟨_, -, hcheck⟩ := bind_eq_ok_iff.1 hcheck
    obtain ⟨_, -, hcheck⟩ := bind_eq_ok_iff.1 hcheck
    obtain ⟨_, hleft, hright⟩ := bind_eq_ok_iff.1 hcheck
    exact ⟨checkValue_eq_ok_iff.1 hleft, checkValue_eq_ok_iff.1 hright⟩
  · rintro ⟨hleft, hright⟩
    exact ⟨(), bind_eq_ok_iff.2 ⟨u, hi, bind_eq_ok_iff.2 ⟨u', hj, bind_eq_ok_iff.2
      ⟨(), checkValue_eq_ok_iff.2 hleft, checkValue_eq_ok_iff.2 hright⟩⟩⟩⟩

end BasicMove

end Planning

/-!
## When moves of lists are doable

A move of a list variable says it is doable when its entities are movable, its positions are in their lists and it
would leave something elsewhere than before.
-/

namespace Planning

section Checks

variable {S V : Type} {x : ListVariable S V} {s : S}

/-- An entity that exists and is not pinned. -/
def ListVariable.Movable (x : ListVariable S V) (s : S) (e : Nat) : Prop := e < x.count s ∧ x.isPinned s e = false

/-- One check is made after another. -/
theorem succeeds_bind {ε : Type} {y : Except ε Unit} {z : Unit → Except ε Unit} :
    succeeds (y >>= z) = (succeeds y && succeeds (z ())) := by
  cases y <;> rfl

/-- What is refused under a condition is made where the condition fails. -/
theorem succeeds_unless {ε : Type} {c : Prop} [Decidable c] {err : ε} {y z : Except ε Unit} :
    succeeds (if c then (throw err : Except ε Unit) >>= fun _ => z else y) = (!decide c && succeeds y) := by
  by_cases hc : c
  · rw [if_pos hc, decide_eq_true hc]
    rfl
  · rw [if_neg hc, decide_eq_false hc]
    rfl

/-- A last condition is refused or is all there was to check. -/
theorem succeeds_unless_pure {ε : Type} {c : Prop} [Decidable c] {err : ε} :
    succeeds (if c then throw err else pure () : Except ε Unit) = !decide c := by
  by_cases hc : c
  · rw [if_pos hc, decide_eq_true hc]
    rfl
  · rw [if_neg hc, decide_eq_false hc]
    rfl

theorem succeeds_checkEntity {e : Nat} : succeeds (x.checkEntity s e) = true ↔ x.Movable s e := by
  unfold ListVariable.checkEntity checkMovable ListVariable.Movable
  split
  · simp [succeeds, *]
  · split <;> simp_all [succeeds]

theorem succeeds_checkIndex {e i slack : Nat} :
    succeeds (x.checkIndex s e i slack) = true ↔ i < x.size s e + slack := by
  unfold ListVariable.checkIndex
  split <;> simp [succeeds, *]

end Checks

namespace ListMove

variable {S V : Type} [PlanningValue V] [DecidableEq V] {x : ListVariable S V} {s : S} {a i b j e n : Nat}

/-- An element of a movable list may go to every other position of a movable list. -/
theorem isDoable_change_iff : (change a i b j : ListMove V).isDoable x s = true ↔
    x.Movable s a ∧ x.Movable s b ∧ i < x.size s a ∧ j < x.size s b + (if a = b then 0 else 1) ∧
      ¬ (a = b ∧ i = j) := by
  simp only [isDoable, check, succeeds_bind, Bool.and_eq_true, succeeds_checkEntity, succeeds_checkIndex]
  grind

/-- Two different elements of movable lists may be exchanged. -/
theorem isDoable_swap_iff : (swap a i b j : ListMove V).isDoable x s = true ↔
    x.Movable s a ∧ x.Movable s b ∧ i < x.size s a ∧ j < x.size s b ∧ ¬ (a = b ∧ i = j) ∧
      (x.list s a)[i]? ≠ (x.list s b)[j]? := by
  simp only [isDoable, check, succeeds_bind, Bool.and_eq_true, succeeds_checkEntity, succeeds_checkIndex]
  grind

/-- A segment of two or more elements of a movable list may be reversed. -/
theorem isDoable_reverse_iff : (reverse e i j : ListMove V).isDoable x s = true ↔
    x.Movable s e ∧ i + 2 ≤ j ∧ j ≤ x.size s e := by
  simp only [isDoable, check, succeeds_bind, succeeds_unless, Bool.and_eq_true, succeeds_checkEntity,
    succeeds_checkIndex]
  grind

/-- A sublist of a movable list may go to every other position of a movable list that there is without it. -/
theorem isDoable_sublistChange_iff : (sublistChange a i j b n : ListMove V).isDoable x s = true ↔
    x.Movable s a ∧ x.Movable s b ∧ i < j ∧ j ≤ x.size s a ∧
      n ≤ (if a = b then x.size s b - (j - i) else x.size s b) ∧ ¬ (a = b ∧ i = n) := by
  simp only [isDoable, check, succeeds_bind, succeeds_unless, succeeds_unless_pure, Bool.and_eq_true,
    succeeds_checkEntity, succeeds_checkIndex]
  grind

end ListMove

end Planning
